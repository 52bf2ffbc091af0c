import Mathlib.Data.List.Basic
import Mathlib.Tactic.DeriveFintype
import Mathlib.Algebra.Ring.Nat

/-!
# C texts

A `char *` of the source is read as the bytes before its terminating NUL. The
absence of further NUL bytes is part of the type, so `strcmp` is equality and
`strlen` is the number of bytes. A nullable pointer is an `Option Text`.
-/

namespace ToolEvent

/-- `SIZE_MAX` of a 64-bit platform. -/
def sizeMax : ℕ := 2 ^ 64 - 1

/-- The bytes of a NUL-terminated C text. -/
structure Text where
  bytes : List UInt8
  nulFree : (0 : UInt8) ∉ bytes
  deriving DecidableEq

namespace Text

@[ext] theorem ext {s t : Text} (h : s.bytes = t.bytes) : s = t := by
  cases s; cases t; cases h; rfl

def empty : Text := ⟨[], List.not_mem_nil⟩

/-- `strlen`. -/
def length (t : Text) : ℕ := t.bytes.length

def isEmpty (t : Text) : Bool := t.bytes.isEmpty

def ofString (s : String) : Text :=
  ⟨(s.toList.map (fun c => c.toNat.toUInt8)).filter (· ≠ 0), by simp⟩

/-- The text a bounded `snprintf` leaves in a buffer with room for `n` bytes. -/
def take (n : ℕ) (t : Text) : Text :=
  ⟨t.bytes.take n, fun h => t.nulFree (List.mem_of_mem_take h)⟩

def takeUntil (b : UInt8) (t : Text) : Text :=
  ⟨t.bytes.takeWhile (· ≠ b), fun h => t.nulFree ((List.takeWhile_sublist _).subset h)⟩

/-- `strstr`: the text from the first occurrence of the pattern on. -/
def search (t pattern : Text) : Option Text :=
  (t.bytes.tails.find? (pattern.bytes.isPrefixOf ·)).map (fun bytes =>
    ⟨bytes.filter (· ≠ 0), by simp⟩)

def append (s t : Text) : Text :=
  ⟨s.bytes ++ t.bytes, by simp [s.nulFree, t.nulFree]⟩

instance : Append Text := ⟨append⟩

@[simp] theorem bytes_append (s t : Text) : (s ++ t).bytes = s.bytes ++ t.bytes := rfl

@[simp] theorem length_append (s t : Text) : (s ++ t).length = s.length + t.length := by
  simp [length]

theorem length_take_le (n : ℕ) (t : Text) : (t.take n).length ≤ n := by
  simp [length, take]

/-- The conversion `%d` (also `%ld` and `%zu`) of `printf`. -/
def decimal (n : ℤ) : Text :=
  ofString (if n < 0 then "-" ++ String.ofList (Nat.toDigits 10 n.natAbs)
    else String.ofList (Nat.toDigits 10 n.natAbs))

example : decimal (-42) = ofString "-42" := by decide

end Text

end ToolEvent
