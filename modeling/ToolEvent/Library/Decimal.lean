import Mathlib.Data.List.Basic
import Mathlib.Data.List.TakeWhile

/-!
# Decimal numerals as bytes

A numeral is a non-empty list of ASCII digits. Its value is read from the left,
and the digits of a number are a numeral of that value.
-/

namespace Decimal

def isDigit (b : UInt8) : Bool := 48 ≤ b ∧ b ≤ 57

def value (bytes : List UInt8) : ℕ := bytes.foldl (fun n b => 10 * n + (b.toNat - 48)) 0

structure IsNumeral (bytes : List UInt8) : Prop where
  nonempty : bytes ≠ []
  digits : ∀ b ∈ bytes, isDigit b

def digits (n : ℕ) : List UInt8 := (Nat.toDigits 10 n).map (fun c => c.toNat.toUInt8)

theorem isNumeral_iff {bytes : List UInt8} :
    IsNumeral bytes ↔ bytes ≠ [] ∧ bytes.all isDigit :=
  ⟨fun h => ⟨h.nonempty, List.all_eq_true.mpr h.digits⟩, fun h => ⟨h.1, List.all_eq_true.mp h.2⟩⟩

instance (bytes : List UInt8) : Decidable (IsNumeral bytes) := decidable_of_iff' _ isNumeral_iff

theorem toUInt8_of_isDigit {c : Char} (h : c.isDigit) :
    isDigit c.toNat.toUInt8 ∧ c.toNat.toUInt8.toNat = c.toNat := by
  obtain ⟨hlow, hhigh⟩ := by simpa [Char.isDigit] using h
  have h₁ : 48 ≤ c.toNat := UInt32.le_iff_toNat_le.mp hlow
  have h₂ : c.toNat ≤ 57 := UInt32.le_iff_toNat_le.mp hhigh
  have hval : c.toNat.toUInt8.toNat = c.toNat := by
    simp only [Nat.toUInt8, UInt8.toNat_ofNat']
    omega
  refine ⟨?_, hval⟩
  simp only [isDigit, UInt8.le_iff_toNat_le, hval, decide_eq_true_eq]
  exact ⟨h₁, h₂⟩

theorem isNumeral_digits (n : ℕ) : IsNumeral (digits n) := by
  constructor
  · simp [digits]
  · intro b hb
    obtain ⟨c, hc, rfl⟩ := List.mem_map.mp hb
    exact (toUInt8_of_isDigit (Nat.isDigit_of_mem_toDigits (by decide) (by decide) hc)).1

theorem foldl_eq_ofDigitChars {cs : List Char} (h : ∀ c ∈ cs, c.isDigit) (n : ℕ) :
    (cs.map (fun c => c.toNat.toUInt8)).foldl (fun n b => 10 * n + (b.toNat - 48)) n =
      Nat.ofDigitChars 10 cs n := by
  induction cs generalizing n with
  | nil => simp
  | cons c cs ih =>
    have hc := (toUInt8_of_isDigit (h c List.mem_cons_self)).2
    rw [List.map_cons, List.foldl_cons, ih (fun c' hc' => h c' (List.mem_cons_of_mem _ hc')),
      Nat.ofDigitChars_cons, hc]
    rfl

@[simp] theorem value_digits (n : ℕ) : value (digits n) = n := by
  have hdigits : ∀ c ∈ Nat.toDigits 10 n, c.isDigit := fun c hc =>
    Nat.isDigit_of_mem_toDigits (by decide) (by decide) hc
  rw [value, digits, foldl_eq_ofDigitChars hdigits, Nat.ofDigitChars_ten_toDigits]

theorem digits_injective : Function.Injective digits := fun m n h => by
  rw [← value_digits m, h, value_digits]

/-- A byte outside the digits does not occur in the digits of a number. -/
theorem not_mem_digits {b : UInt8} (hb : isDigit b = false) (n : ℕ) : b ∉ digits n := by
  intro hmem
  have := (isNumeral_digits n).digits b hmem
  rw [hb] at this
  cases this

/-- The digits after a numeral end where the first other byte stands. -/
theorem takeWhile_of_isNumeral {bytes : List UInt8} (h : IsNumeral bytes) :
    bytes.takeWhile isDigit = bytes := List.takeWhile_eq_self_iff.mpr h.digits

theorem dropWhile_of_isNumeral {bytes : List UInt8} (h : IsNumeral bytes) :
    bytes.dropWhile isDigit = [] := List.dropWhile_eq_nil_iff.mpr h.digits

/-- The first digit of a number is zero only when it is the only one. -/
theorem digits_eq_cons (n : ℕ) : ∃ d ds, digits n = d :: ds ∧ (d = 48 → ds = []) := by
  induction n using Nat.strong_induction_on with
  | _ n ih =>
    rcases Nat.lt_or_ge n 10 with hlt | hge
    · exact ⟨_, [], by rw [digits, Nat.toDigits_of_lt_base hlt]; rfl, fun _ => rfl⟩
    · obtain ⟨d, ds, hdigits, hzero⟩ := ih (n / 10) (by omega)
      have happend : digits n = digits (n / 10) ++ [(n % 10).digitChar.toNat.toUInt8] := by
        rw [digits, digits, Nat.toDigits_of_base_le (by decide) hge, List.map_append]
        rfl
      refine ⟨d, ds ++ [(n % 10).digitChar.toNat.toUInt8], by rw [happend, hdigits, List.cons_append], fun h => ?_⟩
      have hvalue : value (digits (n / 10)) = value [48] := by rw [hdigits, h, hzero h]
      rw [value_digits] at hvalue
      have hzero' : value [48] = 0 := rfl
      omega

end Decimal
