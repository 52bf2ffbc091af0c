import ToolEvent.Library.Fallible
import ToolEvent.Library.Json
import ToolEvent.Text

/-!
# The readers of JSON summaries

The readers of `src/summary.c`, as routines over a cursor into a text. The cursor stands at
a byte of the text or at its terminator, or past the terminator, where no byte may be read.
-/

namespace ToolEvent.Summary

open Fallible

inductive SpellsByte : List UInt8 → UInt8 → Prop
  | plain {b : UInt8} (control : 32 ≤ b) (quote : b ≠ 34) (backslash : b ≠ 92) : SpellsByte [b] b
  | escape {letter b : UInt8} (h : (letter, b) ∈ Json.escapes) : SpellsByte [92, letter] b
  | unicode {x y b : UInt8} {high low : ℕ} (hx : Json.hexValue x = some high) (hy : Json.hexValue y = some low)
      (hb : b.toNat = 16 * high + low) (ascii : b < 128) : SpellsByte [92, 117, 48, 48, x, y] b

/-- The literals of a text, as far as their bytes are spelled one by one. -/
def IsLiteral (literal : List UInt8) (text : Text) : Prop :=
  ∃ spellings, List.Forall₂ SpellsByte spellings text.bytes ∧ literal = 34 :: spellings.flatten ++ [34]

/-- `p101_json_read_string`, which is not part of this repository. It is given the size of a
buffer, if there is one, and the bytes from the cursor to the terminator, and leaves the text
it decoded and the bytes behind the literal. -/
structure JsonLibrary where
  readString : Option ℕ → List UInt8 → Option (Text × List UInt8)
  /-- A literal whose text fits the buffer is read. -/
  readString_literal : ∀ {size : Option ℕ} {literal rest : List UInt8} {text : Text}, IsLiteral literal text →
    (∀ n, size = some n → text.length < n) → readString size (literal ++ rest) = some (text, rest)

def readByte : List UInt8 → Option (UInt8 × List UInt8)
  | 92 :: 117 :: 48 :: 48 :: x :: y :: rest =>
    match Json.hexValue x, Json.hexValue y with
    | some high, some low => if 16 * high + low < 128 then some ((16 * high + low).toUInt8, rest) else none
    | _, _ => none
  | 92 :: letter :: rest => (Json.escapes.lookup letter).map (·, rest)
  | b :: rest => if b < 32 ∨ b = 92 then none else some (b, rest)
  | [] => none

def readSpelled : ℕ → List UInt8 → Option (List UInt8 × List UInt8)
  | 0, _ => none
  | fuel + 1, bytes =>
    if bytes.head? = some 34 then some ([], bytes.tail)
    else
      (readByte bytes).bind (fun byte => (readSpelled fuel byte.2).map (fun result => (byte.1 :: result.1, result.2)))

theorem readByte_append {spelling : List UInt8} {b : UInt8} (h : SpellsByte spelling b) (rest : List UInt8) :
    readByte (spelling ++ rest) = some (b, rest) ∧ (spelling ++ rest).head? ≠ some 34 := by
  cases h with
  | plain control quote backslash =>
    have hcontrol : ¬ b < 32 := UInt8.not_lt.mpr control
    refine ⟨?_, by simpa using quote⟩
    rw [List.singleton_append, readByte, if_neg (not_or.mpr ⟨hcontrol, backslash⟩)]
    · exact fun _ _ _ h _ => backslash h
    · exact fun _ _ h _ => backslash h
  | escape hescape =>
    simp only [Json.escapes, List.mem_cons, Prod.mk.injEq, List.not_mem_nil, or_false] at hescape
    rcases hescape with ⟨rfl, rfl⟩ | ⟨rfl, rfl⟩ | ⟨rfl, rfl⟩ | ⟨rfl, rfl⟩ | ⟨rfl, rfl⟩ | ⟨rfl, rfl⟩ | ⟨rfl, rfl⟩ |
      ⟨rfl, rfl⟩ <;> exact ⟨rfl, by simp⟩
  | @unicode x y _ high low hx hy hb ascii =>
    have hlt : b.toNat < 128 := UInt8.lt_iff_toNat_lt.mp ascii
    have hbyte : b.toNat.toUInt8 = b := by simp
    refine ⟨?_, by simp⟩
    simp [readByte, hx, hy, ← hb, hlt]

theorem readSpelled_flatten {spellings : List (List UInt8)} {bytes : List UInt8}
    (h : List.Forall₂ SpellsByte spellings bytes) {fuel : ℕ} (hfuel : bytes.length < fuel) (rest : List UInt8) :
    readSpelled fuel (spellings.flatten ++ 34 :: rest) = some (bytes, rest) := by
  induction h generalizing fuel with
  | nil =>
    obtain ⟨fuel, rfl⟩ := Nat.exists_eq_add_one_of_ne_zero (Nat.ne_zero_of_lt hfuel)
    rfl
  | cons hspelling _ ih =>
    obtain ⟨fuel, rfl⟩ := Nat.exists_eq_add_one_of_ne_zero (Nat.ne_zero_of_lt hfuel)
    rw [List.flatten_cons, List.append_assoc]
    obtain ⟨hbyte, hhead⟩ := readByte_append hspelling (_ ++ 34 :: rest)
    rw [readSpelled, if_neg hhead, hbyte, Option.bind_some, ih (Nat.lt_of_succ_lt_succ hfuel)]
    rfl

theorem length_le_flatten {spellings : List (List UInt8)} {bytes : List UInt8}
    (h : List.Forall₂ SpellsByte spellings bytes) : bytes.length ≤ spellings.flatten.length := by
  induction h with
  | nil => exact Nat.le_refl 0
  | cons hspelling _ ih =>
    rw [List.flatten_cons, List.length_append, List.length_cons]
    cases hspelling <;> simp only [List.length_cons] <;> omega

def JsonLibrary.standard : JsonLibrary where
  readString size bytes :=
    match bytes with
    | 34 :: rest =>
      (readSpelled rest.length rest).bind (fun result =>
        if size.all (result.1.length < ·) then some (⟨result.1.filter (· ≠ 0), by simp⟩, result.2) else none)
    | _ => none
  readString_literal := by
    rintro size literal rest text ⟨spellings, hspellings, rfl⟩ hsize
    have hlength := length_le_flatten hspellings
    have hfuel : text.bytes.length < (spellings.flatten ++ 34 :: rest).length := by
      rw [List.length_append, List.length_cons]
      omega
    have hread := readSpelled_flatten hspellings hfuel rest
    have hfilter : text.bytes.filter (· ≠ 0) = text.bytes :=
      List.filter_eq_self.mpr fun b hb => by simpa using fun h : b = 0 => text.nulFree (h ▸ hb)
    have hfits : size.all (text.bytes.length < ·) = true := by
      cases size with
      | none => rfl
      | some n => exact decide_eq_true (hsize n rfl)
    have hbytes : 34 :: spellings.flatten ++ [34] ++ rest = 34 :: (spellings.flatten ++ 34 :: rest) := by simp
    rw [hbytes]
    simp only [hread, Option.bind_some, hfits, if_true, hfilter]

inductive Cursor
  | within (bytes : List UInt8)
  | past
  deriving DecidableEq

/-- Why a reader stops: it returns false, it reads a byte past the terminator, or a modelled
loop ran out of its step bound. -/
inductive Stop
  | rejected | outside | unfinished
  deriving DecidableEq

abbrev Reader (σ α : Type) := Fallible Stop (Cursor × σ) α

variable {σ α : Type}

/-- Look at the byte under the cursor, which is zero at the terminator. -/
def peek : Reader σ UInt8 := fun s =>
  match s.1 with
  | .within bytes => (.ok (bytes.headD 0), s)
  | .past => (.error .outside, s)

def advance : Reader σ Unit := fun s =>
  match s.1 with
  | .within (_ :: rest) => (.ok (), (.within rest, s.2))
  | _ => (.ok (), (.past, s.2))

def expect (b : UInt8) : Reader σ Unit := do
  let byte ← peek
  advance
  if byte = b then pure () else fail .rejected

def onBytes (f : List UInt8 → Option (α × List UInt8)) : Reader σ α := fun s =>
  match s.1 with
  | .past => (.error .outside, s)
  | .within bytes =>
    match f bytes with
    | none => (.error .rejected, s)
    | some (a, rest) => (.ok a, (.within rest, s.2))

/-- The bound on the steps of a loop that takes a byte in every step. -/
def Cursor.steps : Cursor → ℕ
  | .within bytes => bytes.length + 1
  | .past => 1

def skipSpace : Reader σ Unit := onBytes (fun bytes => some ((), bytes.dropWhile Json.isSpace))

def jsonKeyCapacity : ℕ := 96

def jsonMaxDepth : ℕ := 64

/-- The loop of `parse_size`. -/
def parseDigits : ℕ → List UInt8 → Option (ℕ × List UInt8)
  | parsed, [] => some (parsed, [])
  | parsed, b :: rest =>
    if Decimal.isDigit b then
      if (sizeMax - (b.toNat - 48)) / 10 < parsed then none else parseDigits (parsed * 10 + (b.toNat - 48)) rest
    else some (parsed, b :: rest)

def parseSize : Reader σ ℕ :=
  onBytes (fun bytes => if Decimal.isDigit (bytes.headD 0) then parseDigits 0 bytes else none)

def skipDigits (bytes : List UInt8) : Option (List UInt8) :=
  if Decimal.isDigit (bytes.headD 0) then some (bytes.dropWhile Decimal.isDigit) else none

def skipInteger (bytes : List UInt8) : Option (List UInt8) :=
  if bytes.headD 0 = 48 then (if Decimal.isDigit (bytes.tail.headD 0) then none else some bytes.tail)
  else skipDigits bytes

def skipFraction (bytes : List UInt8) : Option (List UInt8) :=
  if bytes.headD 0 = 46 then skipDigits bytes.tail else some bytes

def skipExponent (bytes : List UInt8) : Option (List UInt8) :=
  if bytes.headD 0 = 101 ∨ bytes.headD 0 = 69 then
    if bytes.tail.headD 0 = 43 ∨ bytes.tail.headD 0 = 45 then skipDigits bytes.tail.tail else skipDigits bytes.tail
  else some bytes

def skipNumber : Reader σ Unit :=
  onBytes (fun bytes => do
    let integer ← skipInteger (if bytes.headD 0 = 45 then bytes.tail else bytes)
    let fraction ← skipFraction integer
    let rest ← skipExponent fraction
    pure ((), rest))

section Values

variable (lib : JsonLibrary)

def parseString (size : Option ℕ) : Reader σ Text := onBytes (lib.readString size)

/-- The first of the names that stands under the cursor. -/
def skipName (names : List String) : Reader σ Unit :=
  onBytes (fun bytes =>
    (names.find? (fun name => (Text.ofString name).bytes.isPrefixOf bytes)).map (fun name =>
      ((), bytes.drop (Text.ofString name).length)))

/-- The loop of `skip_object`. -/
def skipMembers (skip : Reader σ Unit) : ℕ → Bool → Reader σ Unit
  | 0, _ => fail .unfinished
  | fuel + 1, first => do
    let byte ← peek
    if byte = 125 then advance
    else do
      (if first then pure () else expect 44)
      skipSpace
      let _ ← parseString lib (some jsonKeyCapacity)
      skipSpace
      expect 58
      skip
      skipSpace
      skipMembers skip fuel false

/-- `skip_object`, with the skipper of its values. -/
def skipObject (skip : Reader σ Unit) : Reader σ Unit := do
  advance
  skipSpace
  let s ← read
  skipMembers lib skip s.1.steps true

/-- The loop of `skip_array`. -/
def skipElements (skip : Reader σ Unit) : ℕ → Bool → Reader σ Unit
  | 0, _ => fail .unfinished
  | fuel + 1, first => do
    let byte ← peek
    if byte = 93 then advance
    else do
      (if first then pure () else expect 44)
      skip
      skipSpace
      skipElements skip fuel false

/-- `skip_array`, with the skipper of its values. -/
def skipArray (skip : Reader σ Unit) : Reader σ Unit := do
  advance
  skipSpace
  let s ← read
  skipElements skip s.1.steps true

/-- `skip_value`, with the number of levels left below `JSON_MAX_DEPTH`. -/
def skipValue : ℕ → Reader σ Unit
  | 0 => fail .rejected
  | levels + 1 => do
    skipSpace
    let byte ← peek
    if byte = 34 then do
      let _ ← parseString lib none
      pure ()
    else if byte = 123 then skipObject lib (skipValue levels)
    else if byte = 91 then skipArray (skipValue levels)
    else if Decimal.isDigit byte ∨ byte = 45 then skipNumber
    else skipName ["true", "null", "false"]

/-- The loop over the members of an object that the readers share; the handler of a member is
given its key. -/
def readMembers (handle : Text → Reader σ Unit) : ℕ → Bool → Reader σ Unit
  | 0, _ => fail .unfinished
  | fuel + 1, first => do
    skipSpace
    let byte ← peek
    if byte = 125 then advance
    else do
      (if first then pure () else do
        expect 44
        skipSpace)
      let key ← parseString lib (some jsonKeyCapacity)
      skipSpace
      expect 58
      skipSpace
      handle key
      readMembers handle fuel false

def readObject (handle : Text → Reader σ Unit) : Reader σ Unit := do
  expect 123
  let s ← read
  readMembers lib handle s.1.steps true

end Values

structure PolicySummary where
  records : ℕ := 0
  findings : ℕ := 0
  hasRecords : Bool := false
  parsed : Bool := false
  deriving DecidableEq

/-- The summary and the local variables of its two readers. -/
structure PolicyState where
  summary : PolicySummary := {}
  seenSchema : Bool := false
  seenSummary : Bool := false
  schemaOk : Bool := false
  seenRecords : Bool := false
  seenFindings : Bool := false

def updatePolicy (f : PolicyState → PolicyState) : Reader PolicyState Unit := update (fun s => (s.1, f s.2))

variable (lib : JsonLibrary)

/-- The members of `parse_policy_summary`. -/
def policyMember (key : Text) : Reader PolicyState Unit := do
  let (_, state) ← read
  if key = .ofString "records" then
    if state.seenRecords then fail .rejected
    else do
      let records ← parseSize
      updatePolicy (fun p =>
        { p with summary := { p.summary with records := records, hasRecords := true }, seenRecords := true })
  else if key = .ofString "findings" then
    if state.seenFindings then fail .rejected
    else do
      let findings ← parseSize
      updatePolicy (fun p => { p with summary := { p.summary with findings := findings }, seenFindings := true })
  else skipValue lib jsonMaxDepth

def parsePolicySummary : Reader PolicyState Unit := do
  updatePolicy (fun p => { p with seenRecords := false, seenFindings := false })
  readObject lib (policyMember lib)
  let (_, state) ← read
  if state.seenFindings then pure () else fail .rejected

/-- The members of `p101_tool_event_parse_policy_summary_json`. -/
def documentMember (schema key : Text) : Reader PolicyState Unit := do
  let (_, state) ← read
  if key = .ofString "schema" then
    if state.seenSchema then fail .rejected
    else do
      let actual ← parseString lib (some jsonKeyCapacity)
      updatePolicy (fun p => { p with seenSchema := true, schemaOk := actual = schema })
  else if key = .ofString "summary" then
    if state.seenSummary then fail .rejected
    else do
      parsePolicySummary lib
      updatePolicy (fun p => { p with seenSummary := true })
  else skipValue lib jsonMaxDepth

/-- The part of `p101_tool_event_parse_policy_summary_json` after its arguments are checked. -/
def readPolicySummary (schema : Text) : Reader PolicyState Unit := do
  skipSpace
  readObject lib (documentMember lib schema)
  skipSpace
  let byte ← peek
  updatePolicy (fun p =>
    { p with summary := { p.summary with parsed := byte = 0 ∧ p.seenSchema ∧ p.seenSummary ∧ p.schemaOk } })

/-- `p101_tool_event_parse_policy_summary_json` on non-null arguments: what it returns, and the
summary it leaves. -/
def parsePolicySummaryJson (text schema : Text) (summary : PolicySummary) : Bool × PolicySummary :=
  if schema.isEmpty then (false, summary)
  else
    match readPolicySummary lib schema (.within text.bytes, {}) with
    | (.ok (), _, state) => (state.summary.parsed, state.summary)
    | (.error _, _, state) => (false, state.summary)

end ToolEvent.Summary
