import ToolEvent.PolicyDocument

/-!
# The two readers of numbers

`parse_size` reads the counters that a reader of summaries knows, and `skip_number` steps over
the numbers of the members that it does not know. Where a number has a zero in front of other
digits, the first accepts what the second rejects.
-/

namespace ToolEvent.Summary

open Fallible

variable {σ : Type}

/-- The loop of `parse_size` reads all digits, as long as their value fits. -/
theorem parseDigits_eq {parsed : ℕ} (hparsed : parsed ≤ sizeMax) (bytes : List UInt8) :
    parseDigits parsed bytes =
      if (bytes.takeWhile Decimal.isDigit).foldl (fun n b => 10 * n + (b.toNat - 48)) parsed ≤ sizeMax then
        some ((bytes.takeWhile Decimal.isDigit).foldl (fun n b => 10 * n + (b.toNat - 48)) parsed,
          bytes.dropWhile Decimal.isDigit)
      else none := by
  induction bytes generalizing parsed with
  | nil => exact (if_pos hparsed).symm
  | cons b bytes ih =>
    rw [parseDigits]
    by_cases hdigit : Decimal.isDigit b
    · have hle := le_foldl_digits (bytes.takeWhile Decimal.isDigit) (10 * parsed + (b.toNat - 48))
      have hb : b.toNat - 48 ≤ 9 := by
        have h57 : b ≤ 57 := (of_decide_eq_true hdigit).2
        have hlt : b.toNat ≤ 57 := UInt8.le_iff_toNat_le.mp h57
        omega
      have hmax : 9 ≤ sizeMax := by decide
      rw [if_pos hdigit, List.takeWhile_cons_of_pos hdigit, List.dropWhile_cons_of_pos hdigit, List.foldl_cons,
        Nat.mul_comm parsed 10]
      by_cases hroom : (sizeMax - (b.toNat - 48)) / 10 < parsed
      · rw [if_pos hroom, if_neg (by omega)]
      · rw [if_neg hroom]
        exact ih (by omega)
    · rw [if_neg hdigit, List.takeWhile_cons_of_neg hdigit, List.dropWhile_cons_of_neg hdigit]
      exact (if_pos hparsed).symm

theorem isDigit_headD_dropWhile (bytes : List UInt8) :
    Decimal.isDigit ((bytes.dropWhile Decimal.isDigit).headD 0) = false := by
  induction bytes with
  | nil => rfl
  | cons b bytes ih =>
    by_cases hdigit : Decimal.isDigit b
    · rwa [List.dropWhile_cons_of_pos hdigit]
    · rw [List.dropWhile_cons_of_neg hdigit]
      simpa using hdigit

theorem isNumeral_takeWhile {bytes : List UInt8} (h : Decimal.isDigit (bytes.headD 0) = true) :
    Decimal.IsNumeral (bytes.takeWhile Decimal.isDigit) := by
  cases bytes with
  | nil => cases h
  | cons b bytes =>
    have hdigit : Decimal.isDigit b = true := h
    refine ⟨?_, fun c hc => List.mem_takeWhile_imp hc⟩
    rw [List.takeWhile_cons_of_pos hdigit]
    exact List.cons_ne_nil b _

theorem headD_of_isNumeral {digits : List UInt8} (h : Decimal.IsNumeral digits) (rest : List UInt8) :
    Decimal.isDigit ((digits ++ rest).headD 0) = true := by
  cases digits with
  | nil => exact absurd rfl h.nonempty
  | cons b digits => exact h.digits b List.mem_cons_self

/-- `parse_size` succeeds on a numeral that fits and stops at the byte behind it. -/
theorem run_parseSize_iff {bytes rest : List UInt8} {n : ℕ} {s : σ} :
    parseSize (.within bytes, s) = (.ok n, .within rest, s) ↔
      ∃ digits, Decimal.IsNumeral digits ∧ bytes = digits ++ rest ∧ Decimal.isDigit (rest.headD 0) = false ∧
        Decimal.value digits = n ∧ n ≤ sizeMax := by
  constructor
  · intro h
    by_cases hhead : Decimal.isDigit (bytes.headD 0) = true
    · have hparse : parseDigits 0 bytes = if Decimal.value (bytes.takeWhile Decimal.isDigit) ≤ sizeMax then
          some (Decimal.value (bytes.takeWhile Decimal.isDigit), bytes.dropWhile Decimal.isDigit) else none :=
        parseDigits_eq (Nat.zero_le sizeMax) bytes
      by_cases hfits : Decimal.value (bytes.takeWhile Decimal.isDigit) ≤ sizeMax
      · rw [if_pos hfits] at hparse
        simp only [parseSize, onBytes, hhead, if_true, hparse, Prod.mk.injEq, Except.ok.injEq,
          Cursor.within.injEq, and_true] at h
        obtain ⟨rfl, rfl⟩ := h
        refine ⟨_, isNumeral_takeWhile hhead, ?_, isDigit_headD_dropWhile bytes, rfl, hfits⟩
        exact List.takeWhile_append_dropWhile.symm
      · rw [if_neg hfits] at hparse
        simp only [parseSize, onBytes, hhead, if_true, hparse, Prod.mk.injEq, reduceCtorEq, false_and] at h
    · simp only [parseSize, onBytes, if_neg hhead, Prod.mk.injEq, reduceCtorEq, false_and] at h
  · rintro ⟨digits, hnumeral, rfl, hrest, rfl, hn⟩
    have hparse := parseDigits_append hnumeral.digits hrest 0 hn
    have hvalue : digits.foldl (fun n b => 10 * n + (b.toNat - 48)) 0 = Decimal.value digits := rfl
    simp only [parseSize, onBytes, headD_of_isNumeral hnumeral rest, if_true, hparse, hvalue]

def EndsCounter (rest : List UInt8) : Prop :=
  Json.isSpace (rest.headD 0) ∨ rest.headD 0 = 44 ∨ rest.headD 0 = 125

theorem EndsCounter.endsNumber {rest : List UInt8} (h : EndsCounter rest) : EndsNumber rest := by
  unfold EndsCounter at h
  generalize hb : rest.headD 0 = b at h
  have hcases : (b = 32 ∨ b = 9 ∨ b = 10 ∨ b = 13) ∨ b = 44 ∨ b = 125 := by simpa [Json.isSpace] using h
  rcases hcases with (rfl | rfl | rfl | rfl) | rfl | rfl <;>
    exact ⟨by rw [hb]; rfl, by rw [hb]; decide, by rw [hb]; decide⟩

def LeadingZero (digits : List UInt8) : Prop := digits.headD 0 = 48 ∧ 1 < digits.length

/-- Without a zero in front of other digits, the integer part is the numeral. -/
theorem skipInteger_numeral {digits rest : List UInt8} (hnumeral : Decimal.IsNumeral digits)
    (hrest : Decimal.isDigit (rest.headD 0) = false) (hzero : ¬ LeadingZero digits) :
    skipInteger (digits ++ rest) = some rest := by
  have hdrop : (digits ++ rest).dropWhile Decimal.isDigit = rest := by
    rw [List.dropWhile_append_of_pos hnumeral.digits]
    cases rest with
    | nil => rfl
    | cons b rest => exact List.dropWhile_cons_of_neg (by simpa using hrest)
  rw [skipInteger]
  split
  · next h48 =>
    cases digits with
    | nil => exact absurd rfl hnumeral.nonempty
    | cons b digits =>
      have hsingle : digits = [] := by
        apply List.length_eq_zero_iff.mp
        have hlength : ¬ 1 < (b :: digits).length := fun hlength => hzero ⟨h48, hlength⟩
        rw [List.length_cons] at hlength
        omega
      subst hsingle
      exact if_neg (by simpa using hrest)
  · rw [skipDigits, hdrop]
    exact if_pos (headD_of_isNumeral hnumeral rest)

/-- A zero in front of other digits is no number. -/
theorem skipInteger_leadingZero {digits : List UInt8} (hnumeral : Decimal.IsNumeral digits) (hzero : LeadingZero digits)
    (rest : List UInt8) : skipInteger (digits ++ rest) = none := by
  obtain ⟨hhead, hlength⟩ := hzero
  match digits, hnumeral, hhead, hlength with
  | b :: c :: digits, hnumeral, hhead, _ =>
    have hc : Decimal.isDigit c = true := hnumeral.digits c (List.mem_cons_of_mem _ List.mem_cons_self)
    have h48 : ((b :: c :: digits) ++ rest).headD 0 = 48 := hhead
    rw [skipInteger, if_pos h48]
    exact if_pos hc

/-- At a digit, `skip_value` is `skip_number`. -/
theorem run_skipValue_digit (lib : JsonLibrary) {bytes : List UInt8} (h : Decimal.isDigit (bytes.headD 0) = true)
    (levels : ℕ) (s : σ) : skipValue lib (levels + 1) (.within bytes, s) = skipNumber (.within bytes, s) := by
  have hne : ∀ b, Decimal.isDigit b = false → bytes.headD 0 ≠ b := by
    rintro b hb rfl
    rw [h] at hb
    cases hb
  rw [run_skipValue rfl (isSpace_of_isDigit h), if_neg (hne 34 rfl), if_neg (hne 123 rfl), if_neg (hne 91 rfl),
    if_pos (.inl h)]

theorem ne_minus_of_isDigit {b : UInt8} (h : Decimal.isDigit b = true) : b ≠ 45 := by
  rintro rfl
  cases h

theorem run_skipNumber_numeral {digits rest : List UInt8} (hnumeral : Decimal.IsNumeral digits)
    (hrest : EndsNumber rest) (hzero : ¬ LeadingZero digits) (s : σ) :
    skipNumber (.within (digits ++ rest), s) = (.ok (), .within rest, s) := by
  apply run_skipNumber hrest
  rw [if_neg (ne_minus_of_isDigit (headD_of_isNumeral hnumeral rest))]
  exact skipInteger_numeral hnumeral hrest.digit hzero

theorem run_skipNumber_leadingZero {digits : List UInt8} (hnumeral : Decimal.IsNumeral digits)
    (hzero : LeadingZero digits) (rest : List UInt8) (s : σ) :
    skipNumber (.within (digits ++ rest), s) = (.error .rejected, .within (digits ++ rest), s) := by
  have hinteger := skipInteger_leadingZero hnumeral hzero rest
  have hminus := ne_minus_of_isDigit (headD_of_isNumeral hnumeral rest)
  simp only [skipNumber, onBytes, if_neg hminus, hinteger, Option.bind_eq_bind, Option.bind_none]

/-- Wherever `parse_size` succeeds in front of a byte that may follow a counter, `skip_number`
stops at the same byte, and so does `skip_value`, which reads the member under any other name. -/
def NumberReadersAgree (bytes : List UInt8) : Prop :=
  ∀ n rest, parseSize (.within bytes, ()) = (.ok n, .within rest, ()) → EndsCounter rest →
    skipNumber (.within bytes, ()) = (.ok (), .within rest, ()) ∧
      ∀ (lib : JsonLibrary) (levels : ℕ), skipValue lib (levels + 1) (.within bytes, ()) = (.ok (), .within rest, ())

/-- A counter that fits is written with a zero in front of other digits. -/
def PaddedCounter (bytes : List UInt8) : Prop :=
  ∃ digits rest, bytes = digits ++ rest ∧ Decimal.IsNumeral digits ∧ LeadingZero digits ∧
    Decimal.value digits ≤ sizeMax ∧ EndsCounter rest

/-- At every position of every text, the two readers agree exactly where no counter with a zero
in front of other digits stands. -/
theorem numberReadersAgree_iff (text : Text) (position : ℕ) :
    NumberReadersAgree (text.bytes.drop position) ↔ ¬ PaddedCounter (text.bytes.drop position) := by
  generalize text.bytes.drop position = bytes
  constructor
  · rintro hagree ⟨digits, rest, rfl, hnumeral, hzero, hfits, hends⟩
    have hparse : parseSize (.within (digits ++ rest), ()) = (.ok (Decimal.value digits), .within rest, ()) :=
      run_parseSize_iff.mpr ⟨digits, hnumeral, rfl, hends.endsNumber.digit, rfl, hfits⟩
    have hskip := (hagree _ rest hparse hends).1
    rw [run_skipNumber_leadingZero hnumeral hzero rest] at hskip
    cases hskip
  · intro hpadded n rest hparse hends
    obtain ⟨digits, hnumeral, rfl, -, rfl, hfits⟩ := run_parseSize_iff.mp hparse
    have hzero : ¬ LeadingZero digits := fun hzero =>
      hpadded ⟨digits, rest, rfl, hnumeral, hzero, hfits, hends⟩
    have hskip := run_skipNumber_numeral hnumeral hends.endsNumber hzero ()
    refine ⟨hskip, fun lib levels => ?_⟩
    rw [run_skipValue_digit lib (headD_of_isNumeral hnumeral rest)]
    exact hskip

/-- The counter 007 is read, and the same digits are no number to skip. -/
theorem numberReadersAgree_zeros :
    ¬ ∀ (text : Text) (position : ℕ), NumberReadersAgree (text.bytes.drop position) := by
  intro h
  have hparse : parseSize (.within [48, 48, 55, 44], ()) = (.ok 7, .within [44], ()) := by rfl
  have hskip := (h (.ofString "\x7b\"records\":007,") 11 7 [44] hparse (.inr (.inl rfl))).1
  cases hskip

end ToolEvent.Summary
