import ToolEvent.Library.JsonGrammar
import ToolEvent.Library.TakenOnce
import ToolEvent.SummaryNumbers

/-!
# What the readers of summaries accept

The skippers and the loops over members of `src/summary.c`, against a grammar of JSON texts: what a
reader takes off the bytes is a text of the grammar, and a text of the grammar is taken off.
-/

namespace ToolEvent.Summary

open Fallible TakenOnce

variable {σ α β : Type}

/-- Run on the bytes, the reader takes a text off them that has the property, or it rejects them. -/
def Accepts (x : Reader σ α) (bytes : List UInt8) (s : σ) (Q : List UInt8 → α → σ → Prop) : Prop :=
  match x (.within bytes, s) with
  | (.ok a, t) => ∃ lit rest s', bytes = lit ++ rest ∧ t = (.within rest, s') ∧ Q lit a s'
  | (.error e, _) => e = .rejected

section Accepts

variable {x : Reader σ α} {bytes rest : List UInt8} {s : σ} {P Q : List UInt8 → α → σ → Prop}

theorem Accepts.ok (h : Accepts x bytes s Q) {a : α} {t : Cursor × σ} (hrun : x (.within bytes, s) = (.ok a, t)) :
    ∃ lit rest s', bytes = lit ++ rest ∧ t = (.within rest, s') ∧ Q lit a s' := by
  rwa [Accepts, hrun] at h

theorem Accepts.error (h : Accepts x bytes s Q) {e : Stop} {t : Cursor × σ}
    (hrun : x (.within bytes, s) = (.error e, t)) : e = .rejected := by
  rwa [Accepts, hrun] at h

theorem accepts_of (hok : ∀ a t, x (.within bytes, s) = (.ok a, t) →
      ∃ lit rest s', bytes = lit ++ rest ∧ t = (.within rest, s') ∧ Q lit a s')
    (herror : ∀ e t, x (.within bytes, s) = (.error e, t) → e = .rejected) : Accepts x bytes s Q := by
  rw [Accepts]
  rcases hrun : x (.within bytes, s) with ⟨e | a, t⟩
  · exact herror e t hrun
  · exact hok a t hrun

theorem Accepts.imp (h : Accepts x bytes s P) (hPQ : ∀ lit a s', P lit a s' → Q lit a s') : Accepts x bytes s Q := by
  apply accepts_of
  · intro a t hrun
    obtain ⟨lit, rest, s', hbytes, ht, hlit⟩ := h.ok hrun
    exact ⟨lit, rest, s', hbytes, ht, hPQ lit a s' hlit⟩
  · exact fun e t hrun => h.error hrun

theorem accepts_pure {a : α} (h : Q [] a s) : Accepts (pure a) bytes s Q := ⟨[], bytes, s, rfl, rfl, h⟩

theorem accepts_reject : Accepts (fail .rejected) bytes s Q := rfl

/-- What the parts of a routine take off is joined. -/
theorem Accepts.bind {f : α → Reader σ β} {Q : List UInt8 → β → σ → Prop} (hx : Accepts x bytes s P)
    (hf : ∀ lit rest a s', bytes = lit ++ rest → P lit a s' →
      Accepts (f a) rest s' (fun lit' b s'' => Q (lit ++ lit') b s'')) : Accepts (x >>= f) bytes s Q := by
  apply accepts_of
  · intro b t hrun
    obtain ⟨a, t', hfirst, hsecond⟩ := run_bind_eq_ok.mp hrun
    obtain ⟨lit, rest, s', hbytes, rfl, hlit⟩ := hx.ok hfirst
    obtain ⟨lit', rest', s'', rfl, rfl, hlit'⟩ := (hf lit rest a s' hbytes hlit).ok hsecond
    exact ⟨lit ++ lit', rest', s'', by rw [hbytes, List.append_assoc], rfl, hlit'⟩
  · intro e t hrun
    rw [run_bind] at hrun
    rcases hfirst : x (.within bytes, s) with ⟨e' | a, t'⟩ <;> rw [hfirst] at hrun
    · obtain ⟨he, -⟩ := Prod.mk.inj hrun
      exact Except.error.inj he ▸ hx.error hfirst
    · obtain ⟨lit, rest, s', hbytes, rfl, hlit⟩ := hx.ok hfirst
      exact (hf lit rest a s' hbytes hlit).error hrun

theorem Accepts.ite {p : Prop} [Decidable p] {y : Reader σ α} (hx : p → Accepts x bytes s Q)
    (hy : ¬ p → Accepts y bytes s Q) : Accepts (if p then x else y) bytes s Q := by
  split
  · next h => exact hx h
  · next h => exact hy h

theorem accepts_peek_bind {f : UInt8 → Reader σ α} (h : Accepts (f (bytes.headD 0)) bytes s Q) :
    Accepts (peek >>= f) bytes s Q := h

theorem accepts_read_bind {f : Cursor × σ → Reader σ α} (h : Accepts (f (.within bytes, s)) bytes s Q) :
    Accepts (read >>= f) bytes s Q := h

theorem accepts_update {f : σ → σ} {Q : List UInt8 → Unit → σ → Prop} (h : Q [] () (f s)) :
    Accepts (update fun t => (t.1, f t.2)) bytes s Q := ⟨[], bytes, f s, rfl, rfl, h⟩

theorem accepts_onBytes {f : List UInt8 → Option (α × List UInt8)}
    (h : ∀ a rest, f bytes = some (a, rest) → ∃ lit, bytes = lit ++ rest ∧ Q lit a s) :
    Accepts (onBytes f) bytes s Q := by
  rcases hf : f bytes with _ | ⟨a, rest⟩
  · simp [Accepts, onBytes, hf]
  · obtain ⟨lit, hbytes, hlit⟩ := h a rest hf
    simpa [Accepts, onBytes, hf] using ⟨lit, hbytes, hlit⟩

theorem accepts_advance {b : UInt8} (hb : b ≠ 0) (hhead : bytes.headD 0 = b) {Q : List UInt8 → Unit → σ → Prop}
    (h : Q [b] () s) : Accepts advance bytes s Q := by
  cases bytes with
  | nil => exact absurd hhead.symm hb
  | cons c rest =>
    obtain rfl : c = b := hhead
    exact ⟨[c], rest, s, rfl, rfl, h⟩

theorem accepts_expect {b : UInt8} (hb : b ≠ 0) :
    Accepts (expect b) bytes s (fun lit _ s' => lit = [b] ∧ s' = s) := by
  cases bytes with
  | nil => simp [Accepts, expect, peek, advance, run_bind, Ne.symm hb]
  | cons c rest =>
    by_cases hc : c = b
    · subst hc
      rw [Accepts, run_expect]
      exact ⟨[c], rest, s, rfl, rfl, rfl, rfl⟩
    · simp [Accepts, expect, peek, advance, run_bind, hc]

theorem accepts_skipSpace : Accepts skipSpace bytes s (fun lit _ s' => Json.IsSpace lit ∧ s' = s) :=
  ⟨bytes.takeWhile Json.isSpace, bytes.dropWhile Json.isSpace, s, List.takeWhile_append_dropWhile.symm, rfl,
    fun _ hb => List.mem_takeWhile_imp hb, rfl⟩

end Accepts

/-- `p101_json_read_string` accepts exactly the literals of strings that fit the buffer, decodes them,
and stops behind their closing quote. -/
structure ReadsLiterals (lib : JsonLibrary) (Decodes : List UInt8 → Text → Prop) : Prop where
  quote : ∀ {literal text}, Decodes literal text → literal.head? = some 34
  reads : ∀ {size bytes text rest}, lib.readString size bytes = some (text, rest) ↔
    ∃ literal, bytes = literal ++ rest ∧ Decodes literal text ∧ ∀ n ∈ size, text.length < n

def FitsKey (Decodes : List UInt8 → Text → Prop) (literal : List UInt8) (text : Text) : Prop :=
  Decodes literal text ∧ text.length < jsonKeyCapacity

def IsString (Decodes : List UInt8 → Text → Prop) (literal : List UInt8) : Prop := ∃ text, Decodes literal text

theorem mem_jsonEscapes_of_lookup {letter b : UInt8} (h : Json.escapes.lookup letter = some b) : (letter, b) ∈ Json.escapes := by
  obtain ⟨before, after, heq, -⟩ := List.lookup_eq_some_iff.mp h
  rw [heq]
  exact List.mem_append_right before List.mem_cons_self

/-- What is read as one byte spells it. -/
theorem spellsByte_of_readByte {bytes rest : List UInt8} {b : UInt8} (hquote : bytes.head? ≠ some 34)
    (h : readByte bytes = some (b, rest)) : ∃ spelling, SpellsByte spelling b ∧ bytes = spelling ++ rest := by
  unfold readByte at h
  split at h
  · next x y rest' =>
    split at h
    · next high low hx hy =>
      split at h
      · next hlt =>
        obtain ⟨rfl, rfl⟩ := Prod.mk.inj (Option.some.inj h)
        have hb : (16 * high + low).toUInt8.toNat = 16 * high + low := by
          rw [Nat.toUInt8, UInt8.toNat_ofNat']
          omega
        refine ⟨[92, 117, 48, 48, x, y], .unicode hx hy hb ?_, rfl⟩
        apply UInt8.lt_iff_toNat_lt.mpr
        rw [hb]
        exact hlt
      · cases h
    · cases h
  · next letter rest' _ =>
    obtain ⟨b', hlookup, heq⟩ := Option.map_eq_some_iff.mp h
    obtain ⟨rfl, rfl⟩ := Prod.mk.inj heq
    exact ⟨[92, letter], .escape (mem_jsonEscapes_of_lookup hlookup), rfl⟩
  · next b' rest' _ _ =>
    split at h
    · cases h
    · next hplain =>
      obtain ⟨rfl, rfl⟩ := Prod.mk.inj (Option.some.inj h)
      rw [not_or] at hplain
      exact ⟨[b'], .plain (UInt8.not_lt.mp hplain.1) (fun h => hquote (h ▸ rfl)) hplain.2, rfl⟩
  · cases h

theorem spells_of_readSpelled {fuel : ℕ} {bytes rest decoded : List UInt8} (h : readSpelled fuel bytes = some (decoded, rest)) :
    ∃ spellings, List.Forall₂ SpellsByte spellings decoded ∧ bytes = spellings.flatten ++ 34 :: rest := by
  induction fuel generalizing bytes decoded with
  | zero => cases h
  | succ fuel ih =>
    rw [readSpelled] at h
    split at h
    · next hquote =>
      obtain ⟨rfl, rfl⟩ := Prod.mk.inj (Option.some.inj h)
      obtain ⟨tail, rfl⟩ := List.head?_eq_some_iff.mp hquote
      exact ⟨[], .nil, rfl⟩
    · next hquote =>
      obtain ⟨⟨b, bytes'⟩, hbyte, hrest⟩ := Option.bind_eq_some_iff.mp h
      obtain ⟨⟨decoded', rest'⟩, hread, heq⟩ := Option.map_eq_some_iff.mp hrest
      obtain ⟨rfl, rfl⟩ := Prod.mk.inj heq
      obtain ⟨spelling, hspelling, rfl⟩ := spellsByte_of_readByte hquote hbyte
      obtain ⟨spellings, hspellings, rfl⟩ := ih hread
      exact ⟨spelling :: spellings, .cons hspelling hspellings, by simp⟩

/-- A library that reads the literals whose bytes are spelled one by one, and no other. -/
def JsonLibrary.exact : JsonLibrary where
  readString size bytes :=
    match bytes with
    | 34 :: rest =>
      (readSpelled rest.length rest).bind (fun result =>
        if hnul : 0 ∈ result.1 then none
        else if size.all (result.1.length < ·) then some (⟨result.1, hnul⟩, result.2) else none)
    | _ => none
  readString_literal := by
    rintro size literal rest text ⟨spellings, hspellings, rfl⟩ hsize
    have hlength := length_le_flatten hspellings
    have hfuel : text.bytes.length < (spellings.flatten ++ 34 :: rest).length := by
      rw [List.length_append, List.length_cons]
      omega
    have hfits : size.all (text.bytes.length < ·) = true := by
      cases size with
      | none => rfl
      | some n => exact decide_eq_true (hsize n rfl)
    have hbytes : 34 :: spellings.flatten ++ [34] ++ rest = 34 :: (spellings.flatten ++ 34 :: rest) := by simp
    rw [hbytes]
    simp only [readSpelled_flatten hspellings hfuel rest, Option.bind_some, dif_neg text.nulFree, hfits, if_true]

theorem readsLiterals_exact : ReadsLiterals .exact IsLiteral where
  quote := by
    rintro literal text ⟨spellings, -, rfl⟩
    rfl
  reads := by
    intro size bytes text rest
    constructor
    · intro h
      simp only [JsonLibrary.exact] at h
      split at h
      · next rest' =>
        obtain ⟨⟨decoded, rest''⟩, hread, heq⟩ := Option.bind_eq_some_iff.mp h
        split_ifs at heq with hnul hfits
        obtain ⟨rfl, rfl⟩ := Prod.mk.inj (Option.some.inj heq)
        obtain ⟨spellings, hspellings, rfl⟩ := spells_of_readSpelled hread
        refine ⟨34 :: spellings.flatten ++ [34], by simp, ⟨spellings, hspellings, rfl⟩, ?_⟩
        rintro n ⟨⟩
        exact of_decide_eq_true hfits
      · cases h
    · rintro ⟨literal, rfl, hliteral, hsize⟩
      exact JsonLibrary.exact.readString_literal hliteral fun n hn => hsize n hn

section Grammar

variable {lib : JsonLibrary} {Decodes : List UInt8 → Text → Prop} {bytes rest : List UInt8} {s : σ}

theorem ReadsLiterals.accepts (h : ReadsLiterals lib Decodes) (size : Option ℕ) (bytes : List UInt8) (s : σ) :
    Accepts (parseString lib size) bytes s
      (fun lit text s' => Decodes lit text ∧ (∀ n ∈ size, text.length < n) ∧ s' = s) := by
  apply accepts_onBytes
  intro text rest hread
  obtain ⟨literal, hbytes, hdecodes, hsize⟩ := h.reads.mp hread
  exact ⟨literal, hbytes, hdecodes, hsize, rfl⟩

theorem ReadsLiterals.run (h : ReadsLiterals lib Decodes) {size : Option ℕ} {literal : List UInt8} {text : Text}
    (hdecodes : Decodes literal text) (hsize : ∀ n ∈ size, text.length < n) (rest : List UInt8) (s : σ) :
    parseString lib size (.within (literal ++ rest), s) = (.ok text, .within rest, s) := by
  have hread : lib.readString size (literal ++ rest) = some (text, rest) := h.reads.mpr ⟨literal, rfl, hdecodes, hsize⟩
  simp [parseString, onBytes, hread]

theorem accepts_parseSize :
    Accepts parseSize bytes s (fun lit n s' => Decimal.IsNumeral lit ∧ Decimal.value lit = n ∧ n ≤ sizeMax ∧ s' = s) := by
  apply accepts_onBytes
  intro n rest hparse
  have hrun : parseSize (.within bytes, s) = (.ok n, .within rest, s) := by
    simp only [parseSize, onBytes, hparse]
  obtain ⟨digits, hnumeral, hbytes, -, hvalue, hfits⟩ := run_parseSize_iff.mp hrun
  exact ⟨digits, hbytes, hnumeral, hvalue, hfits, rfl⟩

theorem skipDigits_eq_some {bytes rest : List UInt8} (h : skipDigits bytes = some rest) :
    ∃ digits, bytes = digits ++ rest ∧ Decimal.IsNumeral digits := by
  rw [skipDigits] at h
  split at h
  · next hdigit =>
    obtain rfl := Option.some.inj h
    exact ⟨_, List.takeWhile_append_dropWhile.symm, isNumeral_takeWhile hdigit⟩
  · cases h

theorem skipDigits_append {digits rest : List UInt8} (h : Decimal.IsNumeral digits)
    (hrest : Decimal.isDigit (rest.headD 0) = false) : skipDigits (digits ++ rest) = some rest := by
  have hdrop : (digits ++ rest).dropWhile Decimal.isDigit = rest := by
    rw [List.dropWhile_append_of_pos h.digits]
    cases rest with
    | nil => rfl
    | cons b rest => exact List.dropWhile_cons_of_neg (ne_true_of_eq_false hrest)
  rw [skipDigits, if_pos (headD_of_isNumeral h rest), hdrop]

theorem headD_append_of_isNumeral {digits : List UInt8} (h : Decimal.IsNumeral digits) (rest : List UInt8) :
    (digits ++ rest).headD 0 = digits.headD 0 := by
  cases digits with
  | nil => exact absurd rfl h.nonempty
  | cons b digits => rfl

/-- A byte that is not the terminator stands first. -/
theorem eq_cons_of_headD {b : UInt8} (hb : b ≠ 0) (h : bytes.headD 0 = b) : bytes = b :: bytes.tail := by
  cases bytes with
  | nil => exact absurd h.symm hb
  | cons c bytes => rw [← h, List.headD_cons, List.tail_cons]

theorem skipInteger_eq_some {bytes rest : List UInt8} (h : skipInteger bytes = some rest) :
    ∃ integer, bytes = integer ++ rest ∧ Json.IsInteger integer := by
  rw [skipInteger] at h
  split at h
  · next hzero =>
    split at h
    · cases h
    · obtain rfl := Option.some.inj h
      exact ⟨[48], eq_cons_of_headD (by decide) hzero, .inl rfl⟩
  · next hzero =>
    obtain ⟨digits, rfl, hnumeral⟩ := skipDigits_eq_some h
    rw [headD_append_of_isNumeral hnumeral] at hzero
    exact ⟨digits, rfl, .inr ⟨hnumeral, hzero⟩⟩

theorem skipInteger_append {integer rest : List UInt8} (h : Json.IsInteger integer)
    (hrest : Decimal.isDigit (rest.headD 0) = false) : skipInteger (integer ++ rest) = some rest := by
  rcases h with rfl | ⟨hnumeral, hzero⟩
  · exact skipInteger_numeral (by decide) hrest fun hleading => absurd hleading.2 (by decide)
  · exact skipInteger_numeral hnumeral hrest fun hleading => hzero hleading.1

theorem skipFraction_eq_some {bytes rest : List UInt8} (h : skipFraction bytes = some rest) :
    ∃ fraction, bytes = fraction ++ rest ∧ Json.IsFraction fraction := by
  rw [skipFraction] at h
  split at h
  · next hpoint =>
    obtain ⟨digits, htail, hnumeral⟩ := skipDigits_eq_some h
    refine ⟨46 :: digits, ?_, .inr ⟨digits, hnumeral, rfl⟩⟩
    rw [eq_cons_of_headD (by decide) hpoint, htail, List.cons_append]
  · obtain rfl := Option.some.inj h
    exact ⟨[], rfl, .inl rfl⟩

theorem skipFraction_append {fraction rest : List UInt8} (h : Json.IsFraction fraction)
    (hdigit : Decimal.isDigit (rest.headD 0) = false) (hpoint : rest.headD 0 ≠ 46) :
    skipFraction (fraction ++ rest) = some rest := by
  rcases h with rfl | ⟨digits, hnumeral, rfl⟩
  · exact if_neg hpoint
  · exact (if_pos rfl).trans (skipDigits_append hnumeral hdigit)

theorem skipExponent_eq_some {bytes rest : List UInt8} (h : skipExponent bytes = some rest) :
    ∃ exponent, bytes = exponent ++ rest ∧ Json.IsExponent exponent := by
  rw [skipExponent] at h
  split at h
  · next hletter =>
    have hbytes : bytes = bytes.headD 0 :: bytes.tail := by
      rcases hletter with hletter | hletter <;> rw [hletter] <;> exact eq_cons_of_headD (by decide) hletter
    split at h
    · next hsign =>
      obtain ⟨digits, htail, hnumeral⟩ := skipDigits_eq_some h
      have htail' : bytes.tail = bytes.tail.headD 0 :: bytes.tail.tail := by
        rcases hsign with hsign | hsign <;> rw [hsign] <;> exact eq_cons_of_headD (by decide) hsign
      refine ⟨bytes.headD 0 :: ([bytes.tail.headD 0] ++ digits), ?_, .inr ⟨_, _, digits, hletter, ?_, hnumeral, rfl⟩⟩
      · calc bytes = bytes.headD 0 :: bytes.tail.headD 0 :: bytes.tail.tail := by rw [← htail', ← hbytes]
          _ = _ := by rw [htail]; rfl
      · rcases hsign with hsign | hsign <;> rw [hsign] <;> simp
    · obtain ⟨digits, htail, hnumeral⟩ := skipDigits_eq_some h
      refine ⟨bytes.headD 0 :: ([] ++ digits), ?_, .inr ⟨_, _, digits, hletter, .inl rfl, hnumeral, rfl⟩⟩
      calc bytes = bytes.headD 0 :: bytes.tail := hbytes
        _ = _ := by rw [htail]; rfl
  · obtain rfl := Option.some.inj h
    exact ⟨[], rfl, .inl rfl⟩

theorem skipExponent_append {exponent rest : List UInt8} (h : Json.IsExponent exponent) (hrest : EndsNumber rest) :
    skipExponent (exponent ++ rest) = some rest := by
  rcases h with rfl | ⟨letter, sign, digits, hletter, hsign, hnumeral, rfl⟩
  · exact if_neg hrest.exponent
  · have hdigits := skipDigits_append hnumeral hrest.digit
    refine (if_pos hletter).trans ?_
    rcases hsign with rfl | rfl | rfl
    · have hdigit := headD_of_isNumeral hnumeral rest
      have hnosign : ¬ ((digits ++ rest).headD 0 = 43 ∨ (digits ++ rest).headD 0 = 45) := by
        rintro (hsign | hsign) <;> rw [hsign] at hdigit <;> cases hdigit
      exact (if_neg hnosign).trans hdigits
    · exact (if_pos (.inl rfl)).trans hdigits
    · exact (if_pos (.inr rfl)).trans hdigits

theorem accepts_skipNumber : Accepts skipNumber bytes s (fun lit _ s' => Json.IsNumber lit ∧ s' = s) := by
  apply accepts_onBytes
  rintro ⟨⟩ rest hskip
  simp only [Option.bind_eq_bind, Option.bind_eq_some_iff, Option.pure_def, Option.some.injEq, Prod.mk.injEq,
    true_and] at hskip
  obtain ⟨bytes₁, hinteger₁, bytes₂, hfraction₁, bytes₃, hexponent₁, rfl⟩ := hskip
  obtain ⟨integer, heq, hinteger⟩ := skipInteger_eq_some hinteger₁
  obtain ⟨fraction, rfl, hfraction⟩ := skipFraction_eq_some hfraction₁
  obtain ⟨exponent, rfl, hexponent⟩ := skipExponent_eq_some hexponent₁
  split at heq
  · next hminus =>
    refine ⟨[45] ++ (integer ++ (fraction ++ exponent)), ?_,
      ⟨_, integer, fraction, exponent, .inr rfl, hinteger, hfraction, hexponent, rfl⟩, rfl⟩
    rw [eq_cons_of_headD (by decide) hminus, heq]
    simp
  · refine ⟨[] ++ (integer ++ (fraction ++ exponent)), ?_,
      ⟨_, integer, fraction, exponent, .inl rfl, hinteger, hfraction, hexponent, rfl⟩, rfl⟩
    rw [heq]
    simp

/-- No digit and no point follows where an exponent may stand. -/
theorem head_exponent {exponent rest : List UInt8} (h : Json.IsExponent exponent) (hrest : EndsNumber rest) :
    Decimal.isDigit ((exponent ++ rest).headD 0) = false ∧ (exponent ++ rest).headD 0 ≠ 46 := by
  rcases h with rfl | ⟨letter, sign, digits, rfl | rfl, -, -, rfl⟩
  · exact ⟨hrest.digit, hrest.point⟩
  · exact ⟨rfl, fun h => absurd h (by decide : (101 : UInt8) ≠ 46)⟩
  · exact ⟨rfl, fun h => absurd h (by decide : (69 : UInt8) ≠ 46)⟩

theorem run_skipNumber_append {number rest : List UInt8} (h : Json.IsNumber number) (hrest : EndsNumber rest) (s : σ) :
    skipNumber (.within (number ++ rest), s) = (.ok (), .within rest, s) := by
  obtain ⟨sign, integer, fraction, exponent, hsign, hinteger, hfraction, hexponent, rfl⟩ := h
  obtain ⟨hdigit, hpoint⟩ := head_exponent hexponent hrest
  have hdigit' : Decimal.isDigit ((fraction ++ (exponent ++ rest)).headD 0) = false := by
    rcases hfraction with rfl | ⟨digits, -, rfl⟩
    · exact hdigit
    · rfl
  have hunsigned : (if (sign ++ (integer ++ (fraction ++ exponent)) ++ rest).headD 0 = 45 then
      (sign ++ (integer ++ (fraction ++ exponent)) ++ rest).tail
        else sign ++ (integer ++ (fraction ++ exponent)) ++ rest) = integer ++ (fraction ++ (exponent ++ rest)) := by
    have hassoc : integer ++ (fraction ++ exponent) ++ rest = integer ++ (fraction ++ (exponent ++ rest)) := by simp
    rcases hsign with rfl | rfl
    · have hfirst : Decimal.isDigit ((integer ++ (fraction ++ (exponent ++ rest))).headD 0) = true := by
        have hhead := hinteger.isDigit
        cases integer with
        | nil => cases hhead
        | cons b integer => exact hhead
      rw [List.nil_append, hassoc, if_neg (ne_minus_of_isDigit hfirst)]
    · exact (if_pos rfl).trans hassoc
  simp only [skipNumber, onBytes, hunsigned, skipInteger_append hinteger hdigit', skipFraction_append hfraction hdigit hpoint,
    skipExponent_append hexponent hrest, Option.bind_eq_bind, Option.bind_some, Option.pure_def]

theorem accepts_skipName : Accepts (skipName ["true", "null", "false"]) bytes s
    (fun lit _ s' => lit ∈ Json.words ∧ s' = s) := by
  apply accepts_onBytes
  rintro ⟨⟩ rest hskip
  obtain ⟨name, hfind, heq⟩ := Option.map_eq_some_iff.mp hskip
  obtain ⟨-, rfl⟩ := Prod.mk.inj heq
  have hprefix : (Text.ofString name).bytes.isPrefixOf bytes = true := by simpa using List.find?_some hfind
  have hname := List.mem_of_find?_eq_some hfind
  obtain ⟨tail, rfl⟩ := List.isPrefixOf_iff_prefix.mp hprefix
  refine ⟨(Text.ofString name).bytes, by simp [Text.length], ?_, rfl⟩
  simp only [List.mem_cons, List.not_mem_nil, or_false] at hname
  rcases hname with rfl | rfl | rfl <;> decide

theorem run_skipName_append {word : List UInt8} (h : word ∈ Json.words) (rest : List UInt8) (s : σ) :
    skipName ["true", "null", "false"] (.within (word ++ rest), s) = (.ok (), .within rest, s) := by
  simp only [Json.words, List.mem_cons, List.not_mem_nil, or_false] at h
  rcases h with rfl | rfl | rfl <;> rfl

/-- What may stand in front of a value that is skipped. -/
def Spaced (IsValue : List UInt8 → Prop) (lit : List UInt8) : Prop :=
  ∃ space value, lit = space ++ value ∧ Json.IsSpace space ∧ IsValue value

variable {IsValue : List UInt8 → Prop} {skip : Reader σ Unit}

theorem accepts_comma (first : Bool) : Accepts (if first then pure () else expect 44) bytes s
    (fun lit _ s' => lit = (if first then [] else [44]) ∧ s' = s) := by
  cases first with
  | true => exact accepts_pure ⟨rfl, rfl⟩
  | false => exact accepts_expect (by decide)

theorem isLead_comma (first : Bool) {space space' : List UInt8} (h : Json.IsSpace space) (h' : Json.IsSpace space') :
    Json.IsLead first (space ++ ((if first then [] else [44]) ++ space')) := by
  cases first with
  | true => exact h.append h'
  | false => exact ⟨space, space', h, h', rfl⟩

/-- The loop of `skip_object`, behind white space. -/
theorem accepts_skipMembers (h : ReadsLiterals lib Decodes)
    (hskip : ∀ bytes s, Accepts skip bytes s (fun lit _ s' => Spaced IsValue lit ∧ s' = s)) {fuel : ℕ} {first : Bool}
    {space : List UInt8} (hspace : Json.IsSpace space) (hfuel : bytes.length < fuel) :
    Accepts (skipMembers lib skip fuel first) bytes s (fun lit _ s' => s' = s ∧
      ∃ members, Json.Members (FitsKey Decodes) first members (space ++ lit) ∧ ∀ member ∈ members, IsValue member.2) := by
  induction fuel generalizing bytes s first space with
  | zero => exact absurd hfuel (Nat.not_lt_zero _)
  | succ fuel ih =>
    apply accepts_peek_bind
    apply Accepts.ite
    · intro hclose
      exact accepts_advance (by decide) hclose ⟨rfl, [], .close hspace, by simp⟩
    intro _
    apply (accepts_comma first).bind
    rintro comma bytes₁ ⟨⟩ _ rfl ⟨rfl, rfl⟩
    apply accepts_skipSpace.bind
    rintro space₁ bytes₂ ⟨⟩ _ rfl ⟨hspace₁, rfl⟩
    apply (h.accepts (some jsonKeyCapacity) _ _).bind
    rintro key bytes₃ name _ rfl ⟨hkey, hsize, rfl⟩
    apply accepts_skipSpace.bind
    rintro before bytes₄ ⟨⟩ _ rfl ⟨hbefore, rfl⟩
    apply (accepts_expect (by decide)).bind
    rintro _ bytes₅ ⟨⟩ _ rfl ⟨rfl, rfl⟩
    apply (hskip _ _).bind
    rintro _ bytes₆ ⟨⟩ _ rfl ⟨⟨after, value, rfl, hafter, hvalue⟩, rfl⟩
    apply accepts_skipSpace.bind
    rintro space₂ bytes₇ ⟨⟩ _ rfl ⟨hspace₂, rfl⟩
    have hfuel₇ : bytes₇.length < fuel := by
      simp only [List.length_append, List.length_singleton] at hfuel
      omega
    apply (ih hspace₂ hfuel₇).imp
    rintro lit ⟨⟩ s' ⟨rfl, members, hmembers, hvalues⟩
    refine ⟨rfl, (name, value) :: members, ?_, List.forall_mem_cons.mpr ⟨hvalue, hvalues⟩⟩
    have hlead := isLead_comma first hspace hspace₁
    have hmember : Json.Members (FitsKey Decodes) first ((name, value) :: members) _ :=
      .member hlead ⟨hkey, hsize _ rfl⟩ hbefore hafter hmembers
    simpa only [List.append_assoc, List.singleton_append] using hmember

/-- The loop of `skip_array`, behind white space. -/
theorem accepts_skipElements
    (hskip : ∀ bytes s, Accepts skip bytes s (fun lit _ s' => Spaced IsValue lit ∧ s' = s)) (hvalue₀ : ¬ IsValue [])
    {fuel : ℕ} {first : Bool} {space : List UInt8} (hspace : Json.IsSpace space) (hfuel : bytes.length < fuel) :
    Accepts (skipElements skip fuel first) bytes s (fun lit _ s' => s' = s ∧
      ∃ values, Json.Elements first values (space ++ lit) ∧ ∀ value ∈ values, IsValue value) := by
  induction fuel generalizing bytes s first space with
  | zero => exact absurd hfuel (Nat.not_lt_zero _)
  | succ fuel ih =>
    apply accepts_peek_bind
    apply Accepts.ite
    · intro hclose
      exact accepts_advance (by decide) hclose ⟨rfl, [], .close hspace, by simp⟩
    intro _
    apply (accepts_comma first).bind
    rintro comma bytes₁ ⟨⟩ _ rfl ⟨rfl, rfl⟩
    apply (hskip _ _).bind
    rintro _ bytes₂ ⟨⟩ _ rfl ⟨⟨space₁, value, rfl, hspace₁, hvalue⟩, rfl⟩
    apply accepts_skipSpace.bind
    rintro space₂ bytes₃ ⟨⟩ _ rfl ⟨hspace₂, rfl⟩
    have hlength : 0 < value.length := List.length_pos_iff.mpr fun hnil => hvalue₀ (hnil ▸ hvalue)
    have hfuel₃ : bytes₃.length < fuel := by
      simp only [List.length_append] at hfuel
      omega
    apply (ih hspace₂ hfuel₃).imp
    rintro lit ⟨⟩ s' ⟨rfl, values, helements, hvalues⟩
    refine ⟨rfl, value :: values, ?_, List.forall_mem_cons.mpr ⟨hvalue, hvalues⟩⟩
    have helement : Json.Elements first (value :: values) _ := .element (isLead_comma first hspace hspace₁) helements
    simpa only [List.append_assoc] using helement

theorem accepts_skipObject (h : ReadsLiterals lib Decodes)
    (hskip : ∀ bytes s, Accepts skip bytes s (fun lit _ s' => Spaced IsValue lit ∧ s' = s)) (hhead : bytes.headD 0 = 123) :
    Accepts (skipObject lib skip) bytes s (fun lit _ s' => s' = s ∧
      Json.IsObject (FitsKey Decodes) (fun member => IsValue member.2) lit) := by
  apply (accepts_advance (by decide) hhead ⟨rfl, rfl⟩ : Accepts advance bytes s fun lit _ s' => lit = [123] ∧ s' = s).bind
  rintro _ bytes₁ ⟨⟩ _ rfl ⟨rfl, rfl⟩
  apply accepts_skipSpace.bind
  rintro space bytes₂ ⟨⟩ _ rfl ⟨hspace, rfl⟩
  apply accepts_read_bind
  apply (accepts_skipMembers h hskip hspace (Nat.lt_succ_self _)).imp
  rintro lit ⟨⟩ s' ⟨rfl, members, hmembers, hvalues⟩
  exact ⟨rfl, members, space ++ lit, rfl, hmembers, hvalues⟩

theorem accepts_skipArray (hskip : ∀ bytes s, Accepts skip bytes s (fun lit _ s' => Spaced IsValue lit ∧ s' = s))
    (hvalue₀ : ¬ IsValue []) (hhead : bytes.headD 0 = 91) :
    Accepts (skipArray skip) bytes s (fun lit _ s' => s' = s ∧ Json.IsArray IsValue lit) := by
  apply (accepts_advance (by decide) hhead ⟨rfl, rfl⟩ : Accepts advance bytes s fun lit _ s' => lit = [91] ∧ s' = s).bind
  rintro _ bytes₁ ⟨⟩ _ rfl ⟨rfl, rfl⟩
  apply accepts_skipSpace.bind
  rintro space bytes₂ ⟨⟩ _ rfl ⟨hspace, rfl⟩
  apply accepts_read_bind
  apply (accepts_skipElements hskip hvalue₀ hspace (Nat.lt_succ_self _)).imp
  rintro lit ⟨⟩ s' ⟨rfl, values, helements, hvalues⟩
  exact ⟨rfl, values, space ++ lit, rfl, helements, hvalues⟩

/-- `skip_value` takes a value off that is nested in no more than the levels left. -/
theorem accepts_skipValue (h : ReadsLiterals lib Decodes) (levels : ℕ) (bytes : List UInt8) (s : σ) :
    Accepts (skipValue lib levels) bytes s (fun lit _ s' =>
      Spaced (Json.IsValue (FitsKey Decodes) (IsString Decodes) levels) lit ∧ s' = s) := by
  have hvalue₀ : ∀ levels, ¬ Json.IsValue (FitsKey Decodes) (IsString Decodes) levels [] := by
    intro levels hvalue
    have hopens := hvalue.opens fun ⟨_, hdecodes⟩ => h.quote hdecodes
    exact absurd List.mem_cons_self hopens.2
  induction levels generalizing bytes s with
  | zero => exact accepts_reject
  | succ levels ih =>
    apply accepts_skipSpace.bind
    rintro space bytes₁ ⟨⟩ s₁ rfl ⟨hspace, hs₁⟩
    subst hs₁
    apply accepts_peek_bind
    have hspaced : ∀ lit s', Json.IsValue (FitsKey Decodes) (IsString Decodes) (levels + 1) lit ∧ s' = s₁ →
        Spaced (Json.IsValue (FitsKey Decodes) (IsString Decodes) (levels + 1)) (space ++ lit) ∧ s' = s₁ :=
      fun lit _ hlit => ⟨⟨space, lit, rfl, hspace, hlit.1⟩, hlit.2⟩
    apply Accepts.ite
    · intro _
      apply (h.accepts none _ _).bind
      rintro lit bytes₂ text s₂ rfl ⟨hdecodes, -, hs₂⟩
      apply accepts_pure
      rw [List.append_nil]
      exact hspaced lit s₂ ⟨.inl ⟨text, hdecodes⟩, hs₂⟩
    intro _
    apply Accepts.ite
    · intro hhead
      exact (accepts_skipObject h ih hhead).imp fun lit _ s' hobject =>
        hspaced lit s' ⟨.inr (.inr (.inr (.inl hobject.2))), hobject.1⟩
    intro _
    apply Accepts.ite
    · intro hhead
      exact (accepts_skipArray ih (hvalue₀ levels) hhead).imp fun lit _ s' harray =>
        hspaced lit s' ⟨.inr (.inr (.inr (.inr harray.2))), harray.1⟩
    intro _
    apply Accepts.ite
    · intro _
      exact accepts_skipNumber.imp fun lit _ s' hnumber => hspaced lit s' ⟨.inr (.inl hnumber.1), hnumber.2⟩
    · intro _
      exact accepts_skipName.imp fun lit _ s' hword => hspaced lit s' ⟨.inr (.inr (.inl hword.1)), hword.2⟩

theorem run_space {space : List UInt8} (hspace : Json.IsSpace space) (hrest : Json.isSpace (rest.headD 0) = false) (s : σ) :
    skipSpace (.within (space ++ rest), s) = (.ok (), .within rest, s) :=
  run_skipSpace (List.all_eq_true.mpr hspace) hrest s

theorem run_peek_close {b : UInt8} (rest : List UInt8) (s : σ) (x : Reader σ Unit) :
    (peek >>= fun byte => if byte = b then advance else x) (.within (b :: rest), s) = (.ok (), .within rest, s) := by
  rw [run_peek_bind List.headD_cons, if_pos rfl]
  rfl

/-- White space, a comma or a closing bracket ends a number. -/
theorem endsNumber_of_head {b : UInt8} (h : Json.isSpace (rest.headD 0) = true ∨ rest.headD 0 = 44 ∨ rest.headD 0 = b)
    (hb : b = 125 ∨ b = 93) : EndsNumber rest := by
  have hcounter : rest.headD 0 ≠ 93 → EndsNumber rest := by
    intro hne
    apply EndsCounter.endsNumber
    rcases h with hspace | hcomma | hclose
    · exact .inl hspace
    · exact .inr (.inl hcomma)
    · exact .inr (.inr (hclose.trans (hb.resolve_right fun h => hne (hclose.trans h))))
  by_cases hbracket : rest.headD 0 = 93
  · refine ⟨?_, ?_, ?_⟩ <;> rw [hbracket] <;> decide
  · exact hcounter hbracket

theorem ReadsLiterals.opens (h : ReadsLiterals lib Decodes) {literal : List UInt8} {text : Text}
    (hdecodes : Decodes literal text) (rest : List UInt8) : (literal ++ rest).headD 0 = 34 := by
  obtain ⟨tail, rfl⟩ := List.head?_eq_some_iff.mp (h.quote hdecodes)
  rfl

/-- The comma in front of a member or an element is taken, and what is behind it opens with a byte that
does not close. -/
theorem run_lead {first : Bool} {lead : List UInt8} (hlead : Json.IsLead first lead) {close : UInt8} (hclose : close ≠ 44)
    (hspace : Json.isSpace (rest.headD 0) = false) (hhead : rest.headD 0 ≠ close) {x y : Reader σ Unit} (s : σ)
    (hx : ∀ space, Json.IsSpace space → x (.within (space ++ rest), s) = y (.within rest, s)) :
    (skipSpace >>= fun _ => peek >>= fun byte => if byte = close then advance
      else (if first then pure () else expect 44) >>= fun _ => x) (.within (lead ++ rest), s) = y (.within rest, s) := by
  cases first with
  | true =>
    rw [run_bind_of_ok (run_space hlead hspace s), run_peek_bind rfl, if_neg hhead]
    exact hx [] Json.isSpace_nil
  | false =>
    obtain ⟨before, after, hbefore, hafter, rfl⟩ := hlead
    have hassoc : before ++ 44 :: after ++ rest = before ++ (44 :: (after ++ rest)) := by simp
    rw [hassoc, run_bind_of_ok (run_space hbefore rfl s), run_peek_bind List.headD_cons, if_neg hclose.symm,
      if_neg Bool.false_ne_true, run_bind_of_ok (run_expect 44 _ s)]
    exact hx after hafter

/-- The number of bytes that are no white space, which bounds the steps of the loops. -/
def weight (bytes : List UInt8) : ℕ := bytes.countP (fun b => !Json.isSpace b)

theorem weight_append (bytes bytes' : List UInt8) : weight (bytes ++ bytes') = weight bytes + weight bytes' :=
  List.countP_append

theorem weight_cons {b : UInt8} (hb : Json.isSpace b = false) (bytes : List UInt8) : weight (b :: bytes) = weight bytes + 1 := by
  rw [weight, List.countP_cons_of_pos (by simp [hb])]
  rfl

theorem weight_dropWhile (bytes : List UInt8) : weight (bytes.dropWhile Json.isSpace) = weight bytes := by
  induction bytes with
  | nil => rfl
  | cons b bytes ih =>
    cases hb : Json.isSpace b with
    | true =>
      rw [List.dropWhile_cons_of_pos hb, ih, weight, weight, List.countP_cons_of_neg (by simp [hb])]
    | false => rw [List.dropWhile_cons_of_neg (ne_true_of_eq_false hb)]

theorem weight_pos {bytes : List UInt8} (h : Json.Opens bytes) : 0 < weight bytes := by
  cases bytes with
  | nil => exact absurd List.mem_cons_self h.2
  | cons b bytes =>
    have hb : Json.isSpace b = false := h.1
    rw [weight_cons hb]
    exact Nat.succ_pos _

def SkipsValues (skip : Reader σ Unit) (IsValue : List UInt8 → Prop) : Prop :=
  ∀ (space value rest : List UInt8) (s : σ), Json.IsSpace space → IsValue value → EndsNumber rest →
    skip (.within (space ++ (value ++ rest)), s) = (.ok (), .within rest, s)

theorem run_skipMembers_append (h : ReadsLiterals lib Decodes) (hskip : SkipsValues skip IsValue) {first : Bool}
    {members : List (Text × List UInt8)} {bytes : List UInt8} (hmembers : Json.Members (FitsKey Decodes) first members bytes)
    (hvalues : ∀ member ∈ members, IsValue member.2) {fuel : ℕ} (hfuel : weight bytes ≤ fuel) (rest : List UInt8) (s : σ) :
    (skipSpace >>= fun _ => skipMembers lib skip fuel first) (.within (bytes ++ rest), s) = (.ok (), .within rest, s) := by
  induction hmembers generalizing fuel with
  | @close first space hspace =>
    rw [weight_append, weight_cons rfl] at hfuel
    obtain ⟨fuel, rfl⟩ : ∃ n, fuel = n + 1 := ⟨fuel - 1, by omega⟩
    rw [List.append_assoc, run_bind_of_ok (run_space hspace rfl s)]
    exact run_peek_close rest s _
  | @member first lead key before after value bytes name members hlead hkey hbefore hafter hrest ih =>
    simp only [weight_append, weight_cons (rfl : Json.isSpace 58 = false)] at hfuel
    obtain ⟨fuel, rfl⟩ : ∃ n, fuel = n + 1 := ⟨fuel - 1, by omega⟩
    obtain ⟨hvalue, hvalues⟩ := List.forall_mem_cons.mp hvalues
    have hopens := h.opens hkey.1
    have hends : EndsNumber (bytes ++ rest) := endsNumber_of_head (hrest.head rest) (.inl rfl)
    have hassoc : lead ++ (key ++ (before ++ 58 :: (after ++ (value ++ bytes)))) ++ rest =
        lead ++ (key ++ (before ++ (58 :: (after ++ (value ++ (bytes ++ rest)))))) := by simp
    have hfits : ∀ n ∈ some jsonKeyCapacity, name.length < n := fun n hn => Option.some.inj hn ▸ hkey.2
    rw [hassoc]
    refine (run_lead hlead (by decide) (by rw [hopens]; rfl) (by rw [hopens]; decide) s
      (y := parseString lib (some jsonKeyCapacity) >>= fun _ => skipSpace >>= fun _ => expect 58 >>= fun _ =>
        skip >>= fun _ => skipSpace >>= fun _ => skipMembers lib skip fuel false) fun space hspace => ?_).trans ?_
    · exact run_bind_of_ok (run_space hspace (by rw [hopens]; rfl) s)
    · rw [run_bind_of_ok (h.run hkey.1 hfits _ s), run_bind_of_ok (run_space hbefore rfl s),
        run_bind_of_ok (run_expect 58 _ s), run_bind_of_ok (hskip after value _ s hafter hvalue hends)]
      exact ih hvalues (by omega)

theorem run_skipElements_append (hskip : SkipsValues skip IsValue) (hopens : ∀ value, IsValue value → Json.Opens value)
    {first : Bool} {values : List (List UInt8)} {bytes : List UInt8} (helements : Json.Elements first values bytes)
    (hvalues : ∀ value ∈ values, IsValue value) {fuel : ℕ} (hfuel : weight bytes ≤ fuel) (rest : List UInt8) (s : σ) :
    (skipSpace >>= fun _ => skipElements skip fuel first) (.within (bytes ++ rest), s) = (.ok (), .within rest, s) := by
  induction helements generalizing fuel with
  | @close first space hspace =>
    rw [weight_append, weight_cons rfl] at hfuel
    obtain ⟨fuel, rfl⟩ : ∃ n, fuel = n + 1 := ⟨fuel - 1, by omega⟩
    rw [List.append_assoc, run_bind_of_ok (run_space hspace rfl s)]
    exact run_peek_close rest s _
  | @element first lead value bytes values hlead hrest ih =>
    obtain ⟨hvalue, hvalues⟩ := List.forall_mem_cons.mp hvalues
    obtain ⟨hspace, hhead⟩ := (hopens value hvalue).append (bytes ++ rest)
    simp only [List.mem_cons, List.not_mem_nil, or_false, not_or] at hhead
    have hends : EndsNumber (bytes ++ rest) := endsNumber_of_head (hrest.head rest) (.inr rfl)
    have hpositive := weight_pos (hopens value hvalue)
    simp only [weight_append] at hfuel
    obtain ⟨fuel, rfl⟩ : ∃ n, fuel = n + 1 := ⟨fuel - 1, by omega⟩
    have hassoc : lead ++ (value ++ bytes) ++ rest = lead ++ (value ++ (bytes ++ rest)) := by simp
    have hskipped : skip (.within (value ++ (bytes ++ rest)), s) = (.ok (), .within (bytes ++ rest), s) :=
      hskip [] value _ s Json.isSpace_nil hvalue hends
    rw [hassoc]
    refine (run_lead hlead (by decide) hspace hhead.2.1 s
      (y := skip >>= fun _ => skipSpace >>= fun _ => skipElements skip fuel false) fun space hspace => ?_).trans ?_
    · rw [run_bind_of_ok (hskip space value _ s hspace hvalue hends), run_bind_of_ok hskipped]
    · rw [run_bind_of_ok hskipped]
      exact ih hvalues (by omega)

theorem run_skipObject_append (h : ReadsLiterals lib Decodes) (hskip : SkipsValues skip IsValue) {bytes : List UInt8}
    (hobject : Json.IsObject (FitsKey Decodes) (fun member => IsValue member.2) bytes) (rest : List UInt8) (s : σ) :
    skipObject lib skip (.within (bytes ++ rest), s) = (.ok (), .within rest, s) := by
  obtain ⟨members, body, rfl, hmembers, hvalues⟩ := hobject
  have hfuel : weight body ≤ ((body ++ rest).dropWhile Json.isSpace).length + 1 := by
    have hweight := weight_dropWhile (body ++ rest)
    have hle : weight ((body ++ rest).dropWhile Json.isSpace) ≤ _ := List.countP_le_length
    rw [weight_append] at hweight
    omega
  exact run_skipMembers_append h hskip hmembers hvalues hfuel rest s

theorem run_skipArray_append (hskip : SkipsValues skip IsValue) (hopens : ∀ value, IsValue value → Json.Opens value)
    {bytes : List UInt8} (harray : Json.IsArray IsValue bytes) (rest : List UInt8) (s : σ) :
    skipArray skip (.within (bytes ++ rest), s) = (.ok (), .within rest, s) := by
  obtain ⟨values, body, rfl, helements, hvalues⟩ := harray
  have hfuel : weight body ≤ ((body ++ rest).dropWhile Json.isSpace).length + 1 := by
    have hweight := weight_dropWhile (body ++ rest)
    have hle : weight ((body ++ rest).dropWhile Json.isSpace) ≤ _ := List.countP_le_length
    rw [weight_append] at hweight
    omega
  exact run_skipElements_append hskip hopens helements hvalues hfuel rest s

/-- `skip_value` steps over every value that is nested in no more than the levels left. -/
theorem skipsValues_skipValue (h : ReadsLiterals lib Decodes) (levels : ℕ) :
    SkipsValues (skipValue lib levels : Reader σ Unit) (Json.IsValue (FitsKey Decodes) (IsString Decodes) levels) := by
  induction levels with
  | zero => exact fun _ _ _ _ _ hvalue _ => hvalue.elim
  | succ levels ih =>
    intro space value rest s hspace hvalue hends
    have hquote : ∀ {bytes}, IsString Decodes bytes → bytes.head? = some 34 := fun ⟨_, hdecodes⟩ => h.quote hdecodes
    have hopens := (hvalue.opens hquote).append rest
    rw [skipValue, run_bind_of_ok (run_space hspace hopens.1 s), run_peek_bind rfl]
    rcases hvalue with ⟨text, hdecodes⟩ | hnumber | hword | hobject | harray
    · rw [if_pos (h.opens hdecodes rest), run_bind_of_ok (h.run hdecodes (by simp) rest s)]
      rfl
    · have hhead := hnumber.head rest
      have hne : ∀ b, Decimal.isDigit b = false → b ≠ 45 → (value ++ rest).headD 0 ≠ b := by
        rintro b hdigit hminus rfl
        exact hhead.elim (fun h => absurd h (ne_true_of_eq_false hdigit)) hminus
      rw [if_neg (hne 34 rfl (by decide)), if_neg (hne 123 rfl (by decide)), if_neg (hne 91 rfl (by decide)), if_pos hhead]
      exact run_skipNumber_append hnumber hends s
    · have hrun := run_skipName_append hword rest s
      simp only [Json.words, List.mem_cons, List.not_mem_nil, or_false] at hword
      rcases hword with rfl | rfl | rfl <;> exact hrun
    · obtain ⟨_, body, rfl, -⟩ := id hobject
      exact run_skipObject_append h ih hobject rest s
    · obtain ⟨_, body, rfl, -⟩ := id harray
      exact run_skipArray_append ih (fun value hvalue => hvalue.opens hquote) harray rest s

variable {handle : Text → Reader σ Unit} {H : Text → List UInt8 → σ → σ → Prop}

/-- The loop that the readers of objects share. -/
theorem accepts_readMembers (h : ReadsLiterals lib Decodes) (hhandle : ∀ key bytes s, Accepts (handle key) bytes s
      (fun lit _ s' => ∃ space value, lit = space ++ value ∧ Json.IsSpace space ∧ H key value s s')) {fuel : ℕ} {first : Bool}
    (hfuel : bytes.length < fuel) :
    Accepts (readMembers lib handle fuel first) bytes s (fun lit _ s' =>
      ∃ members, Json.Members (FitsKey Decodes) first members lit ∧ Handles H members s s') := by
  induction fuel generalizing bytes s first with
  | zero => exact absurd hfuel (Nat.not_lt_zero _)
  | succ fuel ih =>
    apply accepts_skipSpace.bind
    rintro space bytes₁ ⟨⟩ s₁ rfl ⟨hspace, rfl⟩
    apply accepts_peek_bind
    apply Accepts.ite
    · intro hclose
      exact accepts_advance (by decide) hclose ⟨[], .close hspace, .nil⟩
    intro _
    have hcomma : Accepts (if first then pure () else expect 44 >>= fun _ => skipSpace) bytes₁ s₁
        (fun lit _ s' => Json.IsLead first (space ++ lit) ∧ s' = s₁) := by
      cases first with
      | true => exact accepts_pure ⟨by rwa [List.append_nil], rfl⟩
      | false =>
        apply (accepts_expect (by decide)).bind
        rintro _ bytes₂ ⟨⟩ _ rfl ⟨rfl, rfl⟩
        exact accepts_skipSpace.imp fun after _ s' hafter => ⟨⟨space, after, hspace, hafter.1, rfl⟩, hafter.2⟩
    apply hcomma.bind
    rintro comma bytes₂ ⟨⟩ _ rfl ⟨hlead, rfl⟩
    apply (h.accepts (some jsonKeyCapacity) _ _).bind
    rintro key bytes₃ name _ rfl ⟨hkey, hsize, rfl⟩
    apply accepts_skipSpace.bind
    rintro before bytes₄ ⟨⟩ _ rfl ⟨hbefore, rfl⟩
    apply (accepts_expect (by decide)).bind
    rintro _ bytes₅ ⟨⟩ _ rfl ⟨rfl, rfl⟩
    apply accepts_skipSpace.bind
    rintro after bytes₆ ⟨⟩ _ rfl ⟨hafter, rfl⟩
    apply (hhandle name _ _).bind
    rintro _ bytes₇ ⟨⟩ t rfl ⟨after', value, rfl, hafter', hmember⟩
    have hfuel₇ : bytes₇.length < fuel := by
      simp only [List.length_append, List.length_singleton] at hfuel
      omega
    apply (ih hfuel₇).imp
    rintro lit ⟨⟩ s' ⟨members, hmembers, hhandles⟩
    refine ⟨(name, value) :: members, ?_, .cons hmember hhandles⟩
    have hmember : Json.Members (FitsKey Decodes) first ((name, value) :: members) _ :=
      .member hlead ⟨hkey, hsize _ rfl⟩ hbefore (hafter.append hafter') hmembers
    simpa only [List.append_assoc, List.singleton_append] using hmember

theorem accepts_readObject (h : ReadsLiterals lib Decodes) (hhandle : ∀ key bytes s, Accepts (handle key) bytes s
      (fun lit _ s' => ∃ space value, lit = space ++ value ∧ Json.IsSpace space ∧ H key value s s')) :
    Accepts (readObject lib handle) bytes s (fun lit _ s' =>
      ∃ members body, lit = 123 :: body ∧ Json.Members (FitsKey Decodes) true members body ∧ Handles H members s s') := by
  apply (accepts_expect (by decide)).bind
  rintro _ bytes₁ ⟨⟩ _ rfl ⟨rfl, rfl⟩
  apply accepts_read_bind
  apply (accepts_readMembers h hhandle (Nat.lt_succ_self _)).imp
  rintro lit ⟨⟩ s' ⟨members, hmembers, hhandles⟩
  exact ⟨members, lit, rfl, hmembers, hhandles⟩

structure HandlesValues (handle : Text → Reader σ Unit) (H : Text → List UInt8 → σ → σ → Prop) : Prop where
  opens : ∀ {key value s s'}, H key value s s' → Json.Opens value
  runs : ∀ {key value s s'} (rest : List UInt8), H key value s s' → EndsNumber rest →
    handle key (.within (value ++ rest), s) = (.ok (), .within rest, s')

/-- The comma in front of a member is taken, with the white space around it. -/
theorem run_comma {first : Bool} {lead : List UInt8} (hlead : Json.IsLead first lead) (rest : List UInt8)
    (hspace : Json.isSpace (rest.headD 0) = false) (hhead : rest.headD 0 ≠ 125) (s : σ) :
    ∃ space tail, Json.IsSpace space ∧ lead = space ++ tail ∧ Json.isSpace ((tail ++ rest).headD 0) = false ∧
      (tail ++ rest).headD 0 ≠ 125 ∧
      (if first then pure () else expect 44 >>= fun _ => skipSpace) (.within (tail ++ rest), s) = (.ok (), .within rest, s) := by
  cases first with
  | true => exact ⟨lead, [], hlead, (List.append_nil lead).symm, hspace, hhead, rfl⟩
  | false =>
    obtain ⟨before, after, hbefore, hafter, rfl⟩ := hlead
    refine ⟨before, 44 :: after, hbefore, rfl, rfl, by simp, ?_⟩
    rw [if_neg Bool.false_ne_true, List.cons_append, run_bind_of_ok (run_expect 44 _ s)]
    exact run_space hafter hspace s

theorem run_readMembers_append (h : ReadsLiterals lib Decodes) (hhandle : HandlesValues handle H) {first : Bool}
    {members : List (Text × List UInt8)} {bytes : List UInt8} (hmembers : Json.Members (FitsKey Decodes) first members bytes)
    {s s' : σ} (hhandles : Handles H members s s') {fuel : ℕ} (hfuel : weight bytes ≤ fuel) (rest : List UInt8) :
    readMembers lib handle fuel first (.within (bytes ++ rest), s) = (.ok (), .within rest, s') := by
  induction hmembers generalizing fuel s with
  | @close first space hspace =>
    cases hhandles
    rw [weight_append, weight_cons rfl] at hfuel
    obtain ⟨fuel, rfl⟩ : ∃ n, fuel = n + 1 := ⟨fuel - 1, by omega⟩
    have hassoc : space ++ [125] ++ rest = space ++ 125 :: rest := by simp
    rw [hassoc, readMembers, run_bind_of_ok (run_space hspace rfl _)]
    exact run_peek_close rest _ _
  | @member first lead key before after value bytes name members hlead hkey hbefore hafter hrest ih =>
    cases hhandles with
    | cons hmember hhandles =>
    simp only [weight_append, weight_cons (rfl : Json.isSpace 58 = false)] at hfuel
    obtain ⟨fuel, rfl⟩ : ∃ n, fuel = n + 1 := ⟨fuel - 1, by omega⟩
    have hopens := h.opens hkey.1
    have hvalue := (hhandle.opens hmember).append (bytes ++ rest)
    have hends : EndsNumber (bytes ++ rest) := endsNumber_of_head (hrest.head rest) (.inl rfl)
    have hassoc : lead ++ (key ++ (before ++ 58 :: (after ++ (value ++ bytes)))) ++ rest =
        lead ++ (key ++ (before ++ (58 :: (after ++ (value ++ (bytes ++ rest)))))) := by simp
    have hfits : ∀ n ∈ some jsonKeyCapacity, name.length < n := fun n hn => Option.some.inj hn ▸ hkey.2
    obtain ⟨space, tail, hspace, rfl, htail, hclose, hcomma⟩ := run_comma hlead
      (key ++ (before ++ (58 :: (after ++ (value ++ (bytes ++ rest)))))) (by rw [hopens]; rfl) (by rw [hopens]; decide) s
    rw [hassoc, List.append_assoc, readMembers, run_bind_of_ok (run_space hspace htail s), run_peek_bind rfl, if_neg hclose,
      run_bind_of_ok hcomma, run_bind_of_ok (h.run hkey.1 hfits _ s), run_bind_of_ok (run_space hbefore rfl s),
      run_bind_of_ok (run_expect 58 _ s), run_bind_of_ok (run_space hafter hvalue.1 s),
      run_bind_of_ok (hhandle.runs _ hmember hends)]
    exact ih hhandles (by omega)

theorem run_readObject_append (h : ReadsLiterals lib Decodes) (hhandle : HandlesValues handle H)
    {members : List (Text × List UInt8)} {body : List UInt8} (hmembers : Json.Members (FitsKey Decodes) true members body)
    {s s' : σ} (hhandles : Handles H members s s') (rest : List UInt8) :
    readObject lib handle (.within (123 :: body ++ rest), s) = (.ok (), .within rest, s') := by
  have hfuel : weight body ≤ (body ++ rest).length + 1 := by
    have hweight : weight body ≤ body.length := List.countP_le_length
    rw [List.length_append]
    omega
  rw [List.cons_append, readObject, run_bind_of_ok (run_expect 123 _ s)]
  exact run_readMembers_append h hhandle hmembers hhandles hfuel rest

end Grammar

end ToolEvent.Summary
