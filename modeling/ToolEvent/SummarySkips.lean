import ToolEvent.EventFields
import ToolEvent.JsonText
import ToolEvent.SummaryReader

/-!
# Values that the skipper steps over

`skip_value` steps over the strings, numbers, arrays and objects that the writers of
`src/analysis.c` put together, as long as they are not nested too deep.
-/

namespace ToolEvent.Summary

open Fallible ModelAnalysis

theorem hexValue_hexDigit : ∀ n < 16, Json.hexValue (hexDigit n) = some n := by decide

/-- The writer spells every byte but the terminator. -/
theorem spellsByte_jsonByte {b : UInt8} : SpellsByte (jsonByte b) b := by
  unfold jsonByte
  split_ifs with hquote hnewline hreturn htab hcontrol hnewline hreturn htab hcontrol
  · rcases hquote with rfl | rfl <;> exact absurd hnewline (by decide)
  · rcases hquote with rfl | rfl <;> exact absurd hreturn (by decide)
  · rcases hquote with rfl | rfl <;> exact absurd htab (by decide)
  · rcases hquote with rfl | rfl <;> exact absurd hcontrol (by decide)
  · rcases hquote with rfl | rfl
    · exact .escape (by decide)
    · exact .escape (by decide)
  · subst hnewline
    exact .escape (by decide)
  · subst hreturn
    exact .escape (by decide)
  · subst htab
    exact .escape (by decide)
  · have hlt : b.toNat < 32 := UInt8.lt_iff_toNat_lt.mp hcontrol
    refine .unicode (hexValue_hexDigit _ (by omega)) (hexValue_hexDigit _ (by omega)) (by omega) ?_
    exact UInt8.lt_trans hcontrol (by decide)
  · rw [not_or] at hquote
    exact .plain (UInt8.not_lt.mp hcontrol) hquote.1 hquote.2

theorem isLiteral_writeJsonString (text : Text) : IsLiteral (writeJsonString text).bytes text := by
  refine ⟨text.bytes.map jsonByte, ?_, ?_⟩
  · rw [List.forall₂_map_left_iff, List.forall₂_same]
    exact fun b _ => spellsByte_jsonByte
  · change 34 :: text.bytes.flatMap jsonByte ++ [34] = _
    rw [List.flatMap_def]

variable {σ α : Type} {lib : JsonLibrary}

theorem run_peek_bind {bytes : List UInt8} {b : UInt8} (h : bytes.headD 0 = b) (f : UInt8 → Reader σ α) (s : σ) :
    (peek >>= f) (.within bytes, s) = f b (.within bytes, s) := by
  subst h
  rfl

theorem run_advance_bind (f : Unit → Reader σ α) (b : UInt8) (rest : List UInt8) (s : σ) :
    (advance >>= f) (.within (b :: rest), s) = f () (.within rest, s) := rfl

theorem run_expect (b : UInt8) (rest : List UInt8) (s : σ) :
    expect b (.within (b :: rest), s) = (.ok (), .within rest, s) := by
  rw [expect, run_peek_bind List.headD_cons, run_advance_bind, if_pos rfl, run_pure]

theorem run_parseString {size : Option ℕ} {text : Text} (hsize : ∀ n, size = some n → text.length < n)
    (rest : List UInt8) (s : σ) :
    parseString lib size (.within ((writeJsonString text).bytes ++ rest), s) = (.ok text, .within rest, s) := by
  have hread : lib.readString size ((writeJsonString text).bytes ++ rest) = some (text, rest) :=
    lib.readString_literal (isLiteral_writeJsonString text) hsize
  simp [parseString, onBytes, hread]

/-- White space before a byte that is none. -/
theorem run_skipSpace {spaces rest : List UInt8} (hspaces : spaces.all Json.isSpace = true)
    (hrest : Json.isSpace (rest.headD 0) = false) (s : σ) :
    skipSpace (.within (spaces ++ rest), s) = (.ok (), .within rest, s) := by
  have hdrop : (spaces ++ rest).dropWhile Json.isSpace = rest := by
    rw [List.dropWhile_append_of_pos fun b hb => List.all_eq_true.mp hspaces b hb]
    cases rest with
    | nil => rfl
    | cons b rest => exact List.dropWhile_cons_of_neg (by simpa using hrest)
  simp [skipSpace, onBytes, hdrop]

theorem run_skipSpace_nil {rest : List UInt8} (hrest : Json.isSpace (rest.headD 0) = false) (s : σ) :
    skipSpace (.within rest, s) = (.ok (), .within rest, s) := by
  have hspaces : ([] : List UInt8).all Json.isSpace = true := rfl
  exact run_skipSpace hspaces hrest s

def Delimited (rest : List UInt8) : Prop := rest.headD 0 ∈ ([44, 125, 93, 10] : List UInt8)

/-- `skip_value` steps over the bytes when a delimiter follows. -/
def Skips (lib : JsonLibrary) (levels : ℕ) (bytes : List UInt8) : Prop :=
  ∀ {σ : Type} (s : σ) (rest : List UInt8), Delimited rest →
    skipValue lib levels (.within (bytes ++ rest), s) = (.ok (), .within rest, s)

theorem headD_writeJsonString (text : Text) (rest : List UInt8) :
    ((writeJsonString text).bytes ++ rest).headD 0 = 34 := rfl

/-- The case distinction of `skip_value` when no white space comes first. -/
theorem run_skipValue {bytes : List UInt8} {b : UInt8} (h : bytes.headD 0 = b) (hspace : Json.isSpace b = false)
    (levels : ℕ) (s : σ) :
    skipValue lib (levels + 1) (.within bytes, s) =
      (if b = 34 then parseString lib none >>= fun _ => pure ()
      else if b = 123 then skipObject lib (skipValue lib levels)
      else if b = 91 then skipArray (skipValue lib levels)
      else if Decimal.isDigit b ∨ b = 45 then skipNumber
      else skipName ["true", "null", "false"]) (.within bytes, s) := by
  rw [skipValue, run_bind_of_ok (run_skipSpace_nil (h ▸ hspace) s), run_peek_bind h]

theorem skips_string (levels : ℕ) (text : Text) : Skips lib (levels + 1) (writeJsonString text).bytes := by
  intro σ s rest _
  rw [run_skipValue (headD_writeJsonString text rest) rfl, if_pos rfl, run_bind_of_ok (run_parseString (by simp) rest s)]
  rfl

def memberBytes (member : Text × List UInt8) : List UInt8 := (writeJsonString member.1).bytes ++ 58 :: member.2

def followed (members : List (Text × List UInt8)) : List UInt8 :=
  members.flatMap (fun member => 44 :: memberBytes member)

def objectBytes (first : Text × List UInt8) (members : List (Text × List UInt8)) : List UInt8 :=
  123 :: memberBytes first ++ followed members ++ [125]

/-- A member whose key fits its buffer and whose value is stepped over. -/
def SkipsMember (lib : JsonLibrary) (levels : ℕ) (member : Text × List UInt8) : Prop :=
  member.1.length < jsonKeyCapacity ∧ Skips lib levels member.2

/-- The part of `skip_object` between two commas. -/
theorem run_member_bind {levels : ℕ} {member : Text × List UInt8} (h : SkipsMember lib levels member)
    {rest : List UInt8} (hrest : rest.headD 0 = 44 ∨ rest.headD 0 = 125) (s : σ) (f : Unit → Reader σ α) :
    (skipSpace >>= fun _ => parseString lib (some jsonKeyCapacity) >>= fun _ => skipSpace >>= fun _ =>
      expect 58 >>= fun _ => skipValue lib levels >>= fun _ => skipSpace >>= f)
        (.within (memberBytes member ++ rest), s) = f () (.within rest, s) := by
  obtain ⟨hkey, hvalue⟩ := h
  have hbytes : memberBytes member ++ rest =
      (writeJsonString member.1).bytes ++ 58 :: (member.2 ++ rest) := by simp [memberBytes]
  have hsize : ∀ n, some jsonKeyCapacity = some n → member.1.length < n := fun n hn =>
    Option.some.inj hn ▸ hkey
  have hspace : Json.isSpace (rest.headD 0) = false := by
    rcases hrest with hcomma | hbrace
    · rw [hcomma]
      rfl
    · rw [hbrace]
      rfl
  have hdelimited : Delimited rest := by
    rcases hrest with hcomma | hbrace
    · rw [Delimited, hcomma]
      decide
    · rw [Delimited, hbrace]
      decide
  rw [hbytes, run_bind_of_ok (run_skipSpace_nil (by rw [headD_writeJsonString]; rfl) s),
    run_bind_of_ok (run_parseString hsize _ s), run_bind_of_ok (run_skipSpace_nil rfl s),
    run_bind_of_ok (run_expect 58 _ s), run_bind_of_ok (hvalue s rest hdelimited),
    run_bind_of_ok (run_skipSpace_nil hspace s)]

theorem headD_followed (members : List (Text × List UInt8)) (rest : List UInt8) :
    (followed members ++ 125 :: rest).headD 0 = 44 ∨ (followed members ++ 125 :: rest).headD 0 = 125 := by
  cases members with
  | nil => exact .inr rfl
  | cons member members => exact .inl rfl

theorem run_skipMembers {levels : ℕ} {members : List (Text × List UInt8)}
    (h : ∀ member ∈ members, SkipsMember lib levels member) {fuel : ℕ} (hfuel : members.length < fuel)
    (rest : List UInt8) (s : σ) :
    skipMembers lib (skipValue lib levels) fuel false (.within (followed members ++ 125 :: rest), s) =
      (.ok (), .within rest, s) := by
  induction members generalizing fuel with
  | nil =>
    obtain ⟨fuel, rfl⟩ := Nat.exists_eq_add_one_of_ne_zero (Nat.ne_zero_of_lt hfuel)
    rfl
  | cons member members ih =>
    obtain ⟨fuel, rfl⟩ := Nat.exists_eq_add_one_of_ne_zero (Nat.ne_zero_of_lt hfuel)
    have hbytes : followed (member :: members) ++ 125 :: rest =
        44 :: (memberBytes member ++ (followed members ++ 125 :: rest)) := by simp [followed]
    rw [hbytes, skipMembers, run_peek_bind List.headD_cons, if_neg (by decide), if_neg (by decide),
      run_bind_of_ok (run_expect 44 _ s),
      run_member_bind (h member List.mem_cons_self) (headD_followed members rest)]
    exact ih (fun m hm => h m (List.mem_cons_of_mem _ hm)) (Nat.lt_of_succ_lt_succ hfuel)

theorem length_le_followed (members : List (Text × List UInt8)) : members.length ≤ (followed members).length := by
  induction members with
  | nil => exact Nat.le_refl 0
  | cons member members ih =>
    rw [followed, List.flatMap_cons, List.length_append, List.length_cons, List.length_cons]
    rw [followed] at ih
    omega

theorem skips_object {levels : ℕ} {first : Text × List UInt8} {members : List (Text × List UInt8)}
    (h : ∀ member ∈ first :: members, SkipsMember lib levels member) :
    Skips lib (levels + 1) (objectBytes first members) := by
  intro σ s rest _
  have hbytes : objectBytes first members ++ rest =
      123 :: (memberBytes first ++ (followed members ++ 125 :: rest)) := by simp [objectBytes]
  have hlength := length_le_followed members
  have hfirst : (memberBytes first ++ (followed members ++ 125 :: rest)).headD 0 = 34 := rfl
  rw [hbytes, run_skipValue List.headD_cons rfl, if_neg (by decide), if_pos rfl, skipObject, run_advance_bind,
    run_bind_of_ok (run_skipSpace_nil (by rw [hfirst]; rfl) s), run_read_bind, Cursor.steps, skipMembers,
    run_peek_bind hfirst, if_neg (by decide), if_pos rfl, run_bind_of_ok (run_pure _ _),
    run_member_bind (h first List.mem_cons_self) (headD_followed members rest)]
  refine run_skipMembers (fun member hmember => h member (List.mem_cons_of_mem _ hmember)) ?_ rest s
  simp only [List.length_append, List.length_cons]
  omega

structure EndsNumber (rest : List UInt8) : Prop where
  digit : Decimal.isDigit (rest.headD 0) = false
  point : rest.headD 0 ≠ 46
  exponent : ¬ (rest.headD 0 = 101 ∨ rest.headD 0 = 69)

theorem Delimited.endsNumber {rest : List UInt8} (h : Delimited rest) : EndsNumber rest := by
  unfold Delimited at h
  generalize hb : rest.headD 0 = b at h
  have hcases : b = 44 ∨ b = 125 ∨ b = 93 ∨ b = 10 := by simpa using h
  rcases hcases with rfl | rfl | rfl | rfl <;>
    exact ⟨by rw [hb]; rfl, by rw [hb]; decide, by rw [hb]; decide⟩

theorem dropWhile_digits (n : ℕ) {rest : List UInt8} (h : EndsNumber rest) :
    (Decimal.digits n ++ rest).dropWhile Decimal.isDigit = rest := by
  rw [List.dropWhile_append_of_pos (Decimal.isNumeral_digits n).digits]
  cases rest with
  | nil => rfl
  | cons b rest => exact List.dropWhile_cons_of_neg (by simpa using h.digit)

/-- The integer part that is skipped is the digits of a number. -/
theorem skipInteger_digits (n : ℕ) {rest : List UInt8} (h : EndsNumber rest) :
    skipInteger (Decimal.digits n ++ rest) = some rest := by
  have hdrop := dropWhile_digits n h
  have hdigits := (Decimal.isNumeral_digits n).digits
  obtain ⟨d, ds, hn, hzero⟩ := Decimal.digits_eq_cons n
  rw [hn] at hdrop hdigits ⊢
  have hd : Decimal.isDigit d = true := hdigits d List.mem_cons_self
  unfold skipInteger
  split
  · next h48 =>
    obtain rfl := hzero h48
    exact if_neg (by simpa using h.digit)
  · unfold skipDigits
    rw [hdrop]
    exact if_pos hd

theorem run_skipNumber {bytes rest : List UInt8} (h : EndsNumber rest)
    (hinteger : skipInteger (if (bytes ++ rest).headD 0 = 45 then (bytes ++ rest).tail else bytes ++ rest) = some rest)
    (s : σ) : skipNumber (.within (bytes ++ rest), s) = (.ok (), .within rest, s) := by
  have hfraction : skipFraction rest = some rest := if_neg h.point
  have hexponent : skipExponent rest = some rest := if_neg h.exponent
  simp only [skipNumber, onBytes, hinteger, hfraction, hexponent, Option.bind_eq_bind, Option.bind_some,
    Option.pure_def]

theorem isSpace_of_isDigit {d : UInt8} (h : Decimal.isDigit d = true) : Json.isSpace d = false := by
  have hne : ∀ b, Decimal.isDigit b = false → d ≠ b := by
    rintro b hb rfl
    rw [h] at hb
    cases hb
  have h32 := hne 32 rfl
  have h9 := hne 9 rfl
  have h10 := hne 10 rfl
  have h13 := hne 13 rfl
  simp [Json.isSpace, h32, h9, h10, h13]

theorem skips_digits (levels n : ℕ) : Skips lib (levels + 1) (Decimal.digits n) := by
  intro σ s rest hrest
  have hends := hrest.endsNumber
  have hinteger := skipInteger_digits n hends
  have hdigits := (Decimal.isNumeral_digits n).digits
  obtain ⟨d, ds, hn, -⟩ := Decimal.digits_eq_cons n
  rw [hn] at hinteger hdigits ⊢
  have hd : Decimal.isDigit d = true := hdigits d List.mem_cons_self
  have hne : ∀ b, Decimal.isDigit b = false → d ≠ b := by
    rintro b hb rfl
    rw [hd] at hb
    cases hb
  have hspace := isSpace_of_isDigit hd
  have hhead : (d :: ds ++ rest).headD 0 = d := rfl
  rw [run_skipValue hhead hspace, if_neg (hne 34 rfl), if_neg (hne 123 rfl), if_neg (hne 91 rfl), if_pos (.inl hd)]
  refine run_skipNumber hends ?_ s
  rw [hhead, if_neg (hne 45 rfl)]
  exact hinteger

/-- `%d` writes a number that is skipped. -/
theorem skips_decimal (levels : ℕ) (n : ℤ) : Skips lib (levels + 1) (Text.decimal n).bytes := by
  rcases Int.lt_or_le n 0 with hneg | hnonneg
  · rw [Text.bytes_decimal_of_neg hneg]
    intro σ s rest hrest
    have hends := hrest.endsNumber
    have hhead : (45 :: Decimal.digits n.natAbs ++ rest).headD 0 = 45 := rfl
    rw [run_skipValue hhead rfl, if_neg (by decide), if_neg (by decide), if_neg (by decide), if_pos (.inr rfl)]
    refine run_skipNumber hends ?_ s
    rw [hhead, if_pos rfl]
    exact skipInteger_digits _ hends
  · rw [Text.bytes_decimal_of_nonneg hnonneg]
    exact skips_digits levels _

/-- The layout of an array: white space before every element and before the bracket. -/
def laidOut (front : List UInt8) (elements : List (List UInt8)) : List UInt8 :=
  elements.flatMap (fun element => 44 :: front ++ element)

def arrayBytes (front back : List UInt8) : List (List UInt8) → List UInt8
  | [] => 91 :: back ++ [93]
  | element :: elements => 91 :: front ++ element ++ laidOut front elements ++ back ++ [93]

theorem skipValue_spaces {spaces bytes : List UInt8} (hspaces : spaces.all Json.isSpace = true) (levels : ℕ) (s : σ) :
    skipValue lib (levels + 1) (.within (spaces ++ bytes), s) = skipValue lib (levels + 1) (.within bytes, s) := by
  have hdrop : (spaces ++ bytes).dropWhile Json.isSpace = bytes.dropWhile Json.isSpace :=
    List.dropWhile_append_of_pos fun b hb => List.all_eq_true.mp hspaces b hb
  have hskip : (skipSpace : Reader σ Unit) (.within (spaces ++ bytes), s) = skipSpace (.within bytes, s) := by
    simp [skipSpace, onBytes, hdrop]
  rw [skipValue, run_bind, hskip, ← run_bind]

/-- White space before the elements and before the bracket, which a line break begins, if any. -/
structure IsLayout (front back : List UInt8) : Prop where
  before : front.all Json.isSpace = true
  closing : back.all Json.isSpace = true
  closing_head : back.headD 93 = 10 ∨ back.headD 93 = 93

theorem IsLayout.delimited {front back : List UInt8} (h : IsLayout front back) (elements : List (List UInt8))
    (rest : List UInt8) : Delimited (laidOut front elements ++ back ++ 93 :: rest) := by
  cases elements with
  | cons element elements =>
    change (44 : UInt8) ∈ [44, 125, 93, 10]
    decide
  | nil =>
    have hhead : (laidOut front [] ++ back ++ 93 :: rest).headD 0 = back.headD 93 := by cases back <;> rfl
    rw [Delimited, hhead]
    rcases h.closing_head with hbreak | hbracket
    · rw [hbreak]
      decide
    · rw [hbracket]
      decide

/-- The loop of `skip_array` after an element. -/
theorem run_skipElements {front back : List UInt8} (hlayout : IsLayout front back) {levels : ℕ}
    {elements : List (List UInt8)} (h : ∀ element ∈ elements, Skips lib (levels + 1) element) {fuel : ℕ}
    (hfuel : elements.length < fuel) (rest : List UInt8) (s : σ) :
    (skipSpace >>= fun _ => skipElements (skipValue lib (levels + 1)) fuel false)
      (.within (laidOut front elements ++ back ++ 93 :: rest), s) = (.ok (), .within rest, s) := by
  induction elements generalizing fuel with
  | nil =>
    obtain ⟨fuel, rfl⟩ := Nat.exists_eq_add_one_of_ne_zero (Nat.ne_zero_of_lt hfuel)
    have hbytes : laidOut front [] ++ back ++ 93 :: rest = back ++ 93 :: rest := rfl
    rw [hbytes, run_bind_of_ok (run_skipSpace hlayout.closing rfl s)]
    rfl
  | cons element elements ih =>
    obtain ⟨fuel, rfl⟩ := Nat.exists_eq_add_one_of_ne_zero (Nat.ne_zero_of_lt hfuel)
    have hbytes : laidOut front (element :: elements) ++ back ++ 93 :: rest =
        44 :: (front ++ (element ++ (laidOut front elements ++ back ++ 93 :: rest))) := by simp [laidOut]
    rw [hbytes, run_bind_of_ok (run_skipSpace_nil rfl s), skipElements, run_peek_bind List.headD_cons,
      if_neg (by decide), if_neg (by decide), run_bind_of_ok (run_expect 44 _ s)]
    have hskip := h element List.mem_cons_self s _ (hlayout.delimited elements rest)
    rw [run_bind_of_ok ((skipValue_spaces hlayout.before levels s).trans hskip)]
    exact ih (fun e he => h e (List.mem_cons_of_mem _ he)) (Nat.lt_of_succ_lt_succ hfuel)

theorem length_le_laidOut (front : List UInt8) (elements : List (List UInt8)) :
    elements.length ≤ (laidOut front elements).length := by
  induction elements with
  | nil => exact Nat.le_refl 0
  | cons element elements ih =>
    rw [laidOut, List.flatMap_cons, List.length_append, List.length_append, List.length_cons, List.length_cons]
    rw [laidOut] at ih
    omega

theorem skips_array {front back : List UInt8} (hlayout : IsLayout front back) {levels : ℕ}
    {elements : List (List UInt8)} (hobject : ∀ element ∈ elements, ∃ tail, element = 123 :: tail)
    (h : ∀ element ∈ elements, Skips lib (levels + 1) element) :
    Skips lib (levels + 2) (arrayBytes front back elements) := by
  intro σ s rest _
  cases elements with
  | nil =>
    have hbytes : arrayBytes front back [] ++ rest = 91 :: (back ++ 93 :: rest) := by simp [arrayBytes]
    rw [hbytes, run_skipValue List.headD_cons rfl, if_neg (by decide), if_neg (by decide), if_pos rfl, skipArray,
      run_advance_bind, run_bind_of_ok (run_skipSpace hlayout.closing rfl s)]
    rfl
  | cons element elements =>
    obtain ⟨tail, rfl⟩ := hobject element List.mem_cons_self
    have hbytes : arrayBytes front back ((123 :: tail) :: elements) ++ rest =
        91 :: (front ++ (123 :: tail ++ (laidOut front elements ++ back ++ 93 :: rest))) := by simp [arrayBytes]
    have hlength := length_le_laidOut front elements
    have hhead : (123 :: tail ++ (laidOut front elements ++ back ++ 93 :: rest)).headD 0 = 123 := rfl
    have hskip := h _ List.mem_cons_self s _ (hlayout.delimited elements rest)
    rw [hbytes, run_skipValue List.headD_cons rfl, if_neg (by decide), if_neg (by decide), if_pos rfl, skipArray,
      run_advance_bind, run_bind_of_ok (run_skipSpace hlayout.before rfl s), run_read_bind, Cursor.steps, skipElements,
      run_peek_bind hhead, if_neg (by decide), if_pos rfl, run_bind_of_ok (run_pure _ _),
      run_bind_of_ok hskip]
    refine run_skipElements hlayout (fun e he => h e (List.mem_cons_of_mem _ he)) ?_ rest s
    simp only [List.length_append, List.length_cons]
    omega

end ToolEvent.Summary
