import ToolEvent.EventFormat

/-!
# The fields of an event line

What the parser does with the bytes of a line and with the fields it cuts it into:
splitting, the two number routines, and the names of enumerations.
-/

namespace ToolEvent

open EventFormat

namespace Text

theorem bytes_injective : Function.Injective Text.bytes := fun _ _ => Text.ext

theorem bytes_cut_fst (b : UInt8) (t : Text) :
    (t.cut b).1.bytes = (Delimited.cut b t.bytes).1 := rfl

theorem bytes_cut_snd (b : UInt8) (t : Text) :
    (t.cut b).2.map Text.bytes = (Delimited.cut b t.bytes).2 := by
  simp only [cut]
  split <;> simp_all

theorem isEmpty_iff {t : Text} : t.isEmpty = true ↔ t.bytes = [] := List.isEmpty_iff

/-- A literal without NUL bytes has the bytes of its characters. -/
theorem bytes_ofString_ofList (cs : List Char) (h : ∀ c ∈ cs, c.toNat.toUInt8 ≠ 0) :
    (ofString (String.ofList cs)).bytes = cs.map (fun c => c.toNat.toUInt8) := by
  have hmem : ∀ b ∈ cs.map (fun c => c.toNat.toUInt8), decide (b ≠ 0) = true := by
    intro b hb
    obtain ⟨c, hc, rfl⟩ := List.mem_map.mp hb
    simpa using h c hc
  simpa [ofString] using List.filter_eq_self.mpr hmem

@[simp] theorem bytes_decimal_natCast (n : ℕ) : (decimal n).bytes = Decimal.digits n := by
  have hdigits : ∀ c ∈ Nat.toDigits 10 n, c.toNat.toUInt8 ≠ 0 := by
    intro c hc h0
    have hc := (Decimal.toUInt8_of_isDigit
      (Nat.isDigit_of_mem_toDigits (by decide) (by decide) hc)).1
    rw [h0] at hc
    cases hc
  have hneg : ¬ ((n : ℤ) < 0) := by omega
  rw [decimal, if_neg hneg, Int.natAbs_natCast, bytes_ofString_ofList _ hdigits]
  rfl

theorem bytes_decimal_of_neg {n : ℤ} (h : n < 0) :
    (decimal n).bytes = 45 :: Decimal.digits n.natAbs := by
  have hdigits : ∀ c ∈ '-' :: Nat.toDigits 10 n.natAbs, c.toNat.toUInt8 ≠ 0 := by
    intro c hc h0
    rcases List.mem_cons.mp hc with rfl | hc
    · revert h0
      decide
    · have hc := (Decimal.toUInt8_of_isDigit
        (Nat.isDigit_of_mem_toDigits (by decide) (by decide) hc)).1
      rw [h0] at hc
      cases hc
  have hsign : "-" ++ String.ofList (Nat.toDigits 10 n.natAbs) =
      String.ofList ('-' :: Nat.toDigits 10 n.natAbs) := by
    apply String.toList_injective
    simp
  rw [decimal, if_pos h, hsign, bytes_ofString_ofList _ hdigits]
  rfl

theorem bytes_decimal_of_nonneg {n : ℤ} (h : 0 ≤ n) :
    (decimal n).bytes = Decimal.digits n.natAbs := by
  obtain ⟨m, rfl⟩ := Int.eq_ofNat_of_zero_le h
  exact bytes_decimal_natCast m

/-- The bytes of a decimal are digits after the sign. -/
theorem not_mem_decimal {b : UInt8} (hb : Decimal.isDigit b = false) (hsign : b ≠ 45) (n : ℤ) :
    b ∉ (decimal n).bytes := by
  rcases lt_or_ge n 0 with h | h
  · rw [bytes_decimal_of_neg h, List.mem_cons, not_or]
    exact ⟨hsign, Decimal.not_mem_digits hb _⟩
  · rw [bytes_decimal_of_nonneg h]
    exact Decimal.not_mem_digits hb _

theorem decimal_injective : Function.Injective decimal := by
  have hne : ∀ {m n : ℤ}, m < 0 → 0 ≤ n → decimal m ≠ decimal n := by
    intro m n hm hn h
    have hminus : (45 : UInt8) ∈ (decimal n).bytes := by
      rw [← h, bytes_decimal_of_neg hm]
      exact List.mem_cons_self
    rw [bytes_decimal_of_nonneg hn] at hminus
    exact Decimal.not_mem_digits (by decide) _ hminus
  intro m n h
  have hbytes := congrArg bytes h
  rcases lt_or_ge m 0 with hm | hm <;> rcases lt_or_ge n 0 with hn | hn
  · rw [bytes_decimal_of_neg hm, bytes_decimal_of_neg hn, List.cons.injEq] at hbytes
    have habs := Decimal.digits_injective hbytes.2
    omega
  · exact absurd h (hne hm hn)
  · exact absurd h.symm (hne hn hm)
  · rw [bytes_decimal_of_nonneg hm, bytes_decimal_of_nonneg hn] at hbytes
    have habs := Decimal.digits_injective hbytes
    omega

end Text

variable {reader : RecordReader}

def pieces (cursor : Option Text) : List (List UInt8) := cursor.elim [] (fun t => t.bytes.splitOn tab)

theorem pieces_some (t : Text) :
    pieces (some t) = (t.cut tab).1.bytes :: pieces (t.cut tab).2 := by
  rw [Text.bytes_cut_fst, pieces, pieces, Option.elim_some, Delimited.splitOn_eq_cons,
    ← Text.bytes_cut_snd]
  cases (t.cut tab).2 <;> rfl

/-- The splitting loop takes as many fields as there is room for, and leaves no cursor
when these are all. -/
theorem splitFields_spec (room : ℕ) (cursor : Option Text) :
    (splitFields reader room cursor).1.map Text.bytes = (pieces cursor).take room ∧
      ((splitFields reader room cursor).2 = none ↔ (pieces cursor).length ≤ room) := by
  induction room generalizing cursor with
  | zero =>
    cases cursor with
    | none => simp [splitFields, pieces]
    | some t => simp [splitFields, pieces_some]
  | succ room ih =>
    cases cursor with
    | none => simp [splitFields, pieces]
    | some t =>
      obtain ⟨hfields, hnone⟩ := ih (t.cut tab).2
      rw [pieces_some]
      simp only [splitFields, reader.split_eq, List.map_cons, List.take_succ_cons, hfields,
        List.length_cons, Nat.add_le_add_iff_right]
      exact ⟨trivial, hnone⟩

theorem fieldAt_cons_zero (t : Text) (fields : List Text) : fieldAt (t :: fields) 0 = t := rfl

theorem fieldAt_cons_succ (t : Text) (fields : List Text) (index : ℕ) :
    fieldAt (t :: fields) (index + 1) = fieldAt fields index := rfl

/-- What `p101_tool_event_parse_line` does once the line is cut. -/
def parseFields (reader : RecordReader) (magic : Text) (fields : List Text) : Parsed EventRecord := do
  let (record, payload) ← parseMetadata reader fields initialRecord
  let record ← parsePayload reader magic fields payload record
  return unescapeRecord reader record

/-- A line is parsed when it has one of the prefixes and no more fields than there is room
for, and the fields are parsed. -/
theorem parseLine_eq_ok {line : Text} {record : EventRecord} :
    parseLine reader line = .ok record ↔
      lineIsOurs line ∧ ∃ magic fields, lineFields line = magic.bytes :: fields.map Text.bytes ∧
        fields.length ≤ maxFields ∧ parseFields reader magic fields = .ok record := by
  have hpieces := pieces_some (stripTerminators line)
  have hroom : (splitFields reader maxFields ((stripTerminators line).cut tab).2).1.map Text.bytes =
        (pieces ((stripTerminators line).cut tab).2).take maxFields ∧
      ((splitFields reader maxFields ((stripTerminators line).cut tab).2).2 = none ↔
        (pieces ((stripTerminators line).cut tab).2).length ≤ maxFields) :=
    splitFields_spec maxFields _
  obtain ⟨hfields, hnone⟩ := hroom
  have hline : lineFields line =
      ((stripTerminators line).cut tab).1.bytes :: pieces ((stripTerminators line).cut tab).2 := hpieces
  by_cases hours : lineIsOurs line
  · simp only [parseLine, hours, if_true, reader.split_eq, true_and]
    by_cases hlen : (pieces ((stripTerminators line).cut tab).2).length ≤ maxFields
    · rw [List.take_of_length_le hlen] at hfields
      rw [hnone.mpr hlen, hline, ← hfields]
      constructor
      · intro h
        refine ⟨_, _, rfl, ?_, h⟩
        rw [← hfields, List.length_map] at hlen
        exact hlen
      · rintro ⟨magic, fields, heq, -, h⟩
        obtain ⟨hmagic, hrest⟩ := List.cons.inj heq
        obtain rfl := Text.bytes_injective hmagic
        obtain rfl := List.map_injective_iff.mpr Text.bytes_injective hrest
        exact h
    · constructor
      · intro h
        rw [failIf, if_pos (mt hnone.mp hlen)] at h
        cases h
      · rintro ⟨magic, fields, heq, hle, -⟩
        rw [hline] at heq
        have := congrArg List.length (List.cons.inj heq).2
        rw [List.length_map] at this
        exact absurd (this.trans_le hle) hlen
  · simp [parseLine, hours]

theorem head?_of_isNumeral {bytes : List UInt8} (h : Decimal.IsNumeral bytes) :
    ∃ b ∈ bytes.head?, Decimal.isDigit b := by
  obtain ⟨b, bs, rfl⟩ := List.exists_cons_of_ne_nil h.nonempty
  exact ⟨b, rfl, h.digits b List.mem_cons_self⟩

theorem takeSign_of_digit {b : UInt8} (hb : Decimal.isDigit b) (bs : List UInt8) :
    takeSign (b :: bs) = (false, b :: bs) := by
  unfold takeSign
  split
  · next h => cases h; cases hb
  · next h => cases h; cases hb
  · rfl

theorem isSpace_of_digit {b : UInt8} (hb : Decimal.isDigit b) : isSpace b = false := by
  simp only [Decimal.isDigit, isSpace, UInt8.le_iff_toNat_le, ← UInt8.toNat_inj,
    decide_eq_true_eq, decide_eq_false_iff_not] at hb ⊢
  have h48 : (48 : UInt8).toNat = 48 := rfl
  have h32 : (32 : UInt8).toNat = 32 := rfl
  have h13 : (13 : UInt8).toNat = 13 := rfl
  omega

theorem strtol_of_digit {t : Text} {b : UInt8} (hhead : b ∈ t.bytes.head?)
    (hb : Decimal.isDigit b) :
    strtol t =
      { value := (min (Decimal.value (t.bytes.takeWhile Decimal.isDigit)) longMax : ℕ)
        rest := t.bytes.dropWhile Decimal.isDigit
        converted := true
        inRange := Decimal.value (t.bytes.takeWhile Decimal.isDigit) ≤ longMax } := by
  obtain ⟨bs, hbytes⟩ := List.head?_eq_some_iff.mp hhead
  have hspace := isSpace_of_digit hb
  simp only [strtol, hbytes, List.dropWhile_cons, List.takeWhile_cons, hspace, hb,
    Bool.false_eq_true, if_false, if_true, takeSign_of_digit hb, reduceCtorEq]

/-- On a field that starts with a digit, `parse_long_field` accepts the numerals in range. -/
theorem parseLongField_of_digit {t : Text} {b : UInt8} (hhead : b ∈ t.bytes.head?)
    (hb : Decimal.isDigit b) {max : ℕ} (hmax : max ≤ longMax) (n : ℤ) :
    parseLongField t 0 max = some n ↔
      Decimal.IsNumeral t.bytes ∧ (Decimal.value t.bytes : ℤ) = n ∧ Decimal.value t.bytes ≤ max := by
  have hne : t.bytes ≠ [] := by
    obtain ⟨bs, hbytes⟩ := List.head?_eq_some_iff.mp hhead
    rw [hbytes]
    exact List.cons_ne_nil _ _
  have hempty : t.isEmpty = false := by
    rw [Bool.eq_false_iff]
    exact fun h => hne (Text.isEmpty_iff.mp h)
  simp only [parseLongField, hempty, Bool.false_eq_true, if_false, strtol_of_digit hhead hb,
    not_true_eq_false, false_or]
  by_cases hrest : t.bytes.dropWhile Decimal.isDigit = []
  · have hnum : Decimal.IsNumeral t.bytes := ⟨hne, List.dropWhile_eq_nil_iff.mp hrest⟩
    simp only [hrest, ne_eq, not_true_eq_false, if_false, Decimal.takeWhile_of_isNumeral hnum, hnum,
      true_and, decide_eq_true_eq]
    split_ifs <;> simp only [false_iff, Option.some_inj] <;> omega
  · have hnum : ¬ Decimal.IsNumeral t.bytes := fun h => hrest (Decimal.dropWhile_of_isNumeral h)
    simp [hrest, hnum]

theorem parseLongField_decimal {n max : ℕ} (hn : n ≤ max) (hmax : max ≤ longMax) :
    parseLongField (.decimal n) 0 max = some (n : ℤ) := by
  have hnum : Decimal.IsNumeral (Text.decimal n).bytes := by
    rw [Text.bytes_decimal_natCast]
    exact Decimal.isNumeral_digits n
  obtain ⟨b, hhead, hb⟩ := head?_of_isNumeral hnum
  rw [parseLongField_of_digit hhead hb hmax]
  exact ⟨hnum, by simp, by simpa using hn⟩

theorem parseSize_decimal {n : ℕ} (hn : n ≤ sizeMax) : reader.parseSize (.decimal n) = some n := by
  rw [reader.parseSize_eq_some, Text.bytes_decimal_natCast, Decimal.value_digits]
  exact ⟨Decimal.isNumeral_digits n, rfl, hn⟩

theorem bind_eq_ok {α β : Type} {x : Parsed α} {f : α → Parsed β} {b : β} :
    (x >>= f) = .ok b ↔ ∃ a, x = .ok a ∧ f a = .ok b := by
  cases x with
  | ok a => simp [bind, Except.bind]
  | error e => simp [bind, Except.bind]

theorem failIf_eq_ok {p : Prop} [Decidable p] {failure : ParseFailure} {a : Unit} :
    failIf p failure = .ok a ↔ ¬ p := by
  by_cases hp : p <;> simp [failIf, hp]

theorem orMalformed_eq_ok {α : Type} {o : Option α} {a : α} :
    orMalformed o = .ok a ↔ o = some a := by
  cases o <;> simp [orMalformed]

theorem lookupName_eq_some {α : Type} {names : α → Text} {values : List α} {text : Text} {a : α}
    (h : lookupName names values text = some a) : a ∈ values ∧ names a = text := by
  have hfind := List.find?_some h
  exact ⟨List.mem_of_find?_eq_some h, by simpa using hfind⟩

/-- A name is looked up to the value it was chosen for when the names differ. -/
theorem lookupName_of_injective {α : Type} {names : α → Text} {values : List α} {a : α}
    (hmem : a ∈ values) (hinj : ∀ b ∈ values, names b = names a → b = a) :
    lookupName names values (names a) = some a := by
  have hsome : (lookupName names values (names a)).isSome :=
    List.find?_isSome.mpr ⟨a, hmem, by simp⟩
  obtain ⟨b, hb⟩ := Option.isSome_iff_exists.mp hsome
  obtain ⟨hbmem, hbname⟩ := lookupName_eq_some hb
  rw [hb, hinj b hbmem hbname]

end ToolEvent
