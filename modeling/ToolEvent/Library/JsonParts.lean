import ToolEvent.Library.Json
import ToolEvent.Library.OutputStream

/-!
# The parts of a JSON document

A document is written in parts, and a part is often a piece of punctuation with the key it
introduces. The rules here say of each part what the reader makes of it in front of the others.
-/

namespace Json

theorem skipSpace_append_of_eq {lit inner : List UInt8} {b : UInt8} (h : skipSpace lit = b :: inner)
    (rest : List UInt8) : skipSpace (lit ++ rest) = b :: (inner ++ rest) := by
  induction lit with
  | nil => cases h
  | cons c lit ih =>
    by_cases hc : isSpace c = true
    · rw [skipSpace, List.dropWhile_cons_of_pos hc] at h
      rw [List.cons_append, skipSpace, List.dropWhile_cons_of_pos hc]
      exact ih h
    · rw [skipSpace_cons (Bool.eq_false_iff.mpr hc)] at h
      obtain ⟨rfl, rfl⟩ := List.cons.inj h
      rw [List.cons_append, skipSpace_cons (Bool.eq_false_iff.mpr hc)]

theorem expect_of_skipSpace {bytes bytes' : List UInt8} (h : skipSpace bytes = skipSpace bytes') (b : UInt8) :
    expect b bytes = expect b bytes' := by
  rw [expect, expect, h]

theorem expect_append {lit inner : List UInt8} {b : UInt8} (h : skipSpace lit = b :: inner) (rest : List UInt8) :
    expect b (lit ++ rest) = some (inner ++ rest) := by
  rw [expect, skipSpace_append_of_eq h, if_pos (by rfl), List.tail_cons]

theorem expect_append_of_ne {lit inner : List UInt8} {b c : UInt8} (h : skipSpace lit = b :: inner) (hne : b ≠ c)
    (rest : List UInt8) : expect c (lit ++ rest) = none := by
  rw [expect, skipSpace_append_of_eq h, if_neg (by simpa using hne)]

theorem stops_of_skipSpace {lit inner : List UInt8} {b : UInt8} (h : skipSpace lit = b :: inner)
    (hb : isNumberByte b = false) (rest : List UInt8) : Stops (lit ++ rest) := by
  cases lit with
  | nil => cases h
  | cons c lit =>
    apply stops_cons
    by_cases hc : isSpace c = true
    · have hspace : c = 32 ∨ c = 9 ∨ c = 10 ∨ c = 13 := of_decide_eq_true hc
      rcases hspace with rfl | rfl | rfl | rfl <;> rfl
    · rw [skipSpace_cons (Bool.eq_false_iff.mpr hc)] at h
      obtain ⟨rfl, -⟩ := List.cons.inj h
      exact hb

/-- The bytes are a value wherever no number could go on behind them. -/
def Reads (bytes : List UInt8) (v : Value) : Prop :=
  ∀ fuel rest, bytes.length < fuel → Stops rest → readValue fuel (bytes ++ rest) = some (v, rest)

/-- The bytes are the rest of an array. -/
structure ReadsItems (first : Bool) (bytes : List UInt8) (items : List Value) : Prop where
  nonempty : bytes ≠ []
  stops : first = false → ∀ rest, Stops (bytes ++ rest)
  read : ∀ fuel rest, bytes.length < fuel → readItems fuel first (bytes ++ rest) = some (items, rest)

/-- The bytes are the rest of an object. -/
structure ReadsMembers (first : Bool) (bytes : List UInt8) (members : List (List UInt8 × Value)) : Prop where
  nonempty : bytes ≠ []
  stops : first = false → ∀ rest, Stops (bytes ++ rest)
  read : ∀ fuel rest, bytes.length < fuel → readMembers fuel first (bytes ++ rest) = some (members, rest)

theorem readValue_of_skipSpace {bytes bytes' : List UInt8} (h : skipSpace bytes = skipSpace bytes') (fuel : ℕ) :
    readValue fuel bytes = readValue fuel bytes' := by
  cases fuel with
  | zero => rfl
  | succ fuel =>
    rw [readValue, readValue, expect_of_skipSpace h, expect_of_skipSpace h, expect_of_skipSpace h, h]

theorem Reads.ne_nil {bytes : List UInt8} {v : Value} (h : Reads bytes v) : bytes ≠ [] := by
  rintro rfl
  have hread := h 1 [] (by simp) (by decide)
  cases hread

theorem Reads.space {space bytes : List UInt8} {v : Value} (h : Reads bytes v) (hspace : ∀ b ∈ space, isSpace b) :
    Reads (space ++ bytes) v := by
  intro fuel rest hfuel hrest
  rw [List.append_assoc, readValue_of_skipSpace (skipSpace_append hspace _)]
  rw [List.length_append] at hfuel
  exact h fuel rest (by omega) hrest

theorem read_of_reads {bytes space : List UInt8} {v : Value} (h : Reads bytes v) (hspace : ∀ b ∈ space, isSpace b)
    (hstops : Stops space) : read (bytes ++ space) = some v := by
  have hnil : skipSpace space = [] := List.dropWhile_eq_nil_iff.mpr hspace
  rw [read, h _ _ (by rw [List.length_append]; omega) hstops, Option.bind_some, if_pos hnil]

theorem readValue_scalar {b : UInt8} (hspace : isSpace b = false) (hstring : b ≠ 34) (harray : b ≠ 91)
    (hobject : b ≠ 123) (fuel : ℕ) (bytes : List UInt8) :
    readValue (fuel + 1) (b :: bytes) = readScalar (b :: bytes) := by
  have hskip : skipSpace [b] = [b] := skipSpace_cons hspace []
  rw [readValue, ← List.singleton_append, expect_append_of_ne hskip hstring, expect_append_of_ne hskip harray,
    expect_append_of_ne hskip hobject, List.singleton_append, skipSpace_cons hspace]

theorem readWord_append (word : List UInt8) (v : Value) (rest : List UInt8) :
    readWord word v (word ++ rest) = some (v, rest) := by
  rw [readWord, if_pos (List.isPrefixOf_iff_prefix.mpr (List.prefix_append word rest)), List.drop_left]

theorem reads_null : Reads nullWord .null := by
  intro fuel rest hfuel _
  obtain ⟨fuel, rfl⟩ := Nat.exists_eq_add_one_of_ne_zero (Nat.ne_zero_of_lt hfuel)
  have hscalar := readValue_scalar (b := 110) rfl (by decide) (by decide) (by decide) fuel ([117, 108, 108] ++ rest)
  exact hscalar.trans (readWord_append nullWord .null rest)

theorem reads_bool (b : Bool) : Reads (boolWord b) (.bool b) := by
  intro fuel rest hfuel _
  obtain ⟨fuel, rfl⟩ := Nat.exists_eq_add_one_of_ne_zero (Nat.ne_zero_of_lt hfuel)
  cases b with
  | true =>
    have hscalar := readValue_scalar (b := 116) rfl (by decide) (by decide) (by decide) fuel ([114, 117, 101] ++ rest)
    exact hscalar.trans (readWord_append (boolWord true) (.bool true) rest)
  | false =>
    have hscalar :=
      readValue_scalar (b := 102) rfl (by decide) (by decide) (by decide) fuel ([97, 108, 115, 101] ++ rest)
    exact hscalar.trans (readWord_append (boolWord false) (.bool false) rest)

theorem readNatural_digits (n : ℕ) {rest : List UInt8} (h : Stops rest) :
    readNatural (Decimal.digits n ++ rest) = some (n, rest) := by
  have hnumeral := Decimal.isNumeral_digits n
  have hhead : rest.head?.all (fun b => Decimal.isDigit b = false) := by
    cases rest with
    | nil => rfl
    | cons b rest =>
      have hb := of_decide_eq_false (h b rfl)
      simp only [not_or] at hb
      simpa using hb.1
  have htake : (Decimal.digits n ++ rest).takeWhile Decimal.isDigit = Decimal.digits n := by
    rw [List.takeWhile_append_of_pos hnumeral.digits]
    cases rest with
    | nil => simp
    | cons b rest => rw [List.takeWhile_cons_of_neg (by simpa using hhead), List.append_nil]
  have hdrop : (Decimal.digits n ++ rest).dropWhile Decimal.isDigit = rest := by
    rw [List.dropWhile_append_of_pos hnumeral.digits]
    cases rest with
    | nil => rfl
    | cons b rest => exact List.dropWhile_cons_of_neg (by simpa using hhead)
  obtain ⟨d, ds, hdigits, hzero⟩ := Decimal.digits_eq_cons n
  have hnot : ¬ (Decimal.digits n = [] ∨ ((Decimal.digits n).head? = some 48 ∧ Decimal.digits n ≠ [48]) ∨
      ¬ Stops rest) := by
    rintro (hnil | ⟨hhead, hne⟩ | hstops)
    · exact hnumeral.nonempty hnil
    · rw [hdigits, List.head?_cons, Option.some.injEq] at hhead
      exact hne (by rw [hdigits, hhead, hzero hhead])
    · exact hstops h
  simp only [readNatural, htake, hdrop]
  rw [if_neg hnot, Decimal.value_digits]

theorem readScalar_digit {b : UInt8} (h : Decimal.isDigit b) (bytes : List UInt8) :
    isSpace b = false ∧ b ≠ 34 ∧ b ≠ 91 ∧ b ≠ 123 ∧
      readScalar (b :: bytes) = (readNatural (b :: bytes)).map (fun r => (.number r.1, r.2)) := by
  have hne : ∀ c, Decimal.isDigit c = false → b ≠ c := by
    rintro c hc rfl
    exact absurd (h.symm.trans hc) (by decide)
  have hspace : isSpace b = false := by
    apply decide_eq_false
    rintro (rfl | rfl | rfl | rfl) <;> cases h
  refine ⟨hspace, hne 34 rfl, hne 91 rfl, hne 123 rfl, ?_⟩
  have hhead : ∀ c, Decimal.isDigit c = false → (b :: bytes).head? ≠ some c := by
    intro c hc heq
    exact hne c hc (Option.some.inj heq)
  rw [readScalar, if_neg (hhead 110 rfl), if_neg (hhead 116 rfl), if_neg (hhead 102 rfl), readNumber]
  rintro rest heq
  exact hne 45 rfl (List.cons.inj heq).1

theorem reads_digits (n : ℕ) : Reads (Decimal.digits n) (.number n) := by
  intro fuel rest hfuel hrest
  obtain ⟨fuel, rfl⟩ := Nat.exists_eq_add_one_of_ne_zero (Nat.ne_zero_of_lt hfuel)
  obtain ⟨d, ds, hdigits, -⟩ := Decimal.digits_eq_cons n
  have hd : Decimal.isDigit d := (Decimal.isNumeral_digits n).digits d (by rw [hdigits]; exact List.mem_cons_self)
  obtain ⟨hspace, hstring, harray, hobject, hscalar⟩ := readScalar_digit hd (ds ++ rest)
  have hread := readNatural_digits n hrest
  rw [hdigits, List.cons_append] at hread ⊢
  rw [readValue_scalar hspace hstring harray hobject, hscalar, hread]
  rfl

theorem reads_minus (n : ℕ) : Reads (45 :: Decimal.digits n) (.number (-(n : ℤ))) := by
  intro fuel rest hfuel hrest
  obtain ⟨fuel, rfl⟩ := Nat.exists_eq_add_one_of_ne_zero (Nat.ne_zero_of_lt hfuel)
  have hscalar :=
    readValue_scalar (b := 45) rfl (by decide) (by decide) (by decide) fuel (Decimal.digits n ++ rest)
  have hnumber : readScalar (45 :: (Decimal.digits n ++ rest)) = readNumber (45 :: (Decimal.digits n ++ rest)) := rfl
  rw [List.cons_append, hscalar, hnumber, readNumber, readNatural_digits n hrest]
  rfl

theorem reads_string {contents bytes : List UInt8} (h : Spells contents bytes) :
    Reads (34 :: (contents ++ [34])) (.string bytes) := by
  intro fuel rest hfuel _
  obtain ⟨fuel, rfl⟩ := Nat.exists_eq_add_one_of_ne_zero (Nat.ne_zero_of_lt hfuel)
  have hopen : expect 34 ([34] ++ (contents ++ 34 :: rest)) = some (contents ++ 34 :: rest) :=
    expect_append (skipSpace_cons rfl []) _
  have hbytes : 34 :: (contents ++ [34]) ++ rest = [34] ++ (contents ++ 34 :: rest) := by simp
  have hlength : contents.length < (contents ++ 34 :: rest).length + 1 := by
    rw [List.length_append]
    omega
  have hread := readCharacters_append h hlength rest
  rw [hbytes, readValue, hopen]
  exact congrArg (Option.map (fun r => (Value.string r.1, r.2))) hread

theorem skipSpace_of_expect {bytes rest : List UInt8} {b : UInt8} (h : expect b bytes = some rest) :
    skipSpace bytes = b :: rest := by
  rw [expect] at h
  split at h
  · rename_i hhead
    obtain rfl := Option.some.inj h
    exact (List.cons_head?_tail hhead).symm
  · cases h

/-- No value begins with the closing bracket of an array. -/
theorem expect_closing {bytes : List UInt8} {fuel : ℕ} {r : Value × List UInt8} (h : readValue fuel bytes = some r) :
    expect 93 bytes = none := by
  apply Option.eq_none_iff_forall_ne_some.mpr
  intro rest hrest
  have hskip := skipSpace_of_expect hrest
  have hother : ∀ b, 93 ≠ b → expect b bytes = none := by
    intro b hb
    have hnone := expect_append_of_ne hskip hb []
    rwa [List.append_nil] at hnone
  cases fuel with
  | zero => cases h
  | succ fuel =>
    rw [readValue, hother 34 (by decide), hother 91 (by decide), hother 123 (by decide), hskip] at h
    cases h

theorem readsItems_close {close : List UInt8} (h : skipSpace close = [93]) (first : Bool) :
    ReadsItems first close [] where
  nonempty := by
    rintro rfl
    cases h
  stops _ rest := stops_of_skipSpace h rfl rest
  read := by
    intro fuel rest hfuel
    obtain ⟨fuel, rfl⟩ := Nat.exists_eq_add_one_of_ne_zero (Nat.ne_zero_of_lt hfuel)
    rw [readItems, expect_append h]
    rfl

theorem Reads.readItem {bytes more : List UInt8} {v : Value} {items : List Value} (h : Reads bytes v)
    (hmore : ReadsItems false more items) {fuel : ℕ} (hfuel : (bytes ++ more).length < fuel + 1)
    (rest : List UInt8) :
    expect 93 (bytes ++ (more ++ rest)) = none ∧
      ((readValue fuel (bytes ++ (more ++ rest))).bind (fun item =>
        (readItems fuel false item.2).map (fun more => (item.1 :: more.1, more.2)))) = some (v :: items, rest) := by
  have hbytes := List.length_pos_of_ne_nil h.ne_nil
  have hpos := List.length_pos_of_ne_nil hmore.nonempty
  rw [List.length_append] at hfuel
  have hvalue := h fuel (more ++ rest) (by omega) (hmore.stops rfl rest)
  refine ⟨expect_closing hvalue, ?_⟩
  rw [hvalue, Option.bind_some, hmore.read fuel rest (by omega)]
  rfl

theorem readsItems_first {bytes more : List UInt8} {v : Value} {items : List Value} (h : Reads bytes v)
    (hmore : ReadsItems false more items) : ReadsItems true (bytes ++ more) (v :: items) where
  nonempty := List.append_ne_nil_of_left_ne_nil h.ne_nil more
  stops hfirst := by cases hfirst
  read := by
    intro fuel rest hfuel
    obtain ⟨fuel, rfl⟩ := Nat.exists_eq_add_one_of_ne_zero (Nat.ne_zero_of_lt hfuel)
    obtain ⟨hclose, hread⟩ := h.readItem hmore hfuel rest
    rw [List.append_assoc, readItems, hclose]
    exact hread

theorem readsItems_next {bytes more : List UInt8} {v : Value} {items : List Value} (h : Reads bytes v)
    (hmore : ReadsItems false more items) : ReadsItems false (44 :: (bytes ++ more)) (v :: items) where
  nonempty := List.cons_ne_nil _ _
  stops _ rest := stops_cons rfl _
  read := by
    intro fuel rest hfuel
    obtain ⟨fuel, rfl⟩ := Nat.exists_eq_add_one_of_ne_zero (Nat.ne_zero_of_lt hfuel)
    obtain ⟨-, hread⟩ := h.readItem hmore (Nat.lt_of_succ_lt hfuel) rest
    have hcomma : skipSpace [44] = [44] := rfl
    have hbytes : 44 :: (bytes ++ more) ++ rest = [44] ++ (bytes ++ (more ++ rest)) := by simp
    rw [hbytes, readItems, expect_append_of_ne hcomma (by decide)]
    simp only [afterComma, Bool.false_eq_true, if_false, expect_append hcomma, Option.bind_some]
    exact hread

theorem readItems_of_skipSpace {bytes bytes' : List UInt8} (h : skipSpace bytes = skipSpace bytes') (fuel : ℕ) :
    readItems fuel true bytes = readItems fuel true bytes' := by
  cases fuel with
  | zero => rfl
  | succ fuel =>
    rw [readItems, readItems, expect_of_skipSpace h]
    simp only [afterComma, if_true, Option.bind_some, readValue_of_skipSpace h]

theorem head_tail_append {lit : List UInt8} {b : UInt8} (h : (skipSpace lit).head? = some b) (rest : List UInt8) :
    skipSpace lit = b :: (skipSpace lit).tail ∧ expect b (lit ++ rest) = some ((skipSpace lit).tail ++ rest) ∧
      0 < lit.length ∧ (skipSpace lit).tail.length < lit.length := by
  have hskip : skipSpace lit = b :: (skipSpace lit).tail := (List.cons_head?_tail h).symm
  have hlength := (List.dropWhile_sublist (l := lit) isSpace).length_le
  rw [← skipSpace, hskip, List.length_cons] at hlength
  exact ⟨hskip, expect_append hskip rest, by omega, by omega⟩

theorem reads_array {lit bytes : List UInt8} {items : List Value} (hlit : (skipSpace lit).head? = some 91)
    (hspace : skipSpace (skipSpace lit).tail = []) (h : ReadsItems true bytes items) :
    Reads (lit ++ bytes) (.array items) := by
  intro fuel rest hfuel _
  obtain ⟨fuel, rfl⟩ := Nat.exists_eq_add_one_of_ne_zero (Nat.ne_zero_of_lt hfuel)
  obtain ⟨hskip, hexpect, hpos, -⟩ := head_tail_append hlit (bytes ++ rest)
  rw [List.length_append] at hfuel
  have hitems : readItems fuel true ((skipSpace lit).tail ++ (bytes ++ rest)) = some (items, rest) := by
    rw [readItems_of_skipSpace (skipSpace_append (List.dropWhile_eq_nil_iff.mp hspace) _)]
    exact h.read fuel rest (by omega)
  rw [List.append_assoc, readValue, expect_append_of_ne hskip (by decide), hexpect]
  exact congrArg (Option.map (fun r => (Value.array r.1, r.2))) hitems

/-- Items that are written with commas between them. -/
theorem readsItems_joined {α : Type*} {separator close : List UInt8} {text : α → List UInt8} {value : α → Value}
    {as : List α} (hcomma : separator.head? = some 44) (hspace : skipSpace separator.tail = [])
    (hclose : skipSpace close = [93]) (h : ∀ a ∈ as, Reads (text a) (value a)) (first : Bool) :
    ReadsItems first (OutputStream.joined separator text first as ++ close) (as.map value) := by
  obtain ⟨space, rfl⟩ : ∃ space, separator = 44 :: space := ⟨_, (List.cons_head?_tail hcomma).symm⟩
  induction as generalizing first with
  | nil => exact readsItems_close hclose first
  | cons a as ih =>
    have ha := h a List.mem_cons_self
    have hrest := ih (fun b hb => h b (List.mem_cons_of_mem _ hb)) false
    cases first with
    | true =>
      rw [OutputStream.joined, List.append_assoc]
      exact readsItems_first ha hrest
    | false =>
      have hnext := readsItems_next (ha.space (List.dropWhile_eq_nil_iff.mp hspace)) hrest
      simpa [OutputStream.joined] using hnext

/-- The punctuation with the key of a member, in an object that has been opened. -/
def Introduces (first : Bool) (lit key : List UInt8) : Prop :=
  (∀ b ∈ key, isPlain b) ∧ (afterComma first lit).map skipSpace = some (34 :: (key ++ [34, 58]))

instance (first : Bool) (lit key : List UInt8) : Decidable (Introduces first lit key) :=
  inferInstanceAs (Decidable (_ ∧ _))

example : Introduces false [44, 10, 34, 97, 34, 58] [97] := by decide

theorem readKey_append {lit key : List UInt8} (hkey : ∀ b ∈ key, isPlain b)
    (hlit : skipSpace lit = 34 :: (key ++ [34, 58])) (rest : List UInt8) :
    readKey (lit ++ rest) = some (key, rest) := by
  have hbytes : key ++ [34, 58] ++ rest = key ++ 34 :: ([58] ++ rest) := by simp
  have hlength : key.length < (key ++ 34 :: ([58] ++ rest)).length + 1 := by
    rw [List.length_append]
    omega
  rw [readKey, expect_append hlit, Option.bind_some, hbytes, readCharacters_append (spells_plain hkey) hlength,
    Option.bind_some, expect_append (skipSpace_cons rfl [])]
  rfl

/-- The punctuation in front of a member ends with its key. -/
theorem Introduces.afterComma {first : Bool} {lit key : List UInt8} (h : Introduces first lit key)
    (rest : List UInt8) :
    expect 125 (lit ++ rest) = none ∧
      (afterComma first (lit ++ rest)).bind readKey = some (key, rest) := by
  obtain ⟨hkey, hafter⟩ := h
  obtain ⟨after, hcomma, hskip⟩ := Option.map_eq_some_iff.mp hafter
  cases first with
  | true =>
    obtain rfl : lit = after := Option.some.inj hcomma
    exact ⟨expect_append_of_ne hskip (by decide) rest, readKey_append hkey hskip rest⟩
  | false =>
    have hlit := skipSpace_of_expect hcomma
    refine ⟨expect_append_of_ne hlit (by decide) rest, ?_⟩
    have hexpect : Json.afterComma false (lit ++ rest) = some (after ++ rest) := expect_append hlit rest
    rw [hexpect]
    exact readKey_append hkey hskip rest

theorem Introduces.stops {lit key : List UInt8} (h : Introduces false lit key) (rest : List UInt8) :
    Stops (lit ++ rest) := by
  obtain ⟨after, hcomma, -⟩ := Option.map_eq_some_iff.mp h.2
  exact stops_of_skipSpace (skipSpace_of_expect hcomma) rfl rest

theorem Introduces.ne_nil {first : Bool} {lit key : List UInt8} (h : Introduces first lit key) : lit ≠ [] := by
  rintro rfl
  cases first <;> cases h.2

theorem readsMembers_close {close : List UInt8} (h : skipSpace close = [125]) (first : Bool) :
    ReadsMembers first close [] where
  nonempty := by
    rintro rfl
    cases h
  stops _ rest := stops_of_skipSpace h rfl rest
  read := by
    intro fuel rest hfuel
    obtain ⟨fuel, rfl⟩ := Nat.exists_eq_add_one_of_ne_zero (Nat.ne_zero_of_lt hfuel)
    rw [readMembers, expect_append h]
    rfl

theorem readsMembers_cons {first : Bool} {lit key bytes more : List UInt8} {v : Value}
    {members : List (List UInt8 × Value)} (hlit : Introduces first lit key) (h : Reads bytes v)
    (hmore : ReadsMembers false more members) :
    ReadsMembers first (lit ++ (bytes ++ more)) ((key, v) :: members) where
  nonempty := List.append_ne_nil_of_left_ne_nil hlit.ne_nil _
  stops hfirst rest := by
    subst hfirst
    rw [List.append_assoc]
    exact hlit.stops _
  read := by
    intro fuel rest hfuel
    obtain ⟨fuel, rfl⟩ := Nat.exists_eq_add_one_of_ne_zero (Nat.ne_zero_of_lt hfuel)
    have hlitpos := List.length_pos_of_ne_nil hlit.ne_nil
    rw [List.length_append, List.length_append] at hfuel
    obtain ⟨hclose, hkey⟩ := hlit.afterComma (bytes ++ (more ++ rest))
    have hvalue := h fuel (more ++ rest) (by omega) (hmore.stops rfl rest)
    rw [List.append_assoc, List.append_assoc, readMembers, hclose]
    simp only [← Option.bind_assoc]
    rw [hkey, Option.bind_some, hvalue, Option.bind_some, hmore.read fuel rest (by omega)]
    rfl

def ExtendsMembers (bytes : List UInt8) (added : List (List UInt8 × Value)) : Prop :=
  ∀ more members, ReadsMembers false more members → ReadsMembers false (bytes ++ more) (added ++ members)

theorem extendsMembers_nil : ExtendsMembers [] [] := fun _ _ h => h

theorem ExtendsMembers.cons {lit key bytes more : List UInt8} {v : Value} {added : List (List UInt8 × Value)}
    (h : ExtendsMembers more added) (hlit : Introduces false lit key) (hv : Reads bytes v) :
    ExtendsMembers (lit ++ (bytes ++ more)) ((key, v) :: added) := by
  intro rest members hrest
  rw [List.append_assoc, List.append_assoc]
  exact readsMembers_cons hlit hv (h rest members hrest)

theorem extendsMembers_single {lit key bytes : List UInt8} {v : Value} (hlit : Introduces false lit key)
    (hv : Reads bytes v) : ExtendsMembers (lit ++ bytes) [(key, v)] := by
  have h := extendsMembers_nil.cons hlit hv
  rwa [List.append_nil] at h

theorem reads_object {lit bytes : List UInt8} {members : List (List UInt8 × Value)}
    (hlit : (skipSpace lit).head? = some 123) (h : ReadsMembers true ((skipSpace lit).tail ++ bytes) members) :
    Reads (lit ++ bytes) (.object members) := by
  intro fuel rest hfuel _
  obtain ⟨fuel, rfl⟩ := Nat.exists_eq_add_one_of_ne_zero (Nat.ne_zero_of_lt hfuel)
  obtain ⟨hskip, hexpect, -, hlength⟩ := head_tail_append hlit (bytes ++ rest)
  rw [List.length_append] at hfuel
  have hmembers := h.read fuel rest (by rw [List.length_append]; omega)
  rw [List.append_assoc] at hmembers ⊢
  rw [readValue, expect_append_of_ne hskip (by decide), expect_append_of_ne hskip (by decide), hexpect]
  exact congrArg (Option.map (fun r => (Value.object r.1, r.2))) hmembers

end Json
