import ToolEvent.Library.Decimal

/-!
# Reading JSON documents

A reader of JSON texts, as bytes, whose numbers are integers. A text is read back by rules
for its parts: each says what the reader makes of a part whatever stands behind it.
-/

namespace Json

inductive Value
  | null
  | bool (b : Bool)
  | number (n : ℤ)
  | string (bytes : List UInt8)
  | array (items : List Value)
  | object (members : List (List UInt8 × Value))

/-- A property of all bytes is decided along the list. -/
instance (priority := high) decidableForallBytes (bytes : List UInt8) (p : UInt8 → Bool) : Decidable (∀ b ∈ bytes, p b) :=
  decidable_of_iff (bytes.all p = true) List.all_eq_true

def isSpace (b : UInt8) : Bool := b = 32 ∨ b = 9 ∨ b = 10 ∨ b = 13

def skipSpace (bytes : List UInt8) : List UInt8 := bytes.dropWhile isSpace

theorem skipSpace_append {space : List UInt8} (h : ∀ b ∈ space, isSpace b) (bytes : List UInt8) :
    skipSpace (space ++ bytes) = skipSpace bytes := by
  induction space with
  | nil => rfl
  | cons b space ih =>
    obtain ⟨hb, hspace⟩ := List.forall_mem_cons.mp h
    rw [List.cons_append, skipSpace, List.dropWhile_cons_of_pos hb]
    exact ih hspace

theorem skipSpace_cons {b : UInt8} (h : isSpace b = false) (bytes : List UInt8) :
    skipSpace (b :: bytes) = b :: bytes := List.dropWhile_cons_of_neg (by simp [h])

def hexValue (b : UInt8) : Option ℕ :=
  if 48 ≤ b ∧ b ≤ 57 then some (b.toNat - 48)
  else if 97 ≤ b ∧ b ≤ 102 then some (b.toNat - 87)
  else if 65 ≤ b ∧ b ≤ 70 then some (b.toNat - 55)
  else none

/-- The letters behind a backslash, with the bytes they stand for. -/
def escapes : List (UInt8 × UInt8) :=
  [(34, 34), (92, 92), (47, 47), (98, 8), (102, 12), (110, 10), (114, 13), (116, 9)]

def utf8 (n : ℕ) : List UInt8 :=
  let tail (shift : ℕ) : UInt8 := (0x80 + n / shift % 64).toUInt8
  if n < 0x80 then [n.toUInt8]
  else if n < 0x800 then [(0xC0 + n / 64).toUInt8, tail 1]
  else if n < 0x10000 then [(0xE0 + n / 4096).toUInt8, tail 64, tail 1]
  else [(0xF0 + n / 262144).toUInt8, tail 4096, tail 64, tail 1]

def readUnit : List UInt8 → Option (ℕ × List UInt8)
  | a :: b :: c :: d :: rest =>
    match hexValue a, hexValue b, hexValue c, hexValue d with
    | some a, some b, some c, some d => some (4096 * a + 256 * b + 16 * c + d, rest)
    | _, _, _, _ => none
  | _ => none

def isHigh (unit : ℕ) : Bool := 0xD800 ≤ unit ∧ unit < 0xDC00
def isLow (unit : ℕ) : Bool := 0xDC00 ≤ unit ∧ unit < 0xE000

def codePoint (high low : ℕ) : ℕ := 0x10000 + (high - 0xD800) * 1024 + (low - 0xDC00)

/-- What follows `\u`. -/
def readUnicode (bytes : List UInt8) : Option (List UInt8 × List UInt8) :=
  match readUnit bytes with
  | none => none
  | some (unit, rest) =>
    if isHigh unit then
      match rest with
      | 92 :: 117 :: rest =>
        match readUnit rest with
        | some (low, rest) => if isLow low then some (utf8 (codePoint unit low), rest) else none
        | none => none
      | _ => none
    else if isLow unit then none
    else some (utf8 unit, rest)

/-- The bytes of one character and what follows its spelling. -/
def readCharacter : List UInt8 → Option (List UInt8 × List UInt8)
  | [] => none
  | b :: rest =>
    if b = 92 then
      match rest with
      | [] => none
      | letter :: rest =>
        if letter = 117 then readUnicode rest else (escapes.lookup letter).map (fun byte => ([byte], rest))
    else if b < 32 then none
    else some ([b], rest)

def readCharacters : ℕ → List UInt8 → Option (List UInt8 × List UInt8)
  | 0, _ => none
  | fuel + 1, bytes =>
    if bytes.head? = some 34 then some ([], bytes.tail)
    else
      (readCharacter bytes).bind (fun first =>
        (readCharacters fuel first.2).map (fun more => (first.1 ++ more.1, more.2)))

inductive SpellsCharacter : List UInt8 → List UInt8 → Prop
  | plain {b : UInt8} (control : 32 ≤ b) (quote : b ≠ 34) (backslash : b ≠ 92) : SpellsCharacter [b] [b]
  | escape {letter b : UInt8} (h : (letter, b) ∈ escapes) : SpellsCharacter [92, letter] [b]
  | unicode {digits : List UInt8} {unit : ℕ} (h : readUnit digits = some (unit, [])) (high : isHigh unit = false)
      (low : isLow unit = false) : SpellsCharacter (92 :: 117 :: digits) (utf8 unit)
  | surrogates {digits digits' : List UInt8} {high low : ℕ} (h : readUnit digits = some (high, []))
      (h' : readUnit digits' = some (low, [])) (hhigh : isHigh high = true) (hlow : isLow low = true) :
      SpellsCharacter (92 :: 117 :: (digits ++ 92 :: 117 :: digits')) (utf8 (codePoint high low))

/-- The contents of the literals of a string. -/
inductive Spells : List UInt8 → List UInt8 → Prop
  | nil : Spells [] []
  | cons {spelling character contents bytes : List UInt8} (first : SpellsCharacter spelling character)
      (rest : Spells contents bytes) : Spells (spelling ++ contents) (character ++ bytes)

theorem Spells.append {contents contents' bytes bytes' : List UInt8} (h : Spells contents bytes)
    (h' : Spells contents' bytes') : Spells (contents ++ contents') (bytes ++ bytes') := by
  induction h with
  | nil => exact h'
  | cons first _ ih =>
    rw [List.append_assoc, List.append_assoc]
    exact .cons first ih

def isPlain (b : UInt8) : Bool := 32 ≤ b ∧ b ≠ 34 ∧ b ≠ 92

theorem spells_plain {bytes : List UInt8} (h : ∀ b ∈ bytes, isPlain b) : Spells bytes bytes := by
  induction bytes with
  | nil => exact .nil
  | cons b bytes ih =>
    obtain ⟨hb, hbytes⟩ := List.forall_mem_cons.mp h
    obtain ⟨hcontrol, hquote, hbackslash⟩ := of_decide_eq_true hb
    exact .cons (.plain hcontrol hquote hbackslash) (ih hbytes)

theorem readUnit_append {digits : List UInt8} {unit : ℕ} (h : readUnit digits = some (unit, []))
    (rest : List UInt8) : readUnit (digits ++ rest) = some (unit, rest) := by
  match digits, h with
  | a :: b :: c :: d :: more, h =>
    simp only [readUnit, List.cons_append] at h ⊢
    split at h
    · obtain ⟨rfl, rfl⟩ := Prod.mk.inj (Option.some.inj h)
      rfl
    · cases h

theorem readCharacter_append {spelling character : List UInt8} (h : SpellsCharacter spelling character)
    (rest : List UInt8) :
    readCharacter (spelling ++ rest) = some (character, rest) ∧ (spelling ++ rest).head? ≠ some 34 := by
  cases h with
  | plain control quote backslash =>
    refine ⟨?_, by simpa using quote⟩
    change (if _ then _ else if _ then none else some _) = _
    rw [if_neg backslash, if_neg (UInt8.not_lt.mpr control)]
    rfl
  | escape hescape =>
    simp only [escapes, List.mem_cons, Prod.mk.injEq, List.not_mem_nil, or_false] at hescape
    rcases hescape with ⟨rfl, rfl⟩ | ⟨rfl, rfl⟩ | ⟨rfl, rfl⟩ | ⟨rfl, rfl⟩ | ⟨rfl, rfl⟩ | ⟨rfl, rfl⟩ | ⟨rfl, rfl⟩ |
      ⟨rfl, rfl⟩ <;> exact ⟨rfl, by simp⟩
  | unicode hunit high low =>
    refine ⟨?_, by simp⟩
    have hread := readUnit_append hunit rest
    simp [readCharacter, readUnicode, hread, high, low]
  | surrogates hhigh hlow high low =>
    refine ⟨?_, by simp⟩
    rename_i digits digits' _ _
    have hread := readUnit_append hhigh (92 :: 117 :: (digits' ++ rest))
    have hread' := readUnit_append hlow rest
    simp [readCharacter, readUnicode, hread, hread', high, low]

/-- A literal is read up to its closing quote. -/
theorem readCharacters_append {contents bytes : List UInt8} (h : Spells contents bytes) {fuel : ℕ}
    (hfuel : contents.length < fuel) (rest : List UInt8) :
    readCharacters fuel (contents ++ 34 :: rest) = some (bytes, rest) := by
  induction h generalizing fuel with
  | nil =>
    obtain ⟨fuel, rfl⟩ := Nat.exists_eq_add_one_of_ne_zero (Nat.ne_zero_of_lt hfuel)
    rfl
  | @cons spelling character contents bytes first _ ih =>
    obtain ⟨fuel, rfl⟩ := Nat.exists_eq_add_one_of_ne_zero (Nat.ne_zero_of_lt hfuel)
    obtain ⟨hcharacter, hhead⟩ := readCharacter_append first (contents ++ 34 :: rest)
    have hlength : 0 < spelling.length := by
      cases first <;> simp
    rw [List.length_append] at hfuel
    rw [List.append_assoc, readCharacters, if_neg hhead, hcharacter, Option.bind_some, ih (by omega)]
    rfl

def isNumberByte (b : UInt8) : Bool := Decimal.isDigit b ∨ b = 46 ∨ b = 69 ∨ b = 101

def Stops (rest : List UInt8) : Prop := ∀ b ∈ rest.head?, isNumberByte b = false

instance : (rest : List UInt8) → Decidable (Stops rest)
  | [] => .isTrue (fun _ hb => absurd hb (Option.not_mem_none _))
  | b :: _ => decidable_of_iff (isNumberByte b = false) ⟨fun h _ hc => Option.some.inj hc ▸ h, fun h => h b rfl⟩

theorem stops_cons {b : UInt8} (h : isNumberByte b = false) (rest : List UInt8) : Stops (b :: rest) := by
  intro c hc
  cases hc
  exact h

def readNatural (bytes : List UInt8) : Option (ℕ × List UInt8) :=
  let digits := bytes.takeWhile Decimal.isDigit
  let rest := bytes.dropWhile Decimal.isDigit
  if digits = [] ∨ (digits.head? = some 48 ∧ digits ≠ [48]) ∨ ¬ Stops rest then none
  else some (Decimal.value digits, rest)

def readNumber : List UInt8 → Option (Value × List UInt8)
  | 45 :: bytes => (readNatural bytes).map (fun r => (.number (-(r.1 : ℤ)), r.2))
  | bytes => (readNatural bytes).map (fun r => (.number r.1, r.2))

def readWord (word : List UInt8) (v : Value) (bytes : List UInt8) : Option (Value × List UInt8) :=
  if word.isPrefixOf bytes then some (v, bytes.drop word.length) else none

def nullWord : List UInt8 := [110, 117, 108, 108]
def boolWord (b : Bool) : List UInt8 := if b then [116, 114, 117, 101] else [102, 97, 108, 115, 101]

def readScalar (bytes : List UInt8) : Option (Value × List UInt8) :=
  if bytes.head? = some 110 then readWord nullWord .null bytes
  else if bytes.head? = some 116 then readWord (boolWord true) (.bool true) bytes
  else if bytes.head? = some 102 then readWord (boolWord false) (.bool false) bytes
  else readNumber bytes

def expect (b : UInt8) (bytes : List UInt8) : Option (List UInt8) :=
  if (skipSpace bytes).head? = some b then some (skipSpace bytes).tail else none

/-- What follows the comma in front of an element; there is none in front of the first one. -/
def afterComma (first : Bool) (bytes : List UInt8) : Option (List UInt8) :=
  if first then some bytes else expect 44 bytes

def readKey (bytes : List UInt8) : Option (List UInt8 × List UInt8) :=
  (expect 34 bytes).bind (fun rest =>
    (readCharacters (rest.length + 1) rest).bind (fun key =>
      (expect 58 key.2).map (fun rest => (key.1, rest))))

mutual

def readValue : ℕ → List UInt8 → Option (Value × List UInt8)
  | 0, _ => none
  | fuel + 1, bytes =>
    match expect 34 bytes, expect 91 bytes, expect 123 bytes with
    | some rest, _, _ => (readCharacters (rest.length + 1) rest).map (fun r => (.string r.1, r.2))
    | none, some rest, _ => (readItems fuel true rest).map (fun r => (.array r.1, r.2))
    | none, none, some rest => (readMembers fuel true rest).map (fun r => (.object r.1, r.2))
    | none, none, none => readScalar (skipSpace bytes)

def readItems : ℕ → Bool → List UInt8 → Option (List Value × List UInt8)
  | 0, _, _ => none
  | fuel + 1, first, bytes =>
    match expect 93 bytes with
    | some rest => some ([], rest)
    | none =>
      (afterComma first bytes).bind (fun bytes =>
        (readValue fuel bytes).bind (fun item =>
          (readItems fuel false item.2).map (fun more => (item.1 :: more.1, more.2))))

def readMembers : ℕ → Bool → List UInt8 → Option (List (List UInt8 × Value) × List UInt8)
  | 0, _, _ => none
  | fuel + 1, first, bytes =>
    match expect 125 bytes with
    | some rest => some ([], rest)
    | none =>
      (afterComma first bytes).bind (fun bytes =>
        (readKey bytes).bind (fun key =>
          (readValue fuel key.2).bind (fun value =>
            (readMembers fuel false value.2).map (fun more => ((key.1, value.1) :: more.1, more.2)))))

end

def read (bytes : List UInt8) : Option Value :=
  (readValue (bytes.length + 1) bytes).bind (fun r => if skipSpace r.2 = [] then some r.1 else none)

end Json
