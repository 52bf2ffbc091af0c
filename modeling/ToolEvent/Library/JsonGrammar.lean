import ToolEvent.Library.Json

/-!
# A grammar of JSON texts

The texts of values whose nesting is bounded, as lists of bytes. What the literals of strings are,
and which of them may be keys, is left open.
-/

namespace Json

variable {κ : Type}

def IsSpace (bytes : List UInt8) : Prop := ∀ b ∈ bytes, isSpace b = true

/-- The integer part of a number has no zero in front of other digits. -/
def IsInteger (bytes : List UInt8) : Prop := bytes = [48] ∨ (Decimal.IsNumeral bytes ∧ bytes.headD 0 ≠ 48)

def IsFraction (bytes : List UInt8) : Prop := bytes = [] ∨ ∃ digits, Decimal.IsNumeral digits ∧ bytes = 46 :: digits

def IsExponent (bytes : List UInt8) : Prop :=
  bytes = [] ∨ ∃ letter sign digits, (letter = 101 ∨ letter = 69) ∧ (sign = [] ∨ sign = [43] ∨ sign = [45]) ∧
    Decimal.IsNumeral digits ∧ bytes = letter :: (sign ++ digits)

def IsNumber (bytes : List UInt8) : Prop :=
  ∃ sign integer fraction exponent, (sign = [] ∨ sign = [45]) ∧ IsInteger integer ∧ IsFraction fraction ∧
    IsExponent exponent ∧ bytes = sign ++ (integer ++ (fraction ++ exponent))

/-- What stands in front of a member or an element: white space, with a comma in it behind another
one. -/
def IsLead (first : Bool) (bytes : List UInt8) : Prop :=
  if first then IsSpace bytes
  else ∃ before after, IsSpace before ∧ IsSpace after ∧ bytes = before ++ 44 :: after

variable (IsKey : List UInt8 → κ → Prop)

/-- The text of an object from a member on, with the names and the values of its members. -/
inductive Members : Bool → List (κ × List UInt8) → List UInt8 → Prop
  | close {first : Bool} {space : List UInt8} (hspace : IsSpace space) : Members first [] (space ++ [125])
  | member {first : Bool} {lead key before after value rest : List UInt8} {name : κ}
      {members : List (κ × List UInt8)} (hlead : IsLead first lead) (hkey : IsKey key name)
      (hbefore : IsSpace before) (hafter : IsSpace after) (hrest : Members false members rest) :
      Members first ((name, value) :: members) (lead ++ (key ++ (before ++ 58 :: (after ++ (value ++ rest)))))

/-- The text of an array from an element on. -/
inductive Elements : Bool → List (List UInt8) → List UInt8 → Prop
  | close {first : Bool} {space : List UInt8} (hspace : IsSpace space) : Elements first [] (space ++ [93])
  | element {first : Bool} {lead value rest : List UInt8} {values : List (List UInt8)} (hlead : IsLead first lead)
      (hrest : Elements false values rest) : Elements first (value :: values) (lead ++ (value ++ rest))

def IsObject (IsMember : κ × List UInt8 → Prop) (bytes : List UInt8) : Prop :=
  ∃ members body, bytes = 123 :: body ∧ Members IsKey true members body ∧ ∀ member ∈ members, IsMember member

def IsArray (IsElement : List UInt8 → Prop) (bytes : List UInt8) : Prop :=
  ∃ elements body, bytes = 91 :: body ∧ Elements true elements body ∧ ∀ element ∈ elements, IsElement element

def words : List (List UInt8) := [boolWord true, nullWord, boolWord false]

variable (IsString : List UInt8 → Prop)

/-- The values that are nested in so many levels. -/
def IsValue : ℕ → List UInt8 → Prop
  | 0, _ => False
  | levels + 1, bytes =>
    IsString bytes ∨ IsNumber bytes ∨ bytes ∈ words ∨ IsObject IsKey (fun member => IsValue levels member.2) bytes ∨
      IsArray (IsValue levels) bytes

variable {IsKey IsString}

theorem isSpace_nil : IsSpace [] := fun _ hb => absurd hb List.not_mem_nil

theorem IsSpace.append {space space' : List UInt8} (h : IsSpace space) (h' : IsSpace space') :
    IsSpace (space ++ space') := fun b hb => (List.mem_append.mp hb).elim (h b) (h' b)

theorem IsSpace.head_append {space : List UInt8} (h : IsSpace space) (b : UInt8) (rest : List UInt8) :
    isSpace ((space ++ b :: rest).headD 0) = true ∨ (space ++ b :: rest).headD 0 = b := by
  cases space with
  | nil => exact .inr rfl
  | cons c space => exact .inl (h c List.mem_cons_self)

/-- The text behind a member begins with white space, a comma or a brace. -/
theorem Members.head {members : List (κ × List UInt8)} {bytes : List UInt8} (h : Members IsKey false members bytes)
    (rest : List UInt8) :
    isSpace ((bytes ++ rest).headD 0) = true ∨ (bytes ++ rest).headD 0 = 44 ∨ (bytes ++ rest).headD 0 = 125 := by
  generalize hfirst : false = first at h
  cases h with
  | close hspace =>
    rw [List.append_assoc]
    exact (hspace.head_append 125 _).imp_right .inr
  | member hlead _ _ _ _ =>
    subst hfirst
    obtain ⟨before, after, hbefore, -, rfl⟩ := hlead
    rw [List.append_assoc, List.append_assoc]
    exact (hbefore.head_append 44 _).imp_right .inl

/-- The text behind an element begins with white space, a comma or a bracket. -/
theorem Elements.head {values : List (List UInt8)} {bytes : List UInt8} (h : Elements false values bytes)
    (rest : List UInt8) :
    isSpace ((bytes ++ rest).headD 0) = true ∨ (bytes ++ rest).headD 0 = 44 ∨ (bytes ++ rest).headD 0 = 93 := by
  generalize hfirst : false = first at h
  cases h with
  | close hspace =>
    rw [List.append_assoc]
    exact (hspace.head_append 93 _).imp_right .inr
  | element hlead _ =>
    subst hfirst
    obtain ⟨before, after, hbefore, -, rfl⟩ := hlead
    rw [List.append_assoc, List.append_assoc]
    exact (hbefore.head_append 44 _).imp_right .inl

/-- The text begins with a byte of its own: no white space, and no closing bracket. -/
def Opens (bytes : List UInt8) : Prop := isSpace (bytes.headD 0) = false ∧ bytes.headD 0 ∉ ([0, 93, 125] : List UInt8)

theorem Opens.append {bytes : List UInt8} (h : Opens bytes) (rest : List UInt8) : Opens (bytes ++ rest) := by
  cases bytes with
  | nil => exact absurd List.mem_cons_self h.2
  | cons b bytes => exact h

theorem opens_of_isDigit {bytes : List UInt8} (h : Decimal.isDigit (bytes.headD 0) = true) : Opens bytes := by
  unfold Opens
  generalize bytes.headD 0 = b at h ⊢
  have hne : ∀ c, Decimal.isDigit c = false → b ≠ c := by
    rintro c hc rfl
    exact absurd h (ne_true_of_eq_false hc)
  simp [isSpace, hne 32 rfl, hne 9 rfl, hne 10 rfl, hne 13 rfl, hne 0 rfl, hne 93 rfl, hne 125 rfl]

theorem isDigit_of_isNumeral {bytes : List UInt8} (h : Decimal.IsNumeral bytes) :
    Decimal.isDigit (bytes.headD 0) = true := by
  cases bytes with
  | nil => exact absurd rfl h.nonempty
  | cons b bytes => exact h.digits b List.mem_cons_self

theorem IsInteger.isDigit {bytes : List UInt8} (h : IsInteger bytes) : Decimal.isDigit (bytes.headD 0) = true := by
  rcases h with rfl | ⟨hnumeral, -⟩
  · rfl
  · exact isDigit_of_isNumeral hnumeral

/-- A number begins with a digit or a minus sign. -/
theorem IsNumber.head {bytes : List UInt8} (h : IsNumber bytes) (rest : List UInt8) :
    Decimal.isDigit ((bytes ++ rest).headD 0) = true ∨ (bytes ++ rest).headD 0 = 45 := by
  obtain ⟨sign, integer, fraction, exponent, hsign, hinteger, -, -, rfl⟩ := h
  rcases hsign with rfl | rfl
  · have hdigit := hinteger.isDigit
    cases integer with
    | nil => cases hdigit
    | cons b integer => exact .inl hdigit
  · exact .inr rfl

theorem IsValue.opens {levels : ℕ} {bytes : List UInt8} (h : IsValue IsKey IsString levels bytes)
    (hquote : ∀ {bytes}, IsString bytes → bytes.head? = some 34) : Opens bytes := by
  cases levels with
  | zero => exact h.elim
  | succ levels =>
    rcases h with hstring | hnumber | hword | ⟨_, _, rfl, -⟩ | ⟨_, _, rfl, -⟩
    · obtain ⟨rest, rfl⟩ : ∃ rest, bytes = 34 :: rest := List.head?_eq_some_iff.mp (hquote hstring)
      exact ⟨rfl, by simp⟩
    · have hhead := hnumber.head []
      rw [List.append_nil] at hhead
      rcases hhead with hdigit | hminus
      · exact opens_of_isDigit hdigit
      · rw [Opens, hminus]
        decide
    · simp only [words, List.mem_cons, List.not_mem_nil, or_false] at hword
      rcases hword with rfl | rfl | rfl <;> exact ⟨rfl, by decide⟩
    · exact ⟨rfl, by simp⟩
    · exact ⟨rfl, by simp⟩

end Json
