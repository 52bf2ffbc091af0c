import Mathlib.Data.List.Basic
import Mathlib.Data.List.TakeWhile

/-!
# Delimited fields

A cursor cuts one field after the other off a list in which a delimiter separates
them, which splits the list at the delimiter. An escape code rewrites a list so
that the symbols it escapes no longer occur in it.
-/

namespace Delimited

universe u

variable {α : Type u}

theorem mem_intercalate {d x : α} {fields : List (List α)} (h : x ∈ [d].intercalate fields) :
    x = d ∨ ∃ field ∈ fields, x ∈ field := by
  induction fields with
  | nil => cases h
  | cons field fields ih =>
    cases fields with
    | nil => exact .inr ⟨field, List.mem_cons_self, by simpa using h⟩
    | cons other fields =>
      rw [List.intercalate_cons_cons, List.mem_append, List.mem_append, List.mem_singleton] at h
      rcases h with (h | h) | h
      · exact .inr ⟨field, List.mem_cons_self, h⟩
      · exact .inl h
      · rcases ih h with h | ⟨f, hf, h⟩
        · exact .inl h
        · exact .inr ⟨f, List.mem_cons_of_mem _ hf, h⟩

section Cut

variable [DecidableEq α]

/-- The first field, and the rest after the delimiter if there is one. -/
def cut (delimiter : α) (xs : List α) : List α × Option (List α) :=
  (xs.takeWhile (· ≠ delimiter),
    match xs.dropWhile (· ≠ delimiter) with
    | [] => none
    | _ :: rest => some rest)

theorem not_mem_cut (d : α) (xs : List α) : d ∉ (cut d xs).1 := by
  intro hmem
  have := List.mem_takeWhile_imp hmem
  simp at this

/-- Putting the delimiter back between the two parts gives the list that was cut. -/
theorem append_cut (d : α) (xs : List α) :
    (cut d xs).1 ++ (cut d xs).2.elim [] (fun rest => d :: rest) = xs := by
  have hsplit := List.takeWhile_append_dropWhile (p := (· ≠ d)) (l := xs)
  simp only [cut]
  cases hdrop : xs.dropWhile (· ≠ d) with
  | nil =>
    rw [hdrop] at hsplit
    exact hsplit
  | cons x rest =>
    have hx : x = d := by
      have hhead := List.head?_dropWhile_not (· ≠ d) xs
      rw [hdrop] at hhead
      simpa using hhead
    rw [hdrop, hx] at hsplit
    exact hsplit

/-- Splitting at the delimiter is cutting one field after the other. -/
theorem splitOn_eq_cons (d : α) (xs : List α) :
    xs.splitOn d = (cut d xs).1 :: (cut d xs).2.elim [] (List.splitOn d) := by
  have hnot := not_mem_cut d xs
  have happ := append_cut d xs
  generalize (cut d xs).1 = field at hnot happ
  cases hrest : (cut d xs).2 with
  | none =>
    rw [hrest] at happ
    rw [← happ, Option.elim_none, List.append_nil]
    exact List.splitOn_eq_singleton hnot
  | some rest =>
    rw [hrest] at happ
    rw [← happ, Option.elim_some]
    exact List.splitOn_append_cons_self_of_not_mem hnot rest

theorem cut_append_cons {d : α} {xs : List α} (h : d ∉ xs) (rest : List α) :
    cut d (xs ++ d :: rest) = (xs, some rest) := by
  have hkeep : ∀ x ∈ xs, decide (x ≠ d) = true := by
    intro x hx
    exact decide_eq_true (fun heq => h (heq ▸ hx))
  rw [cut, List.takeWhile_append_of_pos hkeep, List.dropWhile_append_of_pos hkeep]
  simp

/-- Fields without the delimiter are found again before it. -/
theorem append_cons_inj {d : α} {xs ys xs' ys' : List α} (hx : d ∉ xs) (hy : d ∉ ys) :
    xs ++ d :: xs' = ys ++ d :: ys' ↔ xs = ys ∧ xs' = ys' := by
  constructor
  · intro h
    have hcut := congrArg (cut d) h
    rw [cut_append_cons hx, cut_append_cons hy] at hcut
    obtain ⟨hfield, hrest⟩ := Prod.mk.inj hcut
    exact ⟨hfield, Option.some.inj hrest⟩
  · rintro ⟨rfl, rfl⟩
    rfl

end Cut

section Lines

variable [DecidableEq α]

/-- The symbols up to the first delimiter, which is the last of them, and those after it. -/
def takeLine (d : α) : List α → List α × List α
  | [] => ([], [])
  | x :: xs => if x = d then ([x], xs) else (x :: (takeLine d xs).1, (takeLine d xs).2)

/-- The pieces of a list that end with a delimiter, and what is left after the last one. -/
def lines (d : α) : List α → List (List α)
  | [] => []
  | x :: xs =>
    if x = d then [x] :: lines d xs
    else
      match lines d xs with
      | [] => [[x]]
      | line :: rest => (x :: line) :: rest

@[simp] theorem takeLine_nil (d : α) : takeLine d [] = ([], []) := rfl

theorem takeLine_self (d : α) (xs : List α) : takeLine d (d :: xs) = ([d], xs) := if_pos rfl

theorem takeLine_cons_of_ne {d x : α} (h : x ≠ d) (xs : List α) :
    takeLine d (x :: xs) = (x :: (takeLine d xs).1, (takeLine d xs).2) := if_neg h

theorem takeLine_fst_ne_nil {d : α} {xs : List α} (h : xs ≠ []) : (takeLine d xs).1 ≠ [] := by
  cases xs with
  | nil => exact absurd rfl h
  | cons x xs =>
    by_cases hx : x = d
    · rw [hx, takeLine_self]
      exact List.cons_ne_nil _ _
    · rw [takeLine_cons_of_ne hx]
      exact List.cons_ne_nil _ _

/-- The first line is what is taken first. -/
theorem lines_eq_cons {d : α} {xs : List α} (h : xs ≠ []) :
    lines d xs = (takeLine d xs).1 :: lines d (takeLine d xs).2 := by
  induction xs with
  | nil => exact absurd rfl h
  | cons x xs ih =>
    by_cases hx : x = d
    · rw [hx, takeLine_self, lines, if_pos rfl]
    · rw [takeLine_cons_of_ne hx, lines, if_neg hx]
      cases xs with
      | nil => rfl
      | cons y ys => rw [ih (List.cons_ne_nil y ys)]

theorem flatten_lines (d : α) (xs : List α) : (lines d xs).flatten = xs := by
  induction xs with
  | nil => rfl
  | cons x xs ih =>
    rw [lines]
    split
    · rw [List.flatten_cons, ih, List.singleton_append]
    · split
      · next h =>
        rw [h] at ih
        rw [← ih]
        rfl
      · next line rest h =>
        rw [h, List.flatten_cons] at ih
        rw [List.flatten_cons, List.cons_append, ih]

theorem append_takeLine (d : α) (xs : List α) : (takeLine d xs).1 ++ (takeLine d xs).2 = xs := by
  cases xs with
  | nil => rfl
  | cons x xs =>
    have hlines := flatten_lines d (x :: xs)
    rwa [lines_eq_cons (List.cons_ne_nil x xs), List.flatten_cons, flatten_lines] at hlines

theorem takeLine_append_cons {d : α} {body : List α} (h : d ∉ body) (rest : List α) :
    takeLine d (body ++ d :: rest) = (body ++ [d], rest) := by
  induction body with
  | nil => exact takeLine_self d rest
  | cons x body ih =>
    obtain ⟨hx, hbody⟩ := not_or.mp (mt List.mem_cons.mpr h)
    rw [List.cons_append, takeLine_cons_of_ne (Ne.symm hx), ih hbody]
    rfl

theorem lines_append_cons {d : α} {body : List α} (h : d ∉ body) (rest : List α) :
    lines d (body ++ d :: rest) = (body ++ [d]) :: lines d rest := by
  rw [lines_eq_cons (List.append_ne_nil_of_right_ne_nil body (List.cons_ne_nil d rest)), takeLine_append_cons h]

theorem length_takeLine_snd_lt {d : α} {xs : List α} (h : xs ≠ []) : (takeLine d xs).2.length < xs.length := by
  have hlength := congrArg List.length (append_takeLine d xs)
  have hpos := List.length_pos_iff.mpr (takeLine_fst_ne_nil (d := d) h)
  rw [List.length_append] at hlength
  omega

/-- A piece of a list: it ends with its only delimiter, or it has none and nothing
follows it. -/
structure IsLine (d : α) (line rest : List α) : Prop where
  nonempty : line ≠ []
  only_last : d ∉ line.dropLast
  ends : line.getLast? ≠ some d → rest = []

theorem isLine_takeLine {d : α} {xs : List α} (h : xs ≠ []) :
    IsLine d (takeLine d xs).1 (takeLine d xs).2 := by
  refine ⟨takeLine_fst_ne_nil h, ?_, ?_⟩
  · induction xs with
    | nil => exact absurd rfl h
    | cons x xs ih =>
      by_cases hx : x = d
      · rw [hx, takeLine_self]
        exact List.not_mem_nil
      · rw [takeLine_cons_of_ne hx]
        cases xs with
        | nil => exact List.not_mem_nil
        | cons y ys =>
          have hne := takeLine_fst_ne_nil (d := d) (List.cons_ne_nil y ys)
          rw [List.dropLast_cons_of_ne_nil hne, List.mem_cons, not_or]
          exact ⟨Ne.symm hx, ih (List.cons_ne_nil y ys)⟩
  · induction xs with
    | nil => exact absurd rfl h
    | cons x xs ih =>
      by_cases hx : x = d
      · rw [hx, takeLine_self]
        exact fun hlast => absurd rfl hlast
      · rw [takeLine_cons_of_ne hx]
        cases xs with
        | nil => exact fun _ => rfl
        | cons y ys =>
          have hne := takeLine_fst_ne_nil (d := d) (List.cons_ne_nil y ys)
          intro hlast
          apply ih (List.cons_ne_nil y ys)
          rwa [List.getLast?_cons_of_ne_nil hne] at hlast

/-- The lines of a list are its pieces. -/
theorem isLine_lines {d : α} {k : ℕ} {xs line : List α} (h : (lines d xs)[k]? = some line) :
    IsLine d line ((lines d xs).drop (k + 1)).flatten := by
  induction k generalizing xs with
  | zero =>
    cases xs with
    | nil => cases h
    | cons x xs =>
      have hne := List.cons_ne_nil x xs
      rw [lines_eq_cons hne] at h ⊢
      cases h
      rw [List.drop_succ_cons, List.drop_zero, flatten_lines]
      exact isLine_takeLine hne
  | succ k ih =>
    cases xs with
    | nil => cases h
    | cons x xs =>
      rw [lines_eq_cons (List.cons_ne_nil x xs)] at h ⊢
      exact ih h

end Lines

/-- An escape code writes a mark and a letter in place of each symbol it escapes, the
mark among them. -/
structure EscapeCode (α : Type u) where
  mark : α
  letter : α → Option α
  /-- The symbol a letter after the mark stands for. -/
  symbol : α → α
  letter_mark : letter mark ≠ none
  symbol_letter : ∀ s l, letter s = some l → symbol l = s

namespace EscapeCode

variable (code : EscapeCode α)

def escapeOne (s : α) : List α :=
  match code.letter s with
  | some l => [code.mark, l]
  | none => [s]

def escape (xs : List α) : List α := xs.flatMap code.escapeOne

/-- The equations of a function that reads marks and letters back. -/
structure Undoes (f : List α → List α) : Prop where
  nil : f [] = []
  plain : ∀ s xs, s ≠ code.mark → f (s :: xs) = s :: f xs
  marked : ∀ l xs, f (code.mark :: l :: xs) = code.symbol l :: f xs

/-- Reading letters back, where a mark at the end stands for itself. -/
def unescape [DecidableEq α] : List α → List α
  | [] => []
  | [s] => [s]
  | s :: l :: xs =>
    if s = code.mark then code.symbol l :: unescape xs else s :: unescape (l :: xs)

theorem undoes_unescape [DecidableEq α] : code.Undoes code.unescape where
  nil := rfl
  plain s xs h := by
    cases xs with
    | nil => rfl
    | cons l xs => rw [unescape, if_neg h]
  marked l xs := by rw [unescape, if_pos rfl]

/-- Reading back produces only symbols it was given, and symbols of letters. -/
theorem mem_unescape [DecidableEq α] {x : α} {xs : List α} (h : x ∈ code.unescape xs) :
    x ∈ xs ∨ ∃ l ∈ xs, x = code.symbol l := by
  fun_induction unescape code xs with
  | case1 => exact .inl h
  | case2 s => exact .inl h
  | case3 l xs ih =>
    rcases List.mem_cons.mp h with rfl | h
    · exact .inr ⟨l, by simp, rfl⟩
    · rcases ih h with hx | ⟨m, hm, hx⟩
      · exact .inl (by simp [hx])
      · exact .inr ⟨m, by simp [hm], hx⟩
  | case4 s l xs hs ih =>
    rcases List.mem_cons.mp h with rfl | h
    · exact .inl List.mem_cons_self
    · rcases ih h with hx | ⟨m, hm, hx⟩
      · exact .inl (List.mem_cons_of_mem _ hx)
      · exact .inr ⟨m, List.mem_cons_of_mem _ hm, hx⟩

variable {code}

@[simp] theorem escape_nil : code.escape [] = [] := rfl

@[simp] theorem escape_cons (s : α) (xs : List α) :
    code.escape (s :: xs) = code.escapeOne s ++ code.escape xs := rfl

/-- What undoes the code recovers every escaped list. -/
theorem Undoes.escape {f : List α → List α} (h : code.Undoes f) (xs : List α) :
    f (code.escape xs) = xs := by
  induction xs with
  | nil => exact h.nil
  | cons s xs ih =>
    rw [escape_cons, escapeOne]
    cases hs : code.letter s with
    | none =>
      have hne : s ≠ code.mark := fun heq => code.letter_mark (heq ▸ hs)
      exact (h.plain s _ hne).trans (congrArg _ ih)
    | some l =>
      have hl := code.symbol_letter s l hs
      exact (h.marked l _).trans (congrArg₂ _ hl ih)

/-- An escaped symbol other than the mark does not occur unless it is used as a letter. -/
theorem not_mem_escape {s : α} (hs : code.letter s ≠ none) (hmark : s ≠ code.mark)
    (hletter : ∀ t, code.letter t ≠ some s) (xs : List α) : s ∉ code.escape xs := by
  intro hmem
  obtain ⟨t, -, ht⟩ := List.mem_flatMap.mp hmem
  unfold escapeOne at ht
  cases h : code.letter t with
  | none =>
    rw [h] at ht
    exact hs (List.mem_singleton.mp ht ▸ h)
  | some l =>
    rw [h] at ht
    rcases List.mem_cons.mp ht with heq | ht
    · exact hmark heq
    · exact hletter t (List.mem_singleton.mp ht ▸ h)

theorem length_escape (xs : List α) :
    (code.escape xs).length = xs.length + xs.countP (fun s => (code.letter s).isSome) := by
  induction xs with
  | nil => rfl
  | cons s xs ih =>
    rw [escape_cons, List.length_append, ih, List.length_cons, List.countP_cons, escapeOne]
    cases code.letter s with
    | none =>
      simp only [List.length_singleton, Option.isSome_none, Bool.false_eq_true, if_false]
      omega
    | some l =>
      simp only [List.length_cons, List.length_nil, Option.isSome_some, if_true]
      omega

end EscapeCode

end Delimited
