import Mathlib.Data.List.Basic
import Mathlib.Data.List.Induction
import Mathlib.Data.List.Nodup
import Mathlib.Data.List.Perm.Basic

/-!
# Bracket words

A reader of a word of brackets keeps the brackets that are open on a stack. A closing bracket
that fits the innermost open one closes it; any other closing bracket is skipped and recorded as
a fault. A word is well nested exactly when the reader records no fault and leaves nothing open.
-/

namespace Brackets

universe u

variable {α β : Type u}

structure Tally (α : Type u) where
  /-- The open brackets, the innermost first. -/
  pending : List α := []
  matched : List (α × α) := []
  /-- The closing brackets read while nothing was open. -/
  unmatched : List α := []
  /-- The closing brackets that did not fit the innermost open one. -/
  mismatched : List α := []

variable (opens : α → Bool) (pairs : α → α → Bool)

def close (t : Tally α) (x : α) : Tally α :=
  match t.pending with
  | [] => { t with unmatched := t.unmatched ++ [x] }
  | y :: rest =>
    if pairs y x then { t with pending := rest, matched := t.matched ++ [(y, x)] }
    else { t with mismatched := t.mismatched ++ [x] }

def step (t : Tally α) (x : α) : Tally α :=
  if opens x then { t with pending := x :: t.pending } else close pairs t x

def readFrom (t : Tally α) (w : List α) : Tally α := w.foldl (step opens pairs) t

def read (w : List α) : Tally α := readFrom opens pairs {} w

/-- Each bracket of the word that closes fits the one it closes, and the pairs are nested. -/
inductive WellNested : List α → Prop
  | nil : WellNested []
  | pair {x y : α} {inner rest : List α} (opening : opens x = true) (closing : opens y = false)
      (fits : pairs x y = true) (inside : WellNested inner) (after : WellNested rest) :
      WellNested (x :: inner ++ y :: rest)

def Tally.Faultless (t : Tally α) : Prop := t.unmatched = [] ∧ t.mismatched = []

variable {opens pairs} {t : Tally α} {x y : α} {w v : List α}

theorem step_of_opens (h : opens x = true) : step opens pairs t x = { t with pending := x :: t.pending } :=
  if_pos h

theorem step_of_closes (h : opens x = false) : step opens pairs t x = close pairs t x :=
  if_neg (ne_true_of_eq_false h)

theorem close_of_nil (h : t.pending = []) : close pairs t x = { t with unmatched := t.unmatched ++ [x] } := by
  rw [close, h]

theorem close_of_pairs {rest : List α} (h : t.pending = y :: rest) (hpairs : pairs y x = true) :
    close pairs t x = { t with pending := rest, matched := t.matched ++ [(y, x)] } := by
  rw [close, h]
  exact if_pos hpairs

theorem close_of_not_pairs {rest : List α} (h : t.pending = y :: rest) (hpairs : pairs y x = false) :
    close pairs t x = { t with mismatched := t.mismatched ++ [x] } := by
  rw [close, h]
  exact if_neg (ne_true_of_eq_false hpairs)

variable (pairs) in
/-- The three ways to read a closing bracket. -/
theorem close_cases (t : Tally α) (x : α) :
    (t.pending = [] ∧ close pairs t x = { t with unmatched := t.unmatched ++ [x] }) ∨
      (∃ y rest, t.pending = y :: rest ∧ pairs y x = true ∧
        close pairs t x = { t with pending := rest, matched := t.matched ++ [(y, x)] }) ∨
      ∃ y rest, t.pending = y :: rest ∧ pairs y x = false ∧
        close pairs t x = { t with mismatched := t.mismatched ++ [x] } := by
  by_cases hnil : t.pending = []
  · exact .inl ⟨hnil, close_of_nil hnil⟩
  · obtain ⟨y, rest, hpending⟩ := List.exists_cons_of_ne_nil hnil
    cases hpairs : pairs y x with
    | true => exact .inr (.inl ⟨y, rest, hpending, hpairs, close_of_pairs hpending hpairs⟩)
    | false => exact .inr (.inr ⟨y, rest, hpending, hpairs, close_of_not_pairs hpending hpairs⟩)

@[simp] theorem readFrom_nil : readFrom opens pairs t [] = t := rfl

@[simp] theorem readFrom_cons : readFrom opens pairs t (x :: w) = readFrom opens pairs (step opens pairs t x) w :=
  rfl

theorem readFrom_append : readFrom opens pairs t (w ++ v) = readFrom opens pairs (readFrom opens pairs t w) v :=
  List.foldl_append

theorem read_concat (w : List α) (x : α) : read opens pairs (w ++ [x]) = step opens pairs (read opens pairs w) x := by
  rw [read, readFrom_append]
  rfl

theorem read_append (w v : List α) : read opens pairs (w ++ v) = readFrom opens pairs (read opens pairs w) v :=
  readFrom_append

variable (opens pairs) in
theorem faults_prefix_step (t : Tally α) (x : α) :
    t.unmatched <+: (step opens pairs t x).unmatched ∧ t.mismatched <+: (step opens pairs t x).mismatched := by
  cases hopens : opens x with
  | true =>
    rw [step_of_opens hopens]
    exact ⟨List.prefix_rfl, List.prefix_rfl⟩
  | false =>
    rw [step_of_closes hopens]
    rcases close_cases pairs t x with ⟨-, h⟩ | ⟨_, _, -, -, h⟩ | ⟨_, _, -, -, h⟩ <;> rw [h]
    · exact ⟨List.prefix_append _ _, List.prefix_rfl⟩
    · exact ⟨List.prefix_rfl, List.prefix_rfl⟩
    · exact ⟨List.prefix_rfl, List.prefix_append _ _⟩

variable (opens pairs) in
theorem faults_prefix (t : Tally α) (w : List α) :
    t.unmatched <+: (readFrom opens pairs t w).unmatched ∧ t.mismatched <+: (readFrom opens pairs t w).mismatched := by
  induction w generalizing t with
  | nil => exact ⟨List.prefix_rfl, List.prefix_rfl⟩
  | cons x w ih =>
    have hstep := faults_prefix_step opens pairs t x
    have hrest := ih (step opens pairs t x)
    exact ⟨hstep.1.trans hrest.1, hstep.2.trans hrest.2⟩

theorem Tally.Faultless.of_readFrom (h : (readFrom opens pairs t w).Faultless) : t.Faultless := by
  have hprefix := faults_prefix opens pairs t w
  rw [h.1, h.2, List.prefix_nil, List.prefix_nil] at hprefix
  exact hprefix

def Tally.map (f : α → β) (t : Tally α) : Tally β where
  pending := t.pending.map f
  matched := t.matched.map (Prod.map f f)
  unmatched := t.unmatched.map f
  mismatched := t.mismatched.map f

theorem read_map (opens : β → Bool) (pairs : β → β → Bool) (f : α → β) (w : List α) :
    read opens pairs (w.map f) = (read (fun x => opens (f x)) (fun x y => pairs (f x) (f y)) w).map f := by
  induction w using List.reverseRecOn with
  | nil => rfl
  | append_singleton w x ih =>
    rw [List.map_append, List.map_singleton, read_concat, read_concat, ih]
    cases hopens : opens (f x) with
    | true =>
      rw [step, step, if_pos hopens, if_pos hopens]
      rfl
    | false =>
      have hcloses : ¬ opens (f x) = true := ne_true_of_eq_false hopens
      rw [step, step, if_neg hcloses, if_neg hcloses]
      generalize read (fun x => opens (f x)) (fun x y => pairs (f x) (f y)) w = t
      rcases close_cases (fun x y => pairs (f x) (f y)) t x with ⟨hpending, h⟩ | ⟨y, rest, hpending, hpairs, h⟩ |
          ⟨y, rest, hpending, hpairs, h⟩ <;> rw [h]
      · have hnil : (t.map f).pending = [] := by simp [Tally.map, hpending]
        rw [close_of_nil hnil]
        simp [Tally.map]
      · have hcons : (t.map f).pending = f y :: rest.map f := by simp [Tally.map, hpending]
        rw [close_of_pairs hcons hpairs]
        simp [Tally.map]
      · have hcons : (t.map f).pending = f y :: rest.map f := by simp [Tally.map, hpending]
        rw [close_of_not_pairs hcons hpairs]
        simp [Tally.map]

/-- Every bracket that opens is closed in the end or still open. -/
theorem opening_perm (w : List α) : (w.filter opens).Perm
    ((read opens pairs w).matched.map Prod.fst ++ (read opens pairs w).pending) := by
  induction w using List.reverseRecOn with
  | nil => exact .refl _
  | append_singleton w x ih =>
    rw [read_concat, List.filter_append]
    cases hopens : opens x with
    | true =>
      rw [step_of_opens hopens, List.filter_cons_of_pos hopens, List.filter_nil]
      refine List.perm_append_singleton x _ |>.trans ?_
      exact (ih.cons x).trans List.perm_middle.symm
    | false =>
      rw [step_of_closes hopens, List.filter_cons_of_neg (ne_true_of_eq_false hopens), List.filter_nil,
        List.append_nil]
      rcases close_cases pairs (read opens pairs w) x with ⟨-, h⟩ | ⟨y, rest, hpending, -, h⟩ | ⟨_, _, -, -, h⟩ <;>
        rw [h]
      · exact ih
      · rw [hpending] at ih
        simpa using ih
      · exact ih

variable (opens pairs) in
/-- A bracket that opens is one more that is closed in the end or open. -/
theorem length_step (t : Tally α) (x : α) :
    (step opens pairs t x).matched.length + (step opens pairs t x).pending.length =
      t.matched.length + t.pending.length + if opens x then 1 else 0 := by
  cases hopens : opens x with
  | true =>
    rw [step_of_opens hopens, if_pos rfl]
    rfl
  | false =>
    rw [step_of_closes hopens, if_neg Bool.false_ne_true]
    rcases close_cases pairs t x with ⟨-, h⟩ | ⟨_, _, hpending, -, h⟩ | ⟨_, _, -, -, h⟩ <;> rw [h]
    · rw [Nat.add_zero]
    · simp only [hpending, List.length_append, List.length_cons, List.length_nil]
      omega
    · rw [Nat.add_zero]

theorem perm_concat_swap (u v : List α) (x : α) : (u ++ v ++ [x]).Perm (u ++ [x] ++ v) := by
  rw [List.append_assoc, List.append_assoc]
  exact List.perm_append_comm.append_left u

/-- Every bracket that closes is matched, unmatched or mismatched. -/
theorem closing_perm (w : List α) : (w.filter (fun x => !opens x)).Perm
    ((read opens pairs w).matched.map Prod.snd ++ (read opens pairs w).unmatched ++
      (read opens pairs w).mismatched) := by
  induction w using List.reverseRecOn with
  | nil => exact .refl _
  | append_singleton w x ih =>
    rw [read_concat, List.filter_append]
    cases hopens : opens x with
    | true => simpa [step_of_opens hopens, hopens] using ih
    | false =>
      have hlast : [x].filter (fun x => !opens x) = [x] := by simp [hopens]
      rw [step_of_closes hopens, hlast]
      refine (ih.append_right [x]).trans ?_
      rcases close_cases pairs (read opens pairs w) x with ⟨-, h⟩ | ⟨y, rest, -, -, h⟩ | ⟨_, _, -, -, h⟩ <;>
        rw [h]
      · rw [← List.append_assoc]
        exact perm_concat_swap _ _ x
      · rw [List.map_append, List.map_singleton, List.append_assoc _ _ (read opens pairs w).mismatched,
          List.append_assoc _ _ (read opens pairs w).mismatched]
        exact perm_concat_swap _ _ x
      · rw [List.append_assoc]

variable (opens pairs) in
/-- The open brackets are brackets of the word, the innermost being the last. -/
theorem pending_sublist (w : List α) : (read opens pairs w).pending.reverse.Sublist w := by
  induction w using List.reverseRecOn with
  | nil => exact .refl _
  | append_singleton w x ih =>
    rw [read_concat]
    cases hopens : opens x with
    | true =>
      rw [step_of_opens hopens, List.reverse_cons]
      exact ih.append (.refl _)
    | false =>
      have hkept := ih.trans (List.sublist_append_left w [x])
      rw [step_of_closes hopens]
      rcases close_cases pairs (read opens pairs w) x with ⟨-, h⟩ | ⟨y, rest, hpending, -, h⟩ | ⟨_, _, -, -, h⟩ <;>
        rw [h]
      · exact hkept
      · rw [hpending, List.reverse_cons] at hkept
        exact (List.sublist_append_left _ _).trans hkept
      · exact hkept

variable (opens pairs) in
/-- What is matched later is closed by the brackets read later. -/
theorem matched_readFrom (t : Tally α) (w : List α) :
    ∃ later, (readFrom opens pairs t w).matched = t.matched ++ later ∧ (later.map Prod.snd).Sublist w := by
  induction w generalizing t with
  | nil => exact ⟨[], (List.append_nil _).symm, .refl _⟩
  | cons x w ih =>
    obtain ⟨later, hmatched, hlater⟩ := ih (step opens pairs t x)
    rw [readFrom_cons, hmatched]
    cases hopens : opens x with
    | true =>
      rw [step_of_opens hopens]
      exact ⟨later, rfl, hlater.cons x⟩
    | false =>
      rw [step_of_closes hopens]
      rcases close_cases pairs t x with ⟨-, h⟩ | ⟨y, rest, -, -, h⟩ | ⟨_, _, -, -, h⟩ <;> rw [h]
      · exact ⟨later, rfl, hlater.cons x⟩
      · exact ⟨(y, x) :: later, by simp, hlater.cons_cons x⟩
      · exact ⟨later, rfl, hlater.cons x⟩

theorem matched_subset (w v : List α) : (read opens pairs w).matched ⊆ (read opens pairs (w ++ v)).matched := by
  obtain ⟨later, hmatched, -⟩ := matched_readFrom opens pairs (read opens pairs w) v
  rw [read_append, hmatched]
  exact List.subset_append_left _ _

/-- A bracket that opens is closed in the end or still open, but not both. -/
theorem matched_or_pending (hnodup : w.Nodup) (hopens : opens x = true) (hmem : x ∈ w) :
    (∃ y, (x, y) ∈ (read opens pairs w).matched) ↔ x ∉ (read opens pairs w).pending := by
  have hperm : (w.filter opens).Perm ((read opens pairs w).matched.map Prod.fst ++ (read opens pairs w).pending) :=
    opening_perm w
  have hdisjoint := List.disjoint_of_nodup_append (hperm.nodup_iff.mp (hnodup.filter _))
  constructor
  · rintro ⟨y, hy⟩ hpending
    exact hdisjoint (List.mem_map_of_mem hy) hpending
  · intro hpending
    have hmem' := hperm.mem_iff.mp (List.mem_filter.mpr ⟨hmem, hopens⟩)
    obtain ⟨⟨_, y⟩, hy, rfl⟩ := List.mem_map.mp ((List.mem_append.mp hmem').resolve_right hpending)
    exact ⟨y, hy⟩

theorem closing_of_mem_matched (h : (x, y) ∈ (read opens pairs w).matched) :
    x ∈ w ∧ opens x = true ∧ y ∈ w ∧ opens y = false := by
  obtain ⟨hxw, hopens⟩ := List.mem_filter.mp
    ((opening_perm w).mem_iff.mpr (List.mem_append_left _ (List.mem_map_of_mem h)))
  obtain ⟨hyw, hcloses⟩ := List.mem_filter.mp
    ((closing_perm w).mem_iff.mpr (List.mem_append_left _ (List.mem_append_left _ (List.mem_map_of_mem h))))
  exact ⟨hxw, hopens, hyw, by simpa using hcloses⟩

/-- The brackets open after the beginning of a word are those that it opens and does not close. -/
theorem mem_pending_iff (hnodup : (w ++ v).Nodup) :
    x ∈ (read opens pairs w).pending ↔
      x ∈ w ∧ opens x = true ∧ ∀ y, (x, y) ∈ (read opens pairs (w ++ v)).matched → y ∉ w := by
  have hw : w.Nodup := hnodup.of_append_left
  constructor
  · intro hpending
    obtain ⟨hmem, hopens⟩ := List.mem_filter.mp ((opening_perm w).mem_iff.mpr (List.mem_append_right _ hpending))
    refine ⟨hmem, hopens, fun y hy hyw => ?_⟩
    obtain ⟨later, hmatched, hlater⟩ := matched_readFrom opens pairs (read opens pairs w) v
    rw [read_append, hmatched, List.mem_append] at hy
    rcases hy with hy | hy
    · exact (matched_or_pending hw hopens hmem).mp ⟨y, hy⟩ hpending
    · exact List.disjoint_of_nodup_append hnodup hyw (hlater.subset (List.mem_map_of_mem hy))
  · rintro ⟨hmem, hopens, hclosed⟩
    by_contra hpending
    obtain ⟨y, hy⟩ := (matched_or_pending hw hopens hmem).mpr hpending
    exact hclosed y (matched_subset w v hy) (closing_of_mem_matched hy).2.2.1

/-- A well nested word is read without a fault and leaves open what was open before. -/
theorem WellNested.readFrom (h : WellNested opens pairs w) (t : Tally α) :
    ∃ matched, readFrom opens pairs t w = { t with matched := matched } := by
  induction h generalizing t with
  | nil => exact ⟨t.matched, rfl⟩
  | @pair x y inner rest hopening hclosing hfits _ _ ihInner ihRest =>
    obtain ⟨matched, hinner⟩ := ihInner { t with pending := x :: t.pending }
    obtain ⟨matched', hrest⟩ := ihRest { t with matched := matched ++ [(x, y)] }
    refine ⟨matched', ?_⟩
    have hread : Brackets.readFrom opens pairs t (x :: inner) =
        { t with pending := x :: t.pending, matched := matched } := by
      rw [readFrom_cons, step_of_opens hopening]
      exact hinner
    rw [readFrom_append, hread, readFrom_cons, step_of_closes hclosing, close_of_pairs rfl hfits]
    exact hrest

theorem WellNested.append (h : WellNested opens pairs w) (h' : WellNested opens pairs v) :
    WellNested opens pairs (w ++ v) := by
  induction h with
  | nil => exact h'
  | pair hopening hclosing hfits hinside _ _ ihRest =>
    rw [List.append_assoc, List.cons_append]
    exact .pair hopening hclosing hfits hinside ihRest

variable (opens pairs) in
/-- The word closes the open brackets one after the other, with well nested words between. -/
inductive Closes : List α → List α → Prop
  | done {w : List α} (rest : WellNested opens pairs w) : Closes [] w
  | close {x y : α} {pending inner rest : List α} (closing : opens y = false) (fits : pairs x y = true)
      (inside : WellNested opens pairs inner) (after : Closes pending rest) :
      Closes (x :: pending) (inner ++ y :: rest)

theorem Closes.block {pending : List α} (h : Closes opens pairs pending w) (hv : WellNested opens pairs v) :
    Closes opens pairs pending (v ++ w) := by
  cases h with
  | done hrest => exact .done (hv.append hrest)
  | close hclosing hfits hinside hafter =>
    rw [← List.append_assoc]
    exact .close hclosing hfits (hv.append hinside) hafter

/-- A word that closes a bracket first closes the others behind that bracket too. -/
theorem Closes.opened {pending : List α} (hopens : opens x = true) (h : Closes opens pairs (x :: pending) w) :
    Closes opens pairs pending (x :: w) := by
  cases h with
  | @close _ y _ inner rest hclosing hfits hinside hafter =>
    have hblock : WellNested opens pairs (x :: inner ++ [y]) := .pair hopens hclosing hfits hinside .nil
    simpa using hafter.block hblock

/-- A word read without a fault that leaves nothing open closes what was open before it. -/
theorem closes_of_readFrom (hpending : (Brackets.readFrom opens pairs t w).pending = [])
    (hfaults : (Brackets.readFrom opens pairs t w).Faultless) : Closes opens pairs t.pending w := by
  induction w generalizing t with
  | nil =>
    rw [readFrom_nil] at hpending
    rw [hpending]
    exact .done .nil
  | cons x w ih =>
    have hrest := ih hpending hfaults
    cases hopens : opens x with
    | true =>
      rw [step_of_opens hopens] at hrest
      exact hrest.opened hopens
    | false =>
      have hstep : (step opens pairs t x).Faultless := .of_readFrom hfaults
      rw [step_of_closes hopens] at hrest hstep
      rcases close_cases pairs t x with ⟨-, h⟩ | ⟨y, rest, hopen, hpairs, h⟩ | ⟨_, _, -, -, h⟩
      · rw [h] at hstep
        simp [Tally.Faultless] at hstep
      · rw [h] at hrest
        rw [hopen]
        exact .close hopens hpairs .nil hrest
      · rw [h] at hstep
        simp [Tally.Faultless] at hstep

/-- The words that are well nested are those read without a fault that leave nothing open. -/
theorem wellNested_iff : WellNested opens pairs w ↔
    (read opens pairs w).pending = [] ∧ (read opens pairs w).Faultless := by
  constructor
  · intro h
    obtain ⟨matched, hread⟩ := h.readFrom {}
    rw [read, hread]
    exact ⟨rfl, rfl, rfl⟩
  · rintro ⟨hpending, hfaults⟩
    cases closes_of_readFrom hpending hfaults with
    | done hrest => exact hrest

/-- The beginning of a well nested word is read without a fault. -/
theorem faultless_of_prefix (h : WellNested opens pairs (w ++ v)) : (read opens pairs w).Faultless := by
  have hfaults := (wellNested_iff.mp h).2
  rw [read, readFrom_append] at hfaults
  exact .of_readFrom hfaults

end Brackets
