import Mathlib.Data.List.Nodup
import Mathlib.Data.List.Perm.Basic
import Mathlib.Logic.Relation

/-!
# Orders that adjacent exchanges reach

Two neighbours of a list may be exchanged unless they are fixed. From a list without
duplicates such exchanges reach exactly the permutations that keep the order of every
fixed pair.
-/

namespace AdjacentSwaps

open Relation

variable {α : Type*} {fixed : α → α → Prop}

def Before (a b : α) (l : List α) : Prop := [a, b].Sublist l

theorem before_cons {a b c : α} {l : List α} : Before a b (c :: l) ↔ Before a b l ∨ (a = c ∧ b ∈ l) := by
  unfold Before
  rw [List.sublist_cons_iff]
  simp

theorem Before.append_cons {a b : α} {pre post : List α} (h : a ∈ pre) : Before a b (pre ++ b :: post) :=
  (List.singleton_sublist.mpr h).append (List.singleton_sublist.mpr List.mem_cons_self)

theorem Before.mem_left {a b : α} {l : List α} (h : Before a b l) : a ∈ l := h.subset (by simp)

theorem Before.mem_right {a b : α} {l : List α} (h : Before a b l) : b ∈ l := h.subset (by simp)

/-- In a list without duplicates only one of two elements stands first. -/
theorem Before.asymm {a b : α} {l : List α} (hnodup : l.Nodup) (h : Before a b l) : ¬ Before b a l := by
  induction l with
  | nil => exact absurd h.mem_left List.not_mem_nil
  | cons c l ih =>
    obtain ⟨hc, hnodup⟩ := List.nodup_cons.mp hnodup
    rw [before_cons] at h ⊢
    rintro (hba | ⟨rfl, ha⟩)
    · rcases h with hab | ⟨rfl, -⟩
      · exact ih hnodup hab hba
      · exact hc hba.mem_right
    · rcases h with hab | ⟨rfl, hb⟩
      · exact hc hab.mem_right
      · exact hc hb

/-- Of two elements of a list one stands first. -/
theorem before_total {a b : α} {l : List α} (ha : a ∈ l) (hb : b ∈ l) (hne : a ≠ b) :
    Before a b l ∨ Before b a l := by
  induction l with
  | nil => cases ha
  | cons c l ih =>
    rw [before_cons, before_cons]
    rcases List.mem_cons.mp ha with hac | hal <;> rcases List.mem_cons.mp hb with hbc | hbl
    · exact absurd (hac.trans hbc.symm) hne
    · exact .inl (.inr ⟨hac, hbl⟩)
    · exact .inr (.inr ⟨hbc, hal⟩)
    · exact (ih hal hbl).imp .inl .inl

inductive Swap (fixed : α → α → Prop) : List α → List α → Prop
  | head {a b : α} (h : ¬ fixed a b) (l : List α) : Swap fixed (a :: b :: l) (b :: a :: l)
  | cons (c : α) {l l' : List α} (h : Swap fixed l l') : Swap fixed (c :: l) (c :: l')

theorem swap_append {a b : α} (h : ¬ fixed a b) (pre post : List α) :
    Swap fixed (pre ++ a :: b :: post) (pre ++ b :: a :: post) := by
  induction pre with
  | nil => exact .head h post
  | cons c pre ih => exact .cons c ih

theorem Swap.exists_append {l l' : List α} (h : Swap fixed l l') :
    ∃ pre a b post, ¬ fixed a b ∧ l = pre ++ a :: b :: post ∧ l' = pre ++ b :: a :: post := by
  induction h with
  | @head a b hab l => exact ⟨[], a, b, l, hab, rfl, rfl⟩
  | cons c _ ih =>
    obtain ⟨pre, a, b, post, hab, rfl, rfl⟩ := ih
    exact ⟨c :: pre, a, b, post, hab, rfl, rfl⟩

theorem Swap.perm {l l' : List α} (h : Swap fixed l l') : l'.Perm l := by
  induction h with
  | head _ l => exact .swap _ _ l
  | cons c _ ih => exact ih.cons c

/-- An exchange keeps the order of every fixed pair. -/
theorem Swap.before {l l' : List α} (h : Swap fixed l l') {x y : α} (hxy : fixed x y) (hbefore : Before x y l) :
    Before x y l' := by
  induction h with
  | @head a b hab l =>
    simp only [before_cons, List.mem_cons] at hbefore ⊢
    rcases hbefore with (hl | ⟨rfl, hy⟩) | ⟨rfl, rfl | hy⟩
    · exact .inl (.inl hl)
    · exact .inr ⟨rfl, .inr hy⟩
    · exact absurd hxy hab
    · exact .inl (.inr ⟨rfl, hy⟩)
  | @cons c l l' hswap ih =>
    rw [before_cons] at hbefore ⊢
    exact hbefore.imp ih (fun ⟨hx, hy⟩ => ⟨hx, hswap.perm.mem_iff.mpr hy⟩)

/-- The second list orders every fixed pair as the first one does. -/
def Keeps (fixed : α → α → Prop) (l l' : List α) : Prop :=
  ∀ a b, fixed a b → Before a b l → Before a b l'

theorem reaches_cons (c : α) {l l' : List α} (h : ReflTransGen (Swap fixed) l l') :
    ReflTransGen (Swap fixed) (c :: l) (c :: l') :=
  h.lift (List.cons c) (fun _ _ => Swap.cons c)

/-- An element is moved to the front past elements it is not fixed to. -/
theorem reaches_front {a : α} {pre : List α} (h : ∀ x ∈ pre, ¬ fixed x a) (post : List α) :
    ReflTransGen (Swap fixed) (pre ++ a :: post) (a :: (pre ++ post)) := by
  induction pre with
  | nil => exact .refl
  | cons x pre ih =>
    have hfront := reaches_cons x (ih fun y hy => h y (List.mem_cons_of_mem _ hy))
    exact hfront.tail (.head (h x List.mem_cons_self) _)

/-- Exchanges of neighbours reach every permutation that keeps the order of the fixed pairs. -/
theorem reaches_of_keeps {l l' : List α} (hperm : l'.Perm l) (hnodup : l.Nodup) (hkeeps : Keeps fixed l l') :
    ReflTransGen (Swap fixed) l l' := by
  induction l' generalizing l with
  | nil =>
    obtain rfl := List.nil_perm.mp hperm
    exact .refl
  | cons a rest ih =>
    have hnodup' := hperm.nodup_iff.mpr hnodup
    obtain ⟨pre, post, rfl⟩ := List.append_of_mem (hperm.mem_iff.mp List.mem_cons_self)
    have hrest : rest.Perm (pre ++ post) :=
      List.perm_cons a |>.mp (hperm.trans List.perm_middle)
    have hsub : (pre ++ post).Sublist (pre ++ a :: post) :=
      List.Sublist.append_left (List.sublist_cons_self a post) pre
    -- whatever stands before the first element of the goal is free to stand behind it
    have hfree : ∀ x ∈ pre, ¬ fixed x a := by
      intro x hx hxa
      have hbefore := hkeeps x a hxa (Before.append_cons hx)
      rw [before_cons] at hbefore
      obtain ⟨ha, -⟩ := List.nodup_cons.mp hnodup'
      rcases hbefore with hbefore | ⟨-, hmem⟩
      · exact ha hbefore.mem_right
      · exact ha hmem
    have hkeeps' : Keeps fixed (pre ++ post) rest := by
      intro x y hxy hbefore
      rcases before_cons.mp (hkeeps x y hxy (hbefore.trans hsub)) with hrest' | ⟨rfl, -⟩
      · exact hrest'
      · have hmem := hrest.mem_iff.mpr hbefore.mem_left
        exact absurd hmem (List.nodup_cons.mp hnodup').1
    exact (reaches_front hfree post).trans (reaches_cons a (ih hrest (hnodup.sublist hsub) hkeeps'))

theorem keeps_of_reaches {l l' : List α} (h : ReflTransGen (Swap fixed) l l') : Keeps fixed l l' := by
  intro x y hxy hbefore
  induction h with
  | refl => exact hbefore
  | tail _ hswap ih => exact hswap.before hxy ih

theorem perm_of_reaches {l l' : List α} (h : ReflTransGen (Swap fixed) l l') : l'.Perm l := by
  induction h with
  | refl => exact .refl l
  | tail _ hswap ih => exact hswap.perm.trans ih

/-- An exchange leaves an element where it is that is fixed to all others. -/
theorem Swap.getElem? {l l' : List α} (h : Swap fixed l l') {x : α} (hx : ∀ y, fixed x y ∧ fixed y x) {i : ℕ}
    (hi : l[i]? = some x) : l'[i]? = some x := by
  induction h generalizing i with
  | @head a b hab l =>
    rcases i with _ | _ | i
    · obtain rfl := Option.some.inj hi
      exact absurd (hx b).1 hab
    · obtain rfl := Option.some.inj hi
      exact absurd (hx a).2 hab
    · exact hi
  | cons c _ ih =>
    cases i with
    | zero => exact hi
    | succ i => exact ih hi

theorem getElem?_of_reaches {l l' : List α} (h : ReflTransGen (Swap fixed) l l') {x : α}
    (hx : ∀ y, fixed x y ∧ fixed y x) {i : ℕ} (hi : l[i]? = some x) : l'[i]? = some x := by
  induction h with
  | refl => exact hi
  | tail _ hswap ih => exact hswap.getElem? hx ih

theorem lt_of_before_range {n a b : ℕ} (h : Before a b (List.range n)) : a < b := by
  have hsorted := List.pairwise_lt_range.sublist h
  simpa using hsorted

theorem before_range {n a b : ℕ} : Before a b (List.range n) ↔ a < b ∧ b < n := by
  constructor
  · exact fun h => ⟨lt_of_before_range h, List.mem_range.mp h.mem_right⟩
  · rintro ⟨hab, hb⟩
    have ha := List.mem_range.mpr (Nat.lt_trans hab hb)
    rcases before_total ha (List.mem_range.mpr hb) (Nat.ne_of_lt hab) with h | h
    · exact h
    · exact absurd (lt_of_before_range h) (Nat.lt_asymm hab)

theorem Before.trans {a b c : α} {l : List α} (hnodup : l.Nodup) (hab : Before a b l) (hbc : Before b c l) :
    Before a c l := by
  have hne : a ≠ c := by
    rintro rfl
    exact hab.asymm hnodup hbc
  induction l with
  | nil => exact absurd hab.mem_left List.not_mem_nil
  | cons d l ih =>
    obtain ⟨hd, hnodup⟩ := List.nodup_cons.mp hnodup
    rw [before_cons] at hab hbc ⊢
    rcases hbc with hbc | ⟨rfl, hc⟩
    · rcases hab with hab | ⟨rfl, -⟩
      · exact .inl (ih hnodup hab hbc)
      · exact .inr ⟨rfl, hbc.mem_right⟩
    · rcases hab with hab | ⟨rfl, hb⟩
      · exact absurd hab.mem_right hd
      · exact absurd hb hd

/-- A chain of fixed pairs leads from one element to the other. -/
def Tied (fixed : α → α → Prop) (l : List α) : α → α → Prop := TransGen (fun a b => fixed a b ∧ Before a b l)

theorem Tied.before {l l' : List α} {a b : α} (h : Tied fixed l a b) (hnodup : l'.Nodup)
    (hkeeps : Keeps fixed l l') : Before a b l' := by
  induction h with
  | single h => exact hkeeps _ _ h.1 h.2
  | tail _ h ih => exact ih.trans hnodup (hkeeps _ _ h.1 h.2)

/-- All elements that are tied to one come last. -/
theorem exists_before_of_not_tied {l : List α} (hnodup : l.Nodup) {a b : α} (hab : Before a b l)
    (htied : ¬ Tied fixed l a b) : ∃ l', l'.Perm l ∧ Keeps fixed l l' ∧ Before b a l' := by
  classical
  set late : α → Bool := fun x => x = a ∨ Tied fixed l a x with hlate
  have hperm : (l.filter (! late ·) ++ l.filter late).Perm l :=
    List.perm_append_comm.trans (List.filter_append_perm late l)
  have hne : b ≠ a := by
    rintro rfl
    exact hab.asymm hnodup hab
  refine ⟨_, hperm, fun x y hxy hbefore => ?_, ?_⟩
  · cases hx : late x with
    | true =>
      have hy : late y = true := by
        simp only [hlate, decide_eq_true_eq] at hx ⊢
        rcases hx with rfl | hx
        · exact .inr (.single ⟨hxy, hbefore⟩)
        · exact .inr (hx.tail ⟨hxy, hbefore⟩)
      have hsub := hbefore.filter late
      simp only [List.filter_cons, hx, hy, List.filter_nil, if_true] at hsub
      exact hsub.trans (List.sublist_append_right _ _)
    | false =>
      cases hy : late y with
      | true =>
        have hx' : x ∈ l.filter (! late ·) := List.mem_filter.mpr ⟨hbefore.mem_left, by rw [hx]; rfl⟩
        have hy' := List.mem_filter.mpr ⟨hbefore.mem_right, hy⟩
        exact (List.singleton_sublist.mpr hx').append (List.singleton_sublist.mpr hy')
      | false =>
        have hsub := hbefore.filter (! late ·)
        simp only [List.filter_cons, hx, hy, List.filter_nil, Bool.not_false, if_true] at hsub
        exact hsub.trans (List.sublist_append_left _ _)
  · have hb : late b = false := by simp [hlate, hne, htied]
    have ha : late a = true := by simp [hlate]
    have hb' : b ∈ l.filter (! late ·) := List.mem_filter.mpr ⟨hab.mem_right, by rw [hb]; rfl⟩
    have ha' := List.mem_filter.mpr ⟨hab.mem_left, ha⟩
    exact (List.singleton_sublist.mpr hb').append (List.singleton_sublist.mpr ha')

/-- A permutation has the same subsequence of some elements if it keeps their order. -/
theorem filter_eq_iff {p : α → Bool} {l l' : List α} (hnodup : l.Nodup) (hperm : l'.Perm l) :
    l'.filter p = l.filter p ↔ ∀ a b, p a = true → p b = true → Before a b l → Before a b l' := by
  constructor
  · intro heq a b ha hb hab
    have hsub := hab.filter p
    simp only [List.filter_cons, ha, hb, List.filter_nil, if_true] at hsub
    rw [← heq] at hsub
    exact hsub.trans List.filter_sublist
  · intro h
    have hnodup' := hperm.nodup_iff.mpr hnodup
    have hordered' : (l'.filter p).Pairwise (fun a b => Before a b l') :=
      List.pairwise_iff_forall_sublist.mpr fun hab => hab.trans List.filter_sublist
    have hordered : (l.filter p).Pairwise (fun a b => Before a b l') := by
      refine List.pairwise_iff_forall_sublist.mpr fun {a b} hab => ?_
      have ha := (List.mem_filter.mp (hab.subset List.mem_cons_self)).2
      have hb := (List.mem_filter.mp (hab.subset (List.mem_cons_of_mem a List.mem_cons_self))).2
      exact h a b ha hb (hab.trans List.filter_sublist)
    exact List.Perm.eq_of_pairwise (fun a b _ _ hab hba => absurd hba (hab.asymm hnodup')) hordered' hordered
      (hperm.filter p)

variable [DecidableEq α]

/-- Exchange two elements where the first one stands directly before the second. -/
def exchangePair (a b : α) : List α → Option (List α)
  | x :: y :: l => if x = a ∧ y = b then some (b :: a :: l) else (exchangePair a b (y :: l)).map (x :: ·)
  | _ => none

def applySwaps (swaps : List (α × α)) (l : List α) : Option (List α) :=
  swaps.foldlM (fun l swap => exchangePair swap.1 swap.2 l) l

theorem exchangePair_append {a b : α} {pre post : List α} (hnodup : (pre ++ a :: b :: post).Nodup) :
    exchangePair a b (pre ++ a :: b :: post) = some (pre ++ b :: a :: post) := by
  induction pre with
  | nil => simp [exchangePair]
  | cons x pre ih =>
    obtain ⟨hx, hrest⟩ := List.nodup_cons.mp hnodup
    have hne : x ≠ a := fun h => hx (by simp [h])
    have htail := ih hrest
    cases pre with
    | nil => simp [exchangePair, hne]
    | cons y pre => simpa [exchangePair, hne] using htail

theorem applySwaps_concat {swaps : List (α × α)} {a b : α} {l l' : List α} (h : applySwaps swaps l = some l') :
    applySwaps (swaps ++ [(a, b)]) l = exchangePair a b l' := by
  simp only [applySwaps] at h ⊢
  rw [List.foldlM_append, h]
  simp

end AdjacentSwaps
