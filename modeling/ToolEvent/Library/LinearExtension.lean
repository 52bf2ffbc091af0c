import Mathlib.Data.List.Nodup
import Mathlib.Data.List.Lex
import Mathlib.Logic.Relation
import Mathlib.Data.Set.Card
import Mathlib.Order.WellFoundedSet

/-!
# The least linear extension

A list of elements is ordered along a relation when related elements stand in their
order. Taking the least ready element again and again gives the lexicographically
least such list.
-/

namespace LinearExtension

open Relation

variable {α : Type*} {r : α → α → Prop} {elements : List α}

/-- A list of the elements in which related elements stand in their order. -/
structure IsLinearExtension [DecidableEq α] (r : α → α → Prop) (elements l : List α) : Prop where
  perm : l.Perm elements
  ordered : ∀ a b, r a b → l.idxOf a < l.idxOf b

/-- An element that is not done although all elements before it are. -/
structure IsReady (r : α → α → Prop) (elements finished : List α) (x : α) : Prop where
  mem : x ∈ elements
  notDone : x ∉ finished
  before : ∀ y, r y x → y ∈ finished

/-- Lists that grow by an element ready at its turn. -/
inductive Grows (r : α → α → Prop) (elements : List α) (P : List α → α → Prop) : List α → Prop
  | nil : Grows r elements P []
  | snoc {finished : List α} {x : α} (h : Grows r elements P finished)
      (ready : IsReady r elements finished x) (choice : P finished x) :
      Grows r elements P (finished ++ [x])

def IsLeastReady [LE α] (r : α → α → Prop) (elements finished : List α) (x : α) : Prop :=
  ∀ y, IsReady r elements finished y → x ≤ y

namespace Grows

variable {P : List α → α → Prop} {finished : List α}

theorem mem (h : Grows r elements P finished) : ∀ x ∈ finished, x ∈ elements := by
  induction h with
  | nil => simp
  | snoc _ ready _ ih =>
    intro x hx
    rcases List.mem_append.mp hx with hx | hx
    · exact ih x hx
    · exact List.mem_singleton.mp hx ▸ ready.mem

theorem nodup (h : Grows r elements P finished) : finished.Nodup := by
  induction h with
  | nil => exact List.nodup_nil
  | snoc _ ready _ ih =>
    refine List.nodup_append.mpr ⟨ih, List.nodup_singleton _, ?_⟩
    rintro a ha b hb rfl
    exact ready.notDone (List.mem_singleton.mp hb ▸ ha)

theorem ordered [DecidableEq α] (h : Grows r elements P finished) :
    ∀ a b, r a b → b ∈ finished → finished.idxOf a < finished.idxOf b := by
  induction h with
  | nil => simp
  | @snoc finished x _ ready _ ih =>
    intro a b hab hb
    by_cases hbf : b ∈ finished
    · have hlt := ih a b hab hbf
      have ha : a ∈ finished := List.idxOf_lt_length_iff.mp (hlt.trans_le List.idxOf_le_length)
      rwa [List.idxOf_append_of_mem ha, List.idxOf_append_of_mem hbf]
    · obtain rfl : b = x := by simpa [hbf] using hb
      have ha := ready.before a hab
      rw [List.idxOf_append_of_mem ha, List.idxOf_append_of_notMem hbf]
      exact (List.idxOf_lt_length_iff.mpr ha).trans_le (Nat.le_add_right _ _)

/-- Once every element is done, the list is a linear extension. -/
theorem isLinearExtension [DecidableEq α] (h : Grows r elements P finished) (hnodup : elements.Nodup)
    (hfield : ∀ a b, r a b → b ∈ elements) (hall : ∀ x ∈ elements, x ∈ finished) :
    IsLinearExtension r elements finished where
  perm := (List.perm_ext_iff_of_nodup h.nodup hnodup).mpr fun x => ⟨h.mem x, hall x⟩
  ordered a b hab := h.ordered a b hab (hall b (hfield a b hab))

/-- A list that grew by least ready elements is the beginning of a linear extension, or
smaller at the first difference. -/
theorem prefix_or_lt [LinearOrder α] {finished l : List α}
    (h : Grows r elements (IsLeastReady r elements) finished) (hnodup : elements.Nodup)
    (hl : IsLinearExtension r elements l) :
    finished <+: l ∨
      ∃ pre x y post post', finished = pre ++ x :: post ∧ l = pre ++ y :: post' ∧ x < y := by
  induction h with
  | nil => exact .inl List.nil_prefix
  | @snoc finished x h ready choice ih =>
    rcases ih with ⟨rest, rfl⟩ | ⟨pre, a, b, post, post', rfl, hl', hlt⟩
    · cases rest with
      | nil =>
        rw [List.append_nil] at hl
        exact absurd (hl.perm.mem_iff.mpr ready.mem) ready.notDone
      | cons y rest =>
        have hdisjoint := (List.nodup_append.mp (hl.perm.nodup_iff.mpr hnodup)).2.2
        have hy : y ∉ finished := fun hmem => hdisjoint y hmem y List.mem_cons_self rfl
        have hready : IsReady r elements finished y := by
          refine ⟨hl.perm.mem_iff.mp (by simp), hy, fun z hz => ?_⟩
          have hlt := hl.ordered z y hz
          by_contra hzf
          rw [List.idxOf_append_of_notMem hzf, List.idxOf_append_of_notMem hy,
            List.idxOf_cons_self] at hlt
          omega
        rcases (choice y hready).eq_or_lt with rfl | hlt
        · exact .inl ⟨rest, by simp⟩
        · exact .inr ⟨finished, x, y, [], rest, rfl, rfl, hlt⟩
    · exact .inr ⟨pre, a, b, post ++ [x], post', by simp, hl', hlt⟩

/-- A complete list that grew by least ready elements is the least linear extension. -/
theorem le_of_isLinearExtension [LinearOrder α] {finished l : List α}
    (h : Grows r elements (IsLeastReady r elements) finished) (hnodup : elements.Nodup)
    (hall : ∀ x ∈ elements, x ∈ finished) (hl : IsLinearExtension r elements l) :
    finished ≤ l := by
  rcases h.prefix_or_lt hnodup hl with hpre | ⟨pre, x, y, post, post', rfl, rfl, hlt⟩
  · have hperm : finished.Perm l :=
      ((List.perm_ext_iff_of_nodup h.nodup hnodup).mpr fun x => ⟨h.mem x, hall x⟩).trans hl.perm.symm
    exact le_of_eq (hpre.eq_of_length hperm.length_eq)
  · refine le_of_lt (List.append_left_lt ?_)
    exact List.cons_lt_cons_iff.mpr (.inl hlt)

end Grows

/-- Some element is ready as long as an element is left, when the relation has no cycle. -/
theorem exists_ready {finished : List α} (acyclic : ∀ x, ¬ TransGen r x x)
    (hfield : ∀ a b, r a b → a ∈ elements) {x : α} (hx : x ∈ elements) (hxf : x ∉ finished) :
    ∃ y, IsReady r elements finished y := by
  let left : Set α := {y | y ∈ elements ∧ y ∉ finished}
  have hstrict : IsStrictOrder α (TransGen r) :=
    { irrefl := acyclic, trans := fun _ _ _ => TransGen.trans }
  have hfinite : left.Finite := (List.finite_toSet elements).subset fun y hy => hy.1
  obtain ⟨⟨y, hy⟩, -, hmin⟩ :=
    (hfinite.wellFoundedOn (r := TransGen r)).has_min Set.univ ⟨⟨x, hx, hxf⟩, trivial⟩
  refine ⟨y, hy.1, hy.2, fun z hz => ?_⟩
  by_contra hzf
  exact hmin ⟨z, hfield z y hz, hzf⟩ trivial (.single hz)

/-- A relation with a linear extension has no cycle. -/
theorem IsLinearExtension.acyclic [DecidableEq α] {l : List α}
    (h : IsLinearExtension r elements l) (x : α) : ¬ TransGen r x x := by
  have hlt : ∀ y, TransGen r x y → l.idxOf x < l.idxOf y := by
    intro y hy
    induction hy with
    | single hab => exact h.ordered _ _ hab
    | tail _ hbc ih => exact ih.trans (h.ordered _ _ hbc)
  exact fun hcycle => (hlt x hcycle).false

/-- Neighbours of a relation: related, with nothing between them. -/
def Covers (r : α → α → Prop) (a b : α) : Prop := r a b ∧ ∀ c, ¬ (r a c ∧ r c b)

/-- In a strict order with finite intervals, related elements are joined by neighbours. -/
theorem transGen_covers [IsStrictOrder α r] (hfinite : ∀ a b, {c | r a c ∧ r c b}.Finite) {a b : α}
    (hab : r a b) : TransGen (Covers r) a b := by
  induction hn : {c | r a c ∧ r c b}.ncard using Nat.strongRecOn generalizing a b with
  | ind n ih =>
    by_cases hmiddle : ∃ c, r a c ∧ r c b
    · obtain ⟨c, hac, hcb⟩ := hmiddle
      have hleft : {d | r a d ∧ r d c} ⊂ {d | r a d ∧ r d b} := by
        refine ⟨fun d hd => ⟨hd.1, IsTrans.trans _ _ _ hd.2 hcb⟩, fun hsub => ?_⟩
        exact irrefl c (hsub ⟨hac, hcb⟩).2
      have hright : {d | r c d ∧ r d b} ⊂ {d | r a d ∧ r d b} := by
        refine ⟨fun d hd => ⟨IsTrans.trans _ _ _ hac hd.1, hd.2⟩, fun hsub => ?_⟩
        exact irrefl c (hsub ⟨hac, hcb⟩).1
      have hl := ih _ (hn ▸ Set.ncard_lt_ncard hleft (hfinite a b)) hac rfl
      have hr := ih _ (hn ▸ Set.ncard_lt_ncard hright (hfinite a b)) hcb rfl
      exact hl.trans hr
    · exact .single ⟨hab, fun c hc => hmiddle ⟨c, hc⟩⟩

end LinearExtension
