import Mathlib.Data.List.Induction
import Mathlib.Order.RelClasses

/-!
# The best of the matches

A loop goes through a list and keeps the index of the best match so far; a later match
replaces it only if it is strictly better. It ends at the first of the best matches.
-/

namespace BestMatch

variable {α κ : Type*} {p : α → Bool} {better : κ → κ → Prop} {key : α → κ} {xs : List α}

/-- The first of the best matches is at the index. -/
def FirstBest (p : α → Bool) (better : κ → κ → Prop) (key : α → κ) (xs : List α) (i : ℕ) : Prop :=
  ∃ x, xs[i]? = some x ∧ p x = true ∧
    ∀ j y, xs[j]? = some y → p y = true → better (key x) (key y) ∨ key x = key y ∧ i ≤ j

/-- What the loop knows: there is no match, or the first of the best ones is at the index. -/
def Finds (p : α → Bool) (better : κ → κ → Prop) (key : α → κ) (xs : List α) : Option ℕ → Prop
  | none => ∀ y ∈ xs, p y = false
  | some i => FirstBest p better key xs i

variable [IsStrictTotalOrder κ better]

theorem FirstBest.unique {i j : ℕ} (h : FirstBest p better key xs i) (h' : FirstBest p better key xs j) : i = j := by
  obtain ⟨x, hx, hpx, hi⟩ := h
  obtain ⟨y, hy, hpy, hj⟩ := h'
  rcases hi j y hy hpy with hxy | ⟨heq, hij⟩ <;> rcases hj i x hx hpx with hyx | ⟨heq', hji⟩
  · exact absurd (trans_of better hxy hyx) (irrefl_of better _)
  · rw [heq'] at hxy
    exact absurd hxy (irrefl_of better _)
  · rw [heq] at hyx
    exact absurd hyx (irrefl_of better _)
  · exact Nat.le_antisymm hij hji

theorem getElem?_concat {xs : List α} {x y : α} {j : ℕ} (h : (xs ++ [x])[j]? = some y) :
    xs[j]? = some y ∨ j = xs.length ∧ x = y := by
  rcases Nat.lt_trichotomy j xs.length with hlt | rfl | hgt
  · rw [List.getElem?_append_left hlt] at h
    exact .inl h
  · rw [List.getElem?_append_right (Nat.le_refl _), Nat.sub_self] at h
    exact .inr ⟨rfl, Option.some.inj h⟩
  · rw [List.getElem?_eq_none (by rw [List.length_append, List.length_singleton]; omega)] at h
    cases h

variable [DecidableRel better]

/-- One round of the loop: the new element is taken if it matches and is better than the one kept. -/
theorem Finds.concat {keyAt : ℕ → κ} {best : Option ℕ} (h : Finds p better key xs best) (x : α)
    (hat : ∀ i y, xs[i]? = some y → keyAt i = key y) :
    Finds p better key (xs ++ [x])
      (if p x = true ∧ (∀ index ∈ best, better (key x) (keyAt index)) then some xs.length else best) := by
  have hkept : ∀ {i : ℕ} {y : α}, xs[i]? = some y → (xs ++ [x])[i]? = some y := fun {i y} hy => by
    rw [List.getElem?_append_left (List.getElem?_eq_some_iff.mp hy).1, hy]
  have hlast : (xs ++ [x])[xs.length]? = some x := by
    rw [List.getElem?_append_right (Nat.le_refl _), Nat.sub_self]
    rfl
  split
  · next htaken =>
    obtain ⟨hpx, hbetter⟩ := htaken
    refine ⟨x, hlast, hpx, fun j y hy hpy => ?_⟩
    rcases getElem?_concat hy with hold | ⟨rfl, rfl⟩
    · apply Or.inl
      cases best with
      | none =>
        have hnone := h y (List.mem_of_getElem? hold)
        rw [hpy] at hnone
        cases hnone
      | some i =>
        obtain ⟨z, hz, _, hleast⟩ := h
        have hxz : better (key x) (key z) := by
          rw [← hat i z hz]
          exact hbetter i rfl
        rcases hleast j y hold hpy with hzy | ⟨hzy, _⟩
        · exact trans_of better hxz hzy
        · exact hzy ▸ hxz
    · exact .inr ⟨rfl, Nat.le_refl _⟩
  · next hkeeps =>
    cases best with
    | none =>
      intro y hy
      rcases List.mem_append.mp hy with hold | hnew
      · exact h y hold
      · rw [List.mem_singleton.mp hnew]
        exact eq_false_of_ne_true fun hpx => hkeeps ⟨hpx, nofun⟩
    | some i =>
      obtain ⟨z, hz, hpz, hleast⟩ := h
      refine ⟨z, hkept hz, hpz, fun j y hy hpy => ?_⟩
      rcases getElem?_concat hy with hold | ⟨rfl, rfl⟩
      · exact hleast j y hold hpy
      · have hworse : ¬ better (key x) (key z) := by
          intro hxz
          apply hkeeps
          refine ⟨hpy, fun index hindex => ?_⟩
          obtain rfl := Option.some.inj hindex
          rwa [hat i z hz]
        rcases trichotomous_of better (key z) (key x) with hzx | heq | hxz
        · exact .inl hzx
        · exact .inr ⟨heq, Nat.le_of_lt (List.getElem?_eq_some_iff.mp hz).1⟩
        · exact absurd hxz hworse

/-- The loop finds the first of the best matches, if there is one. -/
theorem finds_foldl (p : α → Bool) (better : κ → κ → Prop) [DecidableRel better] [IsStrictTotalOrder κ better]
    (key : α → κ) {keyAt : ℕ → κ} (xs : List α) (hat : ∀ i x, xs[i]? = some x → keyAt i = key x) :
    Finds p better key xs (xs.zipIdx.foldl (fun best x =>
      if p x.1 = true ∧ (∀ index ∈ best, better (key x.1) (keyAt index)) then some x.2 else best) none) := by
  induction xs using List.reverseRecOn with
  | nil => exact nofun
  | append_singleton xs x ih =>
    have hbefore : ∀ i y, xs[i]? = some y → keyAt i = key y := by
      intro i y hy
      apply hat
      rw [List.getElem?_append_left (List.getElem?_eq_some_iff.mp hy).1, hy]
    have hnext := (ih hbefore).concat x hbefore
    rw [List.zipIdx_append, List.foldl_append, Nat.zero_add]
    exact hnext

theorem foldl_eq_some_iff (p : α → Bool) (better : κ → κ → Prop) [DecidableRel better] [IsStrictTotalOrder κ better]
    (key : α → κ) {keyAt : ℕ → κ} (hat : ∀ i x, xs[i]? = some x → keyAt i = key x) {i : ℕ} :
    xs.zipIdx.foldl (fun best x =>
      if p x.1 = true ∧ (∀ index ∈ best, better (key x.1) (keyAt index)) then some x.2 else best) none = some i ↔
      FirstBest p better key xs i := by
  have hfinds := finds_foldl p better key xs hat
  constructor
  · intro h
    rwa [h] at hfinds
  · intro hbest
    generalize xs.zipIdx.foldl _ none = found at hfinds
    cases found with
    | none =>
      obtain ⟨x, hx, hpx, _⟩ := hbest
      have hnone := hfinds x (List.mem_of_getElem? hx)
      rw [hpx] at hnone
      cases hnone
    | some j => rw [FirstBest.unique hfinds hbest]

end BestMatch
