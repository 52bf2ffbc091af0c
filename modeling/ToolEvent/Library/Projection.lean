import Mathlib.Data.List.Perm.Basic
import Mathlib.Data.List.Count

/-!
# Partial steps seen through a projection

A system takes partial steps, and an observer sees a projection of its states. Each step is
either visible, and then the observer sees it taken by a smaller system, or it is hidden, and
then the observer sees nothing. What the smaller system does on the visible steps alone is
what the observer sees of the whole run.
-/

namespace Projection

variable {σ τ α : Type*} {p : σ → τ} {visible : Bool}

/-- A step of the observer's system, if the step is visible. -/
def seen (visible : Bool) (g : τ → Option τ) : τ → Option τ := if visible then g else some

/-- Through the projection, the step `f` is the step `g` if it is visible, and nothing else. -/
def Projects (p : σ → τ) (visible : Bool) (f : σ → Option σ) (g : τ → Option τ) : Prop :=
  ∀ s s', f s = some s' → seen visible g (p s) = some (p s')

theorem projects_some : Projects p visible some some := by
  intro s s' h
  obtain rfl := Option.some.inj h
  cases visible <;> rfl

theorem projects_none (g : τ → Option τ) : Projects p visible (fun _ => none) g := nofun

theorem Projects.bind {f f' : σ → Option σ} {g g' : τ → Option τ} (h : Projects p visible f g)
    (h' : Projects p visible f' g') :
    Projects p visible (fun s => (f s).bind f') (fun t => (g t).bind g') := by
  intro s s' hstep
  obtain ⟨middle, hmiddle, hlast⟩ := Option.bind_eq_some_iff.mp hstep
  have hfirst := h s middle hmiddle
  have hrest := h' middle s' hlast
  cases visible with
  | true =>
    change (g (p s)).bind g' = _
    rw [show g (p s) = some (p middle) from hfirst]
    exact hrest
  | false => exact hfirst.trans hrest

theorem Projects.ite {c : Prop} [Decidable c] {f f' : σ → Option σ} {g g' : τ → Option τ}
    (h : Projects p visible f g) (h' : Projects p visible f' g') :
    Projects p visible (fun s => if c then f s else f' s) (fun t => if c then g t else g' t) := by
  split
  · exact h
  · exact h'

theorem projects_foldlM {step : σ → α → Option σ} {step' : τ → α → Option τ} {xs : List α}
    (h : ∀ x ∈ xs, Projects p visible (step · x) (step' · x)) :
    Projects p visible (fun s => xs.foldlM step s) (fun t => xs.foldlM step' t) := by
  induction xs with
  | nil => exact projects_some
  | cons x xs ih =>
    have hrest := ih fun y hy => h y (List.mem_cons_of_mem _ hy)
    exact (h x List.mem_cons_self).bind hrest

/-- The run of the visible steps alone ends in what the observer sees of the whole run. -/
theorem foldlM_visible {step : σ → α → Option σ} {step' : τ → α → Option τ} (isVisible : α → Bool)
    {xs : List α} {s s' : σ} (h : ∀ x ∈ xs, Projects p (isVisible x) (step · x) (step' · x))
    (hrun : xs.foldlM step s = some s') : (xs.filter isVisible).foldlM step' (p s) = some (p s') := by
  induction xs generalizing s with
  | nil =>
    obtain rfl := Option.some.inj hrun
    rfl
  | cons x xs ih =>
    rw [List.foldlM_cons] at hrun
    obtain ⟨middle, hmiddle, hlast⟩ := Option.bind_eq_some_iff.mp hrun
    have hfirst := h x List.mem_cons_self s middle hmiddle
    have hrest := ih (fun y hy => h y (List.mem_cons_of_mem _ hy)) hlast
    rw [List.filter_cons]
    cases hvisible : isVisible x with
    | true =>
      rw [hvisible] at hfirst
      rw [if_pos rfl, List.foldlM_cons]
      change (step' (p s) x).bind _ = _
      rw [show step' (p s) x = some (p middle) from hfirst]
      exact hrest
    | false =>
      rw [hvisible] at hfirst
      rw [if_neg Bool.false_ne_true, show p s = p middle from Option.some.inj hfirst]
      exact hrest

/-- Two lists that have the same part for each label have the same elements, as often. -/
theorem perm_of_filter_eq {ι : Type*} [DecidableEq α] [DecidableEq ι] (label : α → ι) {xs ys : List α}
    (h : ∀ i, xs.filter (label · = i) = ys.filter (label · = i)) : xs.Perm ys := by
  refine List.perm_iff_count.mpr fun a => ?_
  have hpart : ∀ zs : List α, zs.count a = (zs.filter (label · = label a)).count a :=
    fun zs => (List.count_filter (by simp)).symm
  rw [hpart xs, hpart ys, h]

end Projection
