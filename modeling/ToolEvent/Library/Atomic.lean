import ToolEvent.Library.Granted

/-!
# Routines that undo nothing because they did nothing

What a failing run leaves of the state, seen through an observation. A routine of several
steps is atomic when only its last step changes what is observed. When an earlier step
changes it, granting the requests of that step and refusing the next shows the change.
-/

namespace World

open Fallible

variable {ε σ τ α β ι : Type}

/-- Whatever its outcome, the routine keeps what is observed of the state. -/
def Preserves (observe : σ → τ) (x : Fallible ε (World σ) α) : Prop := ∀ w, observe (x w).2.state = observe w.state

/-- A failing run keeps what is observed of the state. -/
def Atomic (observe : σ → τ) (x : Fallible ε (World σ) α) : Prop :=
  ∀ w e w', x w = (.error e, w') → observe w'.state = observe w.state

/-- A run whose first request is refused fails and keeps what is observed of the state. -/
def Refusable (observe : σ → τ) (x : Fallible ε (World σ) α) : Prop :=
  ∀ s, ∃ e w, x ⟨s, [false]⟩ = (.error e, w) ∧ observe w.state = observe s

variable {observe : σ → τ}

theorem preserves_pure (a : α) : Preserves observe (pure a : Fallible ε (World σ) α) := fun _ => rfl

theorem preserves_fail (e : ε) : Preserves observe (fail e : Fallible ε (World σ) α) := fun _ => rfl

theorem preserves_readState : Preserves observe (readState : Fallible ε (World σ) σ) := fun _ => rfl

theorem preserves_updateState {f : σ → σ} (hf : ∀ s, observe (f s) = observe s) :
    Preserves observe (updateState f : Fallible ε (World σ) Unit) := fun w => hf w.state

theorem preserves_of_evolves {x : Fallible ε (World σ) α} (hx : ∀ r : σ → σ → Prop, Evolves r x) : Preserves observe x :=
  fun w => congrArg observe (state_eq_of_evolves hx w)

theorem Preserves.bind {x : Fallible ε (World σ) α} {f : α → Fallible ε (World σ) β} (hx : Preserves observe x)
    (hf : ∀ a, Preserves observe (f a)) : Preserves observe (x >>= f) := by
  intro w
  have hfirst := hx w
  rw [run_bind]
  rcases hrun : x w with ⟨⟨e⟩ | ⟨a⟩, w'⟩ <;> rw [hrun] at hfirst
  · exact hfirst
  · exact (hf a w').trans hfirst

theorem Preserves.ite {p : Prop} [Decidable p] {x y : Fallible ε (World σ) α} (hx : Preserves observe x)
    (hy : Preserves observe y) : Preserves observe (if p then x else y) := by
  split
  · exact hx
  · exact hy

theorem preserves_forEach {f : ι → Fallible ε (World σ) Unit} (hf : ∀ i, Preserves observe (f i)) (is : List ι) :
    Preserves observe (forEach f is) := by
  induction is with
  | nil => exact preserves_pure _
  | cons i is ih => exact (hf i).bind fun _ => ih

theorem Preserves.atomic {x : Fallible ε (World σ) α} (hx : Preserves observe x) : Atomic observe x := by
  intro w e w' hrun
  have hkept := hx w
  rwa [hrun] at hkept

theorem atomic_updateState (f : σ → σ) : Atomic observe (updateState f : Fallible ε (World σ) Unit) := by
  intro w e w' hrun
  cases hrun

/-- Only the rest of the routine changes what is observed. -/
theorem Preserves.bind_atomic {x : Fallible ε (World σ) α} {f : α → Fallible ε (World σ) β} (hx : Preserves observe x)
    (hf : ∀ a, Atomic observe (f a)) : Atomic observe (x >>= f) := by
  intro w e w' hrun
  have hkept := hx w
  rw [run_bind] at hrun
  rcases hfirst : x w with ⟨⟨e'⟩ | ⟨a⟩, w₁⟩ <;> rw [hfirst] at hrun hkept
  · obtain ⟨-, rfl⟩ := Prod.mk.inj hrun
    exact hkept
  · exact (hf a w₁ e w' hrun).trans hkept

theorem Atomic.bind_total {x : Fallible ε (World σ) α} {f : α → Fallible ε (World σ) β} (hx : Atomic observe x)
    (hf : ∀ a w e w', f a w ≠ (.error e, w')) : Atomic observe (x >>= f) := by
  intro w e w' hrun
  rw [run_bind] at hrun
  rcases hfirst : x w with ⟨⟨e'⟩ | ⟨a⟩, w₁⟩ <;> rw [hfirst] at hrun
  · obtain ⟨-, rfl⟩ := Prod.mk.inj hrun
    exact hx w e' w₁ hfirst
  · exact absurd hrun (hf a w₁ e w')

theorem Atomic.bind_updateState {x : Fallible ε (World σ) α} (hx : Atomic observe x) (f : α → σ → σ) :
    Atomic observe (x >>= fun a => updateState (f a)) := hx.bind_total fun _ _ _ _ h => by cases h

theorem Atomic.bind_pure {x : Fallible ε (World σ) α} (hx : Atomic observe x) (f : α → β) :
    Atomic observe (x >>= fun a => pure (f a)) := hx.bind_total fun _ _ _ _ h => by cases h

theorem atomic_readState_bind {f : σ → Fallible ε (World σ) α} (hf : ∀ s, Atomic observe (f s)) :
    Atomic observe (readState >>= f) := preserves_readState.bind_atomic hf

theorem Atomic.ite {p : Prop} [Decidable p] {x y : Fallible ε (World σ) α} (hx : Atomic observe x)
    (hy : Atomic observe y) : Atomic observe (if p then x else y) := by
  split
  · exact hx
  · exact hy

theorem Refusable.bind {x : Fallible ε (World σ) α} (hx : Refusable observe x) (f : α → Fallible ε (World σ) β) :
    Refusable observe (x >>= f) := by
  intro s
  obtain ⟨e, w, hrun, hkept⟩ := hx s
  exact ⟨e, w, run_bind_of_error hrun, hkept⟩

theorem Refusable.ite {p : Prop} [Decidable p] {x y : Fallible ε (World σ) α} (hx : Refusable observe x)
    (hy : Refusable observe y) : Refusable observe (if p then x else y) := by
  split
  · exact hx
  · exact hy

theorem refusable_fail (e : ε) : Refusable observe (fail e : Fallible ε (World σ) α) :=
  fun s => ⟨e, ⟨s, [false]⟩, rfl, rfl⟩

theorem refusable_allocateAll {n : ℕ} (hn : 0 < n) (x : Fallible ε (World σ) α) (e : ε) :
    Refusable observe ((allocateAll n : Fallible ε (World σ) Bool) >>= fun granted => if granted then x else fail e) := by
  intro s
  refine ⟨e, ⟨s, [false].drop n⟩, ?_, rfl⟩
  have hrefused : decide (false ∉ [false].take n) = false := by
    obtain ⟨k, rfl⟩ := Nat.exists_eq_succ_of_ne_zero (Nat.ne_of_gt hn)
    simp
  rw [run_bind_of_ok (run_allocateAll n s [false]), hrefused]
  rfl

/-- After a first part that succeeds with its requests granted, the second part can fail. -/
theorem Metered.exists_error_bind {x : Fallible ε (World σ) α} {f : α → Fallible ε (World σ) β} {s t : σ} {a : α}
    {left : List Bool} (hx : Metered x) (hrun : x ⟨s, []⟩ = (.ok a, ⟨t, left⟩)) {e : ε} {w : World σ}
    (herror : f a ⟨t, [false]⟩ = (.error e, w)) :
    ∃ outcomes, (x >>= f) ⟨s, outcomes⟩ = (.error e, w) := by
  obtain ⟨n, hgranted⟩ := hx.exists_ok hrun [false]
  exact ⟨List.replicate n true ++ [false], (run_bind_of_ok hgranted).trans herror⟩

/-- Refusing the second part leaves the change the first part made. -/
theorem Metered.exists_split {x : Fallible ε (World σ) α} {f : α → Fallible ε (World σ) β} {s t : σ} {a : α}
    {left : List Bool} (hx : Metered x) (hrun : x ⟨s, []⟩ = (.ok a, ⟨t, left⟩)) (hchanged : observe t ≠ observe s)
    (hf : Refusable observe (f a)) :
    ∃ outcomes e w, (x >>= f) ⟨s, outcomes⟩ = (.error e, w) ∧ observe w.state ≠ observe s := by
  obtain ⟨e, w, herror, hkept⟩ := hf t
  obtain ⟨outcomes, hsplit⟩ := hx.exists_error_bind hrun herror
  exact ⟨outcomes, e, w, hsplit, by rwa [hkept]⟩

end World
