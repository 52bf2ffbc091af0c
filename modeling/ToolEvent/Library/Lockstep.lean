import ToolEvent.Library.Triple

/-!
# Two routines in lockstep

Two routines over related states that meet the same outcomes of their requests give the same result,
and leave related states behind. A routine over a detailed state is compared in this way with the
routine over an abstraction of it.
-/

namespace World

open Fallible

variable {ε σ τ α β : Type} {r : σ → τ → Prop}

def Related (r : σ → τ → Prop) (w : World σ) (v : World τ) : Prop := r w.state v.state ∧ w.outcomes = v.outcomes

/-- Run in the given worlds, the routines give the same result and leave related worlds. -/
def Lockstep (r : σ → τ → Prop) (x : Fallible ε (World σ) α) (y : Fallible ε (World τ) α) (w : World σ)
    (v : World τ) : Prop :=
  (x w).1 = (y v).1 ∧ Related r (x w).2 (y v).2

variable {x : Fallible ε (World σ) α} {y : Fallible ε (World τ) α} {w : World σ} {v : World τ}

theorem lockstep_pure (h : Related r w v) (a : α) :
    Lockstep r (pure a : Fallible ε (World σ) α) (pure a) w v := ⟨rfl, h⟩

theorem lockstep_fail (h : Related r w v) (e : ε) :
    Lockstep r (fail e : Fallible ε (World σ) α) (fail e) w v := ⟨rfl, h⟩

theorem lockstep_updateState (houtcomes : w.outcomes = v.outcomes) {f : σ → σ} {g : τ → τ}
    (hfg : r (f w.state) (g v.state)) : Lockstep r (updateState f : Fallible ε (World σ) Unit) (updateState g) w v :=
  ⟨rfl, hfg, houtcomes⟩

theorem lockstep_readState_left {f : σ → Fallible ε (World σ) α} (h : Lockstep r (f w.state) y w v) :
    Lockstep r (readState >>= f) y w v := h

theorem lockstep_readState_right {g : τ → Fallible ε (World τ) α} (h : Lockstep r x (g v.state) w v) :
    Lockstep r x (readState >>= g) w v := h

theorem Lockstep.bind {f : α → Fallible ε (World σ) β} {g : α → Fallible ε (World τ) β} (hxy : Lockstep r x y w v)
    (hfg : ∀ a w' v', Related r w' v' → x w = (.ok a, w') → y v = (.ok a, v') → Lockstep r (f a) (g a) w' v') :
    Lockstep r (x >>= f) (y >>= g) w v := by
  obtain ⟨hresult, hrelated⟩ := hxy
  unfold Lockstep
  rw [run_bind, run_bind]
  rcases hx : x w with ⟨_ | a, w'⟩ <;> rcases hy : y v with ⟨_ | b, v'⟩ <;>
    simp only [hx, hy, Except.ok.injEq, Except.error.injEq, reduceCtorEq] at hresult hrelated
  · exact ⟨congrArg Except.error hresult, hrelated⟩
  · subst hresult
    exact hfg a w' v' hrelated hx hy

theorem Lockstep.ite {p q : Prop} [Decidable p] [Decidable q] {x' : Fallible ε (World σ) α}
    {y' : Fallible ε (World τ) α} (hpq : p ↔ q) (hxy : p → Lockstep r x y w v) (hxy' : ¬ p → Lockstep r x' y' w v) :
    Lockstep r (if p then x else x') (if q then y else y') w v := by
  by_cases hp : p
  · rw [if_pos hp, if_pos (hpq.mp hp)]
    exact hxy hp
  · rw [if_neg hp, if_neg (mt hpq.mpr hp)]
    exact hxy' hp

/-- A request of both, whose refusal is an error. -/
theorem lockstep_request {e : ε} (h : Related r w v)
    (hgranted : ∀ outcomes, Lockstep r x y ⟨w.state, outcomes⟩ ⟨v.state, outcomes⟩) :
    Lockstep r ((allocate : Fallible ε (World σ) Bool) >>= fun granted => if granted then x else fail e)
      ((allocate : Fallible ε (World τ) Bool) >>= fun granted => if granted then y else fail e) w v := by
  obtain ⟨s, outcomes⟩ := w
  obtain ⟨t, outcomes'⟩ := v
  obtain ⟨hstate, rfl⟩ : r s t ∧ outcomes = outcomes' := h
  match outcomes with
  | [] => exact hgranted []
  | true :: outcomes => exact hgranted outcomes
  | false :: _ => exact ⟨rfl, hstate, rfl⟩

end World
