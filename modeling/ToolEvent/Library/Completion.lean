import ToolEvent.Library.Fallible

/-!
# Routines that succeed when their requests are granted

Total correctness under a benevolent allocator: from a precondition the routine returns
a value, with a postcondition. Every rule is about one way to compose routines.
-/

namespace World

open Fallible

variable {ε σ τ α β : Type}

/-- Granted its requests, the routine succeeds from the precondition and establishes the
postcondition. -/
def Completes (P : σ → Prop) (x : Fallible ε (World σ) α) (Q : α → σ → Prop) : Prop :=
  ∀ w, false ∉ w.outcomes → P w.state →
    ∃ a w', x w = (.ok a, w') ∧ false ∉ w'.outcomes ∧ Q a w'.state

variable {P P' : σ → Prop} {Q : β → σ → Prop} {R : α → σ → Prop}

theorem Completes.imp {x : Fallible ε (World σ) α} (h : Completes P x R)
    {R' : α → σ → Prop} (hP : ∀ s, P' s → P s) (hR : ∀ a s, R a s → R' a s) :
    Completes P' x R' := by
  intro w hw hs
  obtain ⟨a, w', hrun, hw', ha⟩ := h w hw (hP _ hs)
  exact ⟨a, w', hrun, hw', hR _ _ ha⟩

theorem Completes.bind {x : Fallible ε (World σ) α} {f : α → Fallible ε (World σ) β}
    (hx : Completes P x R) (hf : ∀ a, Completes (R a) (f a) Q) : Completes P (x >>= f) Q := by
  intro w hw hs
  obtain ⟨a, w', hrun, hw', ha⟩ := hx w hw hs
  obtain ⟨b, w'', hrun', hw'', hb⟩ := hf a w' hw' ha
  exact ⟨b, w'', (run_bind_of_ok hrun).trans hrun', hw'', hb⟩

theorem Completes.ite {p : Prop} [Decidable p] {x y : Fallible ε (World σ) α}
    (hx : p → Completes P x R) (hy : ¬ p → Completes P y R) :
    Completes P (if p then x else y) R := by
  split
  · next h => exact hx h
  · next h => exact hy h

theorem Completes.onFirst {x : Fallible ε (World σ) α} (h : Completes P x R) (t : τ) :
    Completes (fun s : σ × τ => P s.1 ∧ s.2 = t) (World.onFirst x)
      (fun a s => R a s.1 ∧ s.2 = t) := by
  rintro ⟨⟨s, l⟩, outcomes⟩ hw ⟨hs, rfl⟩
  obtain ⟨a, w', hrun, hw', ha⟩ := h ⟨s, outcomes⟩ hw hs
  refine ⟨a, ⟨(w'.state, l), w'.outcomes⟩, ?_, hw', ha, rfl⟩
  simp only [World.onFirst, hrun]

theorem Completes.withLocals {locals : τ} {x : Fallible ε (World (σ × τ)) α}
    (h : Completes (fun s : σ × τ => P s.1 ∧ s.2 = locals) x (fun a s => R a s.1)) :
    Completes P (World.withLocals locals x) R := by
  intro w hw hs
  obtain ⟨a, w', hrun, hw', ha⟩ := h ⟨(w.state, locals), w.outcomes⟩ hw ⟨hs, rfl⟩
  refine ⟨a, ⟨w'.state.1, w'.outcomes⟩, ?_, hw', ha⟩
  simp only [World.withLocals, hrun]

end World
