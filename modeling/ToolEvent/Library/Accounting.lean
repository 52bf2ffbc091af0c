import ToolEvent.Library.Fallible
import Mathlib.Order.Defs.Unbundled

/-!
# What routines do whatever the allocator answers

A routine relates the state before it to the state after it by a preorder, and answers
requests in the order in which the outcomes are given. Every rule is about one way to
compose routines.
-/

namespace World

open Fallible

variable {ε σ τ α β : Type}

/-- Whatever its outcome, the routine moves the state along the relation, and takes the
outcomes of its requests from the front. -/
def Obeys (r : σ → σ → Prop) (x : Fallible ε (World σ) α) : Prop :=
  ∀ w, r w.state (x w).2.state ∧ (x w).2.outcomes <:+ w.outcomes

variable {r : σ → σ → Prop} [IsPreorder σ r]

theorem obeys_pure (a : α) : Obeys r (pure a : Fallible ε (World σ) α) :=
  fun _ => ⟨refl_of r _, List.suffix_rfl⟩

theorem obeys_fail (e : ε) : Obeys r (fail e : Fallible ε (World σ) α) :=
  fun _ => ⟨refl_of r _, List.suffix_rfl⟩

theorem obeys_readState : Obeys r (readState : Fallible ε (World σ) σ) :=
  fun _ => ⟨refl_of r _, List.suffix_rfl⟩

theorem obeys_allocate : Obeys r (allocate : Fallible ε (World σ) Bool) := by
  rintro ⟨s, outcomes⟩
  rw [run_allocate]
  exact ⟨refl_of r s, List.tail_suffix outcomes⟩

theorem obeys_updateState {r : σ → σ → Prop} {f : σ → σ} (h : ∀ s, r s (f s)) :
    Obeys r (updateState f : Fallible ε (World σ) Unit) :=
  fun w => ⟨h w.state, List.suffix_rfl⟩

theorem Obeys.bind {x : Fallible ε (World σ) α} {f : α → Fallible ε (World σ) β} (hx : Obeys r x)
    (hf : ∀ a, Obeys r (f a)) : Obeys r (x >>= f) := by
  intro w
  obtain ⟨hstate, houtcomes⟩ := hx w
  rw [run_bind]
  rcases hrun : x w with ⟨⟨e⟩ | ⟨a⟩, w'⟩ <;> rw [hrun] at hstate houtcomes
  · exact ⟨hstate, houtcomes⟩
  · obtain ⟨hstate', houtcomes'⟩ := hf a w'
    exact ⟨trans_of r hstate hstate', houtcomes'.trans houtcomes⟩

omit [IsPreorder σ r] in
theorem Obeys.ite {p : Prop} [Decidable p] {x y : Fallible ε (World σ) α} (hx : Obeys r x)
    (hy : Obeys r y) : Obeys r (if p then x else y) := by
  split
  · exact hx
  · exact hy

theorem obeys_allocateAll (n : ℕ) : Obeys r (allocateAll n : Fallible ε (World σ) Bool) := by
  induction n with
  | zero => exact obeys_pure _
  | succ n ih => exact obeys_allocate.bind fun _ => ih.bind fun _ => obeys_pure _

theorem obeys_forEach {ι : Type*} {f : ι → Fallible ε (World σ) Unit} (hf : ∀ i, Obeys r (f i))
    (is : List ι) : Obeys r (forEach f is) := by
  induction is with
  | nil => exact obeys_pure _
  | cons i is ih => exact (hf i).bind fun _ => ih

omit [IsPreorder σ r] in
theorem Obeys.withLocals {locals : τ} {x : Fallible ε (World (σ × τ)) α}
    (hx : Obeys (fun s t : σ × τ => r s.1 t.1) x) : Obeys r (World.withLocals locals x) :=
  fun w => hx ⟨(w.state, locals), w.outcomes⟩

omit [IsPreorder σ r] in
theorem Obeys.onFirst {x : Fallible ε (World σ) α} (hx : Obeys r x) :
    Obeys (fun s t : σ × τ => r s.1 t.1) (World.onFirst x) :=
  fun w => hx ⟨w.state.1, w.outcomes⟩

theorem obeys_call {q : τ → τ → Prop} {x : Fallible ε (World τ) Unit} (hx : Obeys q x) (s : τ) :
    Obeys r (call s x : Fallible ε (World σ) τ) := by
  intro w
  obtain ⟨-, houtcomes⟩ := hx ⟨s, w.outcomes⟩
  unfold World.call
  rcases hrun : x ⟨s, w.outcomes⟩ with ⟨⟨e⟩ | ⟨⟨⟩⟩, v⟩ <;> rw [hrun] at houtcomes
  · exact ⟨refl_of r _, houtcomes⟩
  · exact ⟨refl_of r _, houtcomes⟩

instance : IsPreorder (σ × τ) (fun s t => r s.1 t.1) where
  refl := fun s => refl_of r s.1
  trans := fun _ _ _ => trans_of r

end World
