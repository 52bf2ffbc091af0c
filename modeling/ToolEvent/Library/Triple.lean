import ToolEvent.Library.Accounting

/-!
# Conditions on how a run ends

A run that succeeds has a postcondition, and one that fails has a condition of its own:
what an early return leaves behind. Every rule is about one way to compose routines.
-/

namespace World

open Fallible

variable {ε σ τ α β : Type}

/-- Run in a world, the routine ends well in `Q`, and badly in `E`. -/
def Ends (x : Fallible ε (World σ) α) (w : World σ) (Q : α → World σ → Prop) (E : World σ → Prop) : Prop :=
  match x w with
  | (.ok a, w') => Q a w'
  | (.error _, w') => E w'

variable {x : Fallible ε (World σ) α} {w : World σ} {Q Q' : α → World σ → Prop} {E E' : World σ → Prop}

theorem Ends.ok (h : Ends x w Q E) {a : α} {w' : World σ} (hrun : x w = (.ok a, w')) : Q a w' := by
  unfold Ends at h
  rwa [hrun] at h

theorem Ends.error (h : Ends x w Q E) {e : ε} {w' : World σ} (hrun : x w = (.error e, w')) : E w' := by
  unfold Ends at h
  rwa [hrun] at h

theorem ends_of (hok : ∀ a w', x w = (.ok a, w') → Q a w')
    (herror : ∀ e w', x w = (.error e, w') → E w') : Ends x w Q E := by
  unfold Ends
  rcases hrun : x w with ⟨⟨e⟩ | ⟨a⟩, w'⟩
  · exact herror e w' hrun
  · exact hok a w' hrun

theorem Ends.imp (h : Ends x w Q E) (hQ : ∀ a w', Q a w' → Q' a w') (hE : ∀ w', E w' → E' w') :
    Ends x w Q' E' :=
  ends_of (fun a w' hrun => hQ a w' (h.ok hrun)) (fun _ w' hrun => hE w' (h.error hrun))

theorem Ends.and (h : Ends x w Q E) (h' : Ends x w Q' E') :
    Ends x w (fun a v => Q a v ∧ Q' a v) (fun v => E v ∧ E' v) :=
  ends_of (fun _ _ hrun => ⟨h.ok hrun, h'.ok hrun⟩) (fun _ _ hrun => ⟨h.error hrun, h'.error hrun⟩)

theorem Ends.congr {y : Fallible ε (World σ) α} (hrun : x w = y w) (h : Ends y w Q E) : Ends x w Q E := by
  unfold Ends
  rw [hrun]
  exact h

theorem Ends.succeeds (h : Ends x w Q fun _ => False) : ∃ a w', x w = (.ok a, w') ∧ Q a w' := by
  rcases hrun : x w with ⟨⟨e⟩ | ⟨a⟩, w'⟩
  · exact (h.error hrun).elim
  · exact ⟨a, w', rfl, h.ok hrun⟩

theorem Ends.final {P : World σ → Prop} (h : Ends x w (fun _ => P) P) : P (x w).2 := by
  rcases hrun : x w with ⟨⟨e⟩ | ⟨a⟩, w'⟩
  · exact h.error hrun
  · exact h.ok hrun

theorem ends_pure {a : α} (h : Q a w) : Ends (pure a : Fallible ε (World σ) α) w Q E := h

theorem ends_fail {e : ε} (h : E w) : Ends (fail e : Fallible ε (World σ) α) w Q E := h

theorem ends_updateState {f : σ → σ} {Q : Unit → World σ → Prop} (h : Q () { w with state := f w.state }) :
    Ends (updateState f : Fallible ε (World σ) Unit) w Q E := h

theorem ends_updateState_bind {g : σ → σ} {f : Unit → Fallible ε (World σ) α}
    (h : Ends (f ()) { w with state := g w.state } Q E) : Ends (updateState g >>= f) w Q E := h

theorem ends_readState_bind {f : σ → Fallible ε (World σ) α} (h : Ends (f w.state) w Q E) :
    Ends (readState >>= f) w Q E := h

theorem ends_pure_bind {a : β} {f : β → Fallible ε (World σ) α} (h : Ends (f a) w Q E) :
    Ends (pure a >>= f) w Q E := h

theorem ends_bind_of_ok {f : α → Fallible ε (World σ) β} {Q : β → World σ → Prop} {a : α} {w' : World σ}
    (hrun : x w = (.ok a, w')) (h : Ends (f a) w' Q E) : Ends (x >>= f) w Q E := by
  unfold Ends
  rw [run_bind_of_ok hrun]
  exact h

theorem Ends.bind {f : α → Fallible ε (World σ) β} {R : α → World σ → Prop} {Q : β → World σ → Prop}
    (hx : Ends x w R E) (hf : ∀ a w', R a w' → Ends (f a) w' Q E) : Ends (x >>= f) w Q E := by
  unfold Ends
  rw [run_bind]
  rcases hrun : x w with ⟨⟨e⟩ | ⟨a⟩, w'⟩
  · exact hx.error hrun
  · exact hf a w' (hx.ok hrun)

theorem Ends.ite {p : Prop} [Decidable p] {y : Fallible ε (World σ) α} (hx : p → Ends x w Q E)
    (hy : ¬ p → Ends y w Q E) : Ends (if p then x else y) w Q E := by
  split
  · next h => exact hx h
  · next h => exact hy h

/-- An invariant of the elements processed so far. -/
theorem ends_forEach {ι : Type*} {f : ι → Fallible ε (World σ) Unit} {is : List ι}
    (I : List ι → World σ → Prop) (hstep : ∀ before i after w, is = before ++ i :: after → I before w →
      Ends (f i) w (fun _ => I (before ++ [i])) E) (hw : I [] w) :
    Ends (forEach f is) w (fun _ => I is) E := by
  suffices h : ∀ after before w, is = before ++ after → I before w →
      Ends (forEach f after) w (fun _ => I is) E from h is [] w rfl hw
  intro after
  induction after with
  | nil =>
    rintro before w his hI
    rw [List.append_nil] at his
    exact ends_pure (his ▸ hI)
  | cons i after ih =>
    intro before w his hI
    refine (hstep before i after w his hI).bind fun _ w' hw' => ih (before ++ [i]) w' ?_ hw'
    rw [his, List.append_assoc, List.singleton_append]

/-- Every round that the loop comes to starts in a world with the condition. -/
def EachRound {ι : Type} (C : ι → World σ → Prop) (f : ι → Fallible ε (World σ) Unit) : List ι → World σ → Prop
  | [], _ => True
  | i :: is, w => C i w ∧ ∀ w', f i w = (.ok (), w') → EachRound C f is w'

/-- What a round keeps exactly when it starts with the condition, the loop keeps exactly when every round does. -/
theorem eachRound_iff {ι : Type} {C : ι → World σ → Prop} {f : ι → Fallible ε (World σ) Unit} {P : World σ → Prop}
    {I : List ι → World σ → Prop} {is : List ι}
    (hround : ∀ before i after w, is = before ++ i :: after → I before w → P w → (P (f i w).2 ↔ C i w))
    (hkeeps : ∀ before i after w w', is = before ++ i :: after → I before w → f i w = (.ok (), w') →
      I (before ++ [i]) w')
    (hearlier : ∀ i w, P (f i w).2 → P w) (hw : I [] w) (hP : P w) : P (forEach f is w).2 ↔ EachRound C f is w := by
  have hloop : ∀ after w, P (forEach f after w).2 → P w := by
    intro after
    induction after with
    | nil => exact fun _ => id
    | cons i after ih =>
      intro w hfinal
      apply hearlier i
      rcases hrun : f i w with ⟨⟨e⟩ | ⟨⟨⟩⟩, w'⟩
      · rwa [forEach, run_bind_of_error hrun] at hfinal
      · rw [forEach, run_bind_of_ok hrun] at hfinal
        exact ih w' hfinal
  suffices h : ∀ after before w, is = before ++ after → I before w → P w →
      (P (forEach f after w).2 ↔ EachRound C f after w) from h is [] w rfl hw hP
  intro after
  induction after with
  | nil => exact fun _ _ _ _ hP => iff_of_true hP trivial
  | cons i after ih =>
    intro before w his hI hP
    have hfirst := hround before i after w his hI hP
    rw [forEach, EachRound, ← hfirst]
    rcases hrun : f i w with ⟨⟨e⟩ | ⟨⟨⟩⟩, w'⟩
    · rw [run_bind_of_error hrun]
      exact (and_iff_left fun w' hok => by cases hok).symm
    · rw [run_bind_of_ok hrun]
      have hrest := fun hP' => ih (before ++ [i]) w' (by rw [his, List.append_assoc, List.singleton_append])
        (hkeeps before i after w w' his hI hrun) hP'
      constructor
      · intro hfinal
        have hP' := hloop after w' hfinal
        refine ⟨hP', fun v hv => ?_⟩
        obtain ⟨-, rfl⟩ := Prod.mk.inj hv
        exact (hrest hP').mp hfinal
      · rintro ⟨hP', hrounds⟩
        exact (hrest hP').mpr (hrounds w' rfl)

/-- A routine that obeys a relation ends related to its start. -/
theorem Obeys.ends {r : σ → σ → Prop} (h : Obeys r x) (w : World σ) :
    Ends x w (fun a w' => r w.state w'.state ∧ w'.outcomes <:+ w.outcomes ∧ x w = (.ok a, w'))
      (fun w' => r w.state w'.state ∧ w'.outcomes <:+ w.outcomes) := by
  obtain ⟨hstate, houtcomes⟩ := h w
  refine ends_of (fun a w' hrun => ?_) (fun e w' hrun => ?_) <;> rw [hrun] at hstate houtcomes
  · exact ⟨hstate, houtcomes, hrun⟩
  · exact ⟨hstate, houtcomes⟩

/-- A request whose refusal is an error: granted, the routine goes on from the same state. -/
theorem ends_request {e : ε} (hgranted : ∀ w', w'.state = w.state → w'.outcomes <:+ w.outcomes → Ends x w' Q E)
    (hrefused : ∀ w', w.outcomes ≠ [] → w'.state = w.state → E w') :
    Ends ((allocate : Fallible ε (World σ) Bool) >>= fun granted => if granted then x else fail e) w Q E := by
  obtain ⟨s, _ | ⟨_ | _, outcomes⟩⟩ := w
  · exact hgranted ⟨s, []⟩ rfl List.suffix_rfl
  · exact hrefused ⟨s, outcomes⟩ (List.cons_ne_nil _ _) rfl
  · exact hgranted ⟨s, outcomes⟩ rfl (List.suffix_cons _ _)

/-- Requests of which a refused one is an error. -/
theorem ends_requests (n : ℕ) {e : ε}
    (hgranted : ∀ w', w'.state = w.state → w'.outcomes <:+ w.outcomes → Ends x w' Q E)
    (hrefused : ∀ w', w.outcomes ≠ [] → w'.state = w.state → E w') :
    Ends ((allocateAll n : Fallible ε (World σ) Bool) >>= fun granted => if granted then x else fail e) w Q E := by
  obtain ⟨s, outcomes⟩ := w
  unfold Ends
  rw [run_bind_of_ok (run_allocateAll n s outcomes)]
  by_cases hall : false ∉ outcomes.take n
  · rw [if_pos (decide_eq_true hall)]
    exact hgranted ⟨s, outcomes.drop n⟩ rfl (List.drop_suffix n outcomes)
  · rw [if_neg (fun h => hall (of_decide_eq_true h))]
    refine hrefused ⟨s, outcomes.drop n⟩ ?_ rfl
    rintro rfl
    exact hall (by simp)

end World
