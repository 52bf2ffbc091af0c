import ToolEvent.Library.Triple

/-!
# What routines demand

A routine that allocates what it needs asks for one thing after the other and gives up at the first
that it does not get. What it asks for is a list of demands, which a supply meets or not, and
routines of this kind compose along `++`.
-/

namespace Fallible

open World

variable {ε σ τ δ α β : Type} {meet : τ → δ → Option τ} {view : World σ → τ} {c c' : Prop} {ds ds' : List δ} {w : World σ}

/-- The routine succeeds exactly when the condition holds and the supply that is seen of the world meets the
demands; then what is left of the supply is seen of the world that it leaves. -/
def Demands (meet : τ → δ → Option τ) (view : World σ → τ) (x : Fallible ε (World σ) α) (w : World σ) (c : Prop)
    (ds : List δ) : Prop :=
  Ends x w (fun _ w' => c ∧ ds.foldlM meet (view w) = some (view w')) fun _ => c → ds.foldlM meet (view w) = none

theorem Demands.congr {x : Fallible ε (World σ) α} (h : Demands meet view x w c ds) (hc : c' ↔ c) :
    Demands meet view x w c' ds :=
  Ends.imp h (fun _ _ hw => ⟨hc.mpr hw.1, hw.2⟩) fun _ hw hc' => hw (hc.mp hc')

theorem Demands.of_eq {x : Fallible ε (World σ) α} (h : Demands meet view x w c ds)
    (hds : ds'.foldlM meet (view w) = ds.foldlM meet (view w)) : Demands meet view x w c ds' := by
  unfold Demands at h ⊢
  rwa [hds]

theorem demands_pure (a : α) (h : c) : Demands meet view (pure a : Fallible ε (World σ) α) w c [] :=
  ends_pure ⟨h, rfl⟩

theorem demands_fail {e : ε} (h : ¬ c) : Demands meet view (fail e : Fallible ε (World σ) α) w c ds :=
  ends_fail fun hc => absurd hc h

/-- A change that does not concern the supply. -/
theorem demands_updateState {f : σ → σ} (h : view ⟨f w.state, w.outcomes⟩ = view w) :
    Demands meet view (updateState f : Fallible ε (World σ) Unit) w True [] :=
  ends_updateState ⟨trivial, congrArg some h.symm⟩

theorem demands_readState_bind {f : σ → Fallible ε (World σ) α} (h : Demands meet view (f w.state) w c ds) :
    Demands meet view (readState >>= f) w c ds := ends_readState_bind h

theorem Demands.bind {x : Fallible ε (World σ) α} {f : α → Fallible ε (World σ) β} (hx : Demands meet view x w c ds)
    (hf : ∀ a w', x w = (.ok a, w') → Demands meet view (f a) w' c' ds') :
    Demands meet view (x >>= f) w (c ∧ c') (ds ++ ds') := by
  refine ends_of (fun b v hrun => ?_) fun e v hrun => ?_ <;> rw [List.foldlM_append]
  · obtain ⟨a, w', hfirst, hsecond⟩ := run_bind_eq_ok.mp hrun
    obtain ⟨hc, hsupply⟩ := Ends.ok hx hfirst
    obtain ⟨hc', hsupply'⟩ := Ends.ok (hf a w' hfirst) hsecond
    exact ⟨⟨hc, hc'⟩, by rw [hsupply]; exact hsupply'⟩
  · rintro ⟨hc, hc'⟩
    rcases hfirst : x w with ⟨⟨e'⟩ | ⟨a⟩, w'⟩
    · rw [Ends.error hx hfirst hc]
      rfl
    · rw [run_bind_of_ok hfirst] at hrun
      rw [(Ends.ok hx hfirst).2]
      exact Ends.error (hf a w' hfirst) hrun hc'

/-- A part that demands nothing, whatever the state. -/
theorem Demands.before {x : Fallible ε (World σ) α} {f : α → Fallible ε (World σ) β} (hx : Demands meet view x w True [])
    (hf : ∀ a w', x w = (.ok a, w') → Demands meet view (f a) w' c ds) : Demands meet view (x >>= f) w c ds :=
  (hx.bind hf).congr (and_iff_right trivial).symm

/-- A part whose run is known, after which less of the demands is left. -/
theorem demands_bind_of_ok {x : Fallible ε (World σ) α} {f : α → Fallible ε (World σ) β} {a : α} {w' : World σ}
    (hrun : x w = (.ok a, w')) (hf : Demands meet view (f a) w' c ds)
    (hmeet : ds'.foldlM meet (view w) = ds.foldlM meet (view w')) : Demands meet view (x >>= f) w c ds' := by
  refine ends_bind_of_ok hrun ?_
  rw [hmeet]
  exact hf

/-- The rounds of a loop whose demands do not depend on the state, as long as an invariant holds. -/
theorem demands_forEach {ι : Type} {f : ι → Fallible ε (World σ) Unit} {I : World σ → Prop} {c : ι → Prop} {ds : ι → List δ}
    {is : List ι} (h : ∀ i ∈ is, ∀ w, I w → Demands meet view (f i) w (c i) (ds i))
    (hkeeps : ∀ i w w', I w → f i w = (.ok (), w') → I w') (hw : I w) :
    Demands meet view (forEach f is) w (∀ i ∈ is, c i) (is.flatMap ds) := by
  induction is generalizing w with
  | nil => exact demands_pure () fun i hi => absurd hi List.not_mem_nil
  | cons i is ih =>
    refine ((h i List.mem_cons_self w hw).bind fun _ w' hrun => ?_).congr List.forall_mem_cons
    exact ih (fun j hj => h j (List.mem_cons_of_mem i hj)) (hkeeps i w w' hw hrun)

/-- The routine succeeds exactly when the condition holds and the supply meets the demands. -/
theorem Demands.ok_iff {x : Fallible ε (World σ) α} (h : Demands meet view x w c ds) :
    (∃ a w', x w = (.ok a, w')) ↔ c ∧ (ds.foldlM meet (view w)).isSome = true := by
  rcases hrun : x w with ⟨⟨e⟩ | ⟨a⟩, w'⟩
  · refine iff_of_false (fun ⟨_, _, hok⟩ => by cases hok) fun ⟨hc, hsome⟩ => ?_
    rw [Ends.error h hrun hc] at hsome
    cases hsome
  · obtain ⟨hc, hsupply⟩ := Ends.ok h hrun
    exact iff_of_true ⟨a, w', rfl⟩ ⟨hc, by rw [hsupply]; rfl⟩

end Fallible
