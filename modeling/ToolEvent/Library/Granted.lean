import ToolEvent.Library.Fallible

/-!
# Runs whose requests are granted

A routine takes the outcomes of its requests from the front, so that a run whose requests
are all granted goes on in the same way whatever the later outcomes are. A routine that
fails when a request is refused succeeds only as it does when all requests are granted.
-/

namespace World

open Fallible

variable {ε σ τ α β ι : Type}

/-- When as many requests are granted as the routine makes, it runs as if all were. -/
def Metered (x : Fallible ε (World σ) α) : Prop :=
  ∀ s, ∃ n r t, x ⟨s, []⟩ = (r, ⟨t, []⟩) ∧ ∀ outcomes, x ⟨s, List.replicate n true ++ outcomes⟩ = (r, ⟨t, outcomes⟩)

/-- A success is that of the run whose requests are all granted. -/
def Settled (x : Fallible ε (World σ) α) : Prop :=
  ∀ s outcomes a w, x ⟨s, outcomes⟩ = (.ok a, w) → x ⟨s, []⟩ = (.ok a, ⟨w.state, []⟩)

theorem metered_pure (a : α) : Metered (pure a : Fallible ε (World σ) α) :=
  fun s => ⟨0, .ok a, s, rfl, fun _ => rfl⟩

theorem metered_fail (e : ε) : Metered (fail e : Fallible ε (World σ) α) :=
  fun s => ⟨0, .error e, s, rfl, fun _ => rfl⟩

theorem metered_readState : Metered (readState : Fallible ε (World σ) σ) :=
  fun s => ⟨0, .ok s, s, rfl, fun _ => rfl⟩

theorem metered_updateState (f : σ → σ) : Metered (updateState f : Fallible ε (World σ) Unit) :=
  fun s => ⟨0, .ok (), f s, rfl, fun _ => rfl⟩

theorem metered_allocate : Metered (allocate : Fallible ε (World σ) Bool) :=
  fun s => ⟨1, .ok true, s, rfl, fun _ => rfl⟩

theorem Metered.bind {x : Fallible ε (World σ) α} {f : α → Fallible ε (World σ) β} (hx : Metered x)
    (hf : ∀ a, Metered (f a)) : Metered (x >>= f) := by
  intro s
  obtain ⟨n, ⟨e⟩ | ⟨a⟩, t, hnil, hn⟩ := hx s
  · exact ⟨n, .error e, t, run_bind_of_error hnil, fun outcomes => run_bind_of_error (hn outcomes)⟩
  · obtain ⟨m, r, u, hnil', hm⟩ := hf a t
    refine ⟨n + m, r, u, (run_bind_of_ok hnil).trans hnil', fun outcomes => ?_⟩
    rw [← List.replicate_append_replicate, List.append_assoc, run_bind_of_ok (hn _)]
    exact hm outcomes

theorem Metered.ite {p : Prop} [Decidable p] {x y : Fallible ε (World σ) α} (hx : Metered x) (hy : Metered y) :
    Metered (if p then x else y) := by
  split
  · exact hx
  · exact hy

theorem metered_allocateAll (n : ℕ) : Metered (allocateAll n : Fallible ε (World σ) Bool) := by
  induction n with
  | zero => exact metered_pure true
  | succ n ih => exact metered_allocate.bind fun _ => ih.bind fun _ => metered_pure _

/-- A run that succeeds when all requests are granted succeeds when the outcomes begin with
enough granted requests. -/
theorem Metered.exists_ok {x : Fallible ε (World σ) α} (hx : Metered x) {s : σ} {a : α} {w : World σ}
    (hrun : x ⟨s, []⟩ = (.ok a, w)) (outcomes : List Bool) :
    ∃ n, x ⟨s, List.replicate n true ++ outcomes⟩ = (.ok a, ⟨w.state, outcomes⟩) := by
  obtain ⟨n, r, t, hnil, hn⟩ := hx s
  obtain ⟨rfl, rfl⟩ := Prod.mk.inj (hnil.symm.trans hrun)
  exact ⟨n, hn outcomes⟩

/-- A settled routine leaves no outcomes when there were none. -/
theorem Settled.outcomes_eq_nil {x : Fallible ε (World σ) α} (hx : Settled x) {s : σ} {a : α} {w : World σ}
    (h : x ⟨s, []⟩ = (.ok a, w)) : w.outcomes = [] :=
  congrArg (fun result => result.2.outcomes) (h.symm.trans (hx s [] a w h))

theorem settled_pure (a : α) : Settled (pure a : Fallible ε (World σ) α) := by
  rintro s outcomes b w hrun
  obtain ⟨hok, rfl⟩ := Prod.mk.inj hrun
  rw [run_pure, hok]

theorem settled_fail (e : ε) : Settled (fail e : Fallible ε (World σ) α) := nofun

theorem settled_readState : Settled (readState : Fallible ε (World σ) σ) := by
  rintro s outcomes t w hrun
  obtain ⟨hok, rfl⟩ := Prod.mk.inj hrun
  rw [run_readState, hok]

theorem settled_updateState (f : σ → σ) : Settled (updateState f : Fallible ε (World σ) Unit) := by
  rintro s outcomes ⟨⟩ w hrun
  obtain ⟨-, rfl⟩ := Prod.mk.inj hrun
  rfl

theorem Settled.bind {x : Fallible ε (World σ) α} {f : α → Fallible ε (World σ) β} (hx : Settled x)
    (hf : ∀ a, Settled (f a)) : Settled (x >>= f) := by
  rintro s outcomes b w hrun
  obtain ⟨a, ⟨t, left⟩, hfirst, hrest⟩ := run_bind_eq_ok.mp hrun
  rw [run_bind_of_ok (hx s outcomes a _ hfirst)]
  exact hf a t left b w hrest

theorem Settled.ite {p : Prop} [Decidable p] {x y : Fallible ε (World σ) α} (hx : Settled x) (hy : Settled y) :
    Settled (if p then x else y) := by
  split
  · exact hx
  · exact hy

/-- Requests after which a refusal is an error. -/
theorem settled_allocateAll (n : ℕ) {x : Fallible ε (World σ) α} (hx : Settled x) (e : ε) :
    Settled ((allocateAll n : Fallible ε (World σ) Bool) >>= fun granted => if granted then x else fail e) := by
  rintro s outcomes a w hrun
  rw [run_bind_of_ok (run_allocateAll n s outcomes)] at hrun
  rw [run_bind_of_ok (run_allocateAll_nil n s), if_pos rfl]
  split at hrun
  · exact hx s _ a w hrun
  · cases hrun

theorem settled_allocate {x : Fallible ε (World σ) α} (hx : Settled x) (e : ε) :
    Settled ((allocate : Fallible ε (World σ) Bool) >>= fun granted => if granted then x else fail e) := by
  rintro s outcomes a w hrun
  rw [run_bind_of_ok (run_allocate s outcomes)] at hrun
  rw [run_bind_of_ok (run_allocate_nil s), if_pos rfl]
  split at hrun
  · exact hx s _ a w hrun
  · cases hrun

theorem settled_forEach {f : ι → Fallible ε (World σ) Unit} (hf : ∀ i, Settled (f i)) (is : List ι) :
    Settled (forEach f is) := by
  induction is with
  | nil => exact settled_pure _
  | cons i is ih => exact (hf i).bind fun _ => ih

theorem Settled.onFirst {x : Fallible ε (World σ) α} (hx : Settled x) :
    Settled (onFirst x : Fallible ε (World (σ × τ)) α) := by
  rintro ⟨s, t⟩ outcomes a w hrun
  obtain ⟨v, hfirst, rfl⟩ := onFirst_eq_ok.mp hrun
  exact onFirst_eq_ok.mpr ⟨_, hx s outcomes a v hfirst, rfl⟩

theorem Settled.withLocals {x : Fallible ε (World (σ × τ)) α} (hx : Settled x) (locals : τ) :
    Settled (withLocals locals x) := by
  rintro s outcomes a w hrun
  obtain ⟨v, hlocal, rfl⟩ := withLocals_eq_ok.mp hrun
  exact withLocals_eq_ok.mpr ⟨_, hx (s, locals) outcomes a v hlocal, rfl⟩

theorem Settled.eq {x : Fallible ε (World σ) α} (hx : Settled x) {s : σ} {outcomes outcomes' : List Bool}
    {a a' : α} {w w' : World σ} (h : x ⟨s, outcomes⟩ = (.ok a, w)) (h' : x ⟨s, outcomes'⟩ = (.ok a', w')) :
    a = a' ∧ w.state = w'.state := by
  obtain ⟨hok, hworld⟩ := Prod.mk.inj ((hx s outcomes a w h).symm.trans (hx s outcomes' a' w' h'))
  exact ⟨Except.ok.inj hok, (World.mk.inj hworld).1⟩

end World
