import ToolEvent.Library.Atomic
import ToolEvent.LifecycleAttempt

/-!
# Failed ingests

The parts a replay step is made of change nothing when they fail, and succeed only as with
granted requests. A record of two such parts, of which the second fails, leaves the effect of
the first in the model.
-/

namespace ToolEvent.Lifecycle

open Fallible World LatestMatch

theorem metered_copyTexts (count : ℕ) : Metered (copyTexts count) :=
  (metered_allocateAll count).bind fun copied => by
    cases copied
    · exact metered_fail _
    · exact metered_pure _

theorem metered_reserve (count capacity : ℕ) : Metered (reserve count capacity) := by
  refine Metered.ite ?_ (metered_pure _)
  refine metered_allocate.bind fun grown => ?_
  cases grown
  · exact metered_fail _
  · exact metered_pure _

theorem settled_copyTexts (count : ℕ) : Settled (copyTexts count) := settled_allocateAll count (settled_pure _) _

theorem settled_reserve (count capacity : ℕ) : Settled (reserve count capacity) :=
  (settled_allocate (settled_pure _) _).ite (settled_pure _)

theorem preserves_copyTexts {τ : Type} {observe : Model → τ} (count : ℕ) : Preserves observe (copyTexts count) :=
  preserves_of_evolves fun _ => evolves_copyTexts count

theorem preserves_reserve {τ : Type} {observe : Model → τ} (count capacity : ℕ) : Preserves observe (reserve count capacity) :=
  preserves_of_evolves fun _ => evolves_reserve count capacity

theorem refusable_copyTexts {τ : Type} {observe : Model → τ} {count : ℕ} (hcount : 0 < count) :
    Refusable observe (copyTexts count) := refusable_allocateAll hcount _ _

theorem metered_addEntry (record : EventRecord) (resourceId : Text) : Metered (addEntry record resourceId) := by
  refine metered_readState.bind fun model => (metered_fail _).ite ?_
  refine (metered_reserve _ _).bind fun _ => (metered_updateState _).bind fun _ => ?_
  exact (metered_copyTexts 4).bind fun _ => metered_updateState _

theorem settled_addEntry (record : EventRecord) (resourceId : Text) : Settled (addEntry record resourceId) := by
  refine settled_readState.bind fun model => (settled_fail _).ite ?_
  refine (settled_reserve _ _).bind fun _ => (settled_updateState _).bind fun _ => ?_
  exact (settled_copyTexts 4).bind fun _ => settled_updateState _

theorem atomic_addEntry (record : EventRecord) (resourceId : Text) : Atomic Model.store (addEntry record resourceId) := by
  refine atomic_readState_bind fun model => (preserves_fail _).atomic.ite ?_
  refine (preserves_reserve _ _).bind_atomic fun _ => Preserves.bind_atomic (preserves_updateState (fun _ => rfl)) fun _ => ?_
  exact (preserves_copyTexts 4).atomic.bind_updateState _

theorem metered_ensureFindingCapacity : Metered ensureFindingCapacity := by
  refine metered_readState.bind fun model => (metered_fail _).ite ?_
  exact (metered_reserve _ _).bind fun _ => metered_updateState _

theorem settled_ensureFindingCapacity : Settled ensureFindingCapacity := by
  refine settled_readState.bind fun model => (settled_fail _).ite ?_
  exact (settled_reserve _ _).bind fun _ => settled_updateState _

theorem preserves_ensureFindingCapacity : Preserves Model.store ensureFindingCapacity := by
  refine preserves_readState.bind fun model => (preserves_fail _).ite ?_
  exact (preserves_reserve _ _).bind fun _ => preserves_updateState fun _ => rfl

section Findings

variable (kind : FindingKind) (record : EventRecord) (previous : Option Entry)

theorem metered_addFinding : Metered (addFinding kind record previous) := by
  refine metered_ensureFindingCapacity.bind fun _ => (metered_copyTexts 2).bind fun _ => ?_
  exact (metered_copyTexts _).bind fun _ => metered_updateState _

theorem settled_addFinding : Settled (addFinding kind record previous) := by
  refine settled_ensureFindingCapacity.bind fun _ => (settled_copyTexts 2).bind fun _ => ?_
  exact (settled_copyTexts _).bind fun _ => settled_updateState _

theorem atomic_addFinding : Atomic Model.store (addFinding kind record previous) := by
  refine preserves_ensureFindingCapacity.bind_atomic fun _ => (preserves_copyTexts 2).bind_atomic fun _ => ?_
  exact (preserves_copyTexts _).atomic.bind_updateState _

end Findings

/-- A refused request is the growth of the array, or is left to the routine after it. -/
theorem run_reserve_refused (count capacity : ℕ) (m : Model) :
    (∃ e, reserve count capacity ⟨m, [false]⟩ = (.error e, ⟨m, []⟩)) ∨
      reserve count capacity ⟨m, [false]⟩ = (.ok (), ⟨m, [false]⟩) := by
  unfold reserve
  split
  · exact Or.inl ⟨.errno .enomem, rfl⟩
  · exact Or.inr rfl

/-- Growing an array and then copying texts needs a request. -/
theorem refusable_reserve_copyTexts {α : Type} (count capacity : ℕ) {grow : Model → Model}
    (hgrow : ∀ m, (grow m).store = m.store) (copies : ℕ) (rest : Unit → Routine Model α) :
    Refusable Model.store
      (reserve count capacity >>= fun _ => updateState grow >>= fun _ => copyTexts (copies + 1) >>= rest) := by
  intro m
  rcases run_reserve_refused count capacity m with ⟨e, hrefused⟩ | hspared
  · exact ⟨e, ⟨m, []⟩, run_bind_of_error hrefused, rfl⟩
  · have hrefused : Refusable Model.store (copyTexts (copies + 1)) := refusable_copyTexts (Nat.succ_pos copies)
    obtain ⟨e, w, hrun, hkept⟩ := hrefused (grow m)
    refine ⟨e, w, ?_, hkept.trans (hgrow m)⟩
    rw [run_bind_of_ok hspared]
    exact run_bind_of_error (f := rest) hrun

theorem refusable_addEntry (record : EventRecord) (resourceId : Text) :
    Refusable Model.store (addEntry record resourceId) := by
  intro m
  unfold addEntry
  rw [run_readState_bind]
  refine ((refusable_fail _).ite ?_) m
  apply refusable_reserve_copyTexts
  exact fun _ => rfl

theorem run_ensureFindingCapacity_refused (m : Model) :
    ∃ w, w.state.store = m.store ∧ ((∃ e, ensureFindingCapacity ⟨m, [false]⟩ = (.error e, w)) ∨
      (ensureFindingCapacity ⟨m, [false]⟩ = (.ok (), w) ∧ w.outcomes = [false])) := by
  unfold ensureFindingCapacity
  rw [run_readState_bind]
  split
  · exact ⟨⟨m, [false]⟩, rfl, Or.inl ⟨.errno .efbig, rfl⟩⟩
  · rcases run_reserve_refused m.findings.length m.findingCapacity m with ⟨e, hrefused⟩ | hspared
    · exact ⟨⟨m, []⟩, rfl, Or.inl ⟨e, run_bind_of_error hrefused⟩⟩
    · refine ⟨⟨{ m with findingCapacity := grownCapacity m.findings.length m.findingCapacity }, [false]⟩, rfl, ?_⟩
      exact Or.inr ⟨run_bind_of_ok hspared, rfl⟩

theorem refusable_addFinding (kind : FindingKind) (record : EventRecord) (previous : Option Entry) :
    Refusable Model.store (addFinding kind record previous) := by
  intro m
  obtain ⟨⟨t, outcomes⟩, hkept, ⟨e, hrefused⟩ | ⟨hroom, houtcomes⟩⟩ := run_ensureFindingCapacity_refused m
  · exact ⟨e, _, run_bind_of_error hrefused, hkept⟩
  · dsimp only at hkept houtcomes
    subst houtcomes
    have hrefused : Refusable Model.store (copyTexts 2) := refusable_copyTexts (Nat.succ_pos 1)
    obtain ⟨e, w, hrun, hcopies⟩ := hrefused t
    refine ⟨e, w, ?_, hcopies.trans hkept⟩
    unfold addFinding
    rw [run_bind_of_ok hroom]
    exact run_bind_of_error hrun

theorem metered_releaseEntry (record : EventRecord) : Metered (releaseEntry record) := by
  refine metered_readState.bind fun model => ?_
  split
  · exact (metered_copyTexts 2).bind fun _ => metered_updateState _
  · exact metered_addFinding _ _ _

theorem settled_releaseEntry (record : EventRecord) : Settled (releaseEntry record) := by
  refine settled_readState.bind fun model => ?_
  split
  · exact (settled_copyTexts 2).bind fun _ => settled_updateState _
  · exact settled_addFinding _ _ _

theorem atomic_releaseEntry (record : EventRecord) : Atomic Model.store (releaseEntry record) := by
  refine atomic_readState_bind fun model => ?_
  split
  · exact (preserves_copyTexts 2).atomic.bind_updateState _
  · exact atomic_addFinding _ _ _

theorem refusable_releaseEntry (record : EventRecord) : Refusable Model.store (releaseEntry record) := by
  intro m
  unfold releaseEntry
  rw [run_readState_bind]
  cases hfind : findLatest m.entries record.pid (recordClass record) (recordId record) true with
  | some index =>
    simp only
    exact (refusable_copyTexts (by decide)).bind _ m
  | none =>
    simp only
    exact refusable_addFinding _ _ _ m

theorem settled_ingestResource (record : EventRecord) : Settled (ingestResource record) := by
  refine (settled_fail _).ite ((settled_pure _).ite ?_)
  have hreplace : Settled (if isAbsent record.relatedId then do
        let model ← readState
        addFinding .badReplace record
          (latestEntry model.entries record.pid (recordClass record) (recordId record) false)
      else do
        releaseEntry record
        addEntry record (record.relatedId.getD .empty)) :=
    (settled_readState.bind fun _ => settled_addFinding _ _ _).ite
      ((settled_releaseEntry _).bind fun _ => settled_addEntry _ _)
  cases record.resourceKind with
  | acquire =>
    refine settled_readState.bind fun model => Settled.bind ?_ fun _ => settled_addEntry _ _
    exact (settled_addFinding _ _ _).ite (settled_pure _)
  | release => exact settled_releaseEntry _
  | replace => exact hreplace
  | transfer => exact hreplace
  | use => exact settled_readState.bind fun model => (settled_addFinding _ _ _).ite (settled_pure _)

theorem settled_ingestAllocation (lib : RecordLibrary) (record : EventRecord) :
    Settled (ingestAllocation lib record) := by
  have hpointer : ∀ kind pointer, Settled (if lib.pointerIsNull pointer then pure ()
      else ingestResource (normalizedAllocation record kind pointer)) :=
    fun kind pointer => (settled_pure _).ite (settled_ingestResource _)
  unfold ingestAllocation
  cases record.allocKind with
  | alloc => exact hpointer _ _
  | free => exact hpointer _ _
  | realloc =>
    refine (hpointer _ _).ite (settled_readState.bind fun model => Settled.ite ?_ ?_)
    · exact (settled_addFinding _ _ _).bind fun _ => hpointer _ _
    · exact (settled_pure _).ite ((settled_ingestResource _).bind fun _ => settled_ingestResource _)

theorem settled_reconcileLoop (pid : ℤ) (resourceClass resourceId : Text) (fuel : ℕ) :
    Settled (reconcileLoop pid resourceClass resourceId fuel) := by
  induction fuel with
  | zero => exact settled_fail _
  | succ fuel ih =>
    refine settled_readState.bind fun model => ?_
    split
    · exact settled_pure _
    · exact (settled_updateState _).bind fun _ => (settled_releaseEntry _).bind fun _ => ih

theorem settled_forkEntry (record : EventRecord) (index : ℕ) : Settled (forkEntry record index) := by
  refine settled_readState.bind fun model => ?_
  split
  · exact settled_pure _
  · refine (settled_pure _).ite ((settled_pure _).ite ((settled_fail _).ite ?_))
    exact (settled_addEntry _ _).bind fun _ => settled_readState.bind fun _ => settled_reconcileLoop _ _ _ _

theorem settled_ingestExec (record : EventRecord) : Settled (ingestExec record) := by
  refine settled_readState.bind fun model => ?_
  split
  · exact settled_pure _
  · exact (settled_addFinding _ _ _).ite ((settled_releaseEntry _).bind fun _ => settled_updateState _)

theorem settled_ingestKind (lib : RecordLibrary) (record : EventRecord) : Settled (ingestKind lib record) := by
  unfold ingestKind
  cases record.recordKind with
  | resource => exact settled_ingestResource _
  | fd => exact settled_ingestResource _
  | alloc => exact settled_ingestAllocation _ _
  | fork => exact (settled_readState.bind fun _ => settled_forEach (settled_forkEntry record) _).ite (settled_pure _)
  | exec => exact settled_ingestExec _
  | execFail => exact settled_updateState _
  | spawn => exact settled_fail _
  | call => exact settled_fail _
  | complete => exact settled_fail _

/-- An accepted record is replayed as if all requests had been granted. -/
theorem settled_ingest (lib : RecordLibrary) (record : EventRecord) : Settled (ingest lib record) := by
  refine settled_readState.bind fun model => Settled.ite ?_ (settled_fail _)
  exact (settled_updateState _).bind fun _ => (settled_ingestKind lib record).bind fun _ => settled_updateState _

theorem settled_finishEntry (index : ℕ) : Settled (finishEntry index) := by
  refine (settled_updateState _).bind fun _ => settled_readState.bind fun model => ?_
  split
  · exact settled_pure _
  · refine Settled.ite ?_ (settled_pure _)
    exact settled_ensureFindingCapacity.bind fun _ => (settled_copyTexts 4).bind fun _ => settled_updateState _

theorem settled_finish : Settled finish := by
  refine settled_readState.bind fun model => (settled_pure _).ite ?_
  exact (settled_forEach settled_finishEntry _).bind fun _ => settled_updateState _

end ToolEvent.Lifecycle
