import ToolEvent.Lifecycle

/-!
# The elementary changes of the replay

Whatever the allocator answers, a replay step only makes changes of a few shapes.
Invariants of the model are shown for these shapes.
-/

namespace ToolEvent.Lifecycle

open Fallible World LatestMatch Relation

/-- The changes that the replay of `record` is made of. -/
inductive Change (record : EventRecord) : Model → Model → Prop
  | entryCapacity (m : Model) (capacity : ℕ) : Change record m { m with entryCapacity := capacity }
  | findingCapacity (m : Model) (capacity : ℕ) :
      Change record m { m with findingCapacity := capacity }
  | addEntry (m : Model) (acquired : EventRecord) (resourceId : Text) :
      Change record m { m with entries := m.entries ++ [newEntry acquired resourceId] }
  | addFinding (m : Model) (kind : FindingKind) (reported : EventRecord) (previous : Option Entry)
      (room : m.findings.length < maxLifecycleFindings) (notLeak : kind ≠ .leak) :
      Change record m { m with findings := m.findings ++ [newFinding kind reported previous] }
  | close (m : Model) (released : EventRecord) (pre : List Entry) (entry : Entry)
      (post : List Entry) (eq : m.entries = pre ++ entry :: post) (live : entry.live = true) :
      Change record m { m with entries := pre ++ entry.closedBy released :: post }
  | markPending (m : Model) (pre : List Entry) (entry : Entry) (post : List Entry)
      (eq : m.entries = pre ++ entry :: post) (closed : entry.live = false) :
      Change record m { m with entries := pre ++ entry.markExecPending :: post }
  | takeStray (m : Model) (pid : ℤ) (resourceClass resourceId : Text) :
      Change record m
        { m with findings := m.findings.eraseP (Finding.isStray pid resourceClass resourceId) }
  | rollback (m : Model) (kind : record.recordKind = .execFail) :
      Change record m (rollbackExec record.pid m)

abbrev Changes (record : EventRecord) : Model → Model → Prop := ReflTransGen (Change record)

theorem Entry.matches_live {pid : ℤ} {resourceClass resourceId : Text} {entry : Entry}
    (h : entry.matches pid resourceClass resourceId true = true) : entry.live = true := by
  simp only [Entry.matches, decide_eq_true_eq, forall_const] at h
  exact h.2.2.2

variable {record : EventRecord}

@[simp] theorem state_allocate (w : World Model) :
    (allocate w : Except Raised Bool × World Model).2.state = w.state := by
  rcases w with ⟨s, _ | ⟨b, bs⟩⟩ <;> rfl

theorem evolves_copyTexts (count : ℕ) {r : Model → Model → Prop} : Evolves r (copyTexts count) :=
  (evolves_allocateAll count).bind fun copied => by
    cases copied
    · exact evolves_fail _
    · exact evolves_pure _

theorem evolves_reserve (count capacity : ℕ) {r : Model → Model → Prop} :
    Evolves r (reserve count capacity) := by
  refine Evolves.ite ?_ (evolves_pure _)
  refine evolves_allocate.bind fun grown => ?_
  cases grown
  · exact evolves_fail _
  · exact evolves_pure _

theorem evolves_addEntry (acquired : EventRecord) (resourceId : Text) :
    Evolves (Change record) (addEntry acquired resourceId) := by
  refine evolves_readState.bind fun model => Evolves.ite (evolves_fail _) ?_
  refine (evolves_reserve _ _).bind fun _ => Evolves.bind ?_ fun _ =>
    (evolves_copyTexts 4).bind fun _ => ?_
  · exact fun w => reaches_updateState (Change.entryCapacity _ _)
  · exact fun w => reaches_updateState (Change.addEntry _ _ _)

/-- After room for a finding is ensured, there is room. -/
theorem ensureFindingCapacity_ok {w w' : World Model}
    (h : ensureFindingCapacity w = (.ok (), w')) :
    w.state.findings.length < maxLifecycleFindings ∧
      ∃ capacity, w'.state = { w.state with findingCapacity := capacity } := by
  unfold ensureFindingCapacity at h
  rw [run_readState_bind] at h
  split at h
  · simp at h
  · next hfull =>
    obtain ⟨_, w₁, hreserve, hupdate⟩ := run_bind_eq_ok.mp h
    have hsame : w₁.state = w.state := by
      rw [← state_eq_of_evolves (fun r => evolves_reserve _ _) w, hreserve]
    rw [run_updateState, Prod.mk.injEq] at hupdate
    refine ⟨Nat.lt_of_not_le hfull, grownCapacity w.state.findings.length w.state.findingCapacity, ?_⟩
    rw [← hupdate.2, hsame]

theorem evolves_ensureFindingCapacity : Evolves (Change record) ensureFindingCapacity := by
  refine evolves_readState.bind fun model => Evolves.ite (evolves_fail _) ?_
  exact (evolves_reserve _ _).bind fun _ => fun w =>
    reaches_updateState (Change.findingCapacity _ _)

theorem evolves_addFinding {kind : FindingKind} (notLeak : kind ≠ .leak) (reported : EventRecord)
    (previous : Option Entry) : Evolves (Change record) (addFinding kind reported previous) := by
  intro w
  refine reaches_bind (evolves_ensureFindingCapacity w) fun _ w₁ h₁ => ?_
  obtain ⟨hroom, capacity, hw₁⟩ := ensureFindingCapacity_ok h₁
  refine reaches_bind (evolves_copyTexts _ _) fun _ w₂ h₂ => ?_
  have hw₂ : w₂.state = w₁.state := by
    rw [← state_eq_of_evolves (fun r => evolves_copyTexts 2) w₁, h₂]
  refine reaches_bind (evolves_copyTexts _ _) fun _ w₃ h₃ => ?_
  have hw₃ : w₃.state = w₂.state := by
    rw [← state_eq_of_evolves (fun r => evolves_copyTexts (if previous.isSome then 4 else 2)) w₂, h₃]
  refine reaches_updateState (Change.addFinding _ kind reported previous ?_ notLeak)
  rw [hw₃, hw₂, hw₁]
  exact hroom

theorem evolves_releaseEntry (released : EventRecord) :
    Evolves (Change record) (releaseEntry released) := by
  intro w
  unfold releaseEntry
  rw [run_readState_bind]
  cases hfind : findLatest w.state.entries released.pid (recordClass released) (recordId released)
    true with
  | some index =>
    obtain ⟨pre, entry, post, hs, rfl⟩ := exists_split_of_latestIndex hfind
    refine reaches_bind (evolves_copyTexts _ _) fun _ w₁ h₁ => ?_
    have hw₁ : w₁.state = w.state := by
      rw [← state_eq_of_evolves (fun r => evolves_copyTexts 2) w, h₁]
    refine reaches_updateState ?_
    simp only [hw₁, hs.modify]
    exact Change.close _ _ _ _ _ hs.eq (Entry.matches_live hs.holds)
  | none =>
    refine evolves_addFinding ?_ _ _ w
    split <;> simp

theorem evolves_ingestResource (resource : EventRecord) :
    Evolves (Change record) (ingestResource resource) := by
  unfold ingestResource
  refine Evolves.ite (evolves_fail _) (Evolves.ite (evolves_pure _) ?_)
  have hreplace : Evolves (Change record) (if isAbsent resource.relatedId then do
        let model ← readState
        addFinding .badReplace resource (latestEntry model.entries resource.pid
          (recordClass resource) (recordId resource) false)
      else do
        releaseEntry resource
        addEntry resource (resource.relatedId.getD .empty)) :=
    Evolves.ite (evolves_readState.bind fun _ => evolves_addFinding (by simp) _ _)
      ((evolves_releaseEntry _).bind fun _ => evolves_addEntry _ _)
  cases resource.resourceKind with
  | acquire =>
    refine evolves_readState.bind fun model => Evolves.bind ?_ fun _ => evolves_addEntry _ _
    exact Evolves.ite (evolves_addFinding (by simp) _ _) (evolves_pure _)
  | release => exact evolves_releaseEntry _
  | replace => exact hreplace
  | transfer => exact hreplace
  | use =>
    refine evolves_readState.bind fun model => ?_
    exact Evolves.ite (evolves_addFinding (by simp) _ _) (evolves_pure _)

theorem evolves_ingestAllocation (lib : RecordLibrary) (allocation : EventRecord) :
    Evolves (Change record) (ingestAllocation lib allocation) := by
  have hresource : ∀ pointer kind, Evolves (Change record)
      (if lib.pointerIsNull pointer then pure ()
        else ingestResource (normalizedAllocation allocation kind pointer)) :=
    fun pointer kind => Evolves.ite (evolves_pure _) (evolves_ingestResource _)
  unfold ingestAllocation
  cases allocation.allocKind with
  | alloc => exact hresource _ _
  | free => exact hresource _ _
  | realloc =>
    refine Evolves.ite (hresource _ _) (evolves_readState.bind fun model => Evolves.ite ?_ ?_)
    · exact (evolves_addFinding (by simp) _ _).bind fun _ => hresource _ _
    · exact Evolves.ite (evolves_pure _)
        ((evolves_ingestResource _).bind fun _ => evolves_ingestResource _)

theorem evolves_reconcileLoop (pid : ℤ) (resourceClass resourceId : Text) (fuel : ℕ) :
    Evolves (Change record) (reconcileLoop pid resourceClass resourceId fuel) := by
  induction fuel with
  | zero => exact evolves_fail _
  | succ fuel ih =>
    refine evolves_readState.bind fun model => ?_
    split
    · exact evolves_pure _
    · exact Evolves.bind (fun w => reaches_updateState (Change.takeStray _ _ _ _)) fun _ =>
        (evolves_releaseEntry _).bind fun _ => ih

theorem evolves_forkEntry (fork : EventRecord) (index : ℕ) :
    Evolves (Change record) (forkEntry fork index) := by
  refine evolves_readState.bind fun model => ?_
  split
  · exact evolves_pure _
  · refine Evolves.ite (evolves_pure _) (Evolves.ite (evolves_pure _)
      (Evolves.ite (evolves_fail _) ?_))
    exact (evolves_addEntry _ _).bind fun _ =>
      evolves_readState.bind fun _ => evolves_reconcileLoop _ _ _ _

theorem evolves_ingestFork (fork : EventRecord) : Evolves (Change record) (ingestFork fork) :=
  Evolves.ite (evolves_readState.bind fun _ => evolves_forEach (evolves_forkEntry fork) _)
    (evolves_pure _)

/-- What a successful release of a live key did. -/
theorem releaseEntry_ok {released : EventRecord} {w w' : World Model} {pre : List Entry}
    {entry : Entry} {post : List Entry}
    (hs : SplitAt (Entry.matches released.pid (recordClass released) (recordId released) true)
      w.state.entries pre entry post) (h : releaseEntry released w = (.ok (), w')) :
    w'.state = { w.state with entries := pre ++ entry.closedBy released :: post } := by
  have hfind : findLatest w.state.entries released.pid (recordClass released) (recordId released)
      true = some pre.length := hs.latestIndex_eq
  unfold releaseEntry at h
  simp only [run_readState_bind, hfind] at h
  obtain ⟨_, w₁, hcopy, hupdate⟩ := run_bind_eq_ok.mp h
  have hw₁ : w₁.state = w.state := by
    rw [← state_eq_of_evolves (fun r => evolves_copyTexts 2) w, hcopy]
  rw [run_updateState, Prod.mk.injEq] at hupdate
  rw [← hupdate.2, hw₁, hs.modify]

theorem evolves_ingestExec (exec : EventRecord) : Evolves (Change record) (ingestExec exec) := by
  intro w
  unfold ingestExec
  rw [run_readState_bind]
  cases hfind : findLatest w.state.entries exec.pid fdResourceClass (formatFdIdentifier exec.fd)
    true with
  | none => exact .refl
  | some index =>
    obtain ⟨pre, entry, post, hs, rfl⟩ := exists_split_of_latestIndex hfind
    by_cases hkeep : exec.cloexec = 0
    · simp only [hkeep, if_true]
      exact evolves_addFinding (by simp) _ _ w
    · simp only [hkeep, if_false]
      refine reaches_bind (evolves_releaseEntry _ w) fun _ w' hrelease => reaches_updateState ?_
      rw [releaseEntry_ok hs hrelease]
      simp only [modify_append_cons]
      exact Change.markPending _ pre _ post rfl rfl

theorem evolves_ingestKind (lib : RecordLibrary) (record : EventRecord) :
    Evolves (Change record) (ingestKind lib record) := by
  unfold ingestKind
  cases hkind : record.recordKind with
  | resource => exact evolves_ingestResource _
  | fd => exact evolves_ingestResource _
  | alloc => exact evolves_ingestAllocation _ _
  | fork => exact evolves_ingestFork _
  | exec => exact evolves_ingestExec _
  | execFail => exact fun w => reaches_updateState (Change.rollback _ hkind)
  | spawn => exact evolves_fail _
  | call => exact evolves_fail _
  | complete => exact evolves_fail _

/-- The changes that the search for leaks is made of. -/
inductive FinishChange : Model → Model → Prop
  | clearEntry (m : Model) (index : ℕ) :
      FinishChange m { m with entries := m.entries.modify index Entry.clearPending }
  | findingCapacity (m : Model) (capacity : ℕ) :
      FinishChange m { m with findingCapacity := capacity }
  | addLeak (m : Model) (entry : Entry) (room : m.findings.length < maxLifecycleFindings) :
      FinishChange m { m with findings := m.findings ++ [leakFinding entry] }

theorem finish_reaches_ensureFindingCapacity : Evolves FinishChange ensureFindingCapacity := by
  refine evolves_readState.bind fun model => Evolves.ite (evolves_fail _) ?_
  exact (evolves_reserve _ _).bind fun _ => fun w =>
    reaches_updateState (FinishChange.findingCapacity _ _)

theorem evolves_addLeakFinding (entry : Entry) :
    Evolves FinishChange (addLeakFinding entry) := by
  intro w
  refine reaches_bind (finish_reaches_ensureFindingCapacity w) fun _ w₁ h₁ => ?_
  obtain ⟨hroom, capacity, hw₁⟩ := ensureFindingCapacity_ok h₁
  refine reaches_bind (evolves_copyTexts _ _) fun _ w₂ h₂ => reaches_updateState ?_
  have hw₂ : w₂.state = w₁.state := by
    rw [← state_eq_of_evolves (fun r => evolves_copyTexts 4) w₁, h₂]
  refine FinishChange.addLeak _ entry ?_
  rw [hw₂, hw₁]
  exact hroom

theorem evolves_finishEntry (index : ℕ) : Evolves FinishChange (finishEntry index) := by
  refine Evolves.bind (fun w => reaches_updateState (FinishChange.clearEntry _ _)) fun _ => ?_
  refine evolves_readState.bind fun model => ?_
  split
  · exact evolves_pure _
  · exact Evolves.ite (evolves_addLeakFinding _) (evolves_pure _)

theorem FinishChange.finished {m m' : Model} (h : FinishChange m m') : m'.finished = m.finished := by
  cases h <;> rfl

/-- A finished model is left alone; else the leaks are searched, and if this succeeds
the model is finished. -/
theorem finish_cases (w : World Model) :
    (w.state.finished = true ∧ finish w = (.ok (), w)) ∨
      (w.state.finished = false ∧
        ∃ r w', forEach finishEntry (List.range w.state.entries.length) w = (r, w') ∧
          ReflTransGen FinishChange w.state w'.state ∧ w'.state.finished = false ∧
          ((∃ e, r = .error e ∧ finish w = (.error e, w')) ∨
            (r = .ok () ∧ finish w = (.ok (), { w' with
              state := { w'.state with
                findings := w'.state.findings.map Finding.clearPending, finished := true } })))) := by
  by_cases hfinished : w.state.finished = true
  · exact Or.inl ⟨hfinished, by simp [finish, hfinished]⟩
  · rw [Bool.not_eq_true] at hfinished
    refine Or.inr ⟨hfinished, ?_⟩
    have hevolves := evolves_forEach evolves_finishEntry (List.range w.state.entries.length) w
    have hopen := invariant_of_reaches (fun m => m.finished = false)
      (fun _ _ hstep hm => hstep.finished.trans hm) hevolves hfinished
    rcases hrun : forEach finishEntry (List.range w.state.entries.length) w with ⟨⟨e⟩ | ⟨⟩, w'⟩ <;>
      rw [hrun] at hevolves hopen
    · exact ⟨_, _, rfl, hevolves, hopen, Or.inl ⟨e, rfl, by simp [finish, hfinished, run_bind, hrun]⟩⟩
    · exact ⟨_, _, rfl, hevolves, hopen, Or.inr ⟨rfl, by simp [finish, hfinished, run_bind, hrun]⟩⟩

theorem Change.header {m m' : Model} (h : Change record m m') :
    m'.runId = m.runId ∧ m'.finished = m.finished := by
  cases h <;> exact ⟨rfl, rfl⟩

/-- A refused record leaves the model alone; an admitted one is replayed on the
reopened model, and then gives the model its run identity. -/
theorem ingest_cases (lib : RecordLibrary) (record : EventRecord) (w : World Model) :
    (isAdmitted lib w.state record = false ∧ ingest lib record w = (.error .check, w)) ∨
      (isAdmitted lib w.state record = true ∧
        ∃ r w', ingestKind lib record { w with state := { w.state with finished := false } } =
            (r, w') ∧
          Changes record { w.state with finished := false } w'.state ∧
          ((∃ e, r = .error e ∧ ingest lib record w = (.error e, w')) ∨
            (r = .ok () ∧ ingest lib record w = (.ok (), { w' with
              state := w'.state.adoptRunId (record.runId.getD .empty) })))) := by
  by_cases hadmitted : isAdmitted lib w.state record = true
  · refine Or.inr ⟨hadmitted, ?_⟩
    have hevolves := evolves_ingestKind lib record
      { w with state := { w.state with finished := false } }
    rcases hrun : ingestKind lib record { w with state := { w.state with finished := false } } with
      ⟨⟨e⟩ | ⟨⟩, w'⟩
    · rw [hrun] at hevolves
      refine ⟨_, _, rfl, hevolves, Or.inl ⟨e, rfl, ?_⟩⟩
      simp [ingest, hadmitted, run_bind, hrun]
    · rw [hrun] at hevolves
      refine ⟨_, _, rfl, hevolves, Or.inr ⟨rfl, ?_⟩⟩
      simp [ingest, hadmitted, run_bind, hrun]
  · refine Or.inl ⟨by simpa using hadmitted, ?_⟩
    simp [ingest, hadmitted]

/-- The models that calls to the replay can reach, whatever the allocator answers. -/
inductive Reachable (lib : RecordLibrary) : Model → Prop
  | create : Reachable lib {}
  | ingest {m : Model} (h : Reachable lib m) (record : EventRecord) (outcomes : List Bool) :
      Reachable lib (ingest lib record ⟨m, outcomes⟩).2.state
  | finish {m : Model} (h : Reachable lib m) (outcomes : List Bool) :
      Reachable lib (finish ⟨m, outcomes⟩).2.state

/-- A live entry has never been released, and the findings are within their limit. -/
structure Sound (m : Model) : Prop where
  pristine : ∀ entry ∈ m.entries, entry.live = true → entry.reopened = entry
  bounded : m.findings.length ≤ maxLifecycleFindings

theorem Sound.of_change {m m' : Model} (h : Change record m m') (hm : Sound m) : Sound m' := by
  obtain ⟨hpristine, hbounded⟩ := hm
  cases h with
  | entryCapacity => exact ⟨hpristine, hbounded⟩
  | findingCapacity => exact ⟨hpristine, hbounded⟩
  | addEntry acquired resourceId =>
    refine ⟨fun entry hentry hlive => ?_, hbounded⟩
    rcases List.mem_append.mp hentry with hold | hnew
    · exact hpristine entry hold hlive
    · obtain rfl := List.mem_singleton.mp hnew
      rfl
  | addFinding kind reported previous room notLeak =>
    exact ⟨hpristine, by simpa using Nat.succ_le_of_lt room⟩
  | close released pre entry post eq live =>
    refine ⟨fun e he hlive => ?_, hbounded⟩
    rcases List.mem_append.mp he with hpre | hrest
    · exact hpristine e (by simp [eq, hpre]) hlive
    · rcases List.mem_cons.mp hrest with rfl | hpost
      · simp [Entry.closedBy] at hlive
      · exact hpristine e (by simp [eq, hpost]) hlive
  | markPending pre entry post eq closed =>
    refine ⟨fun e he hlive => ?_, hbounded⟩
    rcases List.mem_append.mp he with hpre | hrest
    · exact hpristine e (by simp [eq, hpre]) hlive
    · rcases List.mem_cons.mp hrest with rfl | hpost
      · simp [Entry.markExecPending, closed] at hlive
      · exact hpristine e (by simp [eq, hpost]) hlive
  | takeStray pid resourceClass resourceId =>
    exact ⟨hpristine, le_trans List.eraseP_sublist.length_le hbounded⟩
  | rollback kind =>
    refine ⟨fun e he hlive => ?_, le_trans (List.length_filter_le _ _) hbounded⟩
    obtain ⟨entry, hentry, rfl⟩ := List.mem_map.mp he
    unfold Entry.rolledBack at hlive ⊢
    split at hlive
    · next hpending => simp [hpending, Entry.reopened]
    · next hpending => simpa [hpending] using hpristine entry hentry hlive

theorem Sound.of_changes {m m' : Model} (h : Changes record m m') (hm : Sound m) : Sound m' :=
  invariant_of_reaches Sound (fun _ _ hstep => Sound.of_change hstep) h hm

theorem Sound.of_finishChange {m m' : Model} (h : FinishChange m m') (hm : Sound m) : Sound m' := by
  obtain ⟨hpristine, hbounded⟩ := hm
  cases h with
  | clearEntry index =>
    refine ⟨fun e he hlive => ?_, hbounded⟩
    obtain ⟨i, hi, rfl⟩ := List.getElem_of_mem he
    rw [List.getElem_modify] at hlive ⊢
    split at hlive
    · next hindex =>
      have hentry := hpristine _ (List.getElem_mem (by simpa using hi)) hlive
      rw [if_pos hindex]
      rw [← hentry]
      rfl
    · next hindex =>
      rw [if_neg hindex]
      exact hpristine _ (List.getElem_mem _) hlive
  | findingCapacity => exact ⟨hpristine, hbounded⟩
  | addLeak entry room => exact ⟨hpristine, by simpa using Nat.succ_le_of_lt room⟩

theorem Sound.of_finishChanges {m m' : Model} (h : ReflTransGen FinishChange m m')
    (hm : Sound m) : Sound m' :=
  invariant_of_reaches Sound (fun _ _ hstep => Sound.of_finishChange hstep) h hm

theorem Sound.ingest {m : Model} (hm : Sound m) (lib : RecordLibrary) (record : EventRecord)
    (outcomes : List Bool) : Sound (ingest lib record ⟨m, outcomes⟩).2.state := by
  have hopen : Sound { m with finished := false } := ⟨hm.pristine, hm.bounded⟩
  rcases ingest_cases lib record ⟨m, outcomes⟩ with
    ⟨_, hrun⟩ | ⟨_, r, w', _, hchanges, ⟨e, _, hrun⟩ | ⟨_, hrun⟩⟩
  · rw [hrun]
    exact hm
  · rw [hrun]
    exact Sound.of_changes hchanges hopen
  · rw [hrun]
    have hw' := Sound.of_changes hchanges hopen
    exact ⟨by simpa using hw'.pristine, by simpa using hw'.bounded⟩

theorem Sound.finish {m : Model} (hm : Sound m) (outcomes : List Bool) :
    Sound (finish ⟨m, outcomes⟩).2.state := by
  rcases finish_cases ⟨m, outcomes⟩ with
    ⟨_, hrun⟩ | ⟨_, r, w', _, hchanges, _, ⟨e, _, hrun⟩ | ⟨_, hrun⟩⟩
  · rw [hrun]
    exact hm
  · rw [hrun]
    exact Sound.of_finishChanges hchanges hm
  · rw [hrun]
    have hw' := Sound.of_finishChanges hchanges hm
    exact ⟨hw'.pristine, by simpa using hw'.bounded⟩

theorem Reachable.sound {lib : RecordLibrary} {m : Model} (h : Reachable lib m) : Sound m := by
  induction h with
  | create => exact ⟨by simp, by simp [maxLifecycleFindings]⟩
  | ingest _ record outcomes ih => exact ih.ingest lib record outcomes
  | finish _ outcomes ih => exact ih.finish outcomes

end ToolEvent.Lifecycle
