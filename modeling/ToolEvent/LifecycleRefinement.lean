import ToolEvent.LifecycleChange
import ToolEvent.LifecycleStore

/-!
# The routines of the replay compute the store functions

As long as no allocation fails, every routine of the replay refines the partial
function of `ToolEvent.LifecycleStore` that it is named after.
-/

namespace ToolEvent.Lifecycle

open Fallible World LatestMatch

/-- No allocation will fail, the findings are within their limit, and the model has
recorded the store. -/
structure Recorded (world : World Model) (store : Store) : Prop where
  outcomes : world.outcomes = []
  stored : world.state.store = store
  bounded : store.findings.length ≤ maxLifecycleFindings

@[simp] theorem run_reserve_nil (count capacity : ℕ) (m : Model) :
    reserve count capacity ⟨m, []⟩ = (.ok (), ⟨m, []⟩) := by
  unfold reserve
  split <;> simp [run_bind]

@[simp] theorem run_copyTexts_nil (count : ℕ) (m : Model) :
    copyTexts count ⟨m, []⟩ = (.ok (), ⟨m, []⟩) := by
  simp [copyTexts, run_bind]

theorem Recorded.cases {world : World Model} {store : Store} (h : Recorded world store) :
    ∃ m : Model, world = ⟨m, []⟩ ∧ store = m.store ∧
      m.findings.length ≤ maxLifecycleFindings := by
  obtain ⟨ho, rfl, hb⟩ := h
  exact ⟨world.state, by rw [← ho], rfl, hb⟩

theorem addEntry_implements (record : EventRecord) (resourceId : Text) :
    Implements Recorded (addEntry record resourceId) (Store.addEntry record resourceId) := by
  intro world store h
  obtain ⟨m, rfl, rfl, hb⟩ := h.cases
  by_cases hfull : maxLifecycleEntries ≤ m.entries.length
  · simp [addEntry, Store.addEntry, Model.store, hfull, Produces]
  · simp only [addEntry, Store.addEntry, Model.store, hfull, if_false, Produces, run_bind,
      run_readState, run_reserve_nil, run_updateState, run_copyTexts_nil]
    exact ⟨_, rfl, rfl, rfl, hb⟩

theorem run_ensureFindingCapacity_nil (m : Model) :
    (maxLifecycleFindings ≤ m.findings.length ∧
        ∃ e w, ensureFindingCapacity ⟨m, []⟩ = (.error e, w)) ∨
      (¬ maxLifecycleFindings ≤ m.findings.length ∧ ∃ capacity, ensureFindingCapacity ⟨m, []⟩ =
        (.ok (), ⟨{ m with findingCapacity := capacity }, []⟩)) := by
  by_cases hfull : maxLifecycleFindings ≤ m.findings.length
  · exact Or.inl ⟨hfull, by simp [ensureFindingCapacity, hfull]⟩
  · exact Or.inr ⟨hfull, by simp [ensureFindingCapacity, hfull, run_bind]⟩

theorem addFinding_implements (kind : FindingKind) (record : EventRecord)
    (previous : Option Entry) :
    Implements Recorded (addFinding kind record previous)
      (Store.addFinding kind record previous) := by
  intro world store h
  obtain ⟨m, rfl, rfl, hb⟩ := h.cases
  rcases run_ensureFindingCapacity_nil m with ⟨hfull, e, w, hrun⟩ | ⟨hfull, capacity, hrun⟩
  · simp [addFinding, Store.addFinding, Model.store, hfull, Produces, run_bind, hrun]
  · simp only [addFinding, Store.addFinding, Model.store, hfull, if_false, Produces, run_bind, hrun,
      run_copyTexts_nil, run_updateState]
    exact ⟨_, rfl, rfl, rfl, by simpa using Nat.succ_le_of_lt (Nat.lt_of_not_le hfull)⟩

theorem releaseEntry_implements (record : EventRecord) :
    Implements Recorded (releaseEntry record) (Store.releaseEntry record) := by
  intro world store h
  obtain ⟨m, rfl, rfl, hb⟩ := h.cases
  have hstore : m.store.entries = m.entries := rfl
  simp only [releaseEntry, Store.releaseEntry, hstore]
  cases hfind : findLatest m.entries record.pid (recordClass record) (recordId record) true with
  | some index =>
    simp only [Produces, run_bind, run_readState, hfind, run_copyTexts_nil, run_updateState]
    exact ⟨_, rfl, rfl, rfl, hb⟩
  | none =>
    simp only [Produces, run_bind, run_readState, hfind]
    exact addFinding_implements _ _ _ _ _ h

theorem ingestResource_implements (record : EventRecord) :
    Implements Recorded (ingestResource record) (Store.ingestResource record) := by
  intro world store h
  unfold ingestResource Store.ingestResource
  split
  · exact produces_fail _ _
  · split
    · exact produces_pure h
    · obtain ⟨m, rfl, rfl, hb⟩ := h.cases
      have hlatest : ∀ live, m.store.latest record.pid (recordClass record) (recordId record) live =
          latestEntry m.entries record.pid (recordClass record) (recordId record) live :=
        fun _ => rfl
      have hreplace : Produces Recorded (if isAbsent record.relatedId then do
            let model ← readState
            addFinding .badReplace record
              (latestEntry model.entries record.pid (recordClass record) (recordId record) false)
          else do
            releaseEntry record
            addEntry record (record.relatedId.getD .empty)) ⟨m, []⟩
          (m.store.replaceEntry record) := by
        unfold Store.replaceEntry
        split
        · exact produces_readState_bind.mpr (addFinding_implements _ _ _ _ _ h)
        · exact (releaseEntry_implements record _ _ h).bind (addEntry_implements _ _)
      cases record.resourceKind with
      | acquire =>
        refine produces_readState_bind.mpr (Produces.bind ?_ (addEntry_implements _ _))
        simp only [hlatest]
        split
        · exact addFinding_implements _ _ _ _ _ h
        · exact produces_pure h
      | release => exact releaseEntry_implements record _ _ h
      | replace => exact hreplace
      | transfer => exact hreplace
      | use =>
        refine produces_readState_bind.mpr ?_
        simp only [Store.useEntry, hlatest]
        split
        · exact addFinding_implements _ _ _ _ _ h
        · exact produces_pure h

theorem ingestAllocation_implements (lib : RecordLibrary) (record : EventRecord) :
    Implements Recorded (ingestAllocation lib record) (Store.ingestAllocation lib record) := by
  have hacquire : ∀ pointer, Implements Recorded
      (if lib.pointerIsNull pointer then pure ()
        else ingestResource (normalizedAllocation record .acquire pointer))
      (if lib.pointerIsNull pointer then some
        else Store.ingestResource (normalizedAllocation record .acquire pointer)) := by
    intro pointer
    split
    · exact fun _ _ h => produces_pure h
    · exact ingestResource_implements _
  intro world store h
  unfold ingestAllocation Store.ingestAllocation
  cases record.allocKind with
  | alloc => exact hacquire _ _ _ h
  | free =>
    by_cases hnull : lib.pointerIsNull record.ptr
    · simpa only [hnull, if_true] using produces_pure h
    · simpa only [hnull, Bool.false_eq_true, if_false] using ingestResource_implements _ _ _ h
  | realloc =>
    by_cases hnull : lib.pointerIsNull record.ptr
    · simpa only [hnull, if_true] using hacquire record.newPtr _ _ h
    · obtain ⟨m, rfl, rfl, hb⟩ := h.cases
      have hstore : m.store.entries = m.entries := rfl
      simp only [hnull, Bool.false_eq_true, if_false, hstore]
      refine produces_readState_bind.mpr ?_
      split
      · exact (addFinding_implements _ _ _ _ _ h).bind (hacquire _)
      · by_cases hnew : lib.pointerIsNull record.newPtr
        · simpa only [hnew, if_true] using produces_pure h
        · simpa only [hnew, Bool.false_eq_true, if_false] using
            (ingestResource_implements _ _ _ h).bind (ingestResource_implements _)

theorem ingestExec_implements (record : EventRecord) :
    Implements Recorded (ingestExec record) (Store.ingestExec record) := by
  intro world store h
  obtain ⟨m, rfl, rfl, hb⟩ := h.cases
  have hstore : m.store.entries = m.entries := rfl
  simp only [ingestExec, Store.ingestExec, hstore, Produces, run_readState_bind]
  cases hfind : findLatest m.entries record.pid fdResourceClass (formatFdIdentifier record.fd)
    true with
  | none => exact produces_pure h
  | some index =>
    by_cases hkeep : record.cloexec = 0
    · simp only [hkeep, if_true]
      exact addFinding_implements _ _ _ _ _ h
    · have hrelease := releaseEntry_implements (normalizedExec record) _ _ h
      have hclose : m.store.releaseEntry (normalizedExec record) =
          some (m.store.closeAt index (normalizedExec record)) := by
        have hsame : findLatest m.store.entries (normalizedExec record).pid
          (recordClass (normalizedExec record)) (recordId (normalizedExec record)) true =
            some index := hfind
        simp [Store.releaseEntry, hsame]
      rw [hclose] at hrelease
      obtain ⟨w, hw, ho, hs, hb'⟩ := hrelease
      simp only [hkeep, if_false, run_bind, hw, run_updateState]
      refine ⟨_, rfl, ho, ?_, hb'⟩
      rw [← hs]
      rfl

theorem reconcileLoop_produces {pid : ℤ} {resourceClass resourceId : Text} (fuel : ℕ)
    {world : World Model} {store : Store} (h : Recorded world store)
    (known : Store.Knows store.entries pid resourceClass resourceId)
    (hfuel : store.findings.countP (Finding.isStray pid resourceClass resourceId) < fuel) :
    Produces Recorded (reconcileLoop pid resourceClass resourceId fuel) world
      (store.reconcile pid resourceClass resourceId) := by
  induction fuel generalizing world store with
  | zero => omega
  | succ fuel ih =>
    obtain ⟨m, rfl, rfl, hb⟩ := h.cases
    refine produces_readState_bind.mpr ?_
    cases hfind : m.findings.find? (Finding.isStray pid resourceClass resourceId) with
    | none =>
      rw [Store.reconcile_nil (show m.store.findings.find? _ = none from hfind)]
      simpa only [hfind] using produces_pure h
    | some finding =>
      obtain ⟨store', hrelease, hknown, hcount, hreconcile⟩ :=
        Store.reconcile_step known hb (show m.store.findings.find? _ = some finding from hfind)
      have htaken : Recorded
          ⟨{ m with
              findings := m.findings.eraseP (Finding.isStray pid resourceClass resourceId) }, []⟩
          { m.store with
            findings := m.store.findings.eraseP (Finding.isStray pid resourceClass resourceId) } :=
        ⟨rfl, rfl, le_trans (List.eraseP_sublist.length_le) hb⟩
      have hfirst := releaseEntry_implements finding.toRelease _ _ htaken
      rw [hrelease] at hfirst
      have hloop := hfirst.bind_of (y := reconcileLoop pid resourceClass resourceId fuel)
        (g := Store.reconcile pid resourceClass resourceId) ?_
      · rw [hreconcile]
        exact hloop
      · intro t world' ht hworld'
        obtain rfl : store' = t := by simpa using ht
        exact ih hworld' hknown (by omega)

theorem reconcileStrayReleases_produces {pid : ℤ} {resourceClass resourceId : Text}
    {world : World Model} {store : Store} (h : Recorded world store)
    (known : Store.Knows store.entries pid resourceClass resourceId) :
    Produces Recorded (reconcileStrayReleases pid resourceClass resourceId) world
      (store.reconcile pid resourceClass resourceId) := by
  obtain ⟨m, rfl, rfl, hb⟩ := h.cases
  exact produces_readState_bind.mpr
    (reconcileLoop_produces _ h known (Nat.lt_succ_of_le List.countP_le_length))

theorem forkEntry_implements (record : EventRecord) (index : ℕ) :
    Implements Recorded (forkEntry record index) (Store.forkAt record index) := by
  intro world store h
  obtain ⟨m, rfl, rfl, hb⟩ := h.cases
  have hstore : m.store.entries = m.entries := rfl
  refine produces_readState_bind.mpr ?_
  simp only [Store.forkAt, hstore]
  cases hentry : m.entries[index]? with
  | none => exact produces_pure h
  | some entry =>
    by_cases hinherit : entry.isInheritable record.pid = true
    · have hclass : entry.resourceClass = fdResourceClass := by
        simp only [Entry.isInheritable, decide_eq_true_eq] at hinherit
        exact hinherit.2.2
      simp only [hinherit, hclass, Bool.true_eq_false, if_false, if_true, Store.forkEntry, hstore]
      split
      · exact produces_pure h
      · split
        · exact produces_fail _ _
        · refine (addEntry_implements _ _ _ _ h).bind_of ?_
          intro store' world' hadd hworld'
          obtain ⟨_, rfl⟩ := Store.addEntry_eq_some.mp hadd
          refine reconcileStrayReleases_produces hworld' ⟨newEntry (inheritedRecord record entry)
            entry.resourceId, by simp, rfl, rfl, rfl⟩
    · simpa only [hinherit, Bool.false_eq_true, if_false, if_true] using produces_pure h

theorem ingestFork_implements (record : EventRecord) :
    Implements Recorded (ingestFork record) (Store.ingestFork record) := by
  intro world store h
  unfold ingestFork Store.ingestFork
  by_cases hreplayed : isForkReplayed record = true
  · have hpid : record.childPid ≠ record.pid := by
      simp only [isForkReplayed, decide_eq_true_eq, not_or] at hreplayed
      exact Ne.symm hreplayed.2.2
    obtain ⟨m, rfl, rfl, hb⟩ := h.cases
    simp only [hreplayed, if_true]
    refine produces_readState_bind.mpr ?_
    have hloop := Implements.forEach (fun i => forkEntry_implements record i)
      (List.range m.entries.length) _ _ h
    have hvisit := Store.foldlM_forkAt hpid [] m.entries (Store.Extends.refl _ m.store.entries)
    rw [List.length_nil, ← List.range_eq_range'] at hvisit
    exact hvisit ▸ hloop
  · simpa only [hreplayed, Bool.false_eq_true, if_false] using produces_pure h

theorem rollbackExec_implements (pid : ℤ) :
    Implements Recorded (updateState (rollbackExec pid) : Routine Model Unit)
      (fun s => some (s.rollbackExec pid)) := by
  intro world store h
  obtain ⟨m, rfl, rfl, hb⟩ := h.cases
  exact ⟨_, rfl, rfl, rfl, le_trans (List.length_filter_le _ _) hb⟩

theorem ingestKind_implements (lib : RecordLibrary) (record : EventRecord) :
    Implements Recorded (ingestKind lib record) (Store.ingest lib record) := by
  intro world store h
  unfold ingestKind Store.ingest
  cases record.recordKind with
  | resource => exact ingestResource_implements _ _ _ h
  | fd => exact ingestResource_implements _ _ _ h
  | alloc => exact ingestAllocation_implements _ _ _ _ h
  | fork => exact ingestFork_implements _ _ _ h
  | exec => exact ingestExec_implements _ _ _ h
  | execFail => exact rollbackExec_implements _ _ _ h
  | spawn => exact produces_fail _ _
  | call => exact produces_fail _ _
  | complete => exact produces_fail _ _

theorem isAdmitted_iff {lib : RecordLibrary} {m : Model} {record : EventRecord} :
    isAdmitted lib m record = true ↔ ∃ runId, record.runId = some runId ∧
      record.version = logVersion ∧ runId.isEmpty = false ∧ runId.length ≤ lib.runIdMaxBytes ∧
      (m.runId.isEmpty = true ∨ m.runId = runId) := by
  unfold isAdmitted
  cases record.runId <;> simp

/-- An admitted record is replayed as on the store, and sets the run identity. -/
theorem ingest_produces (lib : RecordLibrary) (record : EventRecord) {m : Model}
    (bounded : m.findings.length ≤ maxLifecycleFindings)
    (admitted : isAdmitted lib m record = true) :
    Produces (fun w s => Recorded w s ∧ some w.state.runId = record.runId)
      (ingest lib record) ⟨m, []⟩ (m.store.ingest lib record) := by
  obtain ⟨runId, hrunId, _, _, _, hsame⟩ := isAdmitted_iff.mp admitted
  rcases ingest_cases lib record ⟨m, []⟩ with ⟨hrefused, _⟩ | ⟨_, r, w', hkind, hchanges, hrun⟩
  · simp [admitted] at hrefused
  have himplements := ingestKind_implements lib record ⟨{ m with finished := false }, []⟩ m.store
    ⟨rfl, rfl, bounded⟩
  have hheader := invariant_of_reaches (fun m' : Model => m'.runId = m.runId)
    (fun s t h hs => h.header.1.trans hs) hchanges rfl
  cases hstore : m.store.ingest lib record with
  | none =>
    rw [hstore] at himplements
    obtain ⟨e, w, hfail⟩ := himplements
    rcases hrun with ⟨e', rfl, hrun⟩ | ⟨rfl, hrun⟩
    · exact ⟨e', w', hrun⟩
    · exact absurd (hkind.symm.trans hfail) (by simp)
  | some s =>
    rw [hstore] at himplements
    obtain ⟨w, hok, ho, hs, hb⟩ := himplements
    rcases hrun with ⟨e', rfl, hrun⟩ | ⟨rfl, hrun⟩
    · exact absurd (hkind.symm.trans hok) (by simp)
    · obtain rfl : w' = w := by simpa using hkind.symm.trans hok
      refine ⟨_, hrun, ⟨ho, by simpa [Model.store] using hs, hb⟩, ?_⟩
      by_cases hempty : w'.state.runId.isEmpty = true
      · simp [Model.adoptRunId, hempty, hrunId]
      · simp only [Model.adoptRunId, hempty, Bool.false_eq_true, if_false, hrunId,
          Option.some.injEq]
        rw [hheader] at hempty ⊢
        exact hsame.resolve_left hempty

/-- All records pass the checks on entry, and they carry one run identity. -/
structure SameRun (lib : RecordLibrary) (m : Model) (records : List EventRecord) : Prop where
  admitted : ∀ record ∈ records, isAdmitted lib m record = true
  agree : ∀ record ∈ records, ∀ record' ∈ records, record.runId = record'.runId

theorem isAdmitted_of_runId {lib : RecordLibrary} {m m' : Model} {record : EventRecord}
    (h : isAdmitted lib m record = true) (hrun : some m'.runId = record.runId) :
    isAdmitted lib m' record = true := by
  obtain ⟨runId, hrunId, hversion, hnonempty, hlength, _⟩ := isAdmitted_iff.mp h
  rw [hrunId, Option.some.injEq] at hrun
  exact isAdmitted_iff.mpr ⟨runId, hrunId, hversion, hnonempty, hlength, Or.inr hrun⟩

theorem SameRun.tail {lib : RecordLibrary} {m m' : Model} {record : EventRecord}
    {records : List EventRecord} (h : SameRun lib m (record :: records))
    (hrun : some m'.runId = record.runId) : SameRun lib m' records := by
  refine ⟨fun r hr => ?_, fun r hr r' hr' =>
    h.agree r (List.mem_cons_of_mem _ hr) r' (List.mem_cons_of_mem _ hr')⟩
  refine isAdmitted_of_runId (h.admitted r (List.mem_cons_of_mem _ hr)) ?_
  rw [hrun]
  exact h.agree _ List.mem_cons_self _ (List.mem_cons_of_mem _ hr)

theorem SameRun.sublist {lib : RecordLibrary} {m : Model} {records records' : List EventRecord}
    (h : SameRun lib m records) (hsub : records'.Sublist records) : SameRun lib m records' :=
  ⟨fun r hr => h.admitted r (hsub.subset hr),
    fun r hr r' hr' => h.agree r (hsub.subset hr) r' (hsub.subset hr')⟩

theorem isAdmitted_of_ingest {lib : RecordLibrary} {record : EventRecord} {w w' : World Model}
    (h : ingest lib record w = (.ok (), w')) : isAdmitted lib w.state record = true := by
  rcases ingest_cases lib record w with ⟨_, hrun⟩ | ⟨hadmitted, _⟩
  · simp [h] at hrun
  · exact hadmitted

/-- An accepted run is a run of the store. -/
theorem store_ingestAll {lib : RecordLibrary} {records : List EventRecord} {m m' : Model}
    (bounded : m.findings.length ≤ maxLifecycleFindings)
    (h : ingestAll lib m records = some m') :
    SameRun lib m records ∧ m.store.ingestAll lib records = some m'.store ∧
      m'.findings.length ≤ maxLifecycleFindings := by
  induction records generalizing m with
  | nil =>
    obtain rfl : m = m' := by simpa [ingestAll] using h
    exact ⟨⟨by simp, by simp⟩, rfl, bounded⟩
  | cons record records ih =>
    unfold ingestAll at h
    rcases hrun : ingest lib record ⟨m, []⟩ with ⟨⟨e⟩ | ⟨⟩, w⟩
    · simp [hrun] at h
    simp only [hrun] at h
    have hadmitted := isAdmitted_of_ingest hrun
    obtain ⟨s, hs, ⟨ho, hstore, hb⟩, hid⟩ :=
      (ingest_produces lib record bounded hadmitted).of_ok hrun
    rw [← hstore] at hb
    obtain ⟨hsame, hall, hbounded⟩ := ih hb h
    obtain ⟨runId, hrunId, _, hnonempty, _, hbefore⟩ := isAdmitted_iff.mp hadmitted
    rw [hrunId, Option.some.injEq] at hid
    have hrest : ∀ r ∈ records, isAdmitted lib m r = true ∧ r.runId = some runId := by
      intro r hr
      obtain ⟨runId', hrunId', hversion, hvalid, hlength, hsameId⟩ :=
        isAdmitted_iff.mp (hsame.admitted r hr)
      obtain rfl : runId = runId' := by
        rw [hid, hnonempty] at hsameId
        simpa using hsameId
      exact ⟨isAdmitted_iff.mpr ⟨runId, hrunId', hversion, hvalid, hlength, hbefore⟩, hrunId'⟩
    refine ⟨⟨?_, ?_⟩, ?_, hbounded⟩
    · simpa using ⟨hadmitted, fun r hr => (hrest r hr).1⟩
    · have hall : ∀ r ∈ record :: records, r.runId = some runId := by
        simpa using ⟨hrunId, fun r hr => (hrest r hr).2⟩
      exact fun r hr r' hr' => (hall r hr).trans (hall r' hr').symm
    · rw [Store.ingestAll, List.foldlM_cons, hs, ← hstore]
      exact hall

/-- A run of the store whose records belong to the run is accepted. -/
theorem ingestAll_of_store {lib : RecordLibrary} {records : List EventRecord} {m : Model}
    {s : Store} (bounded : m.findings.length ≤ maxLifecycleFindings)
    (hsame : SameRun lib m records) (h : m.store.ingestAll lib records = some s) :
    ∃ m', ingestAll lib m records = some m' ∧ m'.store = s := by
  induction records generalizing m with
  | nil => exact ⟨m, rfl, by simpa [Store.ingestAll] using h⟩
  | cons record records ih =>
    rw [Store.ingestAll, List.foldlM_cons] at h
    obtain ⟨s₁, hs₁, hrest⟩ := Option.bind_eq_some_iff.mp h
    have hproduces :=
      ingest_produces lib record bounded (hsame.admitted record List.mem_cons_self)
    rw [hs₁] at hproduces
    obtain ⟨w, hw, ⟨ho, hstore, hb⟩, hid⟩ := hproduces
    rw [← hstore] at hrest hb
    obtain ⟨m', hm', hs⟩ := ih hb (hsame.tail hid) hrest
    exact ⟨m', by simpa only [ingestAll, hw] using hm', hs⟩

end ToolEvent.Lifecycle
