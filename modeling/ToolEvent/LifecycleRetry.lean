import ToolEvent.LifecycleAtomic
import ToolEvent.LifecycleKeyView

/-!
# Which failed ingests can be retried

An ingest that fails leaves the model as it was exactly if the record is not replayed in two
parts of which the first can succeed and change the model while the second fails.
-/

namespace ToolEvent.Lifecycle

open Fallible World LatestMatch

def pointerKey (record : EventRecord) (pointer : Option Text) : Key :=
  ⟨record.pid, allocationResourceClass, pointer.getD .empty⟩

namespace Store

def Owns (store : Store) (key : Key) : Prop :=
  findLatest store.entries key.pid key.resourceClass key.resourceId true ≠ none

def HasFindingRoom (store : Store) : Prop := store.findings.length < maxLifecycleFindings

/-- A resource record first reports that it acquires a live key and then adds an entry, or first
releases its key and then acquires the related one. -/
def ResourceSplits (record : EventRecord) (store : Store) : Prop :=
  record.resourceClass.isSome ∧ record.resourceId.isSome ∧ isIgnoredClass (recordClass record) = false ∧
    match record.resourceKind with
    | .acquire => store.Owns (recordKey record) ∧ store.HasFindingRoom
    | .replace | .transfer =>
      isAbsent record.relatedId = false ∧ (store.Owns (recordKey record) ∨ store.HasFindingRoom)
    | .release | .use => False

/-- A fork clones a descriptor, and then clones another one or reconciles a stray release. -/
def ForkSplits (record : EventRecord) (store : Store) : Prop :=
  match forkClones record store.entries with
  | [] => False
  | id :: rest =>
    id.length < fdIdentifierLength ∧ store.entries.length < maxLifecycleEntries ∧
      (rest ≠ [] ∨ ∃ finding ∈ store.findings, finding.isStray record.childPid fdResourceClass id = true)

/-- The replay of the record has two parts of which the first can succeed. -/
def Splits (lib : RecordLibrary) (record : EventRecord) (store : Store) : Prop :=
  match record.recordKind with
  | .resource => store.ResourceSplits record
  | .fd => store.ResourceSplits (normalizedFd record)
  | .alloc =>
    match record.allocKind with
    | .alloc => lib.pointerIsNull record.ptr = false ∧ store.ResourceSplits (normalizedAllocation record .acquire record.ptr)
    | .free => False
    | .realloc =>
      lib.pointerIsNull record.newPtr = false ∧
        if lib.pointerIsNull record.ptr then store.ResourceSplits (normalizedAllocation record .acquire record.newPtr)
        else store.Owns (pointerKey record record.ptr) ∨ store.HasFindingRoom
  | .fork => store.ForkSplits record
  | .exec | .execFail | .spawn | .call | .complete => False

end Store

/-- A failed ingest of the record leaves the entries, the findings and the run identity, and
after it the record can be retried as if it had not been ingested before. -/
structure FailsCleanly (lib : RecordLibrary) (m : Model) (record : EventRecord) : Prop where
  unchanged : ∀ outcomes e w, ingest lib record ⟨m, outcomes⟩ = (.error e, w) →
    w.state.entries = m.entries ∧ w.state.findings = m.findings ∧ w.state.runId = m.runId
  retried : ∀ outcomes e w, ingest lib record ⟨m, outcomes⟩ = (.error e, w) →
    ∀ first w₁, ingest lib record ⟨m, first⟩ = (.ok (), w₁) →
      (∃ w₂, ingest lib record ⟨w.state, []⟩ = (.ok (), w₂)) ∧
      ∀ second w₂, ingest lib record ⟨w.state, second⟩ = (.ok (), w₂) →
        w₂.state.entries = w₁.state.entries ∧ w₂.state.findings = w₁.state.findings ∧
          w₂.state.runId = w₁.state.runId

section Parts

variable {m : Model}

theorem run_of_store {x : Routine Model Unit} {f : Store → Option Store} (hx : Implements Recorded x f)
    (bounded : m.findings.length ≤ maxLifecycleFindings) {store' : Store} (h : f m.store = some store') :
    ∃ w, x ⟨m, []⟩ = (.ok (), w) ∧ w.state.store = store' := by
  have hproduces := hx ⟨m, []⟩ m.store ⟨rfl, rfl, bounded⟩
  rw [h] at hproduces
  obtain ⟨w, hrun, hrecorded⟩ := hproduces
  exact ⟨w, hrun, hrecorded.stored⟩

theorem store_of_ok {x : Routine Model Unit} {f : Store → Option Store} (hsettled : Settled x)
    (hx : Implements Recorded x f) (bounded : m.findings.length ≤ maxLifecycleFindings) {outcomes : List Bool}
    {w : World Model} (h : x ⟨m, outcomes⟩ = (.ok (), w)) : f m.store = some w.state.store := by
  obtain ⟨store', hstep, hrecorded⟩ := (hx ⟨m, []⟩ m.store ⟨rfl, rfl, bounded⟩).of_ok (hsettled m outcomes () w h)
  rw [hstep, ← hrecorded.stored]

/-- A report with room is made and changes the store. -/
theorem run_addFinding_of_room (kind : FindingKind) (record : EventRecord) (previous : Option Entry)
    (hroom : m.store.HasFindingRoom) :
    ∃ w, addFinding kind record previous ⟨m, []⟩ = (.ok (), w) ∧ w.state.store ≠ m.store := by
  obtain ⟨w, hrun, hstored⟩ := run_of_store (addFinding_implements kind record previous) (Nat.le_of_lt hroom)
    (Store.addFinding_eq_some.mpr ⟨hroom, rfl⟩)
  refine ⟨w, hrun, fun hsame => ?_⟩
  have hlength := congrArg (fun s => s.findings.length) (hstored.symm.trans hsame)
  simp at hlength

theorem releaseEntry_changes {record : EventRecord} {store store' : Store} (h : store.releaseEntry record = some store') :
    store' ≠ store := by
  rintro rfl
  rcases Store.releaseEntry_cases h with ⟨pre, entry, post, hs, heq⟩ | ⟨-, -, previous, -, heq⟩
  · have hlive := (matches_iff_key.mp hs.holds).2 rfl
    have hentries : pre ++ entry :: post = pre ++ entry.closedBy record :: post :=
      hs.eq.symm.trans (congrArg Store.entries heq)
    have hclosed := congrArg Entry.live (List.cons.inj (List.append_cancel_left hentries)).1
    rw [hlive] at hclosed
    cases hclosed
  · have hlength := congrArg (fun s => s.findings.length) heq
    simp at hlength

/-- A release of a live key, or with room for a report, is made and changes the store. -/
theorem run_releaseEntry_of_possible (record : EventRecord) (bounded : m.findings.length ≤ maxLifecycleFindings)
    (hpossible : m.store.Owns (recordKey record) ∨ m.store.HasFindingRoom) :
    ∃ w, releaseEntry record ⟨m, []⟩ = (.ok (), w) ∧ w.state.store ≠ m.store := by
  have hstep : ∃ store', m.store.releaseEntry record = some store' := by
    cases hfind : findLatest m.store.entries record.pid (recordClass record) (recordId record) true with
    | some index => exact ⟨m.store.closeAt index record, by simp only [Store.releaseEntry, hfind]⟩
    | none =>
      have hroom := hpossible.resolve_left fun howns => howns hfind
      simp only [Store.releaseEntry, hfind]
      exact ⟨_, Store.addFinding_eq_some.mpr ⟨hroom, rfl⟩⟩
  obtain ⟨store', hstep⟩ := hstep
  obtain ⟨w, hrun, hstored⟩ := run_of_store (releaseEntry_implements record) bounded hstep
  exact ⟨w, hrun, by rw [hstored]; exact releaseEntry_changes hstep⟩

end Parts

/-- From this model, a failure of the routine leaves the store as it was. -/
def LeavesStore (m : Model) (x : Routine Model Unit) : Prop :=
  ∀ outcomes e w, x ⟨m, outcomes⟩ = (.error e, w) → w.state.store = m.store

/-- From this model, a failure of the routine can leave another store. -/
def CanSplit (m : Model) (x : Routine Model Unit) : Prop :=
  ∃ outcomes e w, x ⟨m, outcomes⟩ = (.error e, w) ∧ w.state.store ≠ m.store

theorem leavesStore_of_atomic {x : Routine Model Unit} (hx : Atomic Model.store x) (m : Model) : LeavesStore m x :=
  fun outcomes e w hrun => hx ⟨m, outcomes⟩ e w hrun

theorem leavesStore_readState_bind {m : Model} {f : Model → Routine Model Unit} :
    LeavesStore m (readState >>= f) ↔ LeavesStore m (f m) := Iff.rfl

theorem canSplit_readState_bind {m : Model} {f : Model → Routine Model Unit} :
    CanSplit m (readState >>= f) ↔ CanSplit m (f m) := Iff.rfl

section Resources

variable {m : Model} {record : EventRecord}

theorem recorded_iff : record.resourceClass.isSome ∧ record.resourceId.isSome ↔
    ¬ (record.resourceClass.isNone ∨ record.resourceId.isNone) := by
  cases record.resourceClass <;> cases record.resourceId <;> simp

/-- A resource record that acquires a recorded class makes a request. -/
theorem refusable_ingestResource (hacquire : record.resourceKind = .acquire)
    (hnamed : record.resourceClass.isSome ∧ record.resourceId.isSome)
    (hrecorded : isIgnoredClass (recordClass record) = false) : Refusable Model.store (ingestResource record) := by
  intro m
  unfold ingestResource
  rw [if_neg (recorded_iff.mp hnamed), if_neg (by simp [hrecorded]), hacquire]
  dsimp only
  rw [run_readState_bind]
  by_cases hlive : (latestEntry m.entries record.pid (recordClass record) (recordId record) true).isSome = true
  · rw [if_pos hlive]
    exact (refusable_addFinding _ _ _).bind _ m
  · rw [if_neg hlive]
    exact refusable_addEntry _ _ m

theorem latestEntry_isSome_iff {entries : List Entry} {pid : ℤ} {resourceClass resourceId : Text} {liveOnly : Bool} :
    (latestEntry entries pid resourceClass resourceId liveOnly).isSome = true ↔
      findLatest entries pid resourceClass resourceId liveOnly ≠ none := by
  have hnone : (Store.latest ⟨entries, []⟩ pid resourceClass resourceId liveOnly).isNone ↔ _ := Store.latest_isNone_iff
  rw [Option.isSome_iff_ne_none, Ne, ← Option.isNone_iff_eq_none]
  exact not_congr hnone

theorem run_addFinding_full (hfull : ¬ m.store.HasFindingRoom) (kind : FindingKind) (reported : EventRecord)
    (previous : Option Entry) (outcomes : List Bool) :
    addFinding kind reported previous ⟨m, outcomes⟩ = (.error (.errno .efbig), ⟨m, outcomes⟩) := by
  have hlength : maxLifecycleFindings ≤ m.findings.length := Nat.le_of_not_lt hfull
  apply run_bind_of_error
  unfold ensureFindingCapacity
  rw [run_readState_bind, if_pos hlength]
  rfl

/-- Acquiring a resource fails only before its first change, unless it reports first. -/
theorem acquire_leavesStore (h : ¬ (m.store.Owns (recordKey record) ∧ m.store.HasFindingRoom)) :
    LeavesStore m (do
      let model ← readState
      let previous := latestEntry model.entries record.pid (recordClass record) (recordId record) true
      (if previous.isSome then addFinding .duplicateAcquire record previous else pure ())
      addEntry record (recordId record)) := by
  rw [leavesStore_readState_bind]
  intro outcomes e w hrun
  dsimp only at hrun
  split at hrun
  · next hlive =>
    have hfull : ¬ m.store.HasFindingRoom := fun hroom => h ⟨latestEntry_isSome_iff.mp hlive, hroom⟩
    rw [run_bind_of_error (run_addFinding_full hfull _ _ _ _)] at hrun
    obtain ⟨-, rfl⟩ := Prod.mk.inj hrun
    rfl
  · exact atomic_addEntry _ _ _ e w hrun

/-- Releasing a key and then going on fails only before its first change, unless the release is
possible. -/
theorem move_leavesStore (h : ¬ (m.store.Owns (recordKey record) ∨ m.store.HasFindingRoom))
    (rest : Routine Model Unit) : LeavesStore m (releaseEntry record >>= fun _ => rest) := by
  intro outcomes e w hrun
  obtain ⟨howns, hfull⟩ := not_or.mp h
  have hfind : findLatest m.entries record.pid (recordClass record) (recordId record) true = none := not_not.mp howns
  have hrelease : releaseEntry record ⟨m, outcomes⟩ = (.error (.errno .efbig), ⟨m, outcomes⟩) := by
    unfold releaseEntry
    rw [run_readState_bind]
    simp only [hfind]
    exact run_addFinding_full hfull _ _ _ _
  rw [run_bind_of_error hrelease] at hrun
  obtain ⟨-, rfl⟩ := Prod.mk.inj hrun
  rfl

theorem ingestResource_leavesStore (h : ¬ m.store.ResourceSplits record) : LeavesStore m (ingestResource record) := by
  unfold ingestResource
  by_cases hnamed : record.resourceClass.isNone ∨ record.resourceId.isNone
  · rw [if_pos hnamed]
    exact leavesStore_of_atomic (preserves_fail _).atomic m
  · rw [if_neg hnamed]
    by_cases hignored : isIgnoredClass (recordClass record) = true
    · rw [if_pos hignored]
      exact leavesStore_of_atomic (preserves_pure _).atomic m
    · rw [if_neg hignored]
      obtain ⟨hclass, hid⟩ := recorded_iff.mpr hnamed
      rw [Bool.not_eq_true] at hignored
      unfold Store.ResourceSplits at h
      cases hkind : record.resourceKind with
      | acquire =>
        simp only [hkind] at h
        exact acquire_leavesStore fun hsplits => h ⟨hclass, hid, hignored, hsplits⟩
      | release => exact leavesStore_of_atomic (atomic_releaseEntry record) m
      | replace | transfer =>
        simp only [hkind] at h
        dsimp only
        split
        · exact leavesStore_of_atomic (atomic_readState_bind fun _ => atomic_addFinding _ _ _) m
        · next hrelated =>
          exact move_leavesStore (fun hpossible => h ⟨hclass, hid, hignored, by simpa using hrelated, hpossible⟩) _
      | use =>
        refine leavesStore_of_atomic (atomic_readState_bind fun model => ?_) m
        exact (atomic_addFinding _ _ _).ite (preserves_pure _).atomic

theorem ingestResource_canSplit (bounded : m.findings.length ≤ maxLifecycleFindings)
    (h : m.store.ResourceSplits record) : CanSplit m (ingestResource record) := by
  obtain ⟨hclass, hid, hrecorded, hsplits⟩ := h
  unfold ingestResource
  rw [if_neg (recorded_iff.mp ⟨hclass, hid⟩), if_neg (by simp [hrecorded])]
  cases hkind : record.resourceKind with
  | acquire =>
    simp only [hkind] at hsplits
    have hlive : (latestEntry m.entries record.pid (recordClass record) (recordId record) true).isSome = true :=
      latestEntry_isSome_iff.mpr hsplits.1
    dsimp only
    rw [canSplit_readState_bind, if_pos hlive]
    obtain ⟨w, hrun, hchanged⟩ := run_addFinding_of_room .duplicateAcquire record
      (latestEntry m.entries record.pid (recordClass record) (recordId record) true) hsplits.2
    exact (metered_addFinding _ _ _).exists_split hrun hchanged (refusable_addEntry _ _)
  | replace | transfer =>
    simp only [hkind] at hsplits
    dsimp only
    rw [if_neg (by simp [hsplits.1])]
    obtain ⟨w, hrun, hchanged⟩ := run_releaseEntry_of_possible record bounded hsplits.2
    exact (metered_releaseEntry record).exists_split hrun hchanged (refusable_addEntry _ _)
  | release | use =>
    simp only [hkind] at hsplits

end Resources

section Allocations

variable {m : Model} {lib : RecordLibrary} {record : EventRecord}

theorem acquirePointer_leavesStore {pointer : Option Text}
    (h : ¬ (lib.pointerIsNull pointer = false ∧ m.store.ResourceSplits (normalizedAllocation record .acquire pointer))) :
    LeavesStore m (if lib.pointerIsNull pointer then pure ()
      else ingestResource (normalizedAllocation record .acquire pointer)) := by
  split
  · exact leavesStore_of_atomic (preserves_pure _).atomic m
  · next hpointer => exact ingestResource_leavesStore fun hsplits => h ⟨by simpa using hpointer, hsplits⟩

theorem acquirePointer_canSplit {pointer : Option Text} (bounded : m.findings.length ≤ maxLifecycleFindings)
    (h : lib.pointerIsNull pointer = false ∧ m.store.ResourceSplits (normalizedAllocation record .acquire pointer)) :
    CanSplit m (if lib.pointerIsNull pointer then pure ()
      else ingestResource (normalizedAllocation record .acquire pointer)) := by
  rw [if_neg (by simp [h.1])]
  exact ingestResource_canSplit bounded h.2

/-- A pointer that is not null has a text. -/
theorem exists_pointer {pointer : Option Text} (h : lib.pointerIsNull pointer = false) : ∃ text, pointer = some text := by
  cases pointer with
  | none => exact absurd (h.symm.trans lib.pointerIsNull_none) (by simp)
  | some text => exact ⟨text, rfl⟩

theorem refusable_acquirePointer {pointer : Option Text} (h : lib.pointerIsNull pointer = false) :
    Refusable Model.store (ingestResource (normalizedAllocation record .acquire pointer)) := by
  obtain ⟨text, rfl⟩ := exists_pointer h
  exact refusable_ingestResource rfl ⟨rfl, rfl⟩ allocation_recorded

/-- A release of a pointer that is not null is a release of its key. -/
theorem ingestResource_releasePointer (record : EventRecord) (pointer : Text) :
    ingestResource (normalizedAllocation record .release (some pointer)) =
      releaseEntry (normalizedAllocation record .release (some pointer)) := by
  have hrecorded : isIgnoredClass (recordClass (normalizedAllocation record .release (some pointer))) = false :=
    allocation_recorded
  unfold ingestResource
  rw [if_neg (by simp [normalizedAllocation]), if_neg (by simp [hrecorded])]
  rfl

theorem ingestAllocation_leavesStore (hkind : record.recordKind = .alloc) (h : ¬ m.store.Splits lib record) :
    LeavesStore m (ingestAllocation lib record) := by
  unfold ingestAllocation
  unfold Store.Splits at h
  simp only [hkind] at h
  cases hoperation : record.allocKind with
  | alloc =>
    simp only [hoperation] at h
    exact acquirePointer_leavesStore h
  | free =>
    dsimp only
    split
    · exact leavesStore_of_atomic (preserves_pure _).atomic m
    · exact ingestResource_leavesStore fun hsplits => hsplits.2.2.2
  | realloc =>
    simp only [hoperation] at h
    dsimp only
    split
    · next hnull =>
      rw [if_pos hnull] at h
      exact acquirePointer_leavesStore h
    · next hpointer =>
      rw [if_neg hpointer] at h
      rw [leavesStore_readState_bind]
      by_cases hnew : lib.pointerIsNull record.newPtr = true
      · simp only [hnew, if_true]
        split
        · exact leavesStore_of_atomic ((atomic_addFinding _ _ _).bind_pure _) m
        · exact leavesStore_of_atomic (preserves_pure _).atomic m
      · rw [Bool.not_eq_true] at hnew
        obtain ⟨howns, hfull⟩ := not_or.mp fun hpossible => h ⟨hnew, hpossible⟩
        have hdead : findLatest m.entries record.pid allocationResourceClass (record.ptr.getD .empty) true = none :=
          not_not.mp howns
        rw [if_pos (by simp [hdead])]
        intro outcomes e w hrun
        rw [run_bind_of_error (run_addFinding_full hfull _ _ _ _)] at hrun
        obtain ⟨-, rfl⟩ := Prod.mk.inj hrun
        rfl

theorem ingestAllocation_canSplit (bounded : m.findings.length ≤ maxLifecycleFindings)
    (hkind : record.recordKind = .alloc) (h : m.store.Splits lib record) : CanSplit m (ingestAllocation lib record) := by
  unfold ingestAllocation
  unfold Store.Splits at h
  simp only [hkind] at h
  cases hoperation : record.allocKind with
  | alloc =>
    simp only [hoperation] at h
    exact acquirePointer_canSplit bounded h
  | free => simp only [hoperation] at h
  | realloc =>
    simp only [hoperation] at h
    dsimp only
    split
    · next hnull =>
      rw [if_pos hnull] at h
      exact acquirePointer_canSplit bounded h
    · next hpointer =>
      rw [if_neg hpointer] at h
      obtain ⟨hnew, hpossible⟩ := h
      rw [canSplit_readState_bind]
      rw [Bool.not_eq_true] at hpointer
      obtain ⟨source, hsource⟩ := exists_pointer hpointer
      by_cases hdead : findLatest m.entries record.pid allocationResourceClass (record.ptr.getD .empty) true = none
      · have hroom := hpossible.resolve_left fun howns => howns hdead
        rw [if_pos (by simp [hdead]), if_neg (by simp [hnew])]
        obtain ⟨w, hrun, hchanged⟩ := run_addFinding_of_room .badReplace (normalizedAllocation record .replace record.ptr)
          (latestEntry m.entries record.pid allocationResourceClass (record.ptr.getD .empty) false) hroom
        exact (metered_addFinding _ _ _).exists_split hrun hchanged (refusable_acquirePointer hnew)
      · rw [if_neg (by simpa using hdead), if_neg (by simp [hnew]), hsource, ingestResource_releasePointer]
        have howns : m.store.Owns (recordKey (normalizedAllocation record .release (some source))) := by
          rw [hsource] at hdead
          exact hdead
        obtain ⟨w, hrun, hchanged⟩ :=
          run_releaseEntry_of_possible (normalizedAllocation record .release (some source)) bounded (Or.inl howns)
        exact (metered_releaseEntry _).exists_split hrun hchanged (refusable_acquirePointer hnew)

end Allocations

/-- The fork clones the entry unless the child has its descriptor. -/
def NeedsClone (record : EventRecord) (entries : List Entry) (entry : Entry) : Prop :=
  entry.isInheritable record.pid = true ∧
    findLatest entries record.childPid fdResourceClass entry.resourceId false = none

instance (record : EventRecord) (entries : List Entry) (entry : Entry) : Decidable (NeedsClone record entries entry) :=
  inferInstanceAs (Decidable (_ ∧ _))

def ClonesAt (record : EventRecord) (entries : List Entry) (index : ℕ) : Prop :=
  ∃ entry, entries[index]? = some entry ∧ NeedsClone record entries entry

section Forks

variable {record : EventRecord}

theorem inheritable_class {pid : ℤ} {entry : Entry} (h : entry.isInheritable pid = true) :
    entry.resourceClass = fdResourceClass := by
  simp only [Entry.isInheritable, decide_eq_true_eq] at h
  exact h.2.2

/-- An index without an entry to clone is passed over. -/
theorem forkEntry_passes {index : ℕ} {w : World Model} (h : ¬ ClonesAt record w.state.entries index) :
    forkEntry record index w = (.ok (), w) := by
  unfold forkEntry
  rw [run_readState_bind]
  cases hentry : w.state.entries[index]? with
  | none => rfl
  | some entry =>
    by_cases hinherit : entry.isInheritable record.pid = true
    · have hknown : findLatest w.state.entries record.childPid fdResourceClass entry.resourceId false ≠ none :=
        fun hunknown => h ⟨entry, hentry, hinherit, hunknown⟩
      simp only [hinherit, Bool.true_eq_false, if_false, inheritable_class hinherit,
        Option.isSome_iff_ne_none.mpr hknown, if_true]
      rfl
    · simp only [Bool.not_eq_true _ ▸ hinherit, if_true]
      rfl

/-- An entry to clone is cloned and its stray releases are reconciled. -/
theorem forkEntry_clones {index : ℕ} {w : World Model} {entry : Entry} (hentry : w.state.entries[index]? = some entry)
    (h : NeedsClone record w.state.entries entry) :
    forkEntry record index w =
      (if fdIdentifierLength ≤ entry.resourceId.length then fail .check
        else addEntry (inheritedRecord record entry) entry.resourceId >>= fun _ =>
          reconcileStrayReleases record.childPid fdResourceClass entry.resourceId) w := by
  unfold forkEntry
  rw [run_readState_bind]
  simp only [hentry, h.1, Bool.true_eq_false, if_false, inheritable_class h.1, h.2, Option.isSome_none]
  rfl

theorem forEach_forkEntry_passes {indices : List ℕ} {w : World Model}
    (h : ∀ index ∈ indices, ¬ ClonesAt record w.state.entries index) :
    forEach (forkEntry record) indices w = (.ok (), w) := by
  induction indices with
  | nil => rfl
  | cons index indices ih =>
    have hfirst := forkEntry_passes (h index List.mem_cons_self)
    rw [forEach, run_bind_of_ok hfirst]
    exact ih fun i hi => h i (List.mem_cons_of_mem _ hi)

/-- With the first request refused, the loop stops at the first entry to clone. -/
theorem forEach_forkEntry_refused {indices : List ℕ} {m : Model}
    (h : ∃ index ∈ indices, ClonesAt record m.entries index) :
    ∃ e w, forEach (forkEntry record) indices ⟨m, [false]⟩ = (.error e, w) ∧ w.state.store = m.store := by
  induction indices with
  | nil => simp at h
  | cons index indices ih =>
    rw [forEach]
    by_cases hclones : ClonesAt record m.entries index
    · obtain ⟨entry, hentry, hneeds⟩ := hclones
      have hrefused : Refusable Model.store (if fdIdentifierLength ≤ entry.resourceId.length then fail .check
          else addEntry (inheritedRecord record entry) entry.resourceId >>= fun _ =>
            reconcileStrayReleases record.childPid fdResourceClass entry.resourceId) :=
        (refusable_fail _).ite ((refusable_addEntry _ _).bind _)
      obtain ⟨e, w, hrun, hkept⟩ := hrefused m
      exact ⟨e, w, run_bind_of_error ((forkEntry_clones hentry hneeds).trans hrun), hkept⟩
    · have hfirst : forkEntry record index ⟨m, [false]⟩ = (.ok (), ⟨m, [false]⟩) := forkEntry_passes hclones
      rw [run_bind_of_ok hfirst]
      obtain ⟨i, hi, hat⟩ := h
      rcases List.mem_cons.mp hi with rfl | hi
      · exact absurd hat hclones
      · exact ih ⟨i, hi, hat⟩

theorem forkClones_eq (hreplayed : isForkReplayed record = true) (entries : List Entry) :
    forkClones record entries = ((entries.filter (fun e => NeedsClone record entries e)).map Entry.resourceId).eraseDups := by
  unfold forkClones
  rw [if_pos hreplayed, List.filter_map, List.filter_filter]
  congr 2
  refine List.filter_congr fun e _ => ?_
  rw [Bool.eq_iff_iff]
  simp [NeedsClone, and_comm]

theorem forkClones_eq_nil {entries : List Entry} (hreplayed : isForkReplayed record = true)
    (h : forkClones record entries = []) : ∀ entry ∈ entries, ¬ NeedsClone record entries entry := by
  intro entry hentry hneeds
  have hmem : entry.resourceId ∈ forkClones record entries := by
    rw [forkClones_eq hreplayed, List.mem_eraseDups]
    exact List.mem_map_of_mem (List.mem_filter.mpr ⟨hentry, by simpa using hneeds⟩)
  rw [h] at hmem
  cases hmem

/-- The first entry that a fork clones, and whether it clones others. -/
theorem forkClones_eq_cons {entries : List Entry} {id : Text} {rest : List Text}
    (h : forkClones record entries = id :: rest) :
    isForkReplayed record = true ∧ ∃ pre entry post, entries = pre ++ entry :: post ∧ entry.resourceId = id ∧
      NeedsClone record entries entry ∧ (∀ e ∈ pre, ¬ NeedsClone record entries e) ∧
      (rest ≠ [] ↔ ∃ e ∈ post, NeedsClone record entries e ∧ e.resourceId ≠ id) := by
  by_cases hreplayed : isForkReplayed record = true
  · refine ⟨hreplayed, ?_⟩
    rw [forkClones_eq hreplayed] at h
    cases hfilter : entries.filter (fun e => NeedsClone record entries e) with
    | nil => simp [hfilter] at h
    | cons entry others =>
      rw [hfilter, List.map_cons, List.eraseDups_cons] at h
      obtain ⟨hid, hrest⟩ := List.cons.inj h
      obtain ⟨pre, post, heq, hpre, hneeds, hpost⟩ := List.filter_eq_cons_iff.mp hfilter
      refine ⟨pre, entry, post, heq, hid, by simpa using hneeds, by simpa using hpre, ?_⟩
      have hmem : ∀ x, x ∈ rest ↔ ∃ e ∈ post, NeedsClone record entries e ∧ e.resourceId = x ∧ x ≠ id := by
        intro x
        rw [← hrest, List.mem_eraseDups, ← hpost, hid]
        simp only [List.mem_filter, List.mem_map, decide_eq_true_eq, Bool.not_eq_true', beq_eq_false_iff_ne]
        constructor
        · rintro ⟨⟨e, ⟨he, hclone⟩, hx⟩, hother⟩
          exact ⟨e, he, hclone, hx, hother⟩
        · rintro ⟨e, he, hclone, hx, hother⟩
          exact ⟨⟨e, ⟨he, hclone⟩, hx⟩, hother⟩
      constructor
      · intro hne
        obtain ⟨x, hx⟩ := List.exists_mem_of_ne_nil rest hne
        obtain ⟨e, he, hclone, rfl, hother⟩ := (hmem x).mp hx
        exact ⟨e, he, hclone, hother⟩
      · rintro ⟨e, he, hclone, hother⟩
        exact List.ne_nil_of_mem ((hmem _).mpr ⟨e, he, hclone, rfl, hother⟩)
  · unfold forkClones at h
    rw [if_neg hreplayed] at h
    cases h

theorem range_eq_append_cons (a b : ℕ) : List.range (a + (b + 1)) = List.range a ++ a :: List.range' (a + 1) b := by
  rw [List.range_eq_range', List.range_eq_range', ← List.range'_append_1, Nat.zero_add, List.range'_succ]

/-- A fork passes over what comes before the first entry to clone. -/
theorem ingestFork_eq {w : World Model} {pre : List Entry} {entry : Entry} {post : List Entry}
    (hreplayed : isForkReplayed record = true) (heq : w.state.entries = pre ++ entry :: post)
    (hneeds : NeedsClone record w.state.entries entry) (hpre : ∀ e ∈ pre, ¬ NeedsClone record w.state.entries e) :
    ingestFork record w =
      ((if fdIdentifierLength ≤ entry.resourceId.length then fail .check
        else addEntry (inheritedRecord record entry) entry.resourceId >>= fun _ =>
          reconcileStrayReleases record.childPid fdResourceClass entry.resourceId) >>= fun _ =>
        forEach (forkEntry record) (List.range' (pre.length + 1) post.length)) w := by
  have hlength : w.state.entries.length = pre.length + (post.length + 1) := by simp [heq]
  have hat : w.state.entries[pre.length]? = some entry := by rw [heq, getElem?_middle]
  have hpasses : forEach (forkEntry record) (List.range pre.length) w = (.ok (), w) := by
    refine forEach_forkEntry_passes fun index hindex hclones => ?_
    obtain ⟨e, he, hclone⟩ := hclones
    rw [heq, List.getElem?_append_left (List.mem_range.mp hindex)] at he
    exact hpre e (List.mem_of_getElem? he) hclone
  unfold ingestFork
  rw [if_pos hreplayed, run_readState_bind, hlength, range_eq_append_cons, run_forEach_append,
    run_bind_of_ok hpasses]
  change (forkEntry record pre.length >>= fun _ => _) w = _
  rw [run_bind, run_bind, forkEntry_clones hat hneeds]

/-- What is to be cloned after a clone was added. -/
theorem needsClone_append_iff {entries : List Entry} {added : Entry} {id : Text}
    (hadded : added.key = ⟨record.childPid, fdResourceClass, id⟩) (entry : Entry) :
    NeedsClone record (entries ++ [added]) entry ↔ NeedsClone record entries entry ∧ entry.resourceId ≠ id := by
  simp only [NeedsClone, findLatest_eq_none_iff, List.map_append, List.mem_append, List.map_singleton,
    List.mem_singleton, hadded, Key.mk.injEq, true_and, not_or, and_assoc]

theorem reconcile_of_no_stray {resourceId : Text} {w : World Model}
    (h : ∀ finding ∈ w.state.findings, ¬ finding.isStray record.childPid fdResourceClass resourceId = true) :
    reconcileStrayReleases record.childPid fdResourceClass resourceId w = (.ok (), w) := by
  have hnone : w.state.findings.find? (Finding.isStray record.childPid fdResourceClass resourceId) = none :=
    List.find?_eq_none.mpr h
  unfold reconcileStrayReleases
  rw [run_readState_bind, reconcileLoop, run_readState_bind]
  simp only [hnone]
  rfl

/-- With the first request refused, a stray release is lost. -/
theorem reconcile_of_stray {resourceId : Text} {m : Model}
    (h : ∃ finding ∈ m.findings, finding.isStray record.childPid fdResourceClass resourceId = true) :
    ∃ e w, reconcileStrayReleases record.childPid fdResourceClass resourceId ⟨m, [false]⟩ = (.error e, w) ∧
      w.state.entries = m.entries := by
  cases hfind : m.findings.find? (Finding.isStray record.childPid fdResourceClass resourceId) with
  | none =>
    obtain ⟨finding, hmem, hstray⟩ := h
    exact absurd hstray (List.find?_eq_none.mp hfind finding hmem)
  | some finding =>
    obtain ⟨e, w, hrun, hkept⟩ := refusable_releaseEntry finding.toRelease
      { m with findings := m.findings.eraseP (Finding.isStray record.childPid fdResourceClass resourceId) }
    refine ⟨e, w, ?_, congrArg Store.entries hkept⟩
    unfold reconcileStrayReleases
    rw [run_readState_bind, reconcileLoop, run_readState_bind]
    simp only [hfind]
    rw [run_bind_of_ok (run_updateState _ _)]
    exact run_bind_of_error hrun

theorem ingestFork_canSplit {m : Model} (bounded : m.findings.length ≤ maxLifecycleFindings)
    (h : m.store.ForkSplits record) : CanSplit m (ingestFork record) := by
  unfold Store.ForkSplits at h
  cases hclones : forkClones record m.store.entries with
  | nil => simp only [hclones] at h
  | cons id rest =>
    simp only [hclones] at h
    obtain ⟨hshort, hroom, hmore⟩ := h
    obtain ⟨hreplayed, pre, entry, post, heq, rfl, hneeds, hpre, hrest⟩ := forkClones_eq_cons hclones
    obtain ⟨⟨t, left⟩, hadd, hstored⟩ := run_of_store (addEntry_implements (inheritedRecord record entry) entry.resourceId)
      bounded (Store.addEntry_eq_some.mpr ⟨hroom, rfl⟩)
    dsimp only at hstored
    obtain ⟨hentries, hfindings⟩ := Store.mk.inj hstored
    have hchanged : ∀ m' : Model, m'.entries = t.entries → m'.store ≠ m.store := by
      intro m' hsame hstore
      have hlength := congrArg List.length ((hentries.symm.trans hsame.symm).trans (congrArg Store.entries hstore))
      simp at hlength
    have hfork : ∀ outcomes, ingestFork record ⟨m, outcomes⟩ =
        ((addEntry (inheritedRecord record entry) entry.resourceId >>= fun _ =>
            reconcileStrayReleases record.childPid fdResourceClass entry.resourceId) >>= fun _ =>
          forEach (forkEntry record) (List.range' (pre.length + 1) post.length)) ⟨m, outcomes⟩ := by
      intro outcomes
      rw [ingestFork_eq (w := ⟨m, outcomes⟩) hreplayed heq hneeds hpre, if_neg (Nat.not_le_of_lt hshort)]
    obtain ⟨n, hgranted⟩ := (metered_addEntry _ _).exists_ok hadd [false]
    refine ⟨List.replicate n true ++ [false], ?_⟩
    rw [hfork, run_bind, run_bind_of_ok hgranted]
    by_cases hstray : ∃ finding ∈ t.findings, finding.isStray record.childPid fdResourceClass entry.resourceId = true
    · obtain ⟨e, w, hrun, hkept⟩ := reconcile_of_stray hstray
      exact ⟨e, w, by rw [hrun], hchanged w.state hkept⟩
    · -- nothing to reconcile, so there is another entry to clone
      have hquiet : reconcileStrayReleases record.childPid fdResourceClass entry.resourceId ⟨t, [false]⟩ =
          (.ok (), ⟨t, [false]⟩) := reconcile_of_no_stray fun finding hmem hs => hstray ⟨finding, hmem, hs⟩
      have hother := hrest.mp (hmore.resolve_right fun hs => hstray (by rw [hfindings]; exact hs))
      obtain ⟨e', he', hclone, hid⟩ := hother
      obtain ⟨k, hk⟩ := List.mem_iff_getElem?.mp he'
      have hat : ClonesAt record t.entries (pre.length + 1 + k) := by
        refine ⟨e', ?_, ?_⟩
        · have hindex : m.entries[pre.length + 1 + k]? = some e' := by
            change m.store.entries[pre.length + 1 + k]? = some e'
            rw [heq, List.getElem?_append_right (by omega)]
            simpa [Nat.add_sub_cancel_left, Nat.add_assoc, Nat.add_comm 1] using hk
          rw [hentries]
          exact (List.getElem?_append_left (List.getElem?_eq_some_iff.mp hindex).1).trans hindex
        · rw [hentries]
          exact (needsClone_append_iff rfl e').mpr ⟨hclone, hid⟩
      have hrange : pre.length + 1 + k ∈ List.range' (pre.length + 1) post.length := by
        have hlt := (List.getElem?_eq_some_iff.mp hk).1
        rw [List.mem_range'_1]
        omega
      obtain ⟨e, w, hrun, hkept⟩ := forEach_forkEntry_refused ⟨_, hrange, hat⟩
      exact ⟨e, w, by rw [hquiet]; exact hrun, hchanged w.state (congrArg Store.entries hkept)⟩

theorem ingestFork_leavesStore {m : Model} (bounded : m.findings.length ≤ maxLifecycleFindings)
    (h : ¬ m.store.ForkSplits record) : LeavesStore m (ingestFork record) := by
  intro outcomes e w hrun
  by_cases hreplayed : isForkReplayed record = true
  · unfold Store.ForkSplits at h
    cases hclones : forkClones record m.store.entries with
    | nil =>
      have hpasses : forEach (forkEntry record) (List.range m.entries.length) ⟨m, outcomes⟩ = (.ok (), ⟨m, outcomes⟩) := by
        refine forEach_forkEntry_passes fun index _ hat => ?_
        obtain ⟨entry, hentry, hneeds⟩ := hat
        exact forkClones_eq_nil hreplayed hclones entry (List.mem_of_getElem? hentry) hneeds
      unfold ingestFork at hrun
      rw [if_pos hreplayed, run_readState_bind, hpasses] at hrun
      cases hrun
    | cons id rest =>
      simp only [hclones] at h
      obtain ⟨-, pre, entry, post, heq, rfl, hneeds, hpre, hrest⟩ := forkClones_eq_cons hclones
      rw [ingestFork_eq (w := ⟨m, outcomes⟩) hreplayed heq hneeds hpre] at hrun
      split at hrun
      · obtain ⟨-, rfl⟩ := Prod.mk.inj hrun
        rfl
      · next hshort =>
        rw [run_bind] at hrun
        rcases hadd : addEntry (inheritedRecord record entry) entry.resourceId ⟨m, outcomes⟩ with ⟨⟨e'⟩ | ⟨⟨⟩⟩, w₁⟩
        · rw [run_bind_of_error hadd] at hrun
          obtain ⟨-, rfl⟩ := Prod.mk.inj hrun
          exact atomic_addEntry _ _ _ e' w₁ hadd
        · have hstep := store_of_ok (settled_addEntry _ _) (addEntry_implements _ _) bounded hadd
          obtain ⟨hroom, hstored⟩ := Store.addEntry_eq_some.mp hstep
          obtain ⟨hentries, hfindings⟩ := Store.mk.inj hstored
          obtain ⟨hsingle, hquiet⟩ := not_or.mp fun hmore => h ⟨Nat.lt_of_not_le hshort, hroom, hmore⟩
          have hreconcile : reconcileStrayReleases record.childPid fdResourceClass entry.resourceId w₁ = (.ok (), w₁) :=
            reconcile_of_no_stray fun finding hmem hs => hquiet ⟨finding, by rwa [← hfindings], hs⟩
          have hpasses : forEach (forkEntry record) (List.range' (pre.length + 1) post.length) w₁ = (.ok (), w₁) := by
            refine forEach_forkEntry_passes fun index hindex hat => ?_
            obtain ⟨e', he', hclone⟩ := hat
            rw [List.mem_range'_1] at hindex
            have hlength : m.store.entries.length = pre.length + (post.length + 1) := by simp [heq]
            rw [hentries] at he' hclone
            obtain ⟨hclone, hother⟩ := (needsClone_append_iff rfl e').mp hclone
            rw [List.getElem?_append_left (by omega), heq, List.getElem?_append_right (by omega)] at he'
            obtain ⟨k, hk⟩ : ∃ k, index - pre.length = k + 1 := ⟨index - pre.length - 1, by omega⟩
            rw [hk, List.getElem?_cons_succ] at he'
            exact hsingle (hrest.mpr ⟨e', List.mem_of_getElem? he', hclone, hother⟩)
          rw [run_bind_of_ok hadd, hreconcile] at hrun
          dsimp only at hrun
          rw [hpasses] at hrun
          cases hrun
  · unfold ingestFork at hrun
    rw [if_neg hreplayed] at hrun
    cases hrun

end Forks

section Records

variable {lib : RecordLibrary} {m : Model} {record : EventRecord}

theorem ingestKind_leavesStore (bounded : m.findings.length ≤ maxLifecycleFindings) (h : ¬ m.store.Splits lib record) :
    LeavesStore m (ingestKind lib record) := by
  unfold ingestKind
  have hsplits := h
  unfold Store.Splits at hsplits
  cases hkind : record.recordKind with
  | resource =>
    simp only [hkind] at hsplits
    exact ingestResource_leavesStore hsplits
  | fd =>
    simp only [hkind] at hsplits
    exact ingestResource_leavesStore hsplits
  | alloc => exact ingestAllocation_leavesStore hkind h
  | fork =>
    simp only [hkind] at hsplits
    exact ingestFork_leavesStore bounded hsplits
  | exec =>
    dsimp only
    unfold ingestExec
    refine leavesStore_of_atomic (atomic_readState_bind fun model => ?_) m
    split
    · exact (preserves_pure _).atomic
    · exact (atomic_addFinding _ _ _).ite ((atomic_releaseEntry _).bind_updateState _)
  | execFail => exact leavesStore_of_atomic (atomic_updateState _) m
  | spawn | call | complete => exact leavesStore_of_atomic (preserves_fail _).atomic m

theorem ingestKind_canSplit (bounded : m.findings.length ≤ maxLifecycleFindings) (h : m.store.Splits lib record) :
    CanSplit m (ingestKind lib record) := by
  unfold ingestKind
  have hsplits := h
  unfold Store.Splits at hsplits
  cases hkind : record.recordKind with
  | resource =>
    simp only [hkind] at hsplits
    exact ingestResource_canSplit bounded hsplits
  | fd =>
    simp only [hkind] at hsplits
    exact ingestResource_canSplit bounded hsplits
  | alloc => exact ingestAllocation_canSplit bounded hkind h
  | fork =>
    simp only [hkind] at hsplits
    exact ingestFork_canSplit bounded hsplits
  | exec | execFail | spawn | call | complete => simp only [hkind] at hsplits

/-- A failed ingest leaves the store exactly if the record is refused on entry or has one part. -/
theorem ingest_leavesStore_iff (bounded : m.findings.length ≤ maxLifecycleFindings) :
    LeavesStore m (ingest lib record) ↔ ¬ (isAdmitted lib m record = true ∧ m.store.Splits lib record) := by
  constructor
  · rintro hleaves ⟨hadmitted, hsplits⟩
    have hopen : CanSplit { m with finished := false } (ingestKind lib record) := ingestKind_canSplit bounded hsplits
    obtain ⟨outcomes, e, w, hrun, hchanged⟩ := hopen
    refine hchanged (hleaves outcomes e w ?_)
    rcases ingest_cases lib record ⟨m, outcomes⟩ with ⟨hrefused, -⟩ | ⟨-, r, w', hkind, -, hcases⟩
    · rw [hadmitted] at hrefused
      cases hrefused
    · obtain ⟨rfl, rfl⟩ := Prod.mk.inj (hkind.symm.trans hrun)
      rcases hcases with ⟨e', he, hingest⟩ | ⟨hok, -⟩
      · rw [hingest, he]
      · cases hok
  · intro h outcomes e w hrun
    rcases ingest_cases lib record ⟨m, outcomes⟩ with ⟨-, hrefused⟩ | ⟨hadmitted, r, w', hkind, -, hcases⟩
    · obtain ⟨-, rfl⟩ := Prod.mk.inj (hrefused.symm.trans hrun)
      rfl
    · have hopen : LeavesStore { m with finished := false } (ingestKind lib record) :=
        ingestKind_leavesStore bounded fun hsplits => h ⟨hadmitted, hsplits⟩
      rcases hcases with ⟨e', rfl, hingest⟩ | ⟨-, hingest⟩
      · obtain ⟨-, rfl⟩ := Prod.mk.inj (hingest.symm.trans hrun)
        exact hopen outcomes e' w' hkind
      · rw [hingest] at hrun
        cases hrun

theorem ingest_error_runId {outcomes : List Bool} {e : ToolEvent.Raised} {w : World Model}
    (h : ingest lib record ⟨m, outcomes⟩ = (.error e, w)) : w.state.runId = m.runId := by
  rcases ingest_cases lib record ⟨m, outcomes⟩ with ⟨-, hrefused⟩ | ⟨-, r, w', -, hchanges, hcases⟩
  · obtain ⟨-, rfl⟩ := Prod.mk.inj (hrefused.symm.trans h)
    rfl
  · have hkept : w'.state.runId = m.runId := invariant_of_reaches (fun m' : Model => m'.runId = m.runId)
      (fun s t hstep hs => hstep.header.1.trans hs) hchanges rfl
    rcases hcases with ⟨e', -, hingest⟩ | ⟨-, hingest⟩
    · obtain ⟨-, rfl⟩ := Prod.mk.inj (hingest.symm.trans h)
      exact hkept
    · rw [hingest] at h
      cases h

/-- An accepted record is replayed on the store, and the model has its run identity. -/
theorem ingest_ok_store (bounded : m.findings.length ≤ maxLifecycleFindings) {outcomes : List Bool} {w : World Model}
    (h : ingest lib record ⟨m, outcomes⟩ = (.ok (), w)) :
    isAdmitted lib m record = true ∧ m.store.ingest lib record = some w.state.store ∧
      some w.state.runId = record.runId := by
  have hadmitted : isAdmitted lib m record = true := isAdmitted_of_ingest h
  have hgranted := settled_ingest lib record m outcomes () w h
  obtain ⟨store', hstep, hrecorded, hid⟩ := (ingest_produces lib record bounded hadmitted).of_ok hgranted
  exact ⟨hadmitted, by rw [hstep, ← hrecorded.stored], hid⟩

/-- A model with the same store and run identity replays the record to the same store. -/
theorem ingest_retried {m' : Model} (bounded : m.findings.length ≤ maxLifecycleFindings) (hstore : m'.store = m.store)
    (hrunId : m'.runId = m.runId) {first : List Bool} {w₁ : World Model}
    (h : ingest lib record ⟨m, first⟩ = (.ok (), w₁)) :
    (∃ w₂, ingest lib record ⟨m', []⟩ = (.ok (), w₂)) ∧
      ∀ second w₂, ingest lib record ⟨m', second⟩ = (.ok (), w₂) →
        w₂.state.store = w₁.state.store ∧ w₂.state.runId = w₁.state.runId := by
  have bounded' : m'.findings.length ≤ maxLifecycleFindings := by
    rw [show m'.findings = m.findings from congrArg Store.findings hstore]
    exact bounded
  obtain ⟨hadmitted, hstep, hid⟩ := ingest_ok_store bounded h
  constructor
  · have hproduces := ingest_produces lib record bounded' ((isAdmitted_congr hrunId record).trans hadmitted)
    rw [hstore, hstep] at hproduces
    obtain ⟨w₂, hrun, -⟩ := hproduces
    exact ⟨w₂, hrun⟩
  · intro second w₂ hsecond
    obtain ⟨-, hstep', hid'⟩ := ingest_ok_store bounded' hsecond
    rw [hstore, hstep] at hstep'
    exact ⟨(Option.some.inj hstep').symm, Option.some.inj (hid'.trans hid.symm)⟩

/-- A failed ingest can be retried exactly if the record does not split. -/
theorem failsCleanly_iff (lib : RecordLibrary) {m : Model} (hm : Reachable lib m) (record : EventRecord) :
    FailsCleanly lib m record ↔ ¬ (isAdmitted lib m record = true ∧ m.store.Splits lib record) := by
  rw [← ingest_leavesStore_iff hm.sound.bounded]
  constructor
  · intro hclean outcomes e w hrun
    obtain ⟨hentries, hfindings, -⟩ := hclean.unchanged outcomes e w hrun
    exact Store.ext hentries hfindings
  · intro hleaves
    refine ⟨fun outcomes e w hrun => ?_, fun outcomes e w hrun first w₁ hfirst => ?_⟩
    · have hstore := hleaves outcomes e w hrun
      exact ⟨congrArg Store.entries hstore, congrArg Store.findings hstore, ingest_error_runId hrun⟩
    · obtain ⟨hagain, hsame⟩ := ingest_retried hm.sound.bounded (hleaves outcomes e w hrun)
        (ingest_error_runId hrun) hfirst
      refine ⟨hagain, fun second w₂ hsecond => ?_⟩
      obtain ⟨hstore, hid⟩ := hsame second w₂ hsecond
      exact ⟨congrArg Store.entries hstore, congrArg Store.findings hstore, hid⟩

/-- Two acquisitions of a descriptor, of which the second is reported and then fails for want
of memory for its entry. -/
def acquisition : EventRecord :=
  { recordKind := .resource, runId := some (.ofString "run"), pid := 1, sequence := 1, resourceKind := .acquire,
    resourceClass := some (.ofString "fd"), resourceId := some (.ofString "3") }

def acquired : Model := (ingest .standard acquisition ⟨{}, []⟩).2.state

theorem failsCleanly_iff_acquisition :
    FailsCleanly .standard acquired { acquisition with sequence := 2 } ↔
      ¬ (isAdmitted .standard acquired { acquisition with sequence := 2 } = true ∧
        acquired.store.Splits .standard { acquisition with sequence := 2 }) :=
  failsCleanly_iff .standard (.ingest .create acquisition []) { acquisition with sequence := 2 }

theorem acquisition_reported_before_failure :
    ¬ ∀ (lib : RecordLibrary) (m : Model), Reachable lib m → ∀ record, FailsCleanly lib m record := by
  intro hall
  have hclean := hall .standard acquired (.ingest .create acquisition []) { acquisition with sequence := 2 }
  have hkept := hclean.unchanged (List.replicate 7 true ++ [false]) (.errno .enomem) _ rfl
  exact absurd hkept.2.1 (by decide +kernel)

end Records

end ToolEvent.Lifecycle
