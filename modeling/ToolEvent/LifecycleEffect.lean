import ToolEvent.LifecycleFinish

/-!
# What an accepted record does to the entries

An accepted record closes at most one entry, the latest live one of a key, and then adds
at most one. The keys are read off the record. Forks and attempted executions, which
change several entries, are left aside.
-/

namespace ToolEvent.Lifecycle

open Fallible World LatestMatch

abbrev ResourceName := Text × Text

/-- The resource a record of the class releases. -/
def releasedByResource (record : EventRecord) : Option ResourceName :=
  if isIgnoredClass (recordClass record) then none
  else
    match record.resourceKind with
    | .release => some (recordClass record, recordId record)
    | .replace | .transfer =>
      if isAbsent record.relatedId then none else some (recordClass record, recordId record)
    | .acquire | .use => none

/-- The resource a record of the class acquires. -/
def acquiredByResource (record : EventRecord) : Option ResourceName :=
  if isIgnoredClass (recordClass record) then none
  else
    match record.resourceKind with
    | .acquire => some (recordClass record, recordId record)
    | .replace | .transfer =>
      if isAbsent record.relatedId then none
      else some (recordClass record, record.relatedId.getD .empty)
    | .release | .use => none

variable (lib : RecordLibrary)

def allocated (pointer : Option Text) : Option ResourceName :=
  if lib.pointerIsNull pointer then none else some (allocationResourceClass, pointer.getD .empty)

/-- The resource an accepted record releases, if it is live. -/
def releasedBy (record : EventRecord) : Option ResourceName :=
  match record.recordKind with
  | .fd => if record.fdKind = .closed then some (fdResourceClass, formatFdIdentifier record.fd) else none
  | .alloc =>
    match record.allocKind with
    | .alloc => none
    | .free => allocated lib record.ptr
    | .realloc => if lib.pointerIsNull record.newPtr then none else allocated lib record.ptr
  | .resource => releasedByResource record
  | _ => none

/-- The resource an accepted record acquires. -/
def acquiredBy (record : EventRecord) : Option ResourceName :=
  match record.recordKind with
  | .fd => if record.fdKind = .opened then some (fdResourceClass, formatFdIdentifier record.fd) else none
  | .alloc =>
    match record.allocKind with
    | .alloc => allocated lib record.ptr
    | .free => none
    | .realloc => allocated lib record.newPtr
  | .resource => acquiredByResource record
  | _ => none

def closeLatest (record : EventRecord) (name : ResourceName) (entries : List Entry) : List Entry :=
  match findLatest entries record.pid name.1 name.2 true with
  | some index => entries.modify index (Entry.closedBy record)
  | none => entries

structure AddedBy (record : EventRecord) (name : ResourceName) (entry : Entry) : Prop where
  pid : entry.pid = record.pid
  contextId : entry.acquiredContextId = record.contextId
  sequence : entry.acquiredSequence = record.sequence
  resourceClass : entry.resourceClass = name.1
  resourceId : entry.resourceId = name.2
  live : entry.live = true

/-- The entries are those after the resources were released and acquired. -/
def StepsTo (record : EventRecord) (released acquired : Option ResourceName)
    (entries entries' : List Entry) : Prop :=
  let closed := released.elim entries (fun name => closeLatest record name entries)
  match acquired with
  | none => entries' = closed
  | some name => ∃ entry, AddedBy record name entry ∧ entries' = closed ++ [entry]

theorem addEntry_entries {record : EventRecord} {resourceId : Text} {w w' : World Model}
    (h : addEntry record resourceId w = (.ok (), w')) :
    w'.state.entries = w.state.entries ++ [newEntry record resourceId] := by
  unfold addEntry at h
  rw [run_readState_bind] at h
  split at h
  · cases h
  · obtain ⟨⟨⟩, w₁, hreserve, h₁⟩ := run_bind_eq_ok.mp h
    obtain ⟨⟨⟩, w₂, hcapacity, h₂⟩ := run_bind_eq_ok.mp h₁
    obtain ⟨⟨⟩, w₃, hcopy, hadd⟩ := run_bind_eq_ok.mp h₂
    have hstate₁ := state_eq_of_evolves
      (fun r => evolves_reserve (r := r) w.state.entries.length w.state.entryCapacity) w
    have hstate₃ := state_eq_of_evolves (fun r => evolves_copyTexts (r := r) 4) w₂
    rw [hreserve] at hstate₁
    rw [hcopy] at hstate₃
    rw [run_updateState] at hcapacity hadd
    obtain ⟨-, rfl⟩ := Prod.mk.inj hcapacity
    obtain ⟨-, rfl⟩ := Prod.mk.inj hadd
    dsimp only at hstate₁ hstate₃ ⊢
    rw [hstate₃, hstate₁]

theorem addFinding_entries {kind : FindingKind} {record : EventRecord} {previous : Option Entry}
    {w w' : World Model} (h : addFinding kind record previous w = (.ok (), w')) :
    w'.state.entries = w.state.entries := by
  obtain ⟨⟨⟩, w₁, hroom, h₁⟩ := run_bind_eq_ok.mp h
  obtain ⟨⟨⟩, w₂, hcopy, h₂⟩ := run_bind_eq_ok.mp h₁
  obtain ⟨⟨⟩, w₃, hcopy', hadd⟩ := run_bind_eq_ok.mp h₂
  obtain ⟨-, capacity, hstate₁⟩ := ensureFindingCapacity_ok hroom
  have hstate₂ := state_eq_of_evolves (fun r => evolves_copyTexts (r := r) 2) w₁
  have hstate₃ := state_eq_of_evolves
    (fun r => evolves_copyTexts (r := r) (if previous.isSome then 4 else 2)) w₂
  rw [hcopy] at hstate₂
  rw [hcopy'] at hstate₃
  rw [run_updateState] at hadd
  obtain ⟨-, rfl⟩ := Prod.mk.inj hadd
  dsimp only at hstate₂ hstate₃ ⊢
  rw [hstate₃, hstate₂, hstate₁]

theorem releaseEntry_entries {record : EventRecord} {w w' : World Model}
    (h : releaseEntry record w = (.ok (), w')) :
    w'.state.entries = closeLatest record (recordClass record, recordId record) w.state.entries := by
  unfold releaseEntry at h
  rw [run_readState_bind] at h
  unfold closeLatest
  cases hfind : findLatest w.state.entries record.pid (recordClass record) (recordId record) true with
  | none =>
    simp only [hfind] at h
    exact addFinding_entries h
  | some index =>
    simp only [hfind] at h
    obtain ⟨⟨⟩, w₁, hcopy, hclose⟩ := run_bind_eq_ok.mp h
    have hstate₁ := state_eq_of_evolves (fun r => evolves_copyTexts (r := r) 2) w
    rw [hcopy] at hstate₁
    rw [run_updateState] at hclose
    obtain ⟨-, rfl⟩ := Prod.mk.inj hclose
    dsimp only at hstate₁ ⊢
    rw [hstate₁]

theorem addedBy_newEntry (record : EventRecord) (resourceId : Text) :
    AddedBy record (recordClass record, resourceId) (newEntry record resourceId) :=
  ⟨rfl, rfl, rfl, rfl, rfl, rfl⟩

theorem ingestResource_entries {record : EventRecord} {w w' : World Model}
    (h : ingestResource record w = (.ok (), w')) :
    StepsTo record (releasedByResource record) (acquiredByResource record) w.state.entries
      w'.state.entries := by
  unfold ingestResource at h
  unfold releasedByResource acquiredByResource
  split at h
  · cases h
  · split at h
    · next hignored =>
      cases h
      rw [if_pos hignored, if_pos hignored]
      rfl
    · next hrecorded =>
      rw [if_neg hrecorded, if_neg hrecorded]
      cases hkind : record.resourceKind with
      | acquire =>
        simp only [hkind] at h
        rw [run_readState_bind] at h
        obtain ⟨⟨⟩, w₁, hreport, hadd⟩ := run_bind_eq_ok.mp h
        have hsame : w₁.state.entries = w.state.entries := by
          split at hreport
          · exact addFinding_entries hreport
          · cases hreport
            rfl
        refine ⟨_, addedBy_newEntry record _, ?_⟩
        rw [addEntry_entries hadd, hsame]
        rfl
      | release =>
        simp only [hkind] at h
        exact releaseEntry_entries h
      | replace | transfer =>
        simp only [hkind] at h
        split at h
        · next habsent =>
          rw [run_readState_bind] at h
          simp only [habsent, if_true]
          exact addFinding_entries h
        · next hpresent =>
          obtain ⟨⟨⟩, w₁, hrelease, hadd⟩ := run_bind_eq_ok.mp h
          simp only [hpresent, Bool.false_eq_true, if_false]
          refine ⟨_, addedBy_newEntry record _, ?_⟩
          rw [addEntry_entries hadd, releaseEntry_entries hrelease]
          rfl
      | use =>
        simp only [hkind] at h
        rw [run_readState_bind] at h
        split at h
        · exact addFinding_entries h
        · cases h
          rfl

/-- Records of one place change the entries in the same way. -/
theorem StepsTo.of_place {r record : EventRecord} {released acquired : Option ResourceName}
    {entries entries' : List Entry} (h : StepsTo r released acquired entries entries')
    (hpid : r.pid = record.pid) (hcontext : r.contextId = record.contextId)
    (hsequence : r.sequence = record.sequence) (hclosed : Entry.closedBy r = Entry.closedBy record) :
    StepsTo record released acquired entries entries' := by
  have hclose : closeLatest r = closeLatest record := by
    funext name entries
    simp only [closeLatest, hpid, hclosed]
  unfold StepsTo at h ⊢
  rw [hclose] at h
  cases acquired with
  | none => exact h
  | some name =>
    obtain ⟨entry, hadded, heq⟩ := h
    exact ⟨entry, ⟨hadded.pid.trans hpid, hadded.contextId.trans hcontext,
      hadded.sequence.trans hsequence, hadded.resourceClass, hadded.resourceId, hadded.live⟩, heq⟩

variable {lib}

theorem allocation_not_ignored : ¬ isIgnoredClass allocationResourceClass = true := by decide

/-- A pointer that is acquired unless it is null. -/
theorem acquirePointer_entries {record : EventRecord} {pointer : Option Text} {w w' : World Model}
    (h : (if lib.pointerIsNull pointer then pure ()
      else ingestResource (normalizedAllocation record .acquire pointer)) w = (.ok (), w')) :
    StepsTo record none (allocated lib pointer) w.state.entries w'.state.entries := by
  unfold allocated
  split at h
  · next hnull =>
    cases h
    rw [if_pos hnull]
    rfl
  · next hpointer =>
    rw [if_neg hpointer]
    have hsteps : StepsTo record _ _ _ _ := (ingestResource_entries h).of_place rfl rfl rfl rfl
    have hclass : recordClass (normalizedAllocation record .acquire pointer) = allocationResourceClass := rfl
    simp only [releasedByResource, acquiredByResource, hclass, allocation_not_ignored] at hsteps
    exact hsteps

theorem releasePointer_entries {record : EventRecord} {pointer : Option Text} {w w' : World Model}
    (h : ingestResource (normalizedAllocation record .release pointer) w = (.ok (), w')) :
    w'.state.entries =
      closeLatest record (allocationResourceClass, pointer.getD .empty) w.state.entries := by
  have hsteps : StepsTo record _ _ _ _ := (ingestResource_entries h).of_place rfl rfl rfl rfl
  have hclass : recordClass (normalizedAllocation record .release pointer) = allocationResourceClass := rfl
  simp only [releasedByResource, acquiredByResource, hclass, allocation_not_ignored] at hsteps
  exact hsteps

/-- Nothing is released under a name that is not live. -/
theorem closeLatest_of_none {record : EventRecord} {name : ResourceName} {entries : List Entry}
    (h : findLatest entries record.pid name.1 name.2 true = none) :
    closeLatest record name entries = entries := by
  unfold closeLatest
  rw [h]

theorem StepsTo.after {record : EventRecord} {name : ResourceName} {acquired : Option ResourceName}
    {entries entries₁ entries' : List Entry} (h₁ : entries₁ = closeLatest record name entries)
    (h : StepsTo record none acquired entries₁ entries') :
    StepsTo record (some name) acquired entries entries' := by
  subst h₁
  exact h

theorem ingestAllocation_entries {record : EventRecord} {w w' : World Model}
    (hkind : record.recordKind = .alloc) (h : ingestAllocation lib record w = (.ok (), w')) :
    StepsTo record (releasedBy lib record) (acquiredBy lib record) w.state.entries w'.state.entries := by
  unfold ingestAllocation at h
  unfold releasedBy acquiredBy
  cases hown : record.allocKind with
  | alloc =>
    simp only [hown] at h
    simp only [hkind]
    exact acquirePointer_entries h
  | free =>
    simp only [hown] at h
    simp only [hkind]
    unfold allocated
    split at h
    · next hnull =>
      cases h
      rw [if_pos hnull]
      rfl
    · next hpointer =>
      rw [if_neg hpointer]
      exact releasePointer_entries h
  | realloc =>
    simp only [hown] at h
    simp only [hkind]
    split at h
    · next hnull =>
      have hnone : (if lib.pointerIsNull record.newPtr then none else allocated lib record.ptr) = none := by
        unfold allocated
        rw [if_pos hnull, ite_self]
      rw [hnone]
      exact acquirePointer_entries h
    · next hpointer =>
      have hptr : allocated lib record.ptr = some (allocationResourceClass, record.ptr.getD .empty) :=
        if_neg hpointer
      rw [run_readState_bind] at h
      rw [hptr]
      split at h
      · next hdead =>
        obtain ⟨⟨⟩, w₁, hreport, hacquire⟩ := run_bind_eq_ok.mp h
        have hsame := addFinding_entries hreport
        have hsteps := acquirePointer_entries hacquire
        rw [hsame] at hsteps
        have hclosed : w.state.entries =
            closeLatest record (allocationResourceClass, record.ptr.getD .empty) w.state.entries :=
          (closeLatest_of_none (Option.isNone_iff_eq_none.mp hdead)).symm
        split
        · exact hsteps
        · exact StepsTo.after hclosed hsteps
      · split at h
        · next hfailed =>
          cases h
          have hnew : allocated lib record.newPtr = none := if_pos hfailed
          rw [if_pos hfailed, hnew]
          rfl
        · next hmoved =>
          obtain ⟨⟨⟩, w₁, hrelease, hacquire⟩ := run_bind_eq_ok.mp h
          rw [if_neg hmoved]
          apply StepsTo.after (releasePointer_entries hrelease)
          exact acquirePointer_entries (by rw [if_neg hmoved]; exact hacquire)

theorem ingestFd_entries {record : EventRecord} {w w' : World Model}
    (hkind : record.recordKind = .fd) (h : ingestFd record w = (.ok (), w')) :
    StepsTo record (releasedBy lib record) (acquiredBy lib record) w.state.entries w'.state.entries := by
  have hsteps : StepsTo record _ _ _ _ := (ingestResource_entries h).of_place rfl rfl rfl rfl
  have hname : recordClass (normalizedFd record) = fdResourceClass ∧
      recordId (normalizedFd record) = formatFdIdentifier record.fd := ⟨rfl, rfl⟩
  have hrecorded : ¬ isIgnoredClass fdResourceClass = true := by decide
  unfold releasedBy acquiredBy
  simp only [releasedByResource, acquiredByResource, hname, hrecorded] at hsteps
  cases hown : record.fdKind <;> simpa [hkind, hown, normalizedFd] using hsteps

/-- An accepted record that is neither a fork nor of an execution closes and adds entries by
its keys. -/
theorem ingest_entries {record : EventRecord} {w w' : World Model}
    (hkind : record.recordKind ∉ [RecordKind.fork, .exec, .execFail])
    (h : ingest lib record w = (.ok (), w')) :
    StepsTo record (releasedBy lib record) (acquiredBy lib record) w.state.entries w'.state.entries := by
  unfold ingest at h
  rw [run_readState_bind] at h
  split at h
  · obtain ⟨⟨⟩, w₁, hopen, h₁⟩ := run_bind_eq_ok.mp h
    obtain ⟨⟨⟩, w₂, hreplay, hadopt⟩ := run_bind_eq_ok.mp h₁
    rw [run_updateState] at hopen hadopt
    obtain ⟨-, rfl⟩ := Prod.mk.inj hopen
    obtain ⟨-, rfl⟩ := Prod.mk.inj hadopt
    rw [Model.adoptRunId_entries]
    unfold ingestKind at hreplay
    cases hown : record.recordKind with
    | resource =>
      simp only [hown] at hreplay
      have hsteps := ingestResource_entries hreplay
      simpa only [releasedBy, acquiredBy, hown] using hsteps
    | fd =>
      simp only [hown] at hreplay
      have hsteps : StepsTo record (releasedBy lib record) (acquiredBy lib record) _ _ :=
        ingestFd_entries hown hreplay
      exact hsteps
    | alloc =>
      simp only [hown] at hreplay
      have hsteps : StepsTo record (releasedBy lib record) (acquiredBy lib record) _ _ :=
        ingestAllocation_entries hown hreplay
      exact hsteps
    | fork | exec | execFail => simp [hown] at hkind
    | spawn | call | complete =>
      simp only [hown] at hreplay
      cases hreplay
  · cases h

end ToolEvent.Lifecycle
