import ToolEvent.Library.LatestMatch
import ToolEvent.Routine

/-!
# Lifecycle replay

The acquire/release replay of `src/lifecycle.c`. Entries and findings are kept in
the order in which they were added. Pointers into the entry array are indices.
Every text copy is one allocation request.
-/

namespace ToolEvent.Lifecycle

open Fallible World LatestMatch

inductive FindingKind
  | leak | doubleRelease | strayRelease | badReplace | duplicateAcquire | execInherit | invalidUse
  deriving DecidableEq

/-- `struct p101_tool_event_lifecycle_entry`. -/
structure Entry where
  pid : ℤ
  originKind : RecordKind
  acquiredContextId : ℕ
  releasedContextId : ℕ := 0
  resourceClass : Text
  resourceId : Text
  acquiredSequence : ℕ
  releasedSequence : ℕ := 0
  acquiredMonotonicNs : ℕ
  releasedMonotonicNs : ℕ := 0
  size : ℕ
  acquiredLineNumber : ℤ
  releasedLineNumber : ℤ := 0
  acquiredFunctionName : Text
  releasedFunctionName : Option Text := none
  acquiredFileName : Text
  releasedFileName : Option Text := none
  acquiredMonotonicNsAvailable : Bool
  releasedMonotonicNsAvailable : Bool := false
  live : Bool
  execPending : Bool := false
  deriving DecidableEq

/-- `struct p101_tool_event_lifecycle_finding`. -/
structure Finding where
  kind : FindingKind
  originKind : RecordKind
  pid : ℤ
  contextId : ℕ
  previousContextId : ℕ := 0
  resourceClass : Text
  resourceId : Text
  sequence : ℕ
  previousSequence : ℕ := 0
  lineNumber : ℤ
  previousLineNumber : ℤ := 0
  functionName : Text
  previousFunctionName : Option Text := none
  fileName : Text
  previousFileName : Option Text := none
  monotonicNs : ℕ := 0
  monotonicNsAvailable : Bool := false
  execPending : Bool := false
  deriving DecidableEq

/-- `struct p101_tool_event_lifecycle_model`; the defaults are the model that
`p101_tool_event_lifecycle_create` returns. -/
structure Model where
  runId : Text := .empty
  entries : List Entry := []
  entryCapacity : ℕ := 0
  findings : List Finding := []
  findingCapacity : ℕ := 0
  finished : Bool := false
  deriving DecidableEq

def initialCapacity : ℕ := 16
def fdIdentifierLength : ℕ := 32
def maxLifecycleEntries : ℕ := 1048576
def maxLifecycleFindings : ℕ := 1048576

def fdResourceClass : Text := .ofString "fd"
def allocationResourceClass : Text := .ofString "allocation"

/-- `format_fd_identifier` into a buffer of `FD_IDENTIFIER_LENGTH` bytes. -/
def formatFdIdentifier (fd : ℤ) : Text := (Text.decimal fd).take (fdIdentifierLength - 1)

def orUnknown (text : Option Text) : Text := text.getD (.ofString "?")

def recordClass (record : EventRecord) : Text := record.resourceClass.getD .empty
def recordId (record : EventRecord) : Text := record.resourceId.getD .empty

/-- The test `find_latest` makes on each entry. -/
def Entry.matches (pid : ℤ) (resourceClass resourceId : Text) (liveOnly : Bool) (entry : Entry) :
    Bool :=
  entry.pid = pid ∧ entry.resourceClass = resourceClass ∧ entry.resourceId = resourceId ∧
    (liveOnly = true → entry.live = true)

/-- `find_latest`: the index of the latest matching entry. -/
def findLatest (entries : List Entry) (pid : ℤ) (resourceClass resourceId : Text)
    (liveOnly : Bool) : Option ℕ :=
  latestIndex (Entry.matches pid resourceClass resourceId liveOnly) entries

/-- The entry `find_latest` points to. -/
def latestEntry (entries : List Entry) (pid : ℤ) (resourceClass resourceId : Text)
    (liveOnly : Bool) : Option Entry :=
  (findLatest entries pid resourceClass resourceId liveOnly).bind (entries[·]?)

def grownCapacity (count capacity : ℕ) : ℕ :=
  if count = capacity then (if capacity = 0 then initialCapacity else capacity * 2) else capacity

/-- Grow an array of `count` elements if it is full. -/
def reserve (count capacity : ℕ) : Routine Model Unit :=
  if count = capacity then do
    let grown ← allocate
    if grown then pure () else fail (.errno .enomem)
  else pure ()

/-- `copy_text` for several texts in a row, failing after the last one if any failed. -/
def copyTexts (count : ℕ) : Routine Model Unit := do
  let copied ← allocateAll count
  if copied then pure () else fail (.errno .enomem)

/-- The entry `add_entry` fills in. -/
def newEntry (record : EventRecord) (resourceId : Text) : Entry where
  pid := record.pid
  originKind := record.recordKind
  acquiredContextId := record.contextId
  resourceClass := recordClass record
  resourceId := resourceId
  acquiredSequence := record.sequence
  acquiredMonotonicNs := record.monotonicNs
  size := record.size
  acquiredLineNumber := record.lineNumber
  acquiredFunctionName := orUnknown record.functionName
  acquiredFileName := orUnknown record.fileName
  acquiredMonotonicNsAvailable := record.monotonicNsAvailable ≠ 0
  live := true

def addEntry (record : EventRecord) (resourceId : Text) : Routine Model Unit := do
  let model ← readState
  if maxLifecycleEntries ≤ model.entries.length then fail (.errno .efbig)
  else
    reserve model.entries.length model.entryCapacity
    updateState (fun m =>
      { m with entryCapacity := grownCapacity m.entries.length m.entryCapacity })
    copyTexts 4
    updateState (fun m => { m with entries := m.entries ++ [newEntry record resourceId] })

def ensureFindingCapacity : Routine Model Unit := do
  let model ← readState
  if maxLifecycleFindings ≤ model.findings.length then fail (.errno .efbig)
  else
    reserve model.findings.length model.findingCapacity
    updateState (fun m =>
      { m with findingCapacity := grownCapacity m.findings.length m.findingCapacity })

/-- The finding `add_leak_finding` fills in. -/
def leakFinding (entry : Entry) : Finding where
  kind := .leak
  originKind := entry.originKind
  pid := entry.pid
  contextId := entry.acquiredContextId
  resourceClass := entry.resourceClass
  resourceId := entry.resourceId
  sequence := entry.acquiredSequence
  lineNumber := entry.acquiredLineNumber
  functionName := entry.acquiredFunctionName
  fileName := entry.acquiredFileName

def addLeakFinding (entry : Entry) : Routine Model Unit := do
  ensureFindingCapacity
  copyTexts 4
  updateState (fun m => { m with findings := m.findings ++ [leakFinding entry] })

/-- The finding `add_finding` fills in. The previous location is that of the
release, or of the acquisition when the entry has no release sequence. -/
def newFinding (kind : FindingKind) (record : EventRecord) (previous : Option Entry) : Finding :=
  let base : Finding :=
    { kind := kind
      originKind := record.recordKind
      pid := record.pid
      contextId := record.contextId
      resourceClass := recordClass record
      resourceId := recordId record
      sequence := record.sequence
      lineNumber := record.lineNumber
      functionName := orUnknown record.functionName
      fileName := orUnknown record.fileName
      monotonicNs := record.monotonicNs
      monotonicNsAvailable := record.monotonicNsAvailable ≠ 0
      execPending := kind = .execInherit }
  match previous with
  | none => base
  | some entry =>
    let acquired := entry.releasedSequence = 0
    { base with
      originKind := entry.originKind
      resourceClass := entry.resourceClass
      resourceId := entry.resourceId
      previousSequence := if acquired then entry.acquiredSequence else entry.releasedSequence
      previousContextId := if acquired then entry.acquiredContextId else entry.releasedContextId
      previousLineNumber := if acquired then entry.acquiredLineNumber else entry.releasedLineNumber
      previousFunctionName :=
        if acquired then some entry.acquiredFunctionName else entry.releasedFunctionName
      previousFileName := if acquired then some entry.acquiredFileName else entry.releasedFileName }

/-- `add_finding`. The finding leaves the array again when a later copy fails. -/
def addFinding (kind : FindingKind) (record : EventRecord) (previous : Option Entry) :
    Routine Model Unit := do
  ensureFindingCapacity
  copyTexts 2
  copyTexts (if previous.isSome then 4 else 2)
  updateState (fun m => { m with findings := m.findings ++ [newFinding kind record previous] })

/-- What `release_entry` does to the entry it closes. -/
def Entry.closedBy (record : EventRecord) (entry : Entry) : Entry :=
  { entry with
    live := false
    releasedSequence := record.sequence
    releasedContextId := record.contextId
    releasedMonotonicNs := record.monotonicNs
    releasedMonotonicNsAvailable := record.monotonicNsAvailable ≠ 0
    releasedLineNumber := record.lineNumber
    releasedFunctionName := some (orUnknown record.functionName)
    releasedFileName := some (orUnknown record.fileName) }

def releaseEntry (record : EventRecord) : Routine Model Unit := do
  let model ← readState
  match findLatest model.entries record.pid (recordClass record) (recordId record) true with
  | some index =>
    copyTexts 2
    updateState (fun m => { m with entries := m.entries.modify index (Entry.closedBy record) })
  | none =>
    let previous :=
      latestEntry model.entries record.pid (recordClass record) (recordId record) false
    addFinding (if previous.isNone then .strayRelease else .doubleRelease) record previous

def isIgnoredClass (resourceClass : Text) : Bool :=
  resourceClass = .ofString "blocking-operation" ∨
    resourceClass = .ofString "pthread-terminal-attempt"

def isAbsent (text : Option Text) : Bool := text.all Text.isEmpty

def ingestResource (record : EventRecord) : Routine Model Unit :=
  if record.resourceClass.isNone ∨ record.resourceId.isNone then fail .check
  else if isIgnoredClass (recordClass record) then pure ()
  else
    match record.resourceKind with
    | .acquire => do
      let model ← readState
      let previous :=
        latestEntry model.entries record.pid (recordClass record) (recordId record) true
      (if previous.isSome then addFinding .duplicateAcquire record previous else pure ())
      addEntry record (recordId record)
    | .release => releaseEntry record
    | .replace | .transfer =>
      -- an absent related id is NULL in a parsed record and empty in an owned node
      if isAbsent record.relatedId then do
        let model ← readState
        addFinding .badReplace record
          (latestEntry model.entries record.pid (recordClass record) (recordId record) false)
      else do
        releaseEntry record
        addEntry record (record.relatedId.getD .empty)
    | .use => do
      let model ← readState
      let previous :=
        latestEntry model.entries record.pid (recordClass record) (recordId record) true
      if previous.isNone then
        addFinding .invalidUse record
          (latestEntry model.entries record.pid (recordClass record) (recordId record) false)
      else pure ()

/-- The resource record `ingest_fd` builds. -/
def normalizedFd (record : EventRecord) : EventRecord :=
  { record with
    resourceKind := if record.fdKind = .opened then .acquire else .release
    resourceClass := some fdResourceClass
    resourceId := some (formatFdIdentifier record.fd)
    relatedId := none
    size := 0 }

def ingestFd (record : EventRecord) : Routine Model Unit := ingestResource (normalizedFd record)

/-- The resource records `ingest_allocation` builds. -/
def normalizedAllocation (record : EventRecord) (resourceKind : ResourceKind)
    (resourceId : Option Text) : EventRecord :=
  { record with
    resourceClass := some allocationResourceClass
    relatedId := none
    resourceKind := resourceKind
    resourceId := resourceId }

variable (lib : RecordLibrary)

def ingestAllocation (record : EventRecord) : Routine Model Unit :=
  match record.allocKind with
  | .alloc =>
    if lib.pointerIsNull record.ptr then pure ()
    else ingestResource (normalizedAllocation record .acquire record.ptr)
  | .free =>
    if lib.pointerIsNull record.ptr then pure ()
    else ingestResource (normalizedAllocation record .release record.ptr)
  | .realloc =>
    if lib.pointerIsNull record.ptr then
      if lib.pointerIsNull record.newPtr then pure ()
      else ingestResource (normalizedAllocation record .acquire record.newPtr)
    else do
      let model ← readState
      let ptr := record.ptr.getD .empty
      if (findLatest model.entries record.pid allocationResourceClass ptr true).isNone then
        addFinding .badReplace (normalizedAllocation record .replace record.ptr)
          (latestEntry model.entries record.pid allocationResourceClass ptr false)
        (if lib.pointerIsNull record.newPtr then pure ()
          else ingestResource (normalizedAllocation record .acquire record.newPtr))
      else if lib.pointerIsNull record.newPtr then pure ()
      else
        ingestResource (normalizedAllocation record .release record.ptr)
        ingestResource (normalizedAllocation record .acquire record.newPtr)

/-- The test `take_stray_release` makes on each finding. -/
def Finding.isStray (pid : ℤ) (resourceClass resourceId : Text) (finding : Finding) : Bool :=
  finding.kind = .strayRelease ∧ finding.pid = pid ∧ finding.resourceClass = resourceClass ∧
    finding.resourceId = resourceId

/-- The release record `reconcile_stray_releases` rebuilds from a finding. -/
def Finding.toRelease (finding : Finding) : EventRecord :=
  { version := 0
    recordKind := finding.originKind
    pid := finding.pid
    contextId := finding.contextId
    sequence := finding.sequence
    monotonicNs := finding.monotonicNs
    monotonicNsAvailable := finding.monotonicNsAvailable.toNat
    resourceKind := .release
    resourceClass := some finding.resourceClass
    resourceId := some finding.resourceId
    lineNumber := finding.lineNumber
    functionName := some finding.functionName
    fileName := some finding.fileName }

/-- The loop of `reconcile_stray_releases`: take the first stray release of the key
with `take_stray_release` and release again, until there is none. -/
def reconcileLoop (pid : ℤ) (resourceClass resourceId : Text) : ℕ → Routine Model Unit
  | 0 => fail .unfinished
  | fuel + 1 => do
    let model ← readState
    match model.findings.find? (Finding.isStray pid resourceClass resourceId) with
    | none => pure ()
    | some finding =>
      updateState (fun m =>
        { m with findings := m.findings.eraseP (Finding.isStray pid resourceClass resourceId) })
      releaseEntry finding.toRelease
      reconcileLoop pid resourceClass resourceId fuel

def reconcileStrayReleases (pid : ℤ) (resourceClass resourceId : Text) : Routine Model Unit := do
  let model ← readState
  reconcileLoop pid resourceClass resourceId (model.findings.length + 1)

/-- The record `ingest_fork` builds to clone an entry of the parent. -/
def inheritedRecord (record : EventRecord) (entry : Entry) : EventRecord :=
  { record with
    recordKind := entry.originKind
    pid := record.childPid
    resourceClass := some fdResourceClass
    resourceId := some entry.resourceId
    size := entry.size }

/-- The condition under which `ingest_fork` considers an entry. -/
def Entry.isInheritable (pid : ℤ) (entry : Entry) : Bool :=
  entry.pid = pid ∧ entry.live = true ∧ entry.resourceClass = fdResourceClass

/-- One iteration of the loop of `ingest_fork`. -/
def forkEntry (record : EventRecord) (index : ℕ) : Routine Model Unit := do
  let model ← readState
  match model.entries[index]? with
  | none => pure ()
  | some entry =>
    if entry.isInheritable record.pid = false then pure ()
    else if (findLatest model.entries record.childPid entry.resourceClass entry.resourceId
        false).isSome then pure ()
    else if fdIdentifierLength ≤ entry.resourceId.length then fail .check
    else
      addEntry (inheritedRecord record entry) entry.resourceId
      reconcileStrayReleases record.childPid fdResourceClass entry.resourceId

/-- Whether `ingest_fork` looks at the descriptors at all. -/
def isForkReplayed (record : EventRecord) : Bool :=
  ¬ (record.pid < 0 ∨ record.childPid < 0 ∨ record.pid = record.childPid)

def ingestFork (record : EventRecord) : Routine Model Unit :=
  if isForkReplayed record then do
    let model ← readState
    forEach (forkEntry record) (List.range model.entries.length)
  else pure ()

/-- The release record `ingest_exec` builds. -/
def normalizedExec (record : EventRecord) : EventRecord :=
  { record with
    resourceKind := .release
    resourceClass := some fdResourceClass
    resourceId := some (formatFdIdentifier record.fd) }

def Entry.markExecPending (entry : Entry) : Entry := { entry with execPending := true }

def ingestExec (record : EventRecord) : Routine Model Unit := do
  let model ← readState
  match findLatest model.entries record.pid fdResourceClass (formatFdIdentifier record.fd) true with
  | none => pure ()
  | some index =>
    if record.cloexec = 0 then
      addFinding .execInherit (normalizedExec record) model.entries[index]?
    else
      releaseEntry (normalizedExec record)
      updateState (fun m => { m with entries := m.entries.modify index Entry.markExecPending })

def Entry.reopened (entry : Entry) : Entry :=
  { entry with
    releasedFunctionName := none
    releasedFileName := none
    releasedContextId := 0
    releasedSequence := 0
    releasedMonotonicNs := 0
    releasedMonotonicNsAvailable := false
    releasedLineNumber := 0
    live := true
    execPending := false }

def Entry.isPendingOf (pid : ℤ) (entry : Entry) : Bool := entry.pid = pid ∧ entry.execPending = true

/-- What `rollback_exec` does to an entry. -/
def Entry.rolledBack (pid : ℤ) (entry : Entry) : Entry :=
  if entry.isPendingOf pid then entry.reopened else entry

/-- The findings `rollback_exec` removes. -/
def Finding.isPendingOf (pid : ℤ) (finding : Finding) : Bool :=
  finding.pid = pid ∧ finding.execPending = true

def rollbackExec (pid : ℤ) (model : Model) : Model :=
  { model with
    entries := model.entries.map (Entry.rolledBack pid)
    findings := model.findings.filter (fun finding => ¬ finding.isPendingOf pid) }

/-- The replay of an admitted record, by its kind. -/
def ingestKind (record : EventRecord) : Routine Model Unit :=
  match record.recordKind with
  | .resource => ingestResource record
  | .fd => ingestFd record
  | .alloc => ingestAllocation lib record
  | .fork => ingestFork record
  | .exec => ingestExec record
  | .execFail => updateState (rollbackExec record.pid)
  | .spawn | .call | .complete => fail .check

/-- The checks `p101_tool_event_lifecycle_ingest` makes before it replays. -/
def isAdmitted (model : Model) (record : EventRecord) : Bool :=
  match record.runId with
  | none => false
  | some runId =>
    record.version = logVersion ∧ ¬ runId.isEmpty ∧ runId.length ≤ lib.runIdMaxBytes ∧
      (model.runId.isEmpty ∨ model.runId = runId)

/-- A model without a run identity takes that of the first record it replayed. -/
def Model.adoptRunId (runId : Text) (model : Model) : Model :=
  if model.runId.isEmpty then { model with runId := runId } else model

@[simp] theorem Model.adoptRunId_entries (runId : Text) (model : Model) :
    (model.adoptRunId runId).entries = model.entries := by
  unfold adoptRunId
  split <;> rfl

@[simp] theorem Model.adoptRunId_findings (runId : Text) (model : Model) :
    (model.adoptRunId runId).findings = model.findings := by
  unfold adoptRunId
  split <;> rfl

@[simp] theorem Model.adoptRunId_finished (runId : Text) (model : Model) :
    (model.adoptRunId runId).finished = model.finished := by
  unfold adoptRunId
  split <;> rfl

/-- `p101_tool_event_lifecycle_ingest` on non-null arguments. -/
def ingest (record : EventRecord) : Routine Model Unit := do
  let model ← readState
  if isAdmitted lib model record then
    updateState (fun m => { m with finished := false })
    ingestKind lib record
    updateState (Model.adoptRunId (record.runId.getD .empty))
  else fail .check

def Entry.clearPending (entry : Entry) : Entry := { entry with execPending := false }
def Finding.clearPending (finding : Finding) : Finding := { finding with execPending := false }

/-- One iteration of the first loop of `p101_tool_event_lifecycle_finish`. -/
def finishEntry (index : ℕ) : Routine Model Unit := do
  updateState (fun m => { m with entries := m.entries.modify index Entry.clearPending })
  let model ← readState
  match model.entries[index]? with
  | none => pure ()
  | some entry => if entry.live then addLeakFinding entry else pure ()

/-- `p101_tool_event_lifecycle_finish` on a non-null model. -/
def finish : Routine Model Unit := do
  let model ← readState
  if model.finished then pure ()
  else
    forEach finishEntry (List.range model.entries.length)
    updateState (fun m =>
      { m with findings := m.findings.map Finding.clearPending, finished := true })

/-- Ingest records in order with succeeding allocations, as long as all are accepted. -/
def ingestAll (model : Model) : List EventRecord → Option Model
  | [] => some model
  | record :: records =>
    match ingest lib record ⟨model, []⟩ with
    | (.ok (), world) => ingestAll world.state records
    | (.error _, _) => none

end ToolEvent.Lifecycle
