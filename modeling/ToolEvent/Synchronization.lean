import ToolEvent.Analysis

/-!
# The synchronization pass

`analyze_synchronization` of `src/analysis.c`. The arrays it allocates are lists of the
elements in use, and every write to one of them is logged with its index, so that the
indices can be compared with the sizes the pass asked for.
-/

namespace ToolEvent.ModelAnalysis

open Fallible World LatestMatch RunModel

/-- What a buffer of `EVIDENCE_TEXT_SIZE` bytes can hold. -/
structure EvidenceText where
  text : Text
  fits : text.length < evidenceTextSize
  deriving DecidableEq

namespace EvidenceText

def ofText (text : Text) : EvidenceText :=
  ⟨text.take (evidenceTextSize - 1), Nat.lt_of_le_of_lt (Text.length_take_le _ _) (by decide)⟩

def empty : EvidenceText := ofText .empty

end EvidenceText

structure SyncItem where
  active : Bool := true
  join : Bool := false
  node : Node
  thread : EvidenceText
  resource : EvidenceText
  target : EvidenceText := .empty
  deriving DecidableEq

structure SyncEdge where
  source : EvidenceText
  target : EvidenceText
  deriving DecidableEq

/-- The arrays `analyze_synchronization` allocates. -/
inductive SyncArray
  | held | waits | terminated | lockEdges | waitEdges | joinEdges
  deriving DecidableEq

/-- The number of elements allocated for an array when the order has `count` nodes. -/
def arrayCapacity (count : ℕ) : SyncArray → ℕ
  | .waitEdges => 2 * max 1 count
  | _ => max 1 count

/-- The local variables of `analyze_synchronization`, with the log of its array writes. -/
structure SyncLocals where
  held : List SyncItem := []
  waits : List SyncItem := []
  terminated : List SyncItem := []
  lockEdges : List SyncEdge := []
  waitEdges : List SyncEdge := []
  joinEdges : List SyncEdge := []
  writes : List (SyncArray × ℕ) := []
  deriving DecidableEq

namespace SyncLocals

def log (array : SyncArray) (index : ℕ) (l : SyncLocals) : SyncLocals :=
  { l with writes := l.writes ++ [(array, index)] }

def pushHeld (item : SyncItem) (l : SyncLocals) : SyncLocals :=
  { l.log .held l.held.length with held := l.held ++ [item] }

def pushWait (item : SyncItem) (l : SyncLocals) : SyncLocals := { l with waits := l.waits ++ [item] }

def pushTerminated (item : SyncItem) (l : SyncLocals) : SyncLocals :=
  { l.log .terminated l.terminated.length with terminated := l.terminated ++ [item] }

def pushLockEdge (edge : SyncEdge) (l : SyncLocals) : SyncLocals :=
  { l.log .lockEdges l.lockEdges.length with lockEdges := l.lockEdges ++ [edge] }

def pushWaitEdge (edge : SyncEdge) (l : SyncLocals) : SyncLocals :=
  { l.log .waitEdges l.waitEdges.length with waitEdges := l.waitEdges ++ [edge] }

def pushJoinEdge (edge : SyncEdge) (l : SyncLocals) : SyncLocals :=
  { l.log .joinEdges l.joinEdges.length with joinEdges := l.joinEdges ++ [edge] }

end SyncLocals

abbrev SyncState := Analysis × SyncLocals

def updateSync (f : SyncLocals → SyncLocals) : Routine SyncState Unit :=
  updateState (fun s => (s.1, f s.2))

def isHeldClass (resourceClass : Text) : Bool :=
  resourceClass = .ofString "pthread-mutex-held" ∨ resourceClass = .ofString "pthread-rwlock-held"

def isSynchronizationClass (resourceClass : Text) : Bool :=
  isHeldClass resourceClass ||
    ["pthread-mutex-wait", "pthread-rwlock-read-wait", "pthread-rwlock-write-wait",
      "pthread-condition-wait", "pthread-join-wait", "pthread-mutex", "pthread-terminal-attempt",
      "pthread-joinable-thread", "blocking-operation"].any (fun name => resourceClass = .ofString name)

def formatSyncThread (node : Node) : EvidenceText :=
  .ofText (.decimal node.pid ++ .ofString ":" ++ .decimal node.contextId)

/-- `format_sync_resource`: the identity up to its first `@`. -/
def formatSyncResource (node : Node) (identity : Text) : EvidenceText :=
  .ofText (.decimal node.pid ++ .ofString ":" ++ identity.takeUntil 64)

/-- The loop of `sync_reaches` over the edges: the pending texts with the new targets, or no
value when the target itself is found. -/
def scanEdges (current target : EvidenceText) (limit : ℕ) :
    List SyncEdge → List EvidenceText → Option (List EvidenceText)
  | [], pending => some pending
  | edge :: edges, pending =>
    if edge.source ≠ current then scanEdges current target limit edges pending
    else if edge.target = target then none
    else scanEdges current target limit edges
      (if pending.length < limit then edge.target :: pending else pending)

/-- The loop of `sync_reaches` over the pending texts, the last one first. -/
def reachLoop (edges : List SyncEdge) (target : EvidenceText) :
    ℕ → List EvidenceText → List EvidenceText → Option Bool
  | _, [], _ => some false
  | 0, _ :: _, _ => none
  | fuel + 1, current :: pending, visited =>
    if current ∈ visited then reachLoop edges target fuel pending visited
    else
      match scanEdges current target (edges.length + 1) edges pending with
      | none => some true
      | some pending => reachLoop edges target fuel pending (visited ++ [current])

/-- `sync_reaches`. Refused requests leave the result of the first comparison. -/
def syncReaches (edges : List SyncEdge) (start target : EvidenceText) : Routine SyncState Bool := do
  let granted ← allocateAll 2
  if start = target ∨ granted = false then pure (start = target)
  else
    match reachLoop edges target (edges.length + 1) [start] [] with
    | none => fail .unfinished
    | some reached => pure reached

/-- The messages of `add_sync_finding`. -/
def syncMessage (identifier : String) : String :=
  if identifier = "P101-SYNC-001" then "lock-order graph contains a cycle"
  else if identifier = "P101-SYNC-002" then "live wait-for graph contains a deadlock cycle"
  else if identifier = "P101-SYNC-003" then "thread join graph contains a cycle"
  else if identifier = "P101-SYNC-004" then "locks were not released in reverse acquisition order"
  else if identifier = "P101-SYNC-005" then "a thread join began while a lock was held"
  else if identifier = "P101-SYNC-007" then
    "a mutex was destroyed while locked or while a wait was active"
  else if identifier = "P101-SYNC-008" then "a thread joinable lifetime was consumed more than once"
  else if identifier = "P101-SYNC-009" then
    "one condition variable has concurrent waits using different mutexes"
  else "a potentially blocking operation began while a lock was held"

def addSyncFinding (identifier : String) (node : Node) (source target : EvidenceText) :
    Routine SyncState Unit := do
  let (analysis, _) ← readState
  if analysis.findings.any (fun finding => finding.diagnosticId = .ofString identifier ∧
      finding.evidenceFrom = source.text ∧ finding.evidenceTo = target.text) then pure ()
  else
    onFirst (addFinding (.ofString identifier) .synchronization (.ofString (syncMessage identifier))
      (some node) (some source.text) (some target.text) none)

def lastHeld (held : List SyncItem) (thread : EvidenceText) : Option SyncItem :=
  (latestIndex (fun item => item.active ∧ item.thread = thread) held).bind (held[·]?)

def lastMatching (items : List SyncItem) (thread resource : EvidenceText) : Option ℕ :=
  latestIndex (fun item => item.active ∧ item.thread = thread ∧ item.resource = resource) items

def SyncItem.deactivate (item : SyncItem) : SyncItem := { item with active := false }

def destroyMutex (node : Node) (resource : EvidenceText) : Routine SyncState Unit := do
  let (_, l) ← readState
  forEach (fun item : SyncItem =>
    if item.active ∧ item.resource = resource then
      addSyncFinding "P101-SYNC-007" node resource item.thread
    else pure ()) l.held
  forEach (fun item : SyncItem =>
    if item.active ∧ (item.resource = resource ∨ item.target = resource) then
      addSyncFinding "P101-SYNC-007" node resource item.thread
    else pure ()) l.waits

def attemptTerminal (node : Node) (resource : EvidenceText) : Routine SyncState Unit := do
  let (_, l) ← readState
  forEach (fun item : SyncItem =>
    if item.active ∧ item.resource = resource then
      addSyncFinding "P101-SYNC-008" node resource item.thread
    else pure ()) l.terminated

/-- A finding about the latest lock the thread holds, if it holds one. -/
def reportLastHeld (identifier : String) (node : Node) (thread resource : EvidenceText) :
    Routine SyncState Unit := do
  let (_, l) ← readState
  match lastHeld l.held thread with
  | some item => addSyncFinding identifier node item.resource resource
  | none => pure ()

/-- The body of the loop over the held items when a lock is acquired. -/
def orderLocks (node : Node) (thread resource : EvidenceText) (item : SyncItem) :
    Routine SyncState Unit :=
  if item.active ∧ item.thread = thread ∧ item.resource ≠ resource then do
    let (_, l) ← readState
    let cycle ← syncReaches l.lockEdges resource item.resource
    (if cycle then addSyncFinding "P101-SYNC-001" node item.resource resource else pure ())
    updateSync (SyncLocals.pushLockEdge ⟨item.resource, resource⟩)
  else pure ()

def acquireLock (node : Node) (thread resource : EvidenceText) : Routine SyncState Unit := do
  let (_, l) ← readState
  forEach (orderLocks node thread resource) l.held
  updateSync (SyncLocals.pushHeld { node := node, thread := thread, resource := resource })

/-- The items after the one found is no longer active, with the log of that write. -/
def SyncLocals.endHeld (thread resource : EvidenceText) (l : SyncLocals) : SyncLocals :=
  match lastMatching l.held thread resource with
  | some index => { l.log .held index with held := l.held.modify index SyncItem.deactivate }
  | none => l

def SyncLocals.endWait (thread resource : EvidenceText) (l : SyncLocals) : SyncLocals :=
  match lastMatching l.waits thread resource with
  | some index => { l.log .waits index with waits := l.waits.modify index SyncItem.deactivate }
  | none => l

/-- A finding when the latest lock of the thread is not the one released. -/
def reportReleaseOrder (node : Node) (resource : EvidenceText) (last : Option SyncItem) :
    Routine SyncState Unit :=
  match last with
  | some item =>
    if item.resource ≠ resource then addSyncFinding "P101-SYNC-004" node item.resource resource
    else pure ()
  | none => pure ()

def releaseLock (node : Node) (thread resource : EvidenceText) : Routine SyncState Unit := do
  let (_, l) ← readState
  reportReleaseOrder node resource (lastHeld l.held thread)
  updateSync (SyncLocals.endHeld thread resource)

def isJoinWait (node : Node) : Bool := node.resourceClass = .ofString "pthread-join-wait"

def isConditionWait (node : Node) : Bool := node.resourceClass = .ofString "pthread-condition-wait"

/-- The item `analyze_synchronization` fills in when a wait begins. -/
def waitItem (node : Node) (thread resource : EvidenceText) : SyncItem :=
  if isJoinWait node then
    { join := true, node := node, thread := resource, resource := resource
      target := formatSyncResource node node.relatedId }
  else
    { node := node, thread := thread, resource := resource
      target := if isConditionWait node then formatSyncResource node node.relatedId else .empty }

def beginWait (node : Node) (thread resource : EvidenceText) : Routine SyncState Unit := do
  (if isJoinWait node then reportLastHeld "P101-SYNC-005" node thread resource else pure ())
  let (_, l) ← readState
  updateSync (SyncLocals.log .waits l.waits.length)
  let item := waitItem node thread resource
  (if isConditionWait node then
    forEach (fun prior : SyncItem =>
      if prior.active ∧ prior.resource = item.resource ∧ prior.target ≠ item.target then
        addSyncFinding "P101-SYNC-009" node item.resource item.target
      else pure ()) l.waits
  else pure ())
  updateSync (SyncLocals.pushWait item)

def endWait (node : Node) (thread resource : EvidenceText) : Routine SyncState Unit :=
  updateSync (SyncLocals.endWait (if isJoinWait node then resource else thread) resource)

/-- The records that `analyze_synchronization` does not skip. -/
def isSynchronizationRecord (node : Node) : Bool :=
  node.domain = .resource ∧ node.recordKind = .resource ∧ isSynchronizationClass node.resourceClass

/-- The case distinction of `analyze_synchronization`. -/
def synchronizeRecord (node : Node) : Routine SyncState Unit :=
  let thread := formatSyncThread node
  let resource := formatSyncResource node node.resourceId
  let isMutexLifecycle : Bool := node.resourceClass = .ofString "pthread-mutex"
  let isTerminalAttempt : Bool := node.resourceClass = .ofString "pthread-terminal-attempt"
  let isJoinableThread : Bool := node.resourceClass = .ofString "pthread-joinable-thread"
  let isBlockingOperation : Bool := node.resourceClass = .ofString "blocking-operation"
  if isMutexLifecycle ∧ node.resourceKind = .release then destroyMutex node resource
  else if isMutexLifecycle then pure ()
  else if isTerminalAttempt then attemptTerminal node resource
  else if isJoinableThread ∧ node.resourceKind = .release then
    updateSync (SyncLocals.pushTerminated { node := node, thread := thread, resource := resource })
  else if isJoinableThread then pure ()
  else if isBlockingOperation then reportLastHeld "P101-SYNC-010" node thread resource
  else if isHeldClass node.resourceClass ∧ node.resourceKind = .acquire then
    acquireLock node thread resource
  else if isHeldClass node.resourceClass ∧ node.resourceKind = .release then
    releaseLock node thread resource
  else if isHeldClass node.resourceClass = false ∧ node.resourceKind = .acquire then
    beginWait node thread resource
  else if isHeldClass node.resourceClass = false ∧ node.resourceKind = .release then
    endWait node thread resource
  else pure ()

/-- One iteration of the loop over the ordered nodes. -/
def synchronizeNode (node : Node) : Routine SyncState Unit :=
  if isSynchronizationRecord node then do
    updateState (fun s =>
      ({ s.1 with synchronizationRecords := s.1.synchronizationRecords + 1 }, s.2))
    synchronizeRecord node
  else pure ()

/-- The edges of a wait that is still active at the end. -/
def SyncLocals.addWaitEdges (wait : SyncItem) (l : SyncLocals) : SyncLocals :=
  if wait.active = false then l
  else if wait.join then
    (l.pushJoinEdge ⟨wait.thread, wait.target⟩).pushWaitEdge ⟨wait.thread, wait.target⟩
  else
    l.held.foldl (fun l item =>
      if item.active ∧ item.resource = wait.resource then
        l.pushWaitEdge ⟨wait.thread, item.thread⟩
      else l) l

/-- The first loop over the waits at the end of the pass. -/
def SyncLocals.addAllWaitEdges (l : SyncLocals) : SyncLocals :=
  l.waits.foldl (fun l wait => l.addWaitEdges wait) l

/-- The search for a cycle through the edges of a waiting thread. -/
def reportDeadlock (wait : SyncItem) : List SyncEdge → Routine SyncState Unit
  | [] => pure ()
  | edge :: edges =>
    if edge.source ≠ wait.thread then reportDeadlock wait edges
    else do
      let (_, l) ← readState
      let cycle ← syncReaches l.waitEdges edge.target wait.thread
      if cycle then addSyncFinding "P101-SYNC-002" wait.node wait.thread edge.target
      else reportDeadlock wait edges

/-- One iteration of the last loop of the pass. -/
def reportWait (wait : SyncItem) : Routine SyncState Unit :=
  if wait.active = false then pure ()
  else do
    let (_, l) ← readState
    if wait.join then do
      let cycle ← syncReaches l.joinEdges wait.target wait.thread
      (if cycle then addSyncFinding "P101-SYNC-003" wait.node wait.thread wait.target else pure ())
    else reportDeadlock wait l.waitEdges

/-- The body of `analyze_synchronization`. -/
def synchronizationBody : Routine SyncState Unit := do
  let granted ← allocateAll 6
  if granted then do
    let (analysis, _) ← readState
    forEach synchronizeNode analysis.orderedNodes
    updateSync SyncLocals.addAllWaitEdges
    let (_, l) ← readState
    forEach reportWait l.waits
    updateState (fun s => ({ s.1 with lockOrderEdges := s.2.lockEdges.length }, s.2))
  else fail (.errno .enomem)

def analyzeSynchronization : Routine Analysis Unit := withLocals ({} : SyncLocals) synchronizationBody

/-- The array writes of a call of `analyze_synchronization`. -/
def synchronizationWrites (analysis : Analysis) (outcomes : List Bool) : List (SyncArray × ℕ) :=
  (synchronizationBody ⟨(analysis, {}), outcomes⟩).2.state.2.writes

end ToolEvent.ModelAnalysis
