import ToolEvent.Lifecycle

/-!
# The run model

The in-memory run model of `src/model.c`: the nodes admitted from the records of
one run, and the edges and lifecycle that finishing the model derives from them.
Pointers into the node array are indices, and `SIZE_MAX` is an absent index.
-/

namespace ToolEvent.RunModel

open Fallible World LatestMatch

inductive NodeDomain
  | call | resource
  deriving DecidableEq

/-- `struct p101_tool_model_node`. The texts of a node are owned copies, and an
absent text is copied as the empty text. -/
structure Node where
  domain : NodeDomain
  recordKind : RecordKind
  callKind : CallKind := .enter
  fdKind : FdKind := .opened
  allocKind : AllocKind := .alloc
  resourceKind : ResourceKind := .acquire
  pid : ℤ := 0
  childPid : ℤ := 0
  contextId : ℕ := 0
  sequence : ℕ := 0
  monotonicNs : ℕ := 0
  wallUnixNs : ℕ := 0
  monotonicNsAvailable : Bool := false
  wallUnixNsAvailable : Bool := false
  fd : ℤ := 0
  cloexec : Bool := false
  size : ℕ := 0
  lineNumber : ℤ := 0
  runId : Text := .empty
  functionName : Text := .empty
  fileName : Text := .empty
  callName : Text := .empty
  arguments : Text := .empty
  result : Text := .empty
  ptr : Text := .empty
  newPtr : Text := .empty
  target : Text := .empty
  resourceClass : Text := .empty
  resourceId : Text := .empty
  relatedId : Text := .empty
  metadata : Text := .empty
  deriving DecidableEq

inductive EdgeKind
  | callParent | callReturn | callCausedEvent | resourceLifetime | processChildEvent
  deriving DecidableEq

structure Edge where
  kind : EdgeKind
  source : ℕ
  target : ℕ
  deriving DecidableEq

/-- `struct p101_tool_model`; the defaults are the model that `p101_tool_model_create`
returns. -/
structure Model where
  runId : Option Text := none
  nodes : List Node := []
  nodeCapacity : ℕ := 0
  edges : List Edge := []
  edgeCapacity : ℕ := 0
  lifecycle : Option Lifecycle.Model := none
  finished : Bool := false
  deriving DecidableEq

def initialCapacity : ℕ := 32
def modelLimit : ℕ := 1048576

/-- The number of texts `copy_record_text` copies. -/
def recordTextCount : ℕ := 13

/-- `reserve_nodes` and `reserve_edges`: the capacity after making room for one more element. -/
def reserve (count capacity : ℕ) : Routine Model ℕ :=
  if count < capacity then pure capacity
  else if modelLimit ≤ capacity then fail (.errno .eoverflow)
  else do
    let grown ← allocate
    if grown then pure (if capacity = 0 then initialCapacity else capacity * 2)
    else fail (.errno .enomem)

/-- `copy_text`, whose copy is the text it was given. -/
def copyText : Routine Model Unit := do
  let copied ← allocate
  if copied then pure () else fail (.errno .enomem)

/-- `copy_record` and `copy_record_text`. -/
def Node.ofRecord (record : EventRecord) : Node where
  domain := if record.recordKind = .call then .call else .resource
  recordKind := record.recordKind
  callKind := record.callKind
  fdKind := record.fdKind
  allocKind := record.allocKind
  resourceKind := record.resourceKind
  pid := record.pid
  childPid := record.childPid
  contextId := record.contextId
  sequence := record.sequence
  monotonicNs := record.monotonicNs
  wallUnixNs := record.wallUnixNs
  monotonicNsAvailable := record.monotonicNsAvailable ≠ 0
  wallUnixNsAvailable := record.wallUnixNsAvailable ≠ 0
  fd := record.fd
  cloexec := record.cloexec ≠ 0
  size := record.size
  lineNumber := record.lineNumber
  runId := record.runId.getD .empty
  functionName := record.functionName.getD .empty
  fileName := record.fileName.getD .empty
  callName := record.callName.getD .empty
  arguments := record.arguments.getD .empty
  result := record.result.getD .empty
  ptr := record.ptr.getD .empty
  newPtr := record.newPtr.getD .empty
  target := record.target.getD .empty
  resourceClass :=
    match record.recordKind with
    | .fd => .ofString "fd"
    | .alloc => .ofString "allocation"
    | _ => record.resourceClass.getD .empty
  resourceId := record.resourceId.getD .empty
  relatedId := record.relatedId.getD .empty
  metadata := record.metadata.getD .empty

variable (lib : RecordLibrary)

/-- The checks on the record that `p101_tool_model_ingest` makes first. -/
def isAdmitted (model : Model) (record : EventRecord) : Bool :=
  match record.runId with
  | none => false
  | some runId =>
    model.finished = false ∧ record.version = logVersion ∧ ¬ runId.isEmpty ∧
      runId.length ≤ lib.runIdMaxBytes

/-- The run identity check of `p101_tool_model_ingest`: the first record fixes it. -/
def ingestRunId (runId : Text) : Routine Model Unit := do
  let model ← readState
  match model.runId with
  | none =>
    copyText
    updateState (fun m => { m with runId := some runId })
  | some own => if own = runId then pure () else fail (.errno .einval)

/-- `p101_tool_model_ingest` on non-null arguments. -/
def ingest (record : EventRecord) : Routine Model Unit := do
  let model ← readState
  if isAdmitted lib model record then
    ingestRunId (record.runId.getD .empty)
    if record.recordKind = .complete then pure ()
    else
      let capacity ← reserve model.nodes.length model.nodeCapacity
      updateState (fun m => { m with nodeCapacity := capacity })
      forEach (fun _ => copyText) (List.range recordTextCount)
      updateState (fun m => { m with nodes := m.nodes ++ [Node.ofRecord record] })
  else fail (.errno .einval)

def addEdge (kind : EdgeKind) (source target : ℕ) : Routine Model Unit := do
  let model ← readState
  let capacity ← reserve model.edges.length model.edgeCapacity
  updateState (fun m =>
    { m with edgeCapacity := capacity, edges := m.edges ++ [⟨kind, source, target⟩] })

def sameContext (left right : Node) : Bool := left.pid = right.pid ∧ left.contextId = right.contextId

/-- For every ENTER node, the EXIT node matched to it so far. -/
abbrev MatchedExit := List (Option ℕ)

def sequenceAt (nodes : List Node) (index : ℕ) : ℕ := (nodes[index]?.map Node.sequence).getD 0

/-- `find_active_enter`: the latest unmatched ENTER of the context before the node. -/
def findActiveEnter (nodes : List Node) (matchedExit : MatchedExit) (index : ℕ) (current : Node)
    (requireName : Bool) : Option ℕ :=
  latestIndex (fun candidate =>
      candidate.1.recordKind = .call ∧ candidate.1.callKind = .enter ∧ candidate.2 = none ∧
        sameContext candidate.1 current ∧
        (requireName = true → candidate.1.callName = current.callName))
    ((nodes.zip matchedExit).take index)

/-- The test `find_enclosing_call` makes on each node. -/
def enclosesResource (nodes : List Node) (resource enter : Node) (matched : Option ℕ) : Bool :=
  enter.recordKind = .call ∧ enter.callKind = .enter ∧ sameContext enter resource ∧
    enter.sequence ≤ resource.sequence ∧
    ∀ exit ∈ matched, resource.sequence ≤ sequenceAt nodes exit

/-- `find_enclosing_call`: of the calls around the resource node, the first one with the
largest sequence number. -/
def findEnclosingCall (nodes : List Node) (matchedExit : MatchedExit) (resource : Node) : Option ℕ :=
  (nodes.zip matchedExit).zipIdx.foldl (fun best candidate =>
    if enclosesResource nodes resource candidate.1.1 candidate.1.2 ∧
        (∀ index ∈ best, sequenceAt nodes index < candidate.1.1.sequence) then some candidate.2
    else best) none

def isLifetimeBirth (node : Node) : Bool :=
  match node.recordKind with
  | .fd => node.fdKind = .opened
  | .alloc =>
    node.allocKind = .alloc ∨ (node.allocKind = .realloc ∧ ¬ lib.pointerIsNull (some node.newPtr))
  | .resource =>
    node.resourceKind = .acquire ∨
      ((node.resourceKind = .replace ∨ node.resourceKind = .transfer) ∧ ¬ node.relatedId.isEmpty)
  | _ => false

def lifetimeMatches (birth death : Node) : Bool :=
  match birth.recordKind with
  | .fd => death.recordKind = .fd ∧ death.fdKind = .closed ∧ death.fd = birth.fd
  | .alloc =>
    death.recordKind = .alloc ∧ (death.allocKind = .free ∨ death.allocKind = .realloc) ∧
      death.ptr = if birth.allocKind = .realloc then birth.newPtr else birth.ptr
  | _ =>
    death.recordKind = .resource ∧ death.resourceClass = birth.resourceClass ∧
      (death.resourceKind = .release ∨ death.resourceKind = .replace ∨
        death.resourceKind = .transfer) ∧
      death.resourceId = if birth.resourceKind = .acquire then birth.resourceId else birth.relatedId

/-- `find_lifetime_end`: of the nodes that end the lifetime, the first one with the smallest
sequence number. -/
def findLifetimeEnd (nodes : List Node) (birth : Node) : Option ℕ :=
  if isLifetimeBirth lib birth then
    nodes.zipIdx.foldl (fun best death =>
      if birth.sequence < death.1.sequence ∧ death.1.pid = birth.pid ∧
          lifetimeMatches birth death.1 ∧
          (∀ index ∈ best, death.1.sequence < sequenceAt nodes index) then some death.2
      else best) none
  else none

/-- An edge is added when the search for its other end found a node. -/
def addFoundEdge (found : Option ℕ) (edge : ℕ → Edge) : Routine Model Unit :=
  match found with
  | some index => addEdge (edge index).kind (edge index).source (edge index).target
  | none => pure ()

/-- One iteration of the loop of `build_call_edges`. -/
def buildCallEdge (nodes : List Node) (matchedExit : MatchedExit) (index : ℕ) :
    Routine Model MatchedExit :=
  match nodes[index]? with
  | none => pure matchedExit
  | some node =>
    if node.recordKind ≠ .call then pure matchedExit
    else if node.callKind = .enter then do
      addFoundEdge (findActiveEnter nodes matchedExit index node false)
        (fun parent => ⟨.callParent, parent, index⟩)
      pure matchedExit
    else do
      let found := findActiveEnter nodes matchedExit index node true
      addFoundEdge found (fun enter => ⟨.callReturn, enter, index⟩)
      pure (found.elim matchedExit (fun enter => matchedExit.set enter (some index)))

/-- `build_call_edges` over the given indices. -/
def buildCallEdges (nodes : List Node) : List ℕ → MatchedExit → Routine Model MatchedExit
  | [], matchedExit => pure matchedExit
  | index :: indices, matchedExit => do
    let matchedExit ← buildCallEdge nodes matchedExit index
    buildCallEdges nodes indices matchedExit

/-- One iteration of the inner loop of `build_resource_edges`. -/
def buildChildEdge (nodes : List Node) (index : ℕ) (node : Node) (child : ℕ) : Routine Model Unit :=
  addFoundEdge (if nodes[child]?.any (fun other => other.pid = node.childPid) then some child else none)
    (fun child => ⟨.processChildEvent, index, child⟩)

/-- One iteration of the outer loop of `build_resource_edges`. -/
def buildResourceEdge (nodes : List Node) (matchedExit : MatchedExit) (index : ℕ) :
    Routine Model Unit :=
  match nodes[index]? with
  | none => pure ()
  | some node =>
    if node.domain ≠ .resource then pure ()
    else do
      addFoundEdge (findEnclosingCall nodes matchedExit node)
        (fun call => ⟨.callCausedEvent, call, index⟩)
      addFoundEdge (findLifetimeEnd lib nodes node) (fun death => ⟨.resourceLifetime, index, death⟩)
      if node.recordKind = .fork ∨ node.recordKind = .spawn then
        forEach (buildChildEdge nodes index node) (List.range nodes.length)
      else pure ()

def buildResourceEdges (nodes : List Node) (matchedExit : MatchedExit) : Routine Model Unit :=
  forEach (buildResourceEdge lib nodes matchedExit) (List.range nodes.length)

def recordFromNode (node : Node) : EventRecord where
  recordKind := node.recordKind
  callKind := node.callKind
  fdKind := node.fdKind
  allocKind := node.allocKind
  resourceKind := node.resourceKind
  runId := some node.runId
  pid := node.pid
  childPid := node.childPid
  contextId := node.contextId
  sequence := node.sequence
  monotonicNs := node.monotonicNs
  wallUnixNs := node.wallUnixNs
  monotonicNsAvailable := node.monotonicNsAvailable.toNat
  wallUnixNsAvailable := node.wallUnixNsAvailable.toNat
  fd := node.fd
  cloexec := node.cloexec.toNat
  size := node.size
  lineNumber := node.lineNumber
  functionName := some node.functionName
  fileName := some node.fileName
  callName := some node.callName
  arguments := some node.arguments
  result := some node.result
  ptr := some node.ptr
  newPtr := some node.newPtr
  target := some node.target
  resourceClass := some node.resourceClass
  resourceId := some node.resourceId
  relatedId := some node.relatedId
  metadata := some node.metadata

/-- The nodes `build_lifecycle` replays. -/
def isReplayed (node : Node) : Bool := node.domain = .resource ∧ node.recordKind ≠ .spawn

/-- The replay of `build_lifecycle` on a new lifecycle model. -/
def replayNodes (nodes : List Node) : Routine Lifecycle.Model Unit := do
  forEach (fun node => Lifecycle.ingest lib (recordFromNode node)) (nodes.filter isReplayed)
  Lifecycle.finish

/-- `build_lifecycle`. The lifecycle is destroyed again when its replay fails. -/
def buildLifecycle (nodes : List Node) : Routine Model Unit := do
  let created ← allocate
  if created then
    let lifecycle ← call {} (replayNodes lib nodes)
    updateState (fun m => { m with lifecycle := some lifecycle })
  else fail (.errno .enomem)

/-- The array of matched exits, which is not requested for a model without nodes. -/
def allocateMatchedExit (nodes : List Node) : Routine Model MatchedExit :=
  if nodes = [] then pure []
  else do
    let allocated ← allocate
    if allocated then pure (nodes.map (fun _ => none)) else fail (.errno .enomem)

/-- The part of `p101_tool_model_finish` after the edges and the lifecycle of an earlier
attempt are dropped. -/
def finishBody (nodes : List Node) : Routine Model Unit := do
  let matchedExit ← allocateMatchedExit nodes
  let matchedExit ← buildCallEdges nodes (List.range nodes.length) matchedExit
  buildResourceEdges lib nodes matchedExit
  buildLifecycle lib nodes

/-- `p101_tool_model_finish` on a non-null model. -/
def finish : Routine Model Unit := do
  let model ← readState
  if model.finished then pure ()
  else
    updateState (fun m => { m with edges := [], lifecycle := none })
    onError (fun m => { m with edges := [] }) (finishBody lib model.nodes)
    updateState (fun m => { m with finished := true })

/-- The models that calls of the interface lead to, whatever the allocator answers. -/
inductive Reachable : Model → Prop
  | create : Reachable {}
  | ingest {model : Model} (h : Reachable model) (record : EventRecord) (outcomes : List Bool) :
      Reachable (ingest lib record ⟨model, outcomes⟩).2.state
  | finish {model : Model} (h : Reachable model) (outcomes : List Bool) :
      Reachable (finish lib ⟨model, outcomes⟩).2.state

/-- A model that `p101_tool_model_finish` has finished. -/
structure Finished (model : Model) : Prop where
  reachable : Reachable lib model
  finished : model.finished = true

/-- The finished model of records that are ingested in order with succeeding allocations. -/
def modelOf (records : List EventRecord) : Model :=
  (finish lib ⟨records.foldl (fun model record => (ingest lib record ⟨model, []⟩).2.state) {}, []⟩).2.state

theorem finished_modelOf {records : List EventRecord} (h : (modelOf lib records).finished = true) :
    Finished lib (modelOf lib records) := by
  refine ⟨.finish ?_ [], h⟩
  suffices hall : ∀ (records : List EventRecord) model, Reachable lib model → Reachable lib
      (records.foldl (fun model record => (ingest lib record ⟨model, []⟩).2.state) model) from
    hall records {} .create
  intro records
  induction records with
  | nil => exact fun _ hmodel => hmodel
  | cons record records ih => exact fun _ hmodel => ih _ (hmodel.ingest record [])

end ToolEvent.RunModel
