import ToolEvent.Analysis
import ToolEvent.Library.BinaryHeap
import Mathlib.Data.List.Sort

/-!
# The causal order of a run model

`build_causal_order` of `src/analysis.c`: an adjacency list of the model's edges and of
the chains of the contexts, from which the ready nodes are emitted, the one of least
index first. `SIZE_MAX` is an absent index, and the heap and the arc array are the lists
of their elements in use.
-/

namespace ToolEvent.ModelAnalysis

open Fallible World RunModel

structure GraphArc where
  target : ℕ
  next : Option ℕ
  deriving DecidableEq

/-- The local variables of `build_causal_order`. -/
structure OrderLocals where
  heads : List (Option ℕ) := []
  indegree : List ℕ := []
  heap : List ℕ := []
  arcs : List GraphArc := []
  operationStatus : ℤ := -1
  deriving DecidableEq

abbrev OrderState := Analysis × OrderLocals

def updateLocals (f : OrderLocals → OrderLocals) : Routine OrderState Unit :=
  updateState (fun s => (s.1, f s.2))

def OrderLocals.withStatus (status : ℤ) (locals : OrderLocals) : OrderLocals :=
  { locals with operationStatus := status }

/-- The return of -1 by a helper whose result is assigned to the status. -/
def refuse (code : Errno) : Routine OrderState Unit := do
  updateLocals (OrderLocals.withStatus (-1))
  fail (.errno code)

/-- The walk of `add_arc` along the arcs of a node: whether one leads to the target. -/
def findArc (arcs : List GraphArc) (target : ℕ) : ℕ → Option ℕ → Option Bool
  | _, none => some false
  | 0, some _ => none
  | fuel + 1, some arc =>
    match arcs[arc]? with
    | none => none
    | some a => if a.target = target then some true else findArc arcs target fuel a.next

/-- What `add_arc` stores for a new arc. -/
def OrderLocals.insertArc (source target : ℕ) (locals : OrderLocals) : OrderLocals :=
  { locals with
    arcs := locals.arcs ++ [⟨target, locals.heads[source]?.join⟩]
    heads := locals.heads.set source (some locals.arcs.length)
    indegree := locals.indegree.modify target (· + 1) }

/-- `add_arc`, and the handling of its result. -/
def addArc (arcCapacity nodeCount source target : ℕ) : Routine OrderState Unit := do
  let (_, locals) ← readState
  if nodeCount ≤ source ∨ nodeCount ≤ target ∨ arcCapacity < locals.arcs.length then refuse .einval
  else if source = target then updateLocals (OrderLocals.withStatus 0)
  else
    match findArc locals.arcs target locals.arcs.length locals.heads[source]?.join with
    | none => fail .outside
    | some true => updateLocals (OrderLocals.withStatus 0)
    | some false =>
      if locals.arcs.length = arcCapacity then refuse .einval
      else updateLocals (fun l => (l.insertArc source target).withStatus 0)

/-- `heap_push`, and the handling of its result. -/
def heapPush (capacity value : ℕ) : Routine OrderState Unit := do
  let (_, locals) ← readState
  if capacity ≤ locals.heap.length then refuse .eoverflow
  else
    match BinaryHeap.push locals.heap value with
    | none => fail .outside
    | some heap => updateLocals (fun l => ({ l with heap := heap }).withStatus 0)

/-- `ordered_node_compare`: the left node does not come after the right one. -/
def orderedNodeLe (left right : OrderedNode) : Prop :=
  if left.node.pid ≠ right.node.pid then left.node.pid < right.node.pid
  else if left.node.contextId ≠ right.node.contextId then left.node.contextId < right.node.contextId
  else if left.node.sequence ≠ right.node.sequence then left.node.sequence < right.node.sequence
  else left.originalIndex ≤ right.originalIndex

instance : DecidableRel orderedNodeLe := fun left right => by
  unfold orderedNodeLe
  infer_instance

def indexedNodes (nodes : List Node) : List OrderedNode :=
  nodes.zipIdx.map (fun p => ⟨p.1, p.2⟩)

/-- The array `by_context` after `qsort`. -/
def sortedByContext (nodes : List Node) : List OrderedNode :=
  (indexedNodes nodes).insertionSort orderedNodeLe

/-- One iteration of the loop over the neighbours in `by_context`. -/
def addChainArc (arcCapacity nodeCount : ℕ) (neighbours : OrderedNode × OrderedNode) :
    Routine OrderState Unit :=
  if sameContext neighbours.1.node neighbours.2.node then
    addArc arcCapacity nodeCount neighbours.1.originalIndex neighbours.2.originalIndex
  else pure ()

/-- One iteration of the loop that fills the heap with the nodes without a predecessor. -/
def pushRoot (nodeCount index : ℕ) : Routine OrderState Unit := do
  let (_, locals) ← readState
  match locals.indegree[index]? with
  | none => fail .outside
  | some degree => if degree = 0 then heapPush nodeCount index else pure ()

/-- The loop over the arcs of an emitted node. -/
def relaxArcs (nodeCount : ℕ) : ℕ → Option ℕ → Routine OrderState Unit
  | _, none => pure ()
  | 0, some _ => fail .unfinished
  | fuel + 1, some arc => do
    let (_, locals) ← readState
    match locals.arcs[arc]? with
    | none => fail (.errno .einval)
    | some a =>
      match locals.indegree[a.target]? with
      | none | some 0 => fail (.errno .einval)
      | some (degree + 1) =>
        updateLocals (fun l => { l with indegree := l.indegree.set a.target degree })
        (if degree = 0 then heapPush nodeCount a.target else pure ())
        relaxArcs nodeCount fuel a.next

/-- Write the node of the given index behind the nodes emitted so far. -/
def Analysis.emit (node : OrderedNode) (analysis : Analysis) : Analysis :=
  { analysis with ordered := analysis.ordered.map (· ++ [node]) }

def Analysis.emitted (analysis : Analysis) : ℕ := (analysis.ordered.getD []).length

/-- One iteration of the loop that empties the heap, after the pop. -/
def emitNode (nodeCount current : ℕ) : Routine OrderState Unit := do
  let (analysis, locals) ← readState
  match analysis.model.nodes[current]? with
  | none => fail (.errno .einval)
  | some node =>
    if nodeCount ≤ analysis.emitted then fail (.errno .einval)
    else
      updateState (fun s => (s.1.emit ⟨node, current⟩, s.2))
      relaxArcs nodeCount locals.arcs.length locals.heads[current]?.join

/-- The loop that empties the heap. -/
def emitLoop (nodeCount : ℕ) : ℕ → Routine OrderState Unit
  | 0 => fail .unfinished
  | fuel + 1 => do
    let (_, locals) ← readState
    if locals.heap = [] then pure ()
    else
      match BinaryHeap.pop locals.heap with
      | none => fail .outside
      | some (current, heap) =>
        updateLocals (fun l => { l with heap := heap })
        emitNode nodeCount current
        emitLoop nodeCount fuel

/-- The part of `build_causal_order` after its arrays are allocated. -/
def orderNodes (nodes : List Node) (edges : List Edge) : Routine OrderState Unit := do
  let arcCapacity := edges.length + nodes.length
  updateLocals (fun l =>
    { l with heads := nodes.map (fun _ => none), indegree := nodes.map (fun _ => 0) })
  forEach (fun edge => addArc arcCapacity nodes.length edge.source edge.target) edges
  forEach (addChainArc arcCapacity nodes.length)
    ((sortedByContext nodes).zip (sortedByContext nodes).tail)
  forEach (pushRoot nodes.length) (List.range nodes.length)
  emitLoop nodes.length (nodes.length + 1)
  let (analysis, _) ← readState
  if analysis.emitted ≠ nodes.length then
    updateState (fun s => ({ s.1 with trouble := true }, s.2))
    fail (.errno .einval)
  else updateState (fun s => ({ s.1 with orderedCount := nodes.length }, s.2.withStatus 0))

/-- `build_causal_order` before its exit. All six arrays are requested before any of the
requests is checked. -/
def causalOrderBody : Routine OrderState Unit := do
  let (analysis, _) ← readState
  let nodes := analysis.model.nodes
  let edges := analysis.model.edges
  if sizeMax - nodes.length < edges.length then fail (.errno .eoverflow)
  else
    let ordered ← allocate
    updateState (fun s => ({ s.1 with ordered := if ordered then some [] else none }, s.2))
    let others ← allocateAll 5
    if ordered && others then orderNodes nodes edges else fail (.errno .enomem)

/-- The exit of `build_causal_order`: what it returns is the status variable, whatever
error was raised on the way to the exit. -/
def returnStatus (result : Except Raised Unit × World OrderState) :
    Except Raised Unit × World OrderState :=
  match result with
  | (.ok (), w) => (.ok (), w)
  | (.error e, w) => (if w.state.2.operationStatus = 0 then .ok () else .error e, w)

def buildCausalOrder : Routine Analysis Unit :=
  withLocals ({} : OrderLocals) (fun w => returnStatus (causalOrderBody w))

end ToolEvent.ModelAnalysis
