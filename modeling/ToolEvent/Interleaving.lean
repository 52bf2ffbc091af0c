import ToolEvent.AnalysisPasses
import ToolEvent.JsonText

/-!
# The interleaving walk

`p101_tool_analysis_write_interleaving` of `src/analysis.c`: a breadth-first search over
the schedules that exchanges of neighbouring synchronization records lead to, for one on
which the synchronization pass reports what it does not report on the observed order.
A schedule is a list of indices into the ordered nodes, and a refused request also stands
for a write that fails.
-/

namespace ToolEvent.ModelAnalysis

open Fallible World RunModel

structure SyncKey where
  identifier : Text
  source : Text
  target : Text
  message : Text
  file : Text
  function : Text
  line : ℤ
  deriving DecidableEq

def syncKeyIdSize : ℕ := 32

def SyncKey.name (key : SyncKey) : Text × Text × Text := (key.identifier, key.source, key.target)

def Finding.name (finding : Finding) : Text × Text × Text :=
  (finding.diagnosticId, finding.evidenceFrom, finding.evidenceTo)

def syncKeyPresent (keys : List SyncKey) (name : Text × Text × Text) : Bool :=
  keys.any (fun key => key.name = name)

/-- The key `append_sync_key` fills in. -/
def SyncKey.ofFinding (finding : Finding) : SyncKey where
  identifier := finding.diagnosticId
  source := finding.evidenceFrom
  target := finding.evidenceTo
  message := finding.message
  file := finding.fileName
  function := finding.functionName
  line := finding.lineNumber

def fitsKey (finding : Finding) : Bool :=
  finding.diagnosticId.length < syncKeyIdSize ∧
    [finding.evidenceFrom, finding.evidenceTo, finding.message, finding.fileName,
      finding.functionName].all (fun text => text.length < evidenceTextSize)

variable {τ : Type}

def appendSyncKey (keys : List SyncKey) (finding : Finding) : Routine τ (List SyncKey) := do
  let grown ← allocate
  if grown then
    if fitsKey finding then pure (keys ++ [.ofFinding finding]) else fail (.errno .eoverflow)
  else fail (.errno .enomem)

/-- The loop of `collect_prefix_sync_keys` over the findings of one prefix. -/
def collectKeys : List Finding → List SyncKey → Routine τ (List SyncKey)
  | [], keys => pure keys
  | finding :: findings, keys =>
    if syncKeyPresent keys finding.name then collectKeys findings keys
    else do
      let keys ← appendSyncKey keys finding
      collectKeys findings keys

/-- The object that `collect_prefix_sync_keys` makes for a prefix of the order. -/
def prefixAnalysis (order : List OrderedNode) (count : ℕ) : Analysis :=
  { model := {}, ordered := some order, orderedCount := count }

/-- The findings of `analyze_synchronization` on a prefix of the order. -/
def synchronizePrefix (order : List OrderedNode) (count : ℕ) : Routine τ (List Finding) := do
  let analysis ← call (prefixAnalysis order count) analyzeSynchronization
  pure analysis.findings

/-- The loop of `collect_prefix_sync_keys` over the given prefixes. -/
def collectPrefixes (order : List OrderedNode) : List ℕ → List SyncKey → Routine τ (List SyncKey)
  | [], keys => pure keys
  | count :: counts, keys => do
    let findings ← synchronizePrefix order count
    let keys ← collectKeys findings keys
    collectPrefixes order counts keys

/-- `collect_prefix_sync_keys` for all of an order. -/
def collectPrefixSyncKeys (order : List OrderedNode) : Routine τ (List SyncKey) :=
  collectPrefixes order (List.range' 1 order.length) []

def isInterleavingNode (node : Node) : Bool :=
  node.domain = .resource ∧ node.recordKind = .resource ∧ isSynchronizationClass node.resourceClass

def sameSyncThread (left right : Node) : Bool :=
  if left.metadata.isEmpty = false ∧ right.metadata.isEmpty = false then
    left.pid = right.pid ∧ left.metadata = right.metadata
  else left.pid = right.pid ∧ left.contextId = right.contextId

def directlyOrdered (analysis : Analysis) (left right : ℕ) : Bool :=
  analysis.model.edges.any (fun edge => edge.source = left ∧ edge.target = right)

/-- The tests on two neighbours before they are exchanged. -/
def isExchangeable (analysis : Analysis) (left right : OrderedNode) : Bool :=
  isInterleavingNode left.node ∧ isInterleavingNode right.node ∧
    ¬ sameSyncThread left.node right.node ∧
    ¬ directlyOrdered analysis left.originalIndex right.originalIndex

/-- A counterexample: the entries of the chain to its schedule, the exchanges that are
written, as indices of nodes, and the keys that are written. -/
structure Counterexample where
  chain : List ℕ
  swaps : List (ℕ × ℕ)
  findings : List SyncKey
  deriving DecidableEq

/-- The arrays of the walk, the counterexamples found, what was written, and the number of
schedules that the summary reports. -/
structure Walk where
  orders : List (List ℕ) := []
  parents : List (Option ℕ) := []
  swapLeft : List ℕ := []
  swapRight : List ℕ := []
  counterexamples : List Counterexample := []
  text : Text := .empty
  explored : Option ℕ := none

def writeText (text : Text) : Routine Walk Unit := do
  let written ← allocate
  if written then updateState (fun walk => { walk with text := walk.text ++ text })
  else fail (.errno .eio)

/-- An element that the source reads without a test. -/
def orOutside {α : Type} (element : Option α) : Routine τ α :=
  match element with
  | some a => pure a
  | none => fail .outside

/-- The loop that follows the parents from a schedule to the first one. -/
def chainFrom (parents : List (Option ℕ)) : ℕ → Option ℕ → Option (List ℕ)
  | _, none => some []
  | 0, some _ => none
  | fuel + 1, some cursor =>
    parents[cursor]?.bind (fun parent => (chainFrom parents fuel parent).map (cursor :: ·))

def Walk.swapAt (walk : Walk) (item : ℕ) : Option (ℕ × ℕ) :=
  match walk.swapLeft[item]?, walk.swapRight[item]? with
  | some left, some right => some (left, right)
  | _, _ => none

def swapText (before after : Node) : Text :=
  .ofString "\x7b\"before\":" ++ writeJsonString (formatNodeId (some before)) ++ .ofString ",\"after\":" ++
    writeJsonString (formatNodeId (some after)) ++ .ofString "\x7d"

/-- `write_sync_key_json`. -/
def syncKeyText (key : SyncKey) : Text :=
  .ofString "\x7b\"id\":" ++ writeJsonString key.identifier ++ .ofString ",\"message\":" ++
    writeJsonString key.message ++ .ofString ",\"location\":\x7b\"file\":" ++ writeJsonString key.file ++
    .ofString ",\"line\":" ++ .decimal key.line ++ .ofString ",\"function\":" ++
    writeJsonString key.function ++ .ofString "\x7d,\"evidence\":\x7b\"from\":" ++ writeJsonString key.source ++
    .ofString ",\"to\":" ++ writeJsonString key.target ++ .ofString "\x7d\x7d"

def commaText : List Text → Text
  | [] => .empty
  | [text] => text
  | text :: texts => text ++ .ofString "," ++ commaText texts

def counterexampleText (swaps : List (Node × Node)) (findings : List SyncKey) : Text :=
  .ofString "\n    \x7b\"swaps\":[" ++ commaText (swaps.map fun swap => swapText swap.1 swap.2) ++
    .ofString "],\"findings\":[" ++ commaText (findings.map syncKeyText) ++ .ofString "]\x7d"

def Analysis.orderedNodesAt (analysis : Analysis) (index : ℕ) : Option OrderedNode :=
  ((analysis.ordered.getD []).take analysis.orderedCount)[index]?

def Analysis.swapNodes (analysis : Analysis) (swaps : List (ℕ × ℕ)) : Option (List (Node × Node)) :=
  swaps.mapM (fun swap =>
    match analysis.orderedNodesAt swap.1, analysis.orderedNodesAt swap.2 with
    | some before, some after => some (before.node, after.node)
    | _, _ => none)

/-- What is done when the schedule stored last has keys that the observed order has not. -/
def writeCounterexample (analysis : Analysis) (findings : List SyncKey) : Routine Walk Unit := do
  let walk ← readState
  let chain ← orOutside (chainFrom walk.parents walk.parents.length (some (walk.parents.length - 1)))
  let swaps ← orOutside (chain.dropLast.reverse.mapM walk.swapAt)
  let nodes ← orOutside (analysis.swapNodes swaps)
  writeText (counterexampleText nodes findings)
  updateState (fun walk =>
    { walk with counterexamples := walk.counterexamples ++ [⟨chain, swaps, findings⟩] })

/-- The schedule that differs in the order of two neighbours. -/
def exchangeAt (index : ℕ) (order : List ℕ) : List ℕ :=
  match order[index]?, order[index + 1]? with
  | some left, some right => (order.set index right).set (index + 1) left
  | _, _ => order

/-- Store a schedule with its parent and the exchange that led to it. -/
def Walk.store (schedule : List ℕ) (parent : Option ℕ) (left right : ℕ) (walk : Walk) : Walk :=
  { walk with
    orders := walk.orders ++ [schedule]
    parents := walk.parents ++ [parent]
    swapLeft := walk.swapLeft ++ [left]
    swapRight := walk.swapRight ++ [right] }

/-- Run the pass on a schedule and write what is new. -/
def examine (analysis : Analysis) (baseline : List SyncKey) (candidate : List ℕ) : Routine Walk Unit := do
  let allocated ← allocate
  if allocated then do
    let order ← orOutside (candidate.mapM analysis.orderedNodesAt)
    let keys ← collectPrefixSyncKeys order
    let fresh := keys.filter (fun key => !syncKeyPresent baseline key.name)
    (if fresh = [] then pure () else writeCounterexample analysis fresh)
  else fail (.errno .enomem)

/-- One iteration of the loop over the neighbours in a schedule. -/
def exchange (analysis : Analysis) (baseline : List SyncKey) (limit queueIndex index : ℕ) :
    Routine Walk Unit := do
  let walk ← readState
  if walk.orders.length < limit ∧ walk.counterexamples = [] then do
    let current ← orOutside walk.orders[queueIndex]?
    let left ← orOutside current[index]?
    let right ← orOutside current[index + 1]?
    let leftNode ← orOutside (analysis.orderedNodesAt left)
    let rightNode ← orOutside (analysis.orderedNodesAt right)
    let candidate := exchangeAt index current
    if isExchangeable analysis leftNode rightNode = false ∨ candidate ∈ walk.orders then pure ()
    else
      updateState (Walk.store candidate (some queueIndex) left right)
      examine analysis baseline candidate
  else pure ()

/-- The loop over the queue of stored schedules. Its condition is false at the index that the
bound on the steps ends with, since fewer schedules than the limit are stored. -/
def walkQueue (analysis : Analysis) (baseline : List SyncKey) (limit : ℕ) : ℕ → ℕ → Routine Walk Unit
  | 0, _ => pure ()
  | fuel + 1, queueIndex => do
    let walk ← readState
    if queueIndex < walk.orders.length ∧ walk.orders.length < limit ∧ walk.counterexamples = [] then
      forEach (exchange analysis baseline limit queueIndex) (List.range (analysis.orderedCount - 1))
      walkQueue analysis baseline limit fuel (queueIndex + 1)
    else pure ()

def summaryText (explored counterexamples baselineFindings limit : ℕ) : Text :=
  .ofString "\n  ],\n  \"summary\": \x7b\"schedules_explored\": " ++ .decimal explored ++
    .ofString ", \"counterexample_schedules\": " ++ .decimal counterexamples ++
    .ofString ", \"baseline_findings\": " ++ .decimal baselineFindings ++ .ofString ", \"bound\": " ++
    .decimal limit ++
    .ofString "\x7d,\n  \"blind_spots\": [\"explores reorderings of observed synchronization events only\", \"does not execute the program or invent unobserved branches\", \"preserves recorded causal edges and each thread's local order\"]\n\x7d\n"

def writeSummary (analysis : Analysis) (limit : ℕ) : Routine Walk Unit := do
  let walk ← readState
  writeText (summaryText walk.orders.length walk.counterexamples.length
    (analysis.policyCounts .synchronization) limit)
  updateState (fun walk => { walk with explored := some walk.orders.length })

/-- The sizes in bytes that `p101_tool_analysis_write_interleaving` computes do not overflow. -/
def sizesFit (nodeCount limit : ℕ) : Bool :=
  limit ≤ sizeMax / 8 ∧ (nodeCount ≠ 0 → limit ≤ sizeMax / nodeCount) ∧
    limit * max 1 nodeCount ≤ sizeMax / 8 ∧ nodeCount ≤ sizeMax / 16

/-- `p101_tool_analysis_write_interleaving` before its loop over the queue: the keys of the observed
order, unless one of the six arrays is refused. -/
def startWalk (analysis : Analysis) (limit : ℕ) : Routine Walk (Option (List SyncKey)) := do
  let nodeCount := analysis.orderedCount
  if limit = 0 ∨ analysis.ordered = none then fail (.errno .einval)
  else if sizesFit nodeCount limit = false then fail (.errno .eoverflow)
  else
    let baseline ← collectPrefixSyncKeys ((analysis.ordered.getD []).take nodeCount)
    let granted ← allocateAll 6
    if granted then do
      updateState (Walk.store (List.range nodeCount) none 0 0)
      writeText (.ofString "\x7b\n  \"schema\": \"p101-interleaving-walk-v1\",\n  \"counterexamples\": [")
      pure (some baseline)
    else pure none

/-- `p101_tool_analysis_write_interleaving` on non-null arguments. When one of its six arrays
is refused an error is raised, and still 0 returned. -/
def writeInterleaving (analysis : Analysis) (limit : ℕ) : Routine Walk Unit := do
  let start ← startWalk analysis limit
  match start with
  | some baseline =>
    walkQueue analysis baseline limit limit 0
    writeSummary analysis limit
  | none => pure ()

end ToolEvent.ModelAnalysis
