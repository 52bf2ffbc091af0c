import ToolEvent.RunModel

/-!
# The analysis object

The object of `src/analysis.c` that holds the causal order of a finished run model and
the findings of the passes over it. The passes are routines over this object.
-/

namespace ToolEvent.ModelAnalysis

open Fallible World RunModel

/-- `p101_tool_analysis_policy`. -/
inductive Policy
  | resource | synchronization | trace | sanitizer
  deriving DecidableEq

structure OrderedNode where
  node : Node
  originalIndex : ℕ
  deriving DecidableEq

/-- `struct owned_finding`, with the texts by value. What is read back through the references that it stores is
the subject of `FindingStorage`; the two agree as long as there are no more than sixteen findings. -/
structure Finding where
  diagnosticId : Text
  policy : Policy
  message : Text
  nodeId : Text
  fileName : Text
  functionName : Text
  lineNumber : ℤ
  evidenceFrom : Text
  evidenceTo : Text
  evidenceDetail : Text
  deriving DecidableEq

structure TraceContext where
  pid : ℤ
  context : ℕ
  top : Option ℕ := none
  maxDepth : ℕ := 0
  depth : ℕ := 0
  unmatched : ℕ := 0
  mismatched : ℕ := 0
  deriving DecidableEq

/-- `struct p101_tool_analysis`; the defaults are the object that
`p101_tool_analysis_create` returns for the model. `ordered` holds the elements written
to the array so far. -/
structure Analysis where
  model : Model
  ordered : Option (List OrderedNode) := none
  orderedCount : ℕ := 0
  findings : List Finding := []
  findingCapacity : ℕ := 0
  policyCounts : Policy → ℕ := fun _ => 0
  resourceRecords : ℕ := 0
  synchronizationRecords : ℕ := 0
  lockOrderEdges : ℕ := 0
  callRecords : ℕ := 0
  sanitizerRecords : ℕ := 0
  sanitizerCounts : Fin 4 → ℕ := fun _ => 0
  traceContexts : List TraceContext := []
  traceTree : Text := .empty
  traceTreeCapacity : ℕ := 0
  trouble : Bool := false

/-- The nodes of the causal order that the passes go through. -/
def Analysis.orderedNodes (analysis : Analysis) : List Node :=
  ((analysis.ordered.getD []).take analysis.orderedCount).map OrderedNode.node

def initialFindingCapacity : ℕ := 16
def evidenceTextSize : ℕ := 192
def nodeIdSize : ℕ := 384

def nodeKind (node : Node) : String :=
  match node.recordKind with
  | .call => if node.callKind = .enter then "call-enter" else "call-exit"
  | .resource => "resource"
  | .fork => "fork"
  | .spawn => "spawn"
  | .exec => "exec"
  | .execFail => "exec-fail"
  | .fd => "fd"
  | .alloc | .complete => "allocation"

/-- `format_node_id` into a buffer of `NODE_ID_SIZE` bytes. -/
def formatNodeId (node : Option Node) : Text :=
  match node with
  | none => .ofString "lifecycle:unknown"
  | some node =>
    (Text.ofString (if node.domain = .call then "call:" else "resource:") ++ node.runId ++
      .ofString ":" ++ .decimal node.pid ++ .ofString ":" ++ .decimal node.contextId ++
      .ofString ":" ++ .decimal node.sequence ++ .ofString ":" ++ .ofString (nodeKind node)).take
        (nodeIdSize - 1)

/-- The size of a `struct owned_finding` in bytes. -/
def findingSize : ℕ := 1040

def reserveFindings : Routine Analysis Unit := do
  let analysis ← readState
  let capacity := if analysis.findingCapacity = 0 then initialFindingCapacity else analysis.findingCapacity * 2
  if analysis.findings.length < analysis.findingCapacity then pure ()
  else if sizeMax / findingSize < capacity then fail (.errno .eoverflow)
  else
    let grown ← allocate
    if grown then updateState (fun a => { a with findingCapacity := capacity })
    else fail (.errno .enomem)

/-- Whether a text fits a buffer of `EVIDENCE_TEXT_SIZE` bytes; an absent text is not copied. -/
def fitsEvidence (text : Option Text) : Bool := text.all (fun t => t.length < evidenceTextSize)

/-- The finding `add_finding` fills in. -/
def newFinding (identifier : Text) (policy : Policy) (message : Text) (node : Option Node)
    (source target detail : Option Text) : Finding where
  diagnosticId := identifier
  policy := policy
  message := message
  nodeId := formatNodeId node
  fileName := (node.map Node.fileName).getD (.ofString "?")
  functionName := (node.map Node.functionName).getD (.ofString "?")
  lineNumber := (node.map Node.lineNumber).getD 0
  evidenceFrom := source.getD .empty
  evidenceTo := target.getD .empty
  evidenceDetail := detail.getD .empty

def Analysis.withFinding (finding : Finding) (analysis : Analysis) : Analysis :=
  { analysis with
    findings := analysis.findings ++ [finding]
    policyCounts := Function.update analysis.policyCounts finding.policy
      (analysis.policyCounts finding.policy + 1) }

def addFinding (identifier : Text) (policy : Policy) (message : Text) (node : Option Node)
    (source target detail : Option Text) : Routine Analysis Unit := do
  reserveFindings
  if fitsEvidence source ∧ fitsEvidence target ∧ fitsEvidence detail then
    updateState (Analysis.withFinding (newFinding identifier policy message node source target detail))
  else fail (.errno .eoverflow)

def analysisStatus (analysis : Analysis) : ℕ :=
  if analysis.trouble then 2 else if analysis.findings.length = 0 then 0 else 1

def analysisPolicyStatus (analysis : Analysis) (policy : Policy) : ℕ :=
  if analysis.trouble then 2 else if analysis.policyCounts policy = 0 then 0 else 1

end ToolEvent.ModelAnalysis
