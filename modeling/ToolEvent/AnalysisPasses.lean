import ToolEvent.CausalOrder
import ToolEvent.Synchronization

/-!
# The passes of an analysis

The resource, trace and sanitizer passes of `src/analysis.c`, and the run of all passes.
The sanitizer file is given by what reading it yields.
-/

namespace ToolEvent.ModelAnalysis

open Fallible World RunModel

def findNode (analysis : Analysis) (pid : ℤ) (context sequence : ℕ) : Option Node :=
  analysis.orderedNodes.find? (fun node =>
    node.pid = pid ∧ node.contextId = context ∧ node.sequence = sequence)

def lifecycleIdentifier (finding : Lifecycle.Finding) : String :=
  let descriptor : Bool := finding.resourceClass = .ofString "fd"
  let allocation : Bool := finding.resourceClass = .ofString "allocation"
  let processObligation : Bool := finding.resourceClass = .ofString "child-process" ∨
    finding.resourceClass = .ofString "pthread-joinable-thread"
  match finding.kind with
  | .leak =>
    if processObligation then "P101-PROC-001" else if descriptor then "P101-FD-001"
    else if allocation then "P101-ALLOC-001" else "P101-RESOURCE-001"
  | .doubleRelease =>
    if descriptor then "P101-FD-002" else if allocation then "P101-ALLOC-002" else "P101-RESOURCE-002"
  | .strayRelease =>
    if descriptor then "P101-FD-003" else if allocation then "P101-ALLOC-003" else "P101-RESOURCE-003"
  | .badReplace => if allocation then "P101-ALLOC-004" else "P101-RESOURCE-004"
  | .duplicateAcquire => "P101-RESOURCE-005"
  | .execInherit => "P101-FD-004"
  | .invalidUse => "P101-RESOURCE-007"

def lifecycleMessage (identifier : String) : String :=
  match identifier with
  | "P101-PROC-001" => "child process was not reaped or joinable thread was not joined or detached"
  | "P101-FD-001" => "descriptor is still open at the end of the run"
  | "P101-FD-002" => "descriptor was closed more than once"
  | "P101-FD-003" => "descriptor was closed without an observed acquisition"
  | "P101-FD-004" => "descriptor would be inherited across exec without CLOEXEC"
  | "P101-ALLOC-001" => "allocation is still live at the end of the run"
  | "P101-ALLOC-002" => "allocation was freed more than once"
  | "P101-ALLOC-003" => "pointer was freed without an observed allocation"
  | "P101-ALLOC-004" => "realloc referenced a pointer that was not live"
  | "P101-RESOURCE-001" => "resource is still live at the end of the run"
  | "P101-RESOURCE-002" => "resource was released more than once"
  | "P101-RESOURCE-003" => "resource was released without an observed acquisition"
  | "P101-RESOURCE-004" => "resource replacement referenced a resource that was not live"
  | "P101-RESOURCE-007" =>
    "resource was used before acquisition, after release, or after ownership transfer"
  | _ => "resource was acquired while the same identity was already live"

/-- One iteration of the loop of `analyze_resources` over the ordered nodes. -/
def analyzeResourceNode (node : Node) : Routine Analysis Unit := do
  (if node.domain = .resource then
    updateState (fun a => { a with resourceRecords := a.resourceRecords + 1 })
  else pure ())
  (if node.recordKind = .alloc ∧ node.size = 0 ∧ (node.allocKind = .alloc ∨ node.allocKind = .realloc) then
    addFinding (.ofString "P101-MEM-001") .resource (.ofString "allocation size was zero at runtime")
      (some node) (some node.ptr) (some node.newPtr) none
  else pure ())

/-- One iteration of the loop of `analyze_resources` over the lifecycle findings. -/
def analyzeLifecycleFinding (finding : Lifecycle.Finding) : Routine Analysis Unit := do
  let analysis ← readState
  let identifier := lifecycleIdentifier finding
  addFinding (.ofString identifier) .resource (.ofString (lifecycleMessage identifier))
    (findNode analysis finding.pid finding.contextId finding.sequence)
    (some finding.resourceClass) (some finding.resourceId) none

def analyzeResources : Routine Analysis Unit := do
  updateState (fun a => { a with resourceRecords := 0 })
  let analysis ← readState
  forEach analyzeResourceNode analysis.orderedNodes
  forEach analyzeLifecycleFinding ((analysis.model.lifecycle.map Lifecycle.Model.findings).getD [])

structure TraceStackEntry where
  nodeIndex : ℕ
  previous : Option ℕ
  deriving DecidableEq

/-- The analysis object, and the entries in use of `stack_entries`. -/
abbrev TraceState := Analysis × List TraceStackEntry

def traceLineSize : ℕ := 2048
def traceMaxIndentation : ℕ := 120
def traceInitialCapacity : ℕ := 4096

/-- The loop of `append_trace` that doubles the capacity. After 64 rounds its second test
fails. -/
def growTrace (required : ℕ) : ℕ → ℕ → ℕ
  | 0, capacity => capacity
  | fuel + 1, capacity =>
    if capacity < required ∧ capacity ≤ sizeMax / 2 then growTrace required fuel (capacity * 2)
    else capacity

def appendTrace (text : Text) : Routine Analysis Unit := do
  let analysis ← readState
  let required := analysis.traceTree.length + text.length + 1
  if sizeMax < required then fail (.errno .eoverflow)
  else
    (if analysis.traceTreeCapacity < required then do
      let capacity := growTrace required 64
        (if analysis.traceTreeCapacity = 0 then traceInitialCapacity else analysis.traceTreeCapacity)
      if capacity < required then fail (.errno .eoverflow)
      else
        let grown ← allocate
        if grown then updateState (fun a => { a with traceTreeCapacity := capacity })
        else fail (.errno .enomem)
    else pure ())
    updateState (fun a => { a with traceTree := a.traceTree ++ text })

/-- The text of a call or a result in a line; `-` stands for an empty one. -/
def traceDetail (text : Text) : Text := if text = .ofString "-" then .empty else text

/-- The line `append_trace_line` formats. -/
@[irreducible]
def traceLine (node : Node) (depth : ℕ) (entering : Bool) : Text :=
  let indentation := if traceMaxIndentation / 2 < depth then traceMaxIndentation else depth * 2
  let head := Text.ofString "#" ++ .decimal node.sequence ++ .ofString " pid " ++ .decimal node.pid ++
    .ofString " context " ++ .decimal node.contextId ++ .ofString " " ++
    .ofString (String.ofList (List.replicate indentation ' '))
  let place := Text.ofString "  [" ++ node.fileName ++ .ofString ":" ++ .decimal node.lineNumber ++
    .ofString "]\n"
  if entering then
    head ++ node.callName ++ .ofString "(" ++ traceDetail node.arguments ++ .ofString ")" ++ place
  else
    let result := traceDetail node.result
    head ++ .ofString "-> " ++ node.callName ++ .ofString (if result.isEmpty then "" else " = ") ++
      result ++ place

def appendTraceLine (node : Node) (depth : ℕ) (entering : Bool) : Routine TraceState Unit :=
  let line := traceLine node depth entering
  if line.length < traceLineSize then onFirst (appendTrace line) else fail (.errno .eoverflow)

/-- `trace_context`: the index of the context. -/
def traceContext (pid : ℤ) (context : ℕ) : Routine TraceState ℕ := do
  let (analysis, _) ← readState
  match analysis.traceContexts.findIdx? (fun c => c.pid = pid ∧ c.context = context) with
  | some index => pure index
  | none =>
    if analysis.orderedCount ≤ analysis.traceContexts.length then fail (.errno .eoverflow)
    else
      updateState (fun s =>
        ({ s.1 with traceContexts := s.1.traceContexts ++ [{ pid := pid, context := context }] }, s.2))
      pure analysis.traceContexts.length

def updateContext (index : ℕ) (f : TraceContext → TraceContext) : Routine TraceState Unit :=
  updateState (fun s => ({ s.1 with traceContexts := s.1.traceContexts.modify index f }, s.2))

def stackedNode (s : TraceState) (top : ℕ) : Option (TraceStackEntry × Node) :=
  s.2[top]?.bind (fun entry => s.1.orderedNodes[entry.nodeIndex]?.map (fun node => (entry, node)))

/-- The context of a child after a fork: the calls open in the parent, without the call that
forks itself. When the parent's context is refused the child's would be too. -/
def traceFork (node : Node) : Routine TraceState Unit := do
  let parent ← traceContext node.pid node.contextId
  let child ← traceContext node.childPid node.contextId
  let s ← readState
  match s.1.traceContexts[parent]? with
  | none => fail .outside
  | some p =>
    updateContext child (fun c => { c with top := p.top, depth := p.depth, maxDepth := p.depth })
    match p.top with
    | none => pure ()
    | some top =>
      match stackedNode s top with
      | none => fail .outside
      | some (entry, active) =>
        if active.callName = node.functionName then
          updateContext child (fun c => { c with top := entry.previous, depth := c.depth - 1 })
        else pure ()

def addTraceFinding (identifier message : String) (node : Node) : Routine TraceState Unit :=
  onFirst (addFinding (.ofString identifier) .trace (.ofString message) (some node) none none
    (some node.callName))

def traceEnter (index : ℕ) (node : Node) (context : ℕ) (c : TraceContext) : Routine TraceState Unit := do
  appendTraceLine node c.depth true
  let (_, stack) ← readState
  updateState (fun s => (s.1, s.2 ++ [⟨index, c.top⟩]))
  updateContext context (fun c =>
    { c with top := some stack.length, depth := c.depth + 1, maxDepth := max c.maxDepth (c.depth + 1) })

def identityMismatch (active node : Node) : Bool :=
  active.callName ≠ node.callName ∨ active.fileName ≠ node.fileName ∨
    active.functionName ≠ node.functionName

def traceExit (node : Node) (context : ℕ) (c : TraceContext) : Routine TraceState Unit := do
  appendTraceLine node (c.depth - 1) false
  let s ← readState
  match c.top with
  | none =>
    updateContext context (fun c => { c with unmatched := c.unmatched + 1 })
    addTraceFinding "P101-TRACE-001" "call exit has no matching active call" node
  | some top =>
    match stackedNode s top with
    | none => fail .outside
    | some (entry, active) =>
      if identityMismatch active node then
        updateContext context (fun c => { c with mismatched := c.mismatched + 1 })
        addTraceFinding "P101-TRACE-002" "call exit does not match the active call" node
      else updateContext context (fun c => { c with top := entry.previous, depth := c.depth - 1 })

/-- One iteration of the first loop of `analyze_trace`. -/
def traceNode (x : Node × ℕ) : Routine TraceState Unit :=
  let node := x.1
  if node.domain = .resource ∧ node.recordKind = .fork then traceFork node
  else if node.domain ≠ .call then pure ()
  else do
    updateState (fun s => ({ s.1 with callRecords := s.1.callRecords + 1 }, s.2))
    let context ← traceContext node.pid node.contextId
    let (analysis, _) ← readState
    match analysis.traceContexts[context]? with
    | none => fail .outside
    | some c => if node.callKind = .enter then traceEnter x.2 node context c else traceExit node context c

def reportOpenCalls : ℕ → Option ℕ → Routine TraceState Unit
  | _, none => pure ()
  | 0, some _ => fail .unfinished
  | fuel + 1, some top => do
    let s ← readState
    match stackedNode s top with
    | none => fail .outside
    | some (entry, node) =>
      addTraceFinding "P101-TRACE-003" "call remained open at the end of the event stream" node
      reportOpenCalls fuel entry.previous

/-- `analyze_trace` after its arrays are requested, both before either is checked. -/
def traceBody : Routine TraceState Unit := do
  let granted ← allocateAll 2
  if granted then do
    let (analysis, _) ← readState
    forEach traceNode analysis.orderedNodes.zipIdx
    let (analysis, stack) ← readState
    forEach (fun c : TraceContext => reportOpenCalls (stack.length + 1) c.top) analysis.traceContexts
  else fail (.errno .enomem)

def analyzeTrace : Routine Analysis Unit := withLocals ([] : List TraceStackEntry) traceBody

/-- What `analyze_sanitizer` meets when it reads a file: whether it opens, the texts that
`getline` returns, and whether reading and closing report an error, with what they leave in
`errno`. -/
structure SanitizerFile where
  opens : Bool := true
  openErrno : Errno := .unset
  lines : List Text := []
  readError : Bool := false
  readErrno : Errno := .unset
  closeError : Bool := false
  closeErrno : Errno := .unset

/-- The four reports of sanitizers, with the texts that announce them. -/
def sanitizerReports : List (String × String × String) :=
  [("AddressSanitizer:", "P101-SAN-001", "AddressSanitizer reported an invalid memory access"),
    ("LeakSanitizer:", "P101-SAN-002", "LeakSanitizer reported leaked memory"),
    ("runtime error:", "P101-SAN-003", "UndefinedBehaviorSanitizer reported undefined behavior"),
    ("ThreadSanitizer:", "P101-SAN-004",
      "ThreadSanitizer reported a data race or synchronization defect")]

/-- The node of a report, all of whose other fields are zero. -/
def syntheticNode (lineNumber : ℕ) : Node where
  domain := .resource
  recordKind := .fd
  runId := .ofString "stderr"
  sequence := lineNumber
  fileName := .ofString "stderr.txt"
  functionName := .ofString "?"
  lineNumber := lineNumber

/-- The first report that a line announces, with its number and its detail. -/
def findReport (line : Text) : Option (ℕ × (String × String × String) × Text) :=
  sanitizerReports.zipIdx.findSome? (fun report =>
    (line.search (.ofString report.1.1)).map (fun detail => (report.2, report.1, detail)))

def Analysis.countReport (index : Fin 4) (analysis : Analysis) : Analysis :=
  { analysis with
    sanitizerCounts := Function.update analysis.sanitizerCounts index (analysis.sanitizerCounts index + 1) }

/-- One iteration of the loop of `analyze_sanitizer`. -/
def sanitizeLine (x : Text × ℕ) : Routine Analysis Unit := do
  updateState (fun a => { a with sanitizerRecords := a.sanitizerRecords + 1 })
  match findReport x.1 with
  | none => pure ()
  | some (index, (_, identifier, message), detail) =>
    addFinding (.ofString identifier) .sanitizer (.ofString message) (some (syntheticNode (x.2 + 1)))
      none none (some detail)
    updateState (Analysis.countReport (Fin.ofNat 4 index))

/-- `analyze_sanitizer`; no file is given by the null path. -/
def analyzeSanitizer (file : Option SanitizerFile) : Routine Analysis Unit :=
  match file with
  | none => pure ()
  | some file =>
    if file.opens = false then do
      updateState (fun a => { a with trouble := true })
      fail (.errno file.openErrno)
    else do
      forEach sanitizeLine file.lines.zipIdx
      if file.readError then fail (.errno (if file.readErrno = .unset then .eio else file.readErrno))
      else if file.closeError then fail (.errno file.closeErrno)
      else pure ()

/-- `p101_tool_analysis_run` on a non-null object. -/
def runAnalysis (file : Option SanitizerFile) : Routine Analysis Unit := do
  let analysis ← readState
  if analysis.ordered.isSome then fail (.errno .einval)
  else
    buildCausalOrder
    analyzeResources
    analyzeSynchronization
    analyzeTrace
    analyzeSanitizer file

end ToolEvent.ModelAnalysis
