import ToolEvent.Library.JsonParts
import ToolEvent.JsonText
import ToolEvent.NodeIdentity

/-!
# The writers of the model document

`src/model_json.c` writes a finished model to a stream as a JSON document. Its routines
check the status of every operation on the stream, each in the convention of its kind.
-/

namespace ToolEvent.ModelJson

open OutputStream RunModel ModelInput

/-- What the writers use of other libraries: the name of the event schema, and the pieces in which
the JSON library writes a text, with the quotes around it and without them. -/
structure WriterLibrary where
  /-- `P101_TOOL_EVENT_SCHEMA_NAME`. -/
  schemaName : Text
  schemaName_plain : ∀ b ∈ schemaName.bytes, Json.isPlain b
  /-- `p101_json_write_string`. -/
  string : Text → List (List UInt8)
  string_spells : ∀ text, ∃ contents, Json.Spells contents text.bytes ∧ (string text).flatten = 34 :: (contents ++ [34])
  /-- `p101_json_write_string_contents`. -/
  contents : Text → List (List UInt8)
  contents_spells : ∀ text, Json.Spells (contents text).flatten text.bytes

/-- The spelling of one byte in the literals of the JSON library. -/
def spelling (b : UInt8) : List UInt8 :=
  if b = 34 ∨ b = 92 then [92, b]
  else if b = 8 then [92, 98] else if b = 12 then [92, 102] else if b = 10 then [92, 110]
  else if b = 13 then [92, 114] else if b = 9 then [92, 116]
  else if b < 32 then [92, 117, 48, 48, ModelAnalysis.hexDigit (b.toNat / 16), ModelAnalysis.hexDigit (b.toNat % 16)]
  else [b]

theorem readUnit_control : ∀ n < 32,
    Json.readUnit [48, 48, ModelAnalysis.hexDigit (n / 16), ModelAnalysis.hexDigit (n % 16)] = some (n, []) ∧
      Json.utf8 n = [n.toUInt8] ∧ Json.isHigh n = false ∧ Json.isLow n = false := by decide

theorem spellsCharacter_spelling (b : UInt8) : Json.SpellsCharacter (spelling b) [b] := by
  unfold spelling
  split_ifs with hescaped hback hfeed hnewline hreturn htab hcontrol
  · rcases hescaped with rfl | rfl <;> exact .escape (by decide)
  · exact hback ▸ .escape (by decide)
  · exact hfeed ▸ .escape (by decide)
  · exact hnewline ▸ .escape (by decide)
  · exact hreturn ▸ .escape (by decide)
  · exact htab ▸ .escape (by decide)
  · obtain ⟨hunit, hutf8, hhigh, hlow⟩ := readUnit_control b.toNat (UInt8.lt_iff_toNat_lt.mp hcontrol)
    have hunicode := Json.SpellsCharacter.unicode hunit hhigh hlow
    rwa [hutf8, Nat.toUInt8, UInt8.ofNat_toNat] at hunicode
  · rw [not_or] at hescaped
    exact .plain (UInt8.not_lt.mp hcontrol) hescaped.1 hescaped.2

theorem spells_spelling (bytes : List UInt8) : Json.Spells (bytes.map spelling).flatten bytes := by
  induction bytes with
  | nil => exact .nil
  | cons b bytes ih => exact .cons (spellsCharacter_spelling b) ih

/-- Writers that spell byte by byte. -/
def WriterLibrary.standard : WriterLibrary where
  schemaName := .ofString "p101-tool-event-format-v5"
  schemaName_plain := by decide
  string text := [34] :: (text.bytes.map spelling ++ [[34]])
  string_spells text := ⟨_, spells_spelling text.bytes, by simp⟩
  contents text := text.bytes.map spelling
  contents_spells text := spells_spelling text.bytes

def puts (literal : String) : Writer := fputs (Text.ofString literal).bytes

def printf (text : Text) : Writer := fprintf text.bytes

variable (lib : WriterLibrary)

/-- `write_json_string`, which fails at once on a null pointer. -/
def writeJsonString : Option Text → Writer
  | none => giveUp
  | some text => attempt ((lib.string text).map .write)

def writeJsonStringContents (text : Text) : Writer := attempt ((lib.contents text).map .write)

/-- The branch of several routines on the availability of a time. -/
def writeTimeOrNull (available : Bool) (ns : ℕ) (next : Writer) : Writer :=
  if available then unlessNegative (printf (.decimal ns)) next else unlessEof (puts "null") next

def boolText (b : Bool) : Text := if b then .ofString "true" else .ofString "false"

def writeLifecycleLocation (context sequence monotonicNs : ℕ) (monotonicAvailable : Bool) (fileName : Option Text)
    (lineNumber : ℤ) (functionName : Option Text) : Writer :=
  unlessNegative (printf (.ofString "\x7b\"context\":" ++ .decimal context ++ .ofString ",\"sequence\":" ++
    .decimal sequence ++ .ofString ",\"monotonic_ns\":")) <|
  writeTimeOrNull monotonicAvailable monotonicNs <|
  unlessEof (fputs (Text.ofString ",\"source\":" ++ .ofString "\x7b\"file\":").bytes) <|
  unlessNonzero (writeJsonString lib fileName) <|
  unlessNegative (printf (.ofString ",\"line\":" ++ .decimal lineNumber ++ .ofString ",\"function\":")) <|
  unlessNonzero (writeJsonString lib functionName) <|
  unlessEof (fputs (Text.ofString "\x7d" ++ .ofString "\x7d").bytes) done

def writeLifecycleEntry (entry : Lifecycle.Entry) : Writer :=
  unlessEof (puts "      \x7b\"pid\":") <|
  unlessNegative (printf (.decimal entry.pid ++ .ofString ",\"resource_class\":")) <|
  unlessNonzero (writeJsonString lib entry.resourceClass) <|
  unlessEof (puts ",\"identity\":") <|
  unlessNonzero (writeJsonString lib entry.resourceId) <|
  unlessNegative (printf (.ofString ",\"size\":" ++ .decimal entry.size ++ .ofString ",\"live\":" ++
    boolText entry.live ++ .ofString ",\"acquired\":")) <|
  unlessNonzero (writeLifecycleLocation lib entry.acquiredContextId entry.acquiredSequence
    entry.acquiredMonotonicNs entry.acquiredMonotonicNsAvailable entry.acquiredFileName entry.acquiredLineNumber
    entry.acquiredFunctionName) <|
  unlessEof (puts ",\"released\":") <|
  (if entry.live then unlessEof (puts "null")
    else unlessNonzero (writeLifecycleLocation lib entry.releasedContextId entry.releasedSequence
      entry.releasedMonotonicNs entry.releasedMonotonicNsAvailable entry.releasedFileName entry.releasedLineNumber
      entry.releasedFunctionName)) <|
  unlessEof (fputc 125) done

def lifecycleFindingKindName : Lifecycle.FindingKind → Text
  | .leak => .ofString "leak"
  | .doubleRelease => .ofString "double-release"
  | .strayRelease => .ofString "stray-release"
  | .badReplace => .ofString "bad-replace"
  | .duplicateAcquire => .ofString "duplicate-acquire"
  | .execInherit => .ofString "exec-inherit"
  | .invalidUse => .ofString "invalid-use"

def writeLifecycleFinding (finding : Lifecycle.Finding) : Writer :=
  unlessEof (puts "      \x7b\"kind\":") <|
  unlessNonzero (writeJsonString lib (lifecycleFindingKindName finding.kind)) <|
  unlessNegative (printf (.ofString ",\"pid\":" ++ .decimal finding.pid ++ .ofString ",\"resource_class\":")) <|
  unlessNonzero (writeJsonString lib finding.resourceClass) <|
  unlessEof (puts ",\"identity\":") <|
  unlessNonzero (writeJsonString lib finding.resourceId) <|
  unlessEof (puts ",\"at\":") <|
  unlessNonzero (writeLifecycleLocation lib finding.contextId finding.sequence finding.monotonicNs
    finding.monotonicNsAvailable finding.fileName finding.lineNumber finding.functionName) <|
  unlessEof (puts ",\"previous\":") <|
  (if finding.previousSequence = 0 then unlessEof (puts "null")
    else unlessNonzero (writeLifecycleLocation lib finding.previousContextId finding.previousSequence 0 false
      finding.previousFileName finding.previousLineNumber finding.previousFunctionName)) <|
  unlessEof (fputc 125) done

def commaLine : List UInt8 := (Text.ofString ",\n").bytes

/-- `p101_tool_event_lifecycle_entry_at` for all indices. -/
def lifecycleEntries (model : Model) : List Lifecycle.Entry := model.lifecycle.elim [] Lifecycle.Model.entries

/-- `p101_tool_event_lifecycle_finding_at` for all indices. -/
def lifecycleFindings (model : Model) : List Lifecycle.Finding := model.lifecycle.elim [] Lifecycle.Model.findings

def writeLifecycle (model : Model) : Writer :=
  unlessEof (fputs (Text.ofString "  \"lifecycle\":" ++ .ofString " \x7b\n    \"entries\":" ++ .ofString " [\n").bytes) <|
  separated commaLine (writeLifecycleEntry lib)
    (unlessEof (fputs (Text.ofString "\n    ]" ++ .ofString ",\n    \"findings\":" ++ .ofString " [\n").bytes) <|
      separated commaLine (writeLifecycleFinding lib)
        (unlessEof (fputs (Text.ofString "\n    ]" ++ .ofString "\n  \x7d").bytes) done)
        true (lifecycleFindings model))
    true (lifecycleEntries model)

def writeNodeId (node : Node) : Writer :=
  unlessEof (fputc 34) <|
  unlessNegative (printf (domainName node.domain ++ colon)) <|
  unlessNonzero (writeJsonStringContents lib node.runId) <|
  unlessNegative (printf (colon ++ .decimal node.pid ++ colon ++ .decimal node.contextId ++ colon ++
    .decimal node.sequence ++ colon ++ nodeKindName node ++ quote)) done

def resourceOperationName : ResourceKind → Text
  | .acquire => .ofString "acquire"
  | .release => .ofString "release"
  | .replace => .ofString "replace"
  | .transfer => .ofString "transfer"
  | .use => .ofString "use"

def fdMembers (fd : ℤ) : Text :=
  .ofString ",\"resource_class\":" ++ .ofString "\"fd\"" ++ .ofString ",\"resource_identity\":" ++ quote ++
    .decimal fd ++ quote

def writeResourceFields (node : Node) : Writer :=
  if node.recordKind = .fd then unlessNegative (printf (fdMembers node.fd)) done
  else if node.recordKind = .alloc then
    unlessEof (fputs (Text.ofString ",\"resource_class\":" ++ .ofString "\"allocation\"" ++
      .ofString ",\"resource_identity\":").bytes) <|
    unlessNonzero (writeJsonString lib node.ptr) <|
    (if node.allocKind = .realloc then fun next =>
        unlessEof (puts ",\"related_identity\":") (unlessNonzero (writeJsonString lib node.newPtr) next)
      else id) <|
    unlessNegative (printf (.ofString ",\"size\":" ++ .decimal node.size)) done
  else if node.recordKind = .fork ∨ node.recordKind = .spawn then
    unlessNegative (printf (.ofString ",\"child_pid\":" ++ .decimal node.childPid)) <|
    if node.recordKind = .spawn then
      unlessEof (puts ",\"target\":") (unlessNonzero (writeJsonString lib node.target) done)
    else done
  else if node.recordKind = .exec ∨ node.recordKind = .execFail then
    (if node.recordKind = .exec then unlessNegative (printf (fdMembers node.fd)) else id) <|
    unlessEof (puts ",\"target\":") <|
    unlessNonzero (writeJsonString lib node.target) <|
    if node.recordKind = .exec then
      unlessNegative (printf (.ofString ",\"cloexec\":" ++ boolText node.cloexec)) done
    else done
  else
    unlessEof (puts ",\"operation\":") <|
    unlessNonzero (writeJsonString lib (resourceOperationName node.resourceKind)) <|
    unlessEof (puts ",\"resource_class\":") <|
    unlessNonzero (writeJsonString lib node.resourceClass) <|
    unlessEof (puts ",\"resource_identity\":") <|
    unlessNonzero (writeJsonString lib node.resourceId) <|
    unlessEof (puts ",\"related_identity\":") <|
    unlessNonzero (writeJsonString lib node.relatedId) <|
    unlessEof (puts ",\"metadata\":") <|
    unlessNonzero (writeJsonString lib node.metadata) <|
    unlessNegative (printf (.ofString ",\"size\":" ++ .decimal node.size)) done

def writeTime (node : Node) : Writer :=
  unlessEof (puts "\"monotonic_ns\":") <|
  writeTimeOrNull node.monotonicNsAvailable node.monotonicNs <|
  unlessEof (puts ",\"wall_unix_ns\":") <|
  writeTimeOrNull node.wallUnixNsAvailable node.wallUnixNs done

def writeSource (node : Node) : Writer :=
  unlessEof (fputs (Text.ofString "\"source\":" ++ .ofString "\x7b\"file\":").bytes) <|
  unlessNonzero (writeJsonString lib node.fileName) <|
  unlessNegative (printf (.ofString ",\"line\":" ++ .decimal node.lineNumber ++ .ofString ",\"function\":")) <|
  unlessNonzero (writeJsonString lib node.functionName) <|
  unlessEof (fputc 125) done

/-- The members of a node of the call domain in `write_node`. -/
def writeCallFields (node : Node) : Writer :=
  unlessEof (puts ",\"name\":") <|
  unlessNonzero (writeJsonString lib node.callName) <|
  unlessEof (puts ",\"arguments\":") <|
  unlessNonzero (writeJsonString lib node.arguments) <|
  unlessEof (puts ",\"result\":") <|
  unlessNonzero (writeJsonString lib node.result) done

def writeNode (node : Node) : Writer :=
  unlessEof (puts "    \x7b\"id\":") <|
  unlessNonzero (writeNodeId lib node) <|
  unlessNegative (printf (.ofString ",\"domain\":" ++ quote ++ domainName node.domain ++ quote ++
    .ofString ",\"kind\":")) <|
  unlessNonzero (writeJsonString lib (nodeKindName node)) <|
  unlessEof (puts ",\"run_id\":") <|
  unlessNonzero (writeJsonString lib node.runId) <|
  unlessNegative (printf (.ofString ",\"pid\":" ++ .decimal node.pid ++ .ofString ",\"context\":" ++
    .decimal node.contextId ++ .ofString ",\"sequence\":" ++ .decimal node.sequence)) <|
  unlessNonzero (if node.domain = .call then writeCallFields lib node else writeResourceFields lib node) <|
  unlessEof (fputc 44) <|
  unlessNonzero (writeTime node) <|
  unlessEof (fputc 44) <|
  unlessNonzero (writeSource lib node) <|
  unlessEof (fputc 125) done

def writeNodes (model : Model) : Writer :=
  unlessEof (fputs (Text.ofString "  \"nodes\":" ++ .ofString " [\n").bytes) <|
  separated commaLine (writeNode lib) (unlessEof (puts "\n  ]") done) true model.nodes

def edgeKindName : EdgeKind → Text
  | .callParent => .ofString "call-parent"
  | .callReturn => .ofString "call-return"
  | .callCausedEvent => .ofString "call-caused-event"
  | .resourceLifetime => .ofString "resource-lifetime"
  | .processChildEvent => .ofString "process-child-event"

/-- The identity of the node at an index, which every edge keeps within the array. -/
def writeNodeIdAt (nodes : List Node) (index : ℕ) : Writer := nodes[index]?.elim giveUp (writeNodeId lib)

/-- What the loop of `write_edges` writes for one edge. -/
def writeEdge (nodes : List Node) (edge : Edge) : Writer :=
  unlessEof (puts "    \x7b\"kind\":") <|
  unlessNonzero (writeJsonString lib (edgeKindName edge.kind)) <|
  unlessEof (puts ",\"from\":") <|
  unlessNonzero (writeNodeIdAt lib nodes edge.source) <|
  unlessEof (puts ",\"to\":") <|
  unlessNonzero (writeNodeIdAt lib nodes edge.target) <|
  unlessEof (fputc 125) done

def writeEdges (model : Model) : Writer :=
  unlessEof (fputs (Text.ofString "  \"edges\":" ++ .ofString " [\n").bytes) <|
  separated commaLine (writeEdge lib model.nodes) (unlessEof (puts "\n  ]") done) true model.edges

/-- The number of nodes of the call domain, as `p101_tool_model_write_json` counts them. -/
def callCount (model : Model) : ℕ := model.nodes.countP (·.domain = .call)

def resourceCount (model : Model) : ℕ := model.nodes.countP (·.domain ≠ .call)

/-- The text that `p101_tool_model_write_json` begins with. -/
def headerText (model : Model) : Text :=
  .ofString "\x7b\n  \"schema\":" ++ .ofString " \"p101-run-model-v1\"" ++
  .ofString ",\n  \"event_schema\":" ++ .ofString " \"" ++ lib.schemaName ++ quote ++
  .ofString ",\n  \"identity_policy\":" ++ .ofString " \"run-pid-context-event-sequence-kind\"" ++
  .ofString ",\n  \"ordering\":" ++
    .ofString " \"causal-edges-with-per-context-sequence-and-observed-timestamps\"" ++
  .ofString ",\n  \"summary\":" ++ .ofString " \x7b\"call_nodes\":" ++ .ofString " " ++ .decimal (callCount model) ++
  .ofString ", \"resource_nodes\":" ++ .ofString " " ++ .decimal (resourceCount model) ++ .ofString "\x7d" ++
  .ofString ",\n"

/-- The operations of `p101_tool_model_write_json`. -/
def writeDocument (model : Model) : Writer :=
  unlessNegative (printf (headerText lib model)) <|
  unlessNonzero (writeNodes lib model) <|
  unlessEof (puts ",\n") <|
  unlessNonzero (writeEdges lib model) <|
  unlessEof (puts ",\n") <|
  unlessNonzero (writeLifecycle lib model) <|
  unlessEof (puts "\n\x7d\n") <|
  unlessNonzero fflush done

/-- `p101_tool_model_write_json` on a non-null stream and model. -/
def writeJson (model : Model) : Fallible Raised OutputStream.Stream Unit := fun s =>
  if model.finished then
    let (status, t) := writeDocument lib model s
    if status = 0 then (.ok (), t) else (.error (.errno .eio), t)
  else (.error (.errno .einval), s)

end ToolEvent.ModelJson
