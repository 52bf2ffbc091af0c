import ToolEvent.LifecycleNames
import ToolEvent.ModelJson

/-!
# The document of a finished model

The document that `p101_tool_model_write_json` writes is well formed, and a reader of it gets
the nodes, the edges and the lifecycle of the model back.
-/

namespace ToolEvent.ModelJson

open Json OutputStream RunModel ModelInput

abbrev member (key : String) (value : Value) : List UInt8 × Value := ((Text.ofString key).bytes, value)

abbrev literal (s : String) : Value := .string (Text.ofString s).bytes

abbrev text (t : Text) : Value := .string t.bytes

abbrev nullableText : Option Text → Value
  | none => .null
  | some t => text t

def timeValue (available : Bool) (ns : ℕ) : Value := if available then .number ns else .null

def sourceValue (fileName : Value) (lineNumber : ℤ) (functionName : Value) : Value :=
  .object [member "file" fileName, member "line" (.number lineNumber), member "function" functionName]

def locationValue (context sequence monotonicNs : ℕ) (monotonicAvailable : Bool) (fileName : Option Text)
    (lineNumber : ℤ) (functionName : Option Text) : Value :=
  .object [member "context" (.number context), member "sequence" (.number sequence),
    member "monotonic_ns" (timeValue monotonicAvailable monotonicNs),
    member "source" (sourceValue (nullableText fileName) lineNumber (nullableText functionName))]

def releasedValue (entry : Lifecycle.Entry) : Value :=
  if entry.live then .null
  else locationValue entry.releasedContextId entry.releasedSequence entry.releasedMonotonicNs
    entry.releasedMonotonicNsAvailable entry.releasedFileName entry.releasedLineNumber entry.releasedFunctionName

def entryValue (entry : Lifecycle.Entry) : Value :=
  .object [member "pid" (.number entry.pid), member "resource_class" (text entry.resourceClass),
    member "identity" (text entry.resourceId), member "size" (.number entry.size),
    member "live" (.bool entry.live),
    member "acquired" (locationValue entry.acquiredContextId entry.acquiredSequence entry.acquiredMonotonicNs
      entry.acquiredMonotonicNsAvailable (some entry.acquiredFileName) entry.acquiredLineNumber
      (some entry.acquiredFunctionName)),
    member "released" (releasedValue entry)]

def previousValue (finding : Lifecycle.Finding) : Value :=
  if finding.previousSequence = 0 then .null
  else locationValue finding.previousContextId finding.previousSequence 0 false finding.previousFileName
    finding.previousLineNumber finding.previousFunctionName

def findingValue (finding : Lifecycle.Finding) : Value :=
  .object [member "kind" (text (lifecycleFindingKindName finding.kind)), member "pid" (.number finding.pid),
    member "resource_class" (text finding.resourceClass), member "identity" (text finding.resourceId),
    member "at" (locationValue finding.contextId finding.sequence finding.monotonicNs finding.monotonicNsAvailable
      (some finding.fileName) finding.lineNumber (some finding.functionName)),
    member "previous" (previousValue finding)]

/-- The identity of a node: its domain, run, process, context, sequence number and kind. -/
def nodeId (node : Node) : Text :=
  domainName node.domain ++ colon ++ node.runId ++ colon ++ .decimal node.pid ++ colon ++ .decimal node.contextId ++
    colon ++ .decimal node.sequence ++ colon ++ nodeKindName node

def resourceMembers (node : Node) : List (List UInt8 × Value) :=
  match node.recordKind with
  | .fd => [member "resource_class" (literal "fd"), member "resource_identity" (text (.decimal node.fd))]
  | .alloc =>
    [member "resource_class" (literal "allocation"), member "resource_identity" (text node.ptr)] ++
      (if node.allocKind = .realloc then [member "related_identity" (text node.newPtr)] else []) ++
      [member "size" (.number node.size)]
  | .fork => [member "child_pid" (.number node.childPid)]
  | .spawn => [member "child_pid" (.number node.childPid), member "target" (text node.target)]
  | .exec =>
    [member "resource_class" (literal "fd"), member "resource_identity" (text (.decimal node.fd)),
      member "target" (text node.target), member "cloexec" (.bool node.cloexec)]
  | .execFail => [member "target" (text node.target)]
  | .resource | .call | .complete =>
    [member "operation" (text (resourceOperationName node.resourceKind)),
      member "resource_class" (text node.resourceClass), member "resource_identity" (text node.resourceId),
      member "related_identity" (text node.relatedId), member "metadata" (text node.metadata),
      member "size" (.number node.size)]

def callMembers (node : Node) : List (List UInt8 × Value) :=
  [member "name" (text node.callName), member "arguments" (text node.arguments), member "result" (text node.result)]

def timeMembers (node : Node) : List (List UInt8 × Value) :=
  [member "monotonic_ns" (timeValue node.monotonicNsAvailable node.monotonicNs),
    member "wall_unix_ns" (timeValue node.wallUnixNsAvailable node.wallUnixNs)]

def nodeValue (node : Node) : Value :=
  .object ([member "id" (text (nodeId node)), member "domain" (text (domainName node.domain)),
    member "kind" (text (nodeKindName node)), member "run_id" (text node.runId), member "pid" (.number node.pid),
    member "context" (.number node.contextId), member "sequence" (.number node.sequence)] ++
    ((if node.domain = .call then callMembers node else resourceMembers node) ++ (timeMembers node ++
      [member "source" (sourceValue (text node.fileName) node.lineNumber (text node.functionName))])))

def edgeValue (nodes : List Node) (edge : Edge) : Value :=
  .object [member "kind" (text (edgeKindName edge.kind)),
    member "from" (nullableText (nodes[edge.source]?.map nodeId)),
    member "to" (nullableText (nodes[edge.target]?.map nodeId))]

def lifecycleValue (model : Model) : Value :=
  .object [member "entries" (.array ((lifecycleEntries model).map entryValue)),
    member "findings" (.array ((lifecycleFindings model).map findingValue))]

def documentValue (schemaName : Text) (model : Model) : Value :=
  .object [member "schema" (literal "p101-run-model-v1"), member "event_schema" (text schemaName),
    member "identity_policy" (literal "run-pid-context-event-sequence-kind"),
    member "ordering" (literal "causal-edges-with-per-context-sequence-and-observed-timestamps"),
    member "summary" (.object [member "call_nodes" (.number (callCount model)),
      member "resource_nodes" (.number (resourceCount model))]),
    member "nodes" (.array (model.nodes.map nodeValue)),
    member "edges" (.array (model.edges.map (edgeValue model.nodes))),
    member "lifecycle" (lifecycleValue model)]

theorem plain_decimal (n : ℤ) : ∀ b ∈ (Text.decimal n).bytes, isPlain b := by
  have hdigit : ∀ b, Decimal.isDigit b → isPlain b := by
    intro b hb
    obtain ⟨hlow, hhigh⟩ := of_decide_eq_true hb
    rw [UInt8.le_iff_toNat_le] at hlow hhigh
    apply decide_eq_true
    rw [UInt8.le_iff_toNat_le, ne_eq, ne_eq, ← UInt8.toNat_inj, ← UInt8.toNat_inj]
    exact ⟨le_trans (by decide) hlow, Nat.ne_of_gt (lt_of_lt_of_le (by decide) hlow),
      Nat.ne_of_lt (lt_of_le_of_lt hhigh (by decide))⟩
  intro b hb
  rcases lt_or_ge n 0 with h | h
  · rw [Text.bytes_decimal_of_neg h] at hb
    rcases List.mem_cons.mp hb with rfl | hb
    · rfl
    · exact hdigit b ((Decimal.isNumeral_digits _).digits b hb)
  · rw [Text.bytes_decimal_of_nonneg h] at hb
    exact hdigit b ((Decimal.isNumeral_digits _).digits b hb)

theorem reads_decimal (n : ℤ) : Reads (Text.decimal n).bytes (.number n) := by
  rcases lt_or_ge n 0 with h | h
  · rw [Text.bytes_decimal_of_neg h]
    have hread := reads_minus n.natAbs
    rwa [Int.ofNat_natAbs_of_nonpos h.le, neg_neg] at hread
  · rw [Text.bytes_decimal_of_nonneg h]
    have hread := reads_digits n.natAbs
    rwa [Int.natAbs_of_nonneg h] at hread

theorem reads_boolText (b : Bool) : Reads (boolText b).bytes (.bool b) := by
  have htrue : (Text.ofString "true").bytes = boolWord true := by decide
  have hfalse : (Text.ofString "false").bytes = boolWord false := by decide
  cases b with
  | true => exact htrue ▸ reads_bool true
  | false => exact hfalse ▸ reads_bool false

theorem reads_nullText : Reads (Text.ofString "null").bytes .null := by
  have hnull : (Text.ofString "null").bytes = nullWord := by decide
  exact hnull ▸ reads_null

def timeText (available : Bool) (ns : ℕ) : Text := if available then .decimal ns else .ofString "null"

theorem reads_timeText (available : Bool) (ns : ℕ) : Reads (timeText available ns).bytes (timeValue available ns) := by
  cases available with
  | true => exact reads_decimal ns
  | false => exact reads_nullText

theorem writes_timeOrNull (available : Bool) (ns : ℕ) {next : Writer} {bytes : List UInt8} (h : Writes next bytes) :
    Writes (writeTimeOrNull available ns next) ((timeText available ns).bytes ++ bytes) := by
  cases available with
  | true => exact h.fprintf _
  | false => exact h.fputs _

/-- A text between quotes that needs no escapes. -/
theorem reads_quoted {bytes : List UInt8} (h : ∀ b ∈ bytes, isPlain b) :
    Reads (quote.bytes ++ (bytes ++ quote.bytes)) (.string bytes) := by
  have hquote : quote.bytes = [34] := by decide
  rw [hquote]
  exact reads_string (spells_plain h)

theorem readsMembers_quoted {first : Bool} {lit key bytes more : List UInt8} {members : List (List UInt8 × Value)}
    (hlit : Introduces first lit key) (h : ∀ b ∈ bytes, isPlain b) (hmore : ReadsMembers false more members) :
    ReadsMembers first (lit ++ (quote.bytes ++ (bytes ++ (quote.bytes ++ more)))) ((key, .string bytes) :: members) := by
  have hmember := readsMembers_cons hlit (reads_quoted h) hmore
  simpa only [List.append_assoc] using hmember

variable {lib : WriterLibrary}

theorem exists_string (lib : WriterLibrary) (t : Text) :
    ∃ bytes, Writes (writeJsonString lib (some t)) bytes ∧ Reads bytes (text t) := by
  obtain ⟨contents, hspells, hbytes⟩ := lib.string_spells t
  exact ⟨_, writes_pieces (lib.string t), hbytes ▸ reads_string hspells⟩

theorem reads_source {f g : List UInt8} {v w : Value} (hf : Reads f v) (hg : Reads g w) (line : ℤ) :
    Reads ((Text.ofString "\x7b\"file\":").bytes ++ (f ++ ((Text.ofString ",\"line\":").bytes ++
      ((Text.decimal line).bytes ++ ((Text.ofString ",\"function\":").bytes ++ (g ++ (Text.ofString "\x7d").bytes))))))
      (sourceValue v line w) := by
  apply reads_object (by decide)
  apply readsMembers_cons (by decide) hf
  apply readsMembers_cons (by decide) (reads_decimal line)
  apply readsMembers_cons (by decide) hg
  exact readsMembers_close (by decide) false

theorem readsMembers_source {lit key f g more : List UInt8} {v w : Value} {members : List (List UInt8 × Value)}
    (hlit : Introduces false lit key) (hf : Reads f v) (hg : Reads g w) (line : ℤ)
    (hmore : ReadsMembers false more members) :
    ReadsMembers false (lit ++ ((Text.ofString "\x7b\"file\":").bytes ++ (f ++ ((Text.ofString ",\"line\":").bytes ++
      ((Text.decimal line).bytes ++ ((Text.ofString ",\"function\":").bytes ++
        (g ++ ((Text.ofString "\x7d").bytes ++ more))))))))
      ((key, sourceValue v line w) :: members) := by
  have h := readsMembers_cons hlit (reads_source hf hg line) hmore
  simpa only [List.append_assoc] using h

theorem exists_location (lib : WriterLibrary) (context sequence monotonicNs : ℕ) (available : Bool)
    (fileName functionName : Text) (line : ℤ) :
    ∃ bytes, Writes (writeLifecycleLocation lib context sequence monotonicNs available (some fileName) line
        (some functionName)) bytes ∧
      Reads bytes (locationValue context sequence monotonicNs available (some fileName) line (some functionName)) := by
  obtain ⟨f, hfile, hf⟩ := exists_string lib fileName
  obtain ⟨g, hfunction, hg⟩ := exists_string lib functionName
  refine ⟨_, .fprintf _ (writes_timeOrNull _ _ (.fputs _ (hfile.nonzero (.fprintf _ (hfunction.nonzero
    (.fputs _ writes_done)))))), ?_⟩
  simp only [Text.bytes_append, List.append_assoc, List.append_nil]
  apply reads_object (by decide)
  apply readsMembers_cons (by decide) (reads_decimal _)
  apply readsMembers_cons (by decide) (reads_decimal _)
  apply readsMembers_cons (by decide) (reads_timeText _ _)
  apply readsMembers_source (by decide) hf hg
  exact readsMembers_close (by decide) false

theorem exists_location_of_isSome (lib : WriterLibrary) (context sequence monotonicNs : ℕ) (available : Bool)
    {fileName functionName : Option Text} (line : ℤ) (hfunction : functionName.isSome) (hfile : fileName.isSome) :
    ∃ bytes, Writes (writeLifecycleLocation lib context sequence monotonicNs available fileName line functionName)
        bytes ∧
      Reads bytes (locationValue context sequence monotonicNs available fileName line functionName) := by
  obtain ⟨f, rfl⟩ := Option.isSome_iff_exists.mp hfile
  obtain ⟨g, rfl⟩ := Option.isSome_iff_exists.mp hfunction
  exact exists_location lib context sequence monotonicNs available f g line

theorem exists_released (lib : WriterLibrary) {entry : Lifecycle.Entry} (h : entry.Named) :
    ∃ bytes, Reads bytes (releasedValue entry) ∧ ∀ next more, Writes next more →
      Writes ((if entry.live then unlessEof (puts "null")
        else unlessNonzero (writeLifecycleLocation lib entry.releasedContextId entry.releasedSequence
          entry.releasedMonotonicNs entry.releasedMonotonicNsAvailable entry.releasedFileName
          entry.releasedLineNumber entry.releasedFunctionName)) next) (bytes ++ more) := by
  rcases h with ⟨hlive, -⟩ | ⟨hfunction, hfile⟩
  · rw [releasedValue, hlive]
    exact ⟨_, reads_nullText, fun next more hnext => hnext.fputs _⟩
  · cases hlive : entry.live with
    | true =>
      rw [releasedValue, hlive]
      exact ⟨_, reads_nullText, fun next more hnext => hnext.fputs _⟩
    | false =>
      obtain ⟨bytes, hwrites, hreads⟩ := exists_location_of_isSome lib entry.releasedContextId
        entry.releasedSequence entry.releasedMonotonicNs entry.releasedMonotonicNsAvailable
        entry.releasedLineNumber hfunction hfile
      rw [releasedValue, hlive]
      exact ⟨bytes, hreads, fun next more hnext => hwrites.nonzero hnext⟩

theorem exists_entry (lib : WriterLibrary) {entry : Lifecycle.Entry} (h : entry.Named) :
    ∃ bytes, Writes (writeLifecycleEntry lib entry) bytes ∧ Reads bytes (entryValue entry) := by
  obtain ⟨c, hclass, hc⟩ := exists_string lib entry.resourceClass
  obtain ⟨i, hid, hi⟩ := exists_string lib entry.resourceId
  obtain ⟨a, hacquired, ha⟩ := exists_location lib entry.acquiredContextId entry.acquiredSequence
    entry.acquiredMonotonicNs entry.acquiredMonotonicNsAvailable entry.acquiredFileName entry.acquiredFunctionName
    entry.acquiredLineNumber
  obtain ⟨r, hr, hreleased⟩ := exists_released lib h
  refine ⟨_, .fputs _ (.fprintf _ (hclass.nonzero (.fputs _ (hid.nonzero (.fprintf _ (hacquired.nonzero
    (.fputs _ (hreleased _ _ (.fputc _ writes_done))))))))), ?_⟩
  simp only [Text.bytes_append, List.append_assoc]
  apply reads_object (by decide)
  apply readsMembers_cons (by decide) (reads_decimal _)
  apply readsMembers_cons (by decide) hc
  apply readsMembers_cons (by decide) hi
  apply readsMembers_cons (by decide) (reads_decimal _)
  apply readsMembers_cons (by decide) (reads_boolText _)
  apply readsMembers_cons (by decide) ha
  apply readsMembers_cons (by decide) hr
  exact readsMembers_close (by decide) false

theorem exists_previous (lib : WriterLibrary) {finding : Lifecycle.Finding} (h : finding.Named) :
    ∃ bytes, Reads bytes (previousValue finding) ∧ ∀ next more, Writes next more →
      Writes ((if finding.previousSequence = 0 then unlessEof (puts "null")
        else unlessNonzero (writeLifecycleLocation lib finding.previousContextId finding.previousSequence 0 false
          finding.previousFileName finding.previousLineNumber finding.previousFunctionName)) next)
        (bytes ++ more) := by
  by_cases hzero : finding.previousSequence = 0
  · rw [previousValue, if_pos hzero, if_pos hzero]
    exact ⟨_, reads_nullText, fun next more hnext => hnext.fputs _⟩
  · obtain ⟨hfunction, hfile⟩ := h.resolve_left hzero
    obtain ⟨bytes, hwrites, hreads⟩ := exists_location_of_isSome lib finding.previousContextId
      finding.previousSequence 0 false finding.previousLineNumber hfunction hfile
    rw [previousValue, if_neg hzero, if_neg hzero]
    exact ⟨bytes, hreads, fun next more hnext => hwrites.nonzero hnext⟩

theorem exists_finding (lib : WriterLibrary) {finding : Lifecycle.Finding} (h : finding.Named) :
    ∃ bytes, Writes (writeLifecycleFinding lib finding) bytes ∧ Reads bytes (findingValue finding) := by
  obtain ⟨k, hkind, hk⟩ := exists_string lib (lifecycleFindingKindName finding.kind)
  obtain ⟨c, hclass, hc⟩ := exists_string lib finding.resourceClass
  obtain ⟨i, hid, hi⟩ := exists_string lib finding.resourceId
  obtain ⟨a, hat, ha⟩ := exists_location lib finding.contextId finding.sequence finding.monotonicNs
    finding.monotonicNsAvailable finding.fileName finding.functionName finding.lineNumber
  obtain ⟨p, hp, hprevious⟩ := exists_previous lib h
  refine ⟨_, .fputs _ (hkind.nonzero (.fprintf _ (hclass.nonzero (.fputs _ (hid.nonzero (.fputs _ (hat.nonzero
    (.fputs _ (hprevious _ _ (.fputc _ writes_done)))))))))), ?_⟩
  simp only [Text.bytes_append, List.append_assoc]
  apply reads_object (by decide)
  apply readsMembers_cons (by decide) hk
  apply readsMembers_cons (by decide) (reads_decimal _)
  apply readsMembers_cons (by decide) hc
  apply readsMembers_cons (by decide) hi
  apply readsMembers_cons (by decide) ha
  apply readsMembers_cons (by decide) hp
  exact readsMembers_close (by decide) false

theorem exists_texts {α : Type} {item : α → Writer} {value : α → Value} {as : List α}
    (h : ∀ a ∈ as, ∃ bytes, Writes (item a) bytes ∧ Reads bytes (value a)) :
    ∃ text : α → List UInt8, (∀ a ∈ as, Writes (item a) (text a)) ∧ ∀ a ∈ as, Reads (text a) (value a) := by
  have hall : ∀ a, ∃ bytes, a ∈ as → Writes (item a) bytes ∧ Reads bytes (value a) := by
    intro a
    by_cases ha : a ∈ as
    · obtain ⟨bytes, hbytes⟩ := h a ha
      exact ⟨bytes, fun _ => hbytes⟩
    · exact ⟨[], fun ha' => absurd ha' ha⟩
  choose text htext using hall
  exact ⟨text, fun a ha => (htext a ha).1, fun a ha => (htext a ha).2⟩

/-- An array in the lines after its opening bracket, in front of other members. -/
theorem readsMembers_lines {α : Type} {first : Bool} {lit key close more : List UInt8} {text : α → List UInt8}
    {value : α → Value} {as : List α} {members : List (List UInt8 × Value)} (hlit : Introduces first lit key)
    (hclose : skipSpace close = [93]) (h : ∀ a ∈ as, Reads (text a) (value a))
    (hmore : ReadsMembers false more members) :
    ReadsMembers first (lit ++ ((Text.ofString " [\n").bytes ++ (joined commaLine text true as ++ (close ++ more))))
      ((key, .array (as.map value)) :: members) := by
  have hitems := readsItems_joined (show commaLine.head? = some 44 by decide) (by decide) hclose h true
  have harray : Reads ((Text.ofString " [\n").bytes ++ _) (.array (as.map value)) :=
    reads_array (by decide) (by decide) hitems
  have hmember := readsMembers_cons hlit harray hmore
  simpa only [List.append_assoc] using hmember

theorem exists_lifecycle (lib : WriterLibrary) {model : Model}
    (hentries : ∀ entry ∈ lifecycleEntries model, entry.Named)
    (hfindings : ∀ finding ∈ lifecycleFindings model, finding.Named) :
    ∃ bytes, Writes (writeLifecycle lib model) ((Text.ofString "  \"lifecycle\":").bytes ++ bytes) ∧
      Reads bytes (lifecycleValue model) := by
  obtain ⟨e, hwritten, he⟩ := exists_texts (fun entry hentry => exists_entry lib (hentries entry hentry))
  obtain ⟨f, hwritten', hf⟩ := exists_texts (fun finding hfinding => exists_finding lib (hfindings finding hfinding))
  have hwrites : Writes (writeLifecycle lib model) _ := .fputs _ (writes_separated hwritten
    (.fputs _ (writes_separated hwritten' (.fputs _ writes_done) true)) true)
  simp only [Text.bytes_append, List.append_assoc, List.append_nil] at hwrites
  refine ⟨_, hwrites, ?_⟩
  apply reads_object (by decide)
  apply readsMembers_lines (by decide) (by decide) he
  apply readsMembers_lines (by decide) (by decide) hf
  exact readsMembers_close (by decide) false

theorem plain_append {s t : List UInt8} (hs : ∀ b ∈ s, isPlain b) (ht : ∀ b ∈ t, isPlain b) :
    ∀ b ∈ s ++ t, isPlain b := List.forall_mem_append.mpr ⟨hs, ht⟩

theorem plain_domainName (domain : NodeDomain) : ∀ b ∈ (domainName domain).bytes, isPlain b := by
  cases domain <;> decide

theorem plain_nodeKindName (node : Node) : ∀ b ∈ (nodeKindName node).bytes, isPlain b := by
  have hfd : ∀ kind, ∀ b ∈ (fdKindName kind).bytes, isPlain b := by
    intro kind
    cases kind <;> decide
  have halloc : ∀ kind, ∀ b ∈ (allocKindName kind).bytes, isPlain b := by
    intro kind
    cases kind <;> decide
  unfold nodeKindName
  split
  · exact hfd _
  · exact halloc _
  iterate 4 decide
  · split <;> decide
  iterate 2 decide

theorem exists_nodeId (lib : WriterLibrary) (node : Node) :
    ∃ bytes, Writes (writeNodeId lib node) bytes ∧ Reads bytes (text (nodeId node)) := by
  have hcolon : ∀ b ∈ colon.bytes, isPlain b := by decide
  have hquote : quote.bytes = [34] := by decide
  have hpre := plain_append (plain_domainName node.domain) hcolon
  have hsuffix := plain_append hcolon (plain_append (plain_decimal node.pid) (plain_append hcolon
    (plain_append (plain_decimal node.contextId) (plain_append hcolon (plain_append (plain_decimal node.sequence)
      (plain_append hcolon (plain_nodeKindName node)))))))
  have hspells := (spells_plain hpre).append ((lib.contents_spells node.runId).append (spells_plain hsuffix))
  refine ⟨_, .fputc _ (.fprintf _ ((writes_pieces (lib.contents node.runId)).nonzero (.fprintf _ writes_done))), ?_⟩
  have hreads := reads_string hspells
  simp only [text, nodeId, Text.bytes_append, List.append_assoc, List.append_nil, hquote] at hreads ⊢
  exact hreads

theorem exists_callFields (lib : WriterLibrary) (node : Node) :
    ∃ bytes, Writes (writeCallFields lib node) bytes ∧ ExtendsMembers bytes (callMembers node) := by
  obtain ⟨n, hname, hn⟩ := exists_string lib node.callName
  obtain ⟨a, harguments, ha⟩ := exists_string lib node.arguments
  obtain ⟨r, hresult, hr⟩ := exists_string lib node.result
  refine ⟨_, .fputs _ (hname.nonzero (.fputs _ (harguments.nonzero (.fputs _ (hresult.nonzero writes_done))))), ?_⟩
  apply ExtendsMembers.cons _ (by decide) hn
  apply ExtendsMembers.cons _ (by decide) ha
  exact extendsMembers_nil.cons (by decide) hr

theorem reads_fdText (fd : ℤ) : Reads (quote.bytes ++ ((Text.decimal fd).bytes ++ quote.bytes)) (text (.decimal fd)) :=
  reads_quoted (plain_decimal fd)

theorem reads_fdClass : Reads (Text.ofString "\"fd\"").bytes (literal "fd") := by
  have hbytes : (Text.ofString "\"fd\"").bytes = quote.bytes ++ ((Text.ofString "fd").bytes ++ quote.bytes) := by decide
  rw [hbytes]
  exact reads_quoted (by decide)

theorem reads_allocationClass : Reads (Text.ofString "\"allocation\"").bytes (literal "allocation") := by
  have hbytes : (Text.ofString "\"allocation\"").bytes =
      quote.bytes ++ ((Text.ofString "allocation").bytes ++ quote.bytes) := by decide
  rw [hbytes]
  exact reads_quoted (by decide)

/-- The members for a descriptor, in front of other fields. -/
theorem extendsMembers_fd (fd : ℤ) {more : List UInt8} {added : List (List UInt8 × Value)}
    (h : ExtendsMembers more added) :
    ExtendsMembers ((fdMembers fd).bytes ++ more)
      (member "resource_class" (literal "fd") :: member "resource_identity" (text (.decimal fd)) :: added) := by
  have hidentity : ExtendsMembers ((Text.ofString ",\"resource_identity\":").bytes ++ _)
      (member "resource_identity" (text (.decimal fd)) :: added) := h.cons (by decide) (reads_fdText fd)
  have hclass : ExtendsMembers ((Text.ofString ",\"resource_class\":").bytes ++ _)
      (member "resource_class" (literal "fd") :: _) := hidentity.cons (by decide) reads_fdClass
  simpa only [fdMembers, Text.bytes_append, List.append_assoc] using hclass

theorem exists_resourceFields (lib : WriterLibrary) (node : Node) :
    ∃ bytes, Writes (writeResourceFields lib node) bytes ∧ ExtendsMembers bytes (resourceMembers node) := by
  obtain ⟨p, hptr, hp⟩ := exists_string lib node.ptr
  obtain ⟨n, hnew, hn⟩ := exists_string lib node.newPtr
  obtain ⟨t, htarget, ht⟩ := exists_string lib node.target
  have hsize : ExtendsMembers (Text.ofString ",\"size\":" ++ .decimal node.size).bytes
      [member "size" (.number node.size)] := extendsMembers_single (by decide) (reads_decimal node.size)
  cases hkind : node.recordKind with
  | fd =>
    simp only [writeResourceFields, resourceMembers, hkind, if_true]
    exact ⟨_, .fprintf _ writes_done, extendsMembers_fd node.fd extendsMembers_nil⟩
  | alloc =>
    by_cases hrealloc : node.allocKind = .realloc
    · simp only [writeResourceFields, resourceMembers, hkind, hrealloc, reduceCtorEq, if_true, if_false]
      refine ⟨_, .fputs _ (hptr.nonzero (.fputs _ (hnew.nonzero (.fprintf _ writes_done)))), ?_⟩
      simp only [Text.bytes_append, List.append_assoc, List.append_nil] at hsize ⊢
      apply ExtendsMembers.cons _ (by decide) reads_allocationClass
      apply ExtendsMembers.cons _ (by decide) hp
      exact hsize.cons (by decide) hn
    · simp only [writeResourceFields, resourceMembers, hkind, hrealloc, reduceCtorEq, if_true, if_false, id]
      refine ⟨_, .fputs _ (hptr.nonzero (.fprintf _ writes_done)), ?_⟩
      simp only [Text.bytes_append, List.append_assoc, List.append_nil] at hsize ⊢
      apply ExtendsMembers.cons _ (by decide) reads_allocationClass
      exact hsize.cons (by decide) hp
  | fork =>
    simp only [writeResourceFields, resourceMembers, hkind, reduceCtorEq, true_or, if_true, if_false]
    refine ⟨_, .fprintf _ writes_done, ?_⟩
    rw [List.append_nil]
    exact extendsMembers_single (by decide) (reads_decimal node.childPid)
  | spawn =>
    simp only [writeResourceFields, resourceMembers, hkind, reduceCtorEq, or_true, if_true, if_false]
    refine ⟨_, .fprintf _ (.fputs _ (htarget.nonzero writes_done)), ?_⟩
    rw [Text.bytes_append, List.append_assoc]
    apply ExtendsMembers.cons _ (by decide) (reads_decimal node.childPid)
    exact extendsMembers_nil.cons (by decide) ht
  | exec =>
    simp only [writeResourceFields, resourceMembers, hkind, reduceCtorEq, or_false, if_true, if_false]
    refine ⟨_, .fprintf _ (.fputs _ (htarget.nonzero (.fprintf _ writes_done))), ?_⟩
    rw [List.append_nil]
    apply extendsMembers_fd
    apply ExtendsMembers.cons _ (by decide) ht
    exact extendsMembers_single (by decide) (reads_boolText node.cloexec)
  | execFail =>
    simp only [writeResourceFields, resourceMembers, hkind, reduceCtorEq, or_true, or_false, if_true, if_false, id]
    refine ⟨_, .fputs _ (htarget.nonzero writes_done), ?_⟩
    exact extendsMembers_nil.cons (by decide) ht
  | _ =>
    obtain ⟨o, hoperation, ho⟩ := exists_string lib (resourceOperationName node.resourceKind)
    obtain ⟨c, hclass, hc⟩ := exists_string lib node.resourceClass
    obtain ⟨i, hid, hi⟩ := exists_string lib node.resourceId
    obtain ⟨r, hrelated, hr⟩ := exists_string lib node.relatedId
    obtain ⟨m, hmetadata, hm⟩ := exists_string lib node.metadata
    simp only [writeResourceFields, resourceMembers, hkind, reduceCtorEq, or_false, if_false]
    refine ⟨_, .fputs _ (hoperation.nonzero (.fputs _ (hclass.nonzero (.fputs _ (hid.nonzero (.fputs _
      (hrelated.nonzero (.fputs _ (hmetadata.nonzero (.fprintf _ writes_done)))))))))), ?_⟩
    rw [List.append_nil]
    apply ExtendsMembers.cons _ (by decide) ho
    apply ExtendsMembers.cons _ (by decide) hc
    apply ExtendsMembers.cons _ (by decide) hi
    apply ExtendsMembers.cons _ (by decide) hr
    exact hsize.cons (by decide) hm

theorem exists_time (node : Node) :
    ∃ bytes, Writes (writeTime node) bytes ∧ ExtendsMembers (44 :: bytes) (timeMembers node) := by
  refine ⟨_, .fputs _ (writes_timeOrNull _ _ (.fputs _ (writes_timeOrNull _ _ writes_done))), ?_⟩
  change ExtendsMembers (44 :: (Text.ofString "\"monotonic_ns\":").bytes ++ _) _
  apply ExtendsMembers.cons _ (by decide) (reads_timeText _ _)
  exact extendsMembers_nil.cons (by decide) (reads_timeText _ _)

theorem exists_source (lib : WriterLibrary) (node : Node) :
    ∃ bytes, Writes (writeSource lib node) bytes ∧ ExtendsMembers (44 :: bytes)
      [member "source" (sourceValue (text node.fileName) node.lineNumber (text node.functionName))] := by
  obtain ⟨f, hfile, hf⟩ := exists_string lib node.fileName
  obtain ⟨g, hfunction, hg⟩ := exists_string lib node.functionName
  refine ⟨_, .fputs _ (hfile.nonzero (.fprintf _ (hfunction.nonzero (.fputc _ writes_done)))), ?_⟩
  intro more members hmore
  have hclose : (Text.ofString "\x7d").bytes = [125] := by decide
  have hmember : ReadsMembers false (44 :: (Text.ofString "\"source\":").bytes ++ _) (member "source" _ :: members) :=
    readsMembers_source (by decide) hf hg node.lineNumber hmore
  simpa [hclose] using hmember

theorem exists_node (lib : WriterLibrary) (node : Node) :
    ∃ bytes, Writes (writeNode lib node) bytes ∧ Reads bytes (nodeValue node) := by
  obtain ⟨i, hid, hi⟩ := exists_nodeId lib node
  obtain ⟨k, hkind, hk⟩ := exists_string lib (nodeKindName node)
  obtain ⟨r, hrun, hr⟩ := exists_string lib node.runId
  obtain ⟨t, htime, ht⟩ := exists_time node
  obtain ⟨s, hsource, hs⟩ := exists_source lib node
  have hfields : ∃ bytes, Writes (if node.domain = .call then writeCallFields lib node
        else writeResourceFields lib node) bytes ∧
      ExtendsMembers bytes (if node.domain = .call then callMembers node else resourceMembers node) := by
    split
    · exact exists_callFields lib node
    · exact exists_resourceFields lib node
  obtain ⟨f, hfields, hf⟩ := hfields
  refine ⟨_, .fputs _ (hid.nonzero (.fprintf _ (hkind.nonzero (.fputs _ (hrun.nonzero (.fprintf _
    (hfields.nonzero (.fputc _ (htime.nonzero (.fputc _ (hsource.nonzero (.fputc _ writes_done)))))))))))), ?_⟩
  simp only [Text.bytes_append, List.append_assoc]
  apply reads_object (by decide)
  apply readsMembers_cons (by decide) hi
  apply readsMembers_quoted (by decide) (plain_domainName node.domain)
  apply readsMembers_cons (by decide) hk
  apply readsMembers_cons (by decide) hr
  apply readsMembers_cons (by decide) (reads_decimal _)
  apply readsMembers_cons (by decide) (reads_decimal _)
  apply readsMembers_cons (by decide) (reads_decimal _)
  apply hf
  apply ht
  apply hs
  exact readsMembers_close (by decide) false

theorem exists_nodes (lib : WriterLibrary) (model : Model) :
    ∃ text : Node → List UInt8, (∀ node ∈ model.nodes, Reads (text node) (nodeValue node)) ∧
      Writes (writeNodes lib model) ((Text.ofString "  \"nodes\":").bytes ++ ((Text.ofString " [\n").bytes ++
        (joined commaLine text true model.nodes ++ (Text.ofString "\n  ]").bytes))) := by
  obtain ⟨n, hwritten, hn⟩ := exists_texts (fun node (_ : node ∈ model.nodes) => exists_node lib node)
  have hwrites : Writes (writeNodes lib model) _ :=
    .fputs _ (writes_separated hwritten (.fputs _ writes_done) true)
  refine ⟨n, hn, ?_⟩
  simpa only [Text.bytes_append, List.append_assoc, List.append_nil] using hwrites

theorem exists_nodeIdAt (lib : WriterLibrary) {nodes : List Node} {index : ℕ} (h : index < nodes.length) :
    ∃ bytes, Writes (writeNodeIdAt lib nodes index) bytes ∧ Reads bytes (nullableText (nodes[index]?.map nodeId)) := by
  rw [writeNodeIdAt, List.getElem?_eq_getElem h]
  exact exists_nodeId lib _

theorem exists_edge (lib : WriterLibrary) {nodes : List Node} {edge : Edge} (hsource : edge.source < nodes.length)
    (htarget : edge.target < nodes.length) :
    ∃ bytes, Writes (writeEdge lib nodes edge) bytes ∧ Reads bytes (edgeValue nodes edge) := by
  obtain ⟨k, hkind, hk⟩ := exists_string lib (edgeKindName edge.kind)
  obtain ⟨s, hsource, hs⟩ := exists_nodeIdAt lib hsource
  obtain ⟨t, htarget, ht⟩ := exists_nodeIdAt lib htarget
  refine ⟨_, .fputs _ (hkind.nonzero (.fputs _ (hsource.nonzero (.fputs _ (htarget.nonzero
    (.fputc _ writes_done)))))), ?_⟩
  apply reads_object (by decide)
  apply readsMembers_cons (by decide) hk
  apply readsMembers_cons (by decide) hs
  apply readsMembers_cons (by decide) ht
  exact readsMembers_close (by decide) false

theorem exists_edges (lib : WriterLibrary) {model : Model}
    (h : ∀ edge ∈ model.edges, edge.source < model.nodes.length ∧ edge.target < model.nodes.length) :
    ∃ text : Edge → List UInt8, (∀ edge ∈ model.edges, Reads (text edge) (edgeValue model.nodes edge)) ∧
      Writes (writeEdges lib model) ((Text.ofString "  \"edges\":").bytes ++ ((Text.ofString " [\n").bytes ++
        (joined commaLine text true model.edges ++ (Text.ofString "\n  ]").bytes))) := by
  obtain ⟨e, hwritten, he⟩ := exists_texts (fun edge hedge => exists_edge lib (h edge hedge).1 (h edge hedge).2)
  have hwrites : Writes (writeEdges lib model) _ :=
    .fputs _ (writes_separated hwritten (.fputs _ writes_done) true)
  refine ⟨e, he, ?_⟩
  simpa only [Text.bytes_append, List.append_assoc, List.append_nil] using hwrites

theorem reads_summary (calls resources : ℕ) :
    Reads ((Text.ofString " \x7b\"call_nodes\":").bytes ++ ((Text.ofString " ").bytes ++
      ((Text.decimal calls).bytes ++ ((Text.ofString ", \"resource_nodes\":").bytes ++ ((Text.ofString " ").bytes ++
        ((Text.decimal resources).bytes ++ (Text.ofString "\x7d").bytes))))))
      (.object [member "call_nodes" (.number calls), member "resource_nodes" (.number resources)]) := by
  have hspace : ∀ b ∈ (Text.ofString " ").bytes, Json.isSpace b := by decide
  apply reads_object (by decide)
  rw [← List.append_assoc (Text.ofString " ").bytes (Text.decimal calls).bytes]
  apply readsMembers_cons (by decide) ((reads_decimal calls).space hspace)
  rw [← List.append_assoc (Text.ofString " ").bytes (Text.decimal resources).bytes]
  apply readsMembers_cons (by decide) ((reads_decimal resources).space hspace)
  exact readsMembers_close (by decide) false

theorem readsMembers_summary {lit key more : List UInt8} {members : List (List UInt8 × Value)}
    (hlit : Introduces false lit key) (calls resources : ℕ) (hmore : ReadsMembers false more members) :
    ReadsMembers false (lit ++ ((Text.ofString " \x7b\"call_nodes\":").bytes ++ ((Text.ofString " ").bytes ++
      ((Text.decimal calls).bytes ++ ((Text.ofString ", \"resource_nodes\":").bytes ++ ((Text.ofString " ").bytes ++
        ((Text.decimal resources).bytes ++ ((Text.ofString "\x7d").bytes ++ more))))))))
      ((key, .object [member "call_nodes" (.number calls), member "resource_nodes" (.number resources)]) :: members) := by
  have h := readsMembers_cons hlit (reads_summary calls resources) hmore
  simpa only [List.append_assoc] using h

/-- A quoted member behind a space, in front of others. -/
theorem readsMembers_spaced {lit key bytes more : List UInt8} {members : List (List UInt8 × Value)}
    (hlit : Introduces false lit key) (h : ∀ b ∈ bytes, isPlain b) (hmore : ReadsMembers false more members) :
    ReadsMembers false (lit ++ ((Text.ofString " ").bytes ++ (quote.bytes ++ (bytes ++ (quote.bytes ++ more)))))
      ((key, .string bytes) :: members) := by
  have hvalue : Reads ((Text.ofString " ").bytes ++ _) (.string bytes) := (reads_quoted h).space (by decide)
  have hmember := readsMembers_cons hlit hvalue hmore
  simpa only [List.append_assoc] using hmember

theorem reads_literal {lit s : Text} (hplain : ∀ b ∈ s.bytes, isPlain b)
    (hlit : lit.bytes = (Text.ofString " ").bytes ++ (quote.bytes ++ (s.bytes ++ quote.bytes))) :
    Reads lit.bytes (text s) := by
  rw [hlit]
  exact (reads_quoted hplain).space (by decide)

/-- The operations of the document are writes of its text and one flush at the end. -/
theorem exists_document (lib : WriterLibrary) {model : Model}
    (hedges : ∀ edge ∈ model.edges, edge.source < model.nodes.length ∧ edge.target < model.nodes.length)
    (hentries : ∀ entry ∈ lifecycleEntries model, entry.Named)
    (hfindings : ∀ finding ∈ lifecycleFindings model, finding.Named) :
    ∃ bytes, Writes (writeDocument lib model) bytes [.flush] ∧
      Json.read bytes = some (documentValue lib.schemaName model) := by
  obtain ⟨n, hn, hnodes⟩ := exists_nodes lib model
  obtain ⟨e, he, hedges⟩ := exists_edges lib hedges
  obtain ⟨l, hlifecycle, hl⟩ := exists_lifecycle lib hentries hfindings
  have hwrites : Writes (writeDocument lib model) _ [.flush] := .fprintf _ (hnodes.nonzero (.fputs _ (hedges.nonzero
    (.fputs _ (hlifecycle.nonzero (.fputs _ performs_done.fflush.writes))))))
  refine ⟨_, hwrites, ?_⟩
  have hclose : (Text.ofString "\n\x7d\n").bytes = (Text.ofString "\n\x7d").bytes ++ [10] := by decide
  have hopen : (Text.ofString " \"").bytes = (Text.ofString " ").bytes ++ quote.bytes := by decide
  simp only [headerText, Text.bytes_append, hclose, hopen, List.append_nil, ← List.append_assoc]
  apply read_of_reads _ (by decide) (by decide)
  simp only [List.append_assoc]
  apply reads_object (by decide)
  apply readsMembers_cons (by decide) (reads_literal (by decide) (by decide))
  apply readsMembers_spaced (by decide) lib.schemaName_plain
  apply readsMembers_cons (by decide) (reads_literal (by decide) (by decide))
  apply readsMembers_cons (by decide) (reads_literal (by decide) (by decide))
  apply readsMembers_summary (by decide)
  rw [← List.append_assoc (Text.ofString ",\n").bytes]
  apply readsMembers_lines (by decide) (by decide) hn
  rw [← List.append_assoc (Text.ofString ",\n").bytes]
  apply readsMembers_lines (by decide) (by decide) he
  rw [← List.append_assoc (Text.ofString ",\n").bytes]
  apply readsMembers_cons (by decide) hl
  exact readsMembers_close (by decide) false

variable {records : RecordLibrary}

theorem exists_document_of_finished (lib : WriterLibrary) {model : Model} (hmodel : Finished records model) :
    ∃ bytes, Writes (writeDocument lib model) bytes [.flush] ∧
      Json.read bytes = some (documentValue lib.schemaName model) := by
  obtain ⟨lifecycle, hlifecycle, hnamed⟩ := hmodel.lifecycle_named
  have hentries : lifecycleEntries model = lifecycle.entries := by rw [lifecycleEntries, hlifecycle, Option.elim_some]
  have hfindings : lifecycleFindings model = lifecycle.findings := by
    rw [lifecycleFindings, hlifecycle, Option.elim_some]
  apply exists_document lib hmodel.reachable.sound.edges_mem
  · exact hentries ▸ hnamed.entries
  · exact hfindings ▸ hnamed.findings

/-- What the result of the writer says about the status it is made of. -/
theorem writeJson_of_finished {model : Model} (hmodel : Finished records model) {s t : OutputStream.Stream} {status : ℤ}
    (h : writeDocument lib model s = (status, t)) :
    writeJson lib model s = (if status = 0 then .ok () else .error (.errno .eio), t) := by
  rw [writeJson, if_pos hmodel.finished, h]
  by_cases hstatus : status = 0
  · rw [if_pos hstatus]
    exact if_pos hstatus
  · rw [if_neg hstatus]
    exact if_neg hstatus

/-- On a stream without write errors, the text of a finished model reads back as its content. -/
theorem writeJson_reads (lib : WriterLibrary) {model : Model} (hmodel : Finished records model)
    {s : OutputStream.Stream} (hs : s.NeverFails) :
    ∃ t bytes, writeJson lib model s = (.ok (), t) ∧ t.written = s.written ++ bytes ∧
      Json.read bytes = some (documentValue lib.schemaName model) := by
  obtain ⟨bytes, ⟨pieces, hperforms, rfl⟩, hread⟩ := exists_document_of_finished lib hmodel
  obtain ⟨hstatus, hwritten⟩ := attempt_of_neverFails (pieces.map Operation.write ++ [Operation.flush]) hs
  have hrun : writeDocument lib model s = (0, (writeDocument lib model s).2) :=
    Prod.ext (by rw [hperforms]; exact hstatus) rfl
  have hbytes : (pieces.map Operation.write ++ [Operation.flush]).flatMap Operation.bytes = pieces.flatten := by
    rw [List.flatMap_append, List.flatMap_map]
    simp [Operation.bytes, List.flatMap_id']
  refine ⟨_, pieces.flatten, writeJson_of_finished hmodel hrun, ?_, hread⟩
  rw [hperforms, hwritten, hbytes]

/-- The operations on the stream do not depend on its answers. The writer succeeds when all of them
did, and otherwise it stops at the first one that failed. -/
theorem writeJson_stops (lib : WriterLibrary) {model : Model} (hmodel : Finished records model) :
    ∃ pieces : List (List UInt8), ∀ s : OutputStream.Stream,
      ((writeJson lib model s).1 = .ok () ∧
        (writeJson lib model s).2.log = s.log ++ (pieces.map Operation.write ++ [Operation.flush]).map (·, true)) ∨
      ((writeJson lib model s).1 = .error (.errno .eio) ∧
        ∃ before op after, pieces.map Operation.write ++ [Operation.flush] = before ++ op :: after ∧
          (writeJson lib model s).2.log = s.log ++ before.map (·, true) ++ [(op, false)]) := by
  obtain ⟨bytes, ⟨pieces, hperforms, rfl⟩, -⟩ := exists_document_of_finished lib hmodel
  refine ⟨pieces, fun s => ?_⟩
  have hattempted := attempted (pieces.map Operation.write ++ [Operation.flush]) s
  rw [← hperforms] at hattempted
  generalize hrun : writeDocument lib model s = result at hattempted
  cases hattempted with
  | all t log written =>
    rw [writeJson_of_finished hmodel hrun]
    exact .inl ⟨rfl, log⟩
  | failed t before op after split log =>
    rw [writeJson_of_finished hmodel hrun]
    exact .inr ⟨rfl, before, op, after, split, log⟩

def closedTwice : List EventRecord :=
  [{ runId := some (.ofString "run"), recordKind := .call, callKind := .enter, pid := 1, contextId := 1, sequence := 1
     callName := some (.ofString "main"), fileName := some (.ofString "main.c") },
    { runId := some (.ofString "run"), recordKind := .fd, fdKind := .opened, fd := 3, pid := 1, contextId := 1
      sequence := 2, monotonicNs := 7, monotonicNsAvailable := 1 },
    { runId := some (.ofString "run"), recordKind := .fd, fdKind := .closed, fd := 3, pid := 1, contextId := 1
      sequence := 3 },
    { runId := some (.ofString "run"), recordKind := .fd, fdKind := .closed, fd := 3, pid := 1, contextId := 1
      sequence := 4 }]

theorem writeJson_reads_closedTwice :
    ∃ t bytes, writeJson .standard (modelOf .standard closedTwice) ⟨fun _ => {}, [], []⟩ = (.ok (), t) ∧
      t.written = [] ++ bytes ∧
      Json.read bytes = some (documentValue (.ofString "p101-tool-event-format-v5") (modelOf .standard closedTwice)) :=
  writeJson_reads .standard (finished_modelOf _ (by decide)) (fun _ _ => rfl)

theorem writeJson_stops_closedTwice :
    ∃ pieces : List (List UInt8), ∀ s : OutputStream.Stream,
      ((writeJson .standard (modelOf .standard closedTwice) s).1 = .ok () ∧
        (writeJson .standard (modelOf .standard closedTwice) s).2.log =
          s.log ++ (pieces.map Operation.write ++ [Operation.flush]).map (·, true)) ∨
      ((writeJson .standard (modelOf .standard closedTwice) s).1 = .error (.errno .eio) ∧
        ∃ before op after, pieces.map Operation.write ++ [Operation.flush] = before ++ op :: after ∧
          (writeJson .standard (modelOf .standard closedTwice) s).2.log =
            s.log ++ before.map (·, true) ++ [(op, false)]) :=
  writeJson_stops .standard (finished_modelOf _ (by decide))

end ToolEvent.ModelJson
