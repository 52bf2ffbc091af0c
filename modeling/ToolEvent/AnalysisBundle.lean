import ToolEvent.Library.StatusChain
import ToolEvent.PolicyDocument

/-!
# The bundle of an analysis

The files that `p101_tool_analysis_write_bundle` of `src/analysis.c` leaves in a directory: reports as
texts and as JSON documents, and the graph of the lifetimes. It stops at the first file that it
cannot open, write and close.
-/

namespace ToolEvent.AnalysisBundle

open OutputStream ModelAnalysis RunModel

def writeString (text : Text) : Writer := unlessEof (fputs text.bytes) done

/-- One round of the loop of `write_json_string`, with the status of its last operation. -/
def writeJsonCharacter (b : UInt8) : Writer :=
  let character : Writer :=
    if b = 10 then fputs [92, 110] else if b = 13 then fputs [92, 114] else if b = 9 then fputs [92, 116]
    else if b < 32 then fprintf [92, 117, 48, 48, hexDigit (b.toNat / 16), hexDigit (b.toNat % 16)]
    else fputc b
  if b = 34 ∨ b = 92 then unlessEof (fputc 92) character else character

def writeJsonCharacters : List UInt8 → Writer
  | [] => unlessEof (fputc 34) done
  | b :: bytes => unlessEof (writeJsonCharacter b) (writeJsonCharacters bytes)

def writeJsonString (text : Text) : Writer := unlessEof (fputc 34) (writeJsonCharacters text.bytes)

def writeLesson : Option Lesson → Writer
  | none => done
  | some lesson =>
    ifZero (writeString (.ofString ",\"lesson\":\x7b\"primary\":\x7b\"lesson_id\":")) <|
    ifZero (writeJsonString lesson.lessonId) <|
    ifZero (writeString (.ofString ",\"path\":")) <|
    ifZero (writeJsonString lesson.lessonPath) <|
    ifZero (writeString (.ofString ",\"url\":")) <|
    ifZero (writeJsonString lesson.lessonUrl) <|
    writeString (.ofString "\x7d,\"related\":[]\x7d")

/-- A member of the evidence, which is left out when its text is empty. -/
def writeEvidence (start : String) (text : Text) : Writer :=
  if text = .empty then done else ifZero (writeString (.ofString start)) (writeJsonString text)

/-- `write_finding_json`, with the lookup of a lesson by the identifier of a finding. -/
def writeFindingJson (lookup : Text → Option Lesson) (finding : Finding) : Writer :=
  ifZero (writeString (.ofString "\x7b\"id\":")) <|
  ifZero (writeJsonString finding.diagnosticId) <|
  ifZero (writeString (.ofString ",\"severity\":\"error\",\"policy\":")) <|
  ifZero (writeJsonString (.ofString (policyName finding.policy))) <|
  ifZero (writeString (.ofString ",\"location\":\x7b\"file\":")) <|
  ifZero (writeJsonString finding.fileName) <|
  ifZero (ifNonnegative
    (fprintf (.ofString ",\"line\":" ++ Text.decimal finding.lineNumber ++ .ofString ",\"function\":").bytes)
    (writeJsonString finding.functionName)) <|
  ifZero (writeString (.ofString "\x7d,\"message\":")) <|
  ifZero (writeJsonString finding.message) <|
  ifZero (writeLesson (lookup finding.diagnosticId)) <|
  ifZero (writeString (.ofString ",\"evidence\":\x7b\"node\":")) <|
  ifZero (writeJsonString finding.nodeId) <|
  ifZero (writeEvidence ",\"from\":" finding.evidenceFrom) <|
  ifZero (writeEvidence ",\"to\":" finding.evidenceTo) <|
  ifZero (writeEvidence ",\"detail\":" finding.evidenceDetail) <|
  writeString (.ofString "\x7d\x7d")

/-- The loop of `write_json_document`, with the number of findings emitted so far. -/
def writeFindings (lookup : Text → Option Lesson) (policy : Option Policy) : ℕ → List Finding → Writer
  | _, [] => done
  | emitted, finding :: findings =>
    if policy.any (· ≠ finding.policy) then writeFindings lookup policy emitted findings
    else
      ifZero (writeString (.ofString (if emitted = 0 then "\n    " else ",\n    "))) <|
      ifZero (writeFindingJson lookup finding) (writeFindings lookup policy (emitted + 1) findings)

def writeJsonDocument (lookup : Text → Option Lesson) (schema : Text) (policy : Option Policy)
    (analysis : Analysis) : Writer :=
  ifZero (writeString (.ofString "\x7b\n  \"schema\": ")) <|
  ifZero (writeJsonString schema) <|
  ifZero (writeString (.ofString ",\n  \"findings\": [")) <|
  ifZero (writeFindings lookup policy 0 analysis.findings) <|
  unlessNegative (fprintf (.ofString "\n  ],\n  \"summary\": \x7b\"findings\": " ++
    Text.decimal (analysis.findingCount policy) ++ .ofString "\x7d\n\x7d\n").bytes) done

/-- The line of `write_policy_text` for a finding. -/
def policyLine (finding : Finding) : Text :=
  finding.diagnosticId ++ .ofString ": " ++ finding.message ++ .ofString " [" ++ finding.fileName ++ .ofString ":" ++
    Text.decimal finding.lineNumber ++ .ofString " in " ++ finding.functionName ++ .ofString "()]\n"

/-- The loop of `write_policy_text`. -/
def writePolicyLines (policy : Policy) : List Finding → Writer
  | [] => done
  | finding :: findings =>
    if finding.policy ≠ policy then writePolicyLines policy findings
    else unlessNegative (fprintf (policyLine finding).bytes) (writePolicyLines policy findings)

/-- What `write_policy_text` writes to its stream. -/
def writePolicyText (analysis : Analysis) (policy : Policy) (heading : String) : Writer :=
  unlessNegative (fprintf (.ofString heading ++ .ofString "\nfindings=" ++
    Text.decimal (analysis.policyCounts policy) ++ .ofString "\n").bytes) (writePolicyLines policy analysis.findings)

def correlatedLine (finding : Finding) : Text :=
  .ofString "- " ++ finding.diagnosticId ++ .ofString ": " ++ finding.message ++ .ofString " (`" ++ finding.fileName ++
    .ofString ":" ++ Text.decimal finding.lineNumber ++ .ofString "`)\n"

def writeCorrelatedLines : List Finding → Writer
  | [] => writeString (.ofString "\nThis report is bounded by emitted p101 wrapper events.\n")
  | finding :: findings =>
    unlessNegative (fprintf (correlatedLine finding).bytes) (writeCorrelatedLines findings)

/-- The correlated report of `write_text_reports`. -/
def writeCorrelated (analysis : Analysis) : Writer :=
  unlessNegative (fprintf (.ofString "# p101 correlated runtime report\n\nFindings: " ++
    Text.decimal analysis.findings.length ++ .ofString "\n\n").bytes) (writeCorrelatedLines analysis.findings)

/-- The trace summary of `write_text_reports`. -/
def writeTraceSummary (analysis : Analysis) : Writer :=
  unlessNegative (fprintf (.ofString
      "event_schema=p101-tool-event-format-v5 event_id_policy=wire-sequence-with-derived-input-order\nrecords=" ++
    Text.decimal analysis.callRecords ++ .ofString " execution_contexts=" ++
    Text.decimal analysis.traceContexts.length ++ .ofString " findings=" ++
    Text.decimal (analysis.policyCounts .trace) ++ .ofString "\n").bytes) done

/-- The loop of `write_graph`, with the number of lifetimes emitted so far. -/
def writeLifetimes : ℕ → List Edge → Writer
  | 0, [] => unlessEof (fputs (Text.ofString "  empty[\"No completed resource lifetimes observed\"]\n").bytes)
      (writeString (.ofString "```\n"))
  | _ + 1, [] => writeString (.ofString "```\n")
  | emitted, edge :: edges =>
    if edge.kind ≠ .resourceLifetime then writeLifetimes emitted edges
    else
      unlessNegative (fprintf (.ofString "  n" ++ Text.decimal emitted ++ .ofString "a[\"resource acquired\"] --> n" ++
        Text.decimal emitted ++ .ofString "b[\"resource released\"]\n").bytes) (writeLifetimes (emitted + 1) edges)

/-- What `write_graph` writes to its stream. -/
def writeGraph (model : Model) : Writer :=
  unlessEof (fputs (Text.ofString "# Resource lifetime graph\n\n```mermaid\nflowchart LR\n").bytes)
    (writeLifetimes 0 model.edges)

/-- The directory of the bundle: whether `mkdir` made it or found it there, and how the files in it open. -/
structure Directory where
  path : Text
  made : Except Errno Unit := .ok ()
  file : Text → Except Errno (OutputFile Errno)

/-- What a call has done: the files opened, with what was done to each, and the errors raised. -/
structure Bundle where
  files : List (Text × OutputStream.Stream) := []
  raised : List Raised := []

def Bundle.raise (bundle : Bundle) (e : Raised) : Bundle := { bundle with raised := bundle.raised ++ [e] }

def pathSize : ℕ := 4096

structure Report where
  name : Text
  write : Writer
  /-- A write that fails raises an error. -/
  raises : Bool
  /-- An error in closing the file is not raised behind another one. -/
  quiet : Bool

/-- The error that `close_output` raises: that of the flush, or else that of `fclose`. -/
def closingError (file : OutputFile Errno) (flushed : Bool) : Errno :=
  let flushError := if flushed then .unset else file.flushError
  let error := match file.closes with
    | .error e => if flushError = .unset then e else flushError
    | .ok () => flushError
  if error = .unset then .eio else error

/-- `open_output`, the writes and `close_output`. -/
def writeReport (directory : Directory) (report : Report) (bundle : Bundle) : ℤ × Bundle :=
  if pathSize ≤ (directory.path ++ .ofString "/" ++ report.name).length then (-1, bundle.raise (.errno .eoverflow))
  else
    match directory.file report.name with
    | .error e => (-1, bundle.raise (.errno e))
    | .ok file =>
      let status := (report.write file.stream).1
      let stream := (report.write file.stream).2
      let wrote := if report.raises ∧ status ≠ 0 then bundle.raise (.errno .eio) else bundle
      let closed : Bundle := { wrote with files := wrote.files ++ [(report.name, stream.record .flush)] }
      if stream.next.succeeds ∧ file.closes = .ok () then (status, closed)
      else
        (-1, if report.quiet ∧ closed.raised ≠ [] then closed
          else closed.raise (.errno (closingError file stream.next.succeeds)))

def writeReports (directory : Directory) : List Report → Bundle → ℤ × Bundle
  | [], bundle => (0, bundle)
  | report :: reports, bundle =>
    let written := writeReport directory report bundle
    if written.1 = 0 then writeReports directory reports written.2 else written

/-- The files of `write_text_reports`. -/
def textReports (analysis : Analysis) : List Report :=
  [⟨.ofString "resource-report.txt", writePolicyText analysis .resource "p101 resource policy", true, true⟩,
    ⟨.ofString "concurrency-report.txt", writePolicyText analysis .synchronization "p101 synchronization policy", true, true⟩,
    ⟨.ofString "sanitizer-report.txt", writePolicyText analysis .sanitizer "p101 sanitizer policy", true, true⟩,
    ⟨.ofString "trace-tree.txt", writeString analysis.traceTree, true, false⟩,
    ⟨.ofString "trace-summary.txt", writeTraceSummary analysis, true, false⟩,
    ⟨.ofString "correlated-report.txt", writeCorrelated analysis, true, false⟩]

/-- The names, the schemas and the policies of `write_json_reports`. -/
def jsonSchemas : List (Text × Text × Option Policy) :=
  [(.ofString "resource-report.json", .ofString "p101-resource-policy-findings-v1", some .resource),
    (.ofString "concurrency-report.json", .ofString "p101-synchronization-policy-findings-v1", some .synchronization),
    (.ofString "sanitizer-report.json", .ofString "p101-sanitizer-findings-v1", some .sanitizer),
    (.ofString "correlated-report.json", .ofString "p101-analysis-findings-v1", none)]

/-- The files of `write_json_reports`, whose writes fail without an error raised. -/
def jsonReports (lookup : Text → Option Lesson) (analysis : Analysis) : List Report :=
  jsonSchemas.map fun entry => ⟨entry.1, writeJsonDocument lookup entry.2.1 entry.2.2 analysis, false, false⟩

/-- The files of a bundle in the order in which they are written. -/
def reports (lookup : Text → Option Lesson) (analysis : Analysis) : List Report :=
  textReports analysis ++ jsonReports lookup analysis ++
    [⟨.ofString "resource-lifetimes.md", writeGraph analysis.model, true, true⟩]

/-- `p101_tool_analysis_write_bundle` on non-null arguments. -/
def writeBundle (lookup : Text → Option Lesson) (analysis : Analysis) (directory : Directory) : ℤ × Bundle :=
  if analysis.ordered = none then (-1, Bundle.raise {} (.errno .einval))
  else
    match directory.made with
    | .error e => (-1, Bundle.raise {} (.errno e))
    | .ok () => writeReports directory (reports lookup analysis) {}

theorem reports_string (text : Text) : Reports (writeString text) text.bytes := by
  have h := (writes_done.fputs text.bytes).reports
  rwa [List.append_nil] at h

/-- A character of a JSON string is spelled in one or two operations. -/
theorem Reports.jsonCharacter {next : Writer} {bytes : List UInt8} (b : UInt8) (h : Reports next bytes) :
    Reports (unlessEof (writeJsonCharacter b) next) (jsonByte b ++ bytes) := by
  have hcharacter : ∀ {next : Writer} {bytes : List UInt8}, Reports next bytes → Reports (unlessEof
      (if b = 10 then fputs [92, 110] else if b = 13 then fputs [92, 114] else if b = 9 then fputs [92, 116]
        else if b < 32 then fprintf [92, 117, 48, 48, hexDigit (b.toNat / 16), hexDigit (b.toNat % 16)]
        else fputc b) next)
      ((if b = 10 then [92, 110] else if b = 13 then [92, 114] else if b = 9 then [92, 116]
        else if b < 32 then [92, 117, 48, 48, hexDigit (b.toNat / 16), hexDigit (b.toNat % 16)] else [b]) ++ bytes) := by
    intro next bytes h
    split_ifs
    · exact h.fputs _
    · exact h.fputs _
    · exact h.fputs _
    · exact h.fprintf _
    · exact h.fputc b
  rw [writeJsonCharacter, jsonByte]
  by_cases hescaped : b = 34 ∨ b = 92
  · rw [if_pos hescaped, if_pos hescaped, unlessEof, guarded_assoc rfl, List.append_assoc]
    exact (hcharacter h).fputc 92
  · rw [if_neg hescaped, if_neg hescaped, List.nil_append]
    exact hcharacter h

theorem reports_jsonString (text : Text) : Reports (writeJsonString text) (ModelAnalysis.writeJsonString text).bytes := by
  have hcharacters : ∀ bytes, Reports (writeJsonCharacters bytes) (bytes.flatMap jsonByte ++ [34]) := by
    intro bytes
    induction bytes with
    | nil => exact reports_done.fputc 34
    | cons b bytes ih =>
      rw [List.flatMap_cons, List.append_assoc]
      exact Reports.jsonCharacter b ih
  exact (hcharacters text.bytes).fputc 34

theorem reports_lesson (lesson : Option Lesson) : Reports (writeLesson lesson) (lessonText lesson).bytes := by
  cases lesson with
  | none => exact reports_done
  | some lesson =>
    have h := (reports_string (.ofString ",\"lesson\":\x7b\"primary\":\x7b\"lesson_id\":")).ifZero <|
      (reports_jsonString lesson.lessonId).ifZero <| (reports_string (.ofString ",\"path\":")).ifZero <|
      (reports_jsonString lesson.lessonPath).ifZero <| (reports_string (.ofString ",\"url\":")).ifZero <|
      (reports_jsonString lesson.lessonUrl).ifZero <| reports_string (.ofString "\x7d,\"related\":[]\x7d")
    simpa only [writeLesson, lessonText, Text.bytes_append, List.append_assoc] using h

theorem reports_evidence (start : String) (text : Text) :
    Reports (writeEvidence start text) (evidenceMember start text).bytes := by
  rw [writeEvidence, evidenceMember]
  split
  · exact reports_done
  · exact (reports_string (.ofString start)).ifZero (reports_jsonString text)

theorem reports_findingJson (lookup : Text → Option Lesson) (finding : Finding) :
    Reports (writeFindingJson lookup finding) (ModelAnalysis.writeFindingJson lookup finding).bytes := by
  have h := (reports_string (.ofString "\x7b\"id\":")).ifZero <| (reports_jsonString finding.diagnosticId).ifZero <|
    (reports_string (.ofString ",\"severity\":\"error\",\"policy\":")).ifZero <|
    (reports_jsonString (.ofString (policyName finding.policy))).ifZero <|
    (reports_string (.ofString ",\"location\":\x7b\"file\":")).ifZero <|
    (reports_jsonString finding.fileName).ifZero <|
    ((reports_jsonString finding.functionName).nonnegative
      (.ofString ",\"line\":" ++ Text.decimal finding.lineNumber ++ .ofString ",\"function\":").bytes).ifZero <|
    (reports_string (.ofString "\x7d,\"message\":")).ifZero <| (reports_jsonString finding.message).ifZero <|
    (reports_lesson (lookup finding.diagnosticId)).ifZero <|
    (reports_string (.ofString ",\"evidence\":\x7b\"node\":")).ifZero <|
    (reports_jsonString finding.nodeId).ifZero <| (reports_evidence ",\"from\":" finding.evidenceFrom).ifZero <|
    (reports_evidence ",\"to\":" finding.evidenceTo).ifZero <|
    (reports_evidence ",\"detail\":" finding.evidenceDetail).ifZero <| reports_string (.ofString "\x7d\x7d")
  simpa only [writeFindingJson, ModelAnalysis.writeFindingJson, Text.bytes_append, List.append_assoc] using h

theorem reports_findings (lookup : Text → Option Lesson) (policy : Option Policy) (emitted : ℕ) (findings : List Finding) :
    Reports (writeFindings lookup policy emitted findings)
      (ModelAnalysis.writeFindings lookup policy emitted findings).bytes := by
  induction findings generalizing emitted with
  | nil => exact reports_done
  | cons finding findings ih =>
    rw [writeFindings, ModelAnalysis.writeFindings]
    split
    · exact ih emitted
    · have h := (reports_string (.ofString (if emitted = 0 then "\n    " else ",\n    "))).ifZero
        ((reports_findingJson lookup finding).ifZero (ih (emitted + 1)))
      simpa only [Text.bytes_append, List.append_assoc] using h

/-- On a stream the document is the text that its readers are about. -/
theorem reports_jsonDocument (lookup : Text → Option Lesson) (schema : Text) (policy : Option Policy) (analysis : Analysis) :
    Reports (writeJsonDocument lookup schema policy analysis)
      (ModelAnalysis.writeJsonDocument lookup schema policy analysis).bytes := by
  have h := (reports_string (.ofString "\x7b\n  \"schema\": ")).ifZero <| (reports_jsonString schema).ifZero <|
    (reports_string (.ofString ",\n  \"findings\": [")).ifZero <|
    (reports_findings lookup policy 0 analysis.findings).ifZero
      (writes_done.fprintf (.ofString "\n  ],\n  \"summary\": \x7b\"findings\": " ++
        Text.decimal (analysis.findingCount policy) ++ .ofString "\x7d\n\x7d\n").bytes).reports
  simpa only [writeJsonDocument, ModelAnalysis.writeJsonDocument, Text.bytes_append, List.append_assoc, List.append_nil] using h

/-- The text of the report on a policy: the number of its findings and a line for each. -/
def policyText (analysis : Analysis) (policy : Policy) (heading : String) : List UInt8 :=
  (Text.ofString heading ++ .ofString "\nfindings=" ++ Text.decimal (analysis.policyCounts policy) ++
    .ofString "\n").bytes ++ (analysis.findings.filter (·.policy = policy)).flatMap fun finding => (policyLine finding).bytes

theorem writes_policyText (analysis : Analysis) (policy : Policy) (heading : String) :
    Writes (writePolicyText analysis policy heading) (policyText analysis policy heading) := by
  have hlines : ∀ findings : List Finding, Writes (writePolicyLines policy findings)
      ((findings.filter (·.policy = policy)).flatMap fun finding => (policyLine finding).bytes) := by
    intro findings
    induction findings with
    | nil => exact writes_done
    | cons finding findings ih =>
      rw [writePolicyLines, List.filter_cons]
      by_cases hpolicy : finding.policy = policy
      · rw [if_neg (not_not.mpr hpolicy), if_pos (decide_eq_true hpolicy), List.flatMap_cons]
        exact ih.fprintf _
      · rw [if_pos hpolicy, if_neg (fun h => hpolicy (of_decide_eq_true h))]
        exact ih
  exact (hlines analysis.findings).fprintf _

/-- The text of the correlated report: the number of all findings and a line for each. -/
def correlatedText (analysis : Analysis) : List UInt8 :=
  (Text.ofString "# p101 correlated runtime report\n\nFindings: " ++ Text.decimal analysis.findings.length ++
    .ofString "\n\n").bytes ++ (analysis.findings.flatMap (fun finding => (correlatedLine finding).bytes) ++
      (Text.ofString "\nThis report is bounded by emitted p101 wrapper events.\n").bytes)

theorem writes_correlated (analysis : Analysis) : Writes (writeCorrelated analysis) (correlatedText analysis) := by
  have hlines : ∀ findings : List Finding, Writes (writeCorrelatedLines findings)
      (findings.flatMap (fun finding => (correlatedLine finding).bytes) ++
        (Text.ofString "\nThis report is bounded by emitted p101 wrapper events.\n").bytes) := by
    intro findings
    induction findings with
    | nil =>
      have h := writes_done.fputs (Text.ofString "\nThis report is bounded by emitted p101 wrapper events.\n").bytes
      rwa [List.append_nil] at h
    | cons finding findings ih =>
      rw [List.flatMap_cons, List.append_assoc]
      exact ih.fprintf _
  exact (hlines analysis.findings).fprintf _

theorem writes_string (text : Text) : Writes (writeString text) text.bytes := by
  have h := writes_done.fputs text.bytes
  rwa [List.append_nil] at h

def traceSummaryText (analysis : Analysis) : Text :=
  .ofString "event_schema=p101-tool-event-format-v5 event_id_policy=wire-sequence-with-derived-input-order\nrecords=" ++
    Text.decimal analysis.callRecords ++ .ofString " execution_contexts=" ++
    Text.decimal analysis.traceContexts.length ++ .ofString " findings=" ++
    Text.decimal (analysis.policyCounts .trace) ++ .ofString "\n"

theorem writes_traceSummary (analysis : Analysis) : Writes (writeTraceSummary analysis) (traceSummaryText analysis).bytes := by
  have h := writes_done.fprintf (traceSummaryText analysis).bytes
  rwa [List.append_nil] at h

/-- The line of the graph for the lifetime with a number. -/
def lifetimeLine (number : ℕ) : List UInt8 :=
  (Text.ofString "  n" ++ Text.decimal number ++ .ofString "a[\"resource acquired\"] --> n" ++ Text.decimal number ++
    .ofString "b[\"resource released\"]\n").bytes

def noLifetimes : List UInt8 := (Text.ofString "  empty[\"No completed resource lifetimes observed\"]\n").bytes

def lifetimeCount (edges : List Edge) : ℕ := edges.countP fun edge => edge.kind = .resourceLifetime

/-- The text of the graph: a numbered line for each lifetime, or one that there are none. -/
def graphText (model : Model) : List UInt8 :=
  (Text.ofString "# Resource lifetime graph\n\n```mermaid\nflowchart LR\n").bytes ++
    ((List.range (lifetimeCount model.edges)).flatMap lifetimeLine ++
      ((if lifetimeCount model.edges = 0 then noLifetimes else []) ++ (Text.ofString "```\n").bytes))

theorem writes_lifetimes (emitted : ℕ) (edges : List Edge) :
    Writes (writeLifetimes emitted edges) ((List.range' emitted (lifetimeCount edges)).flatMap lifetimeLine ++
      ((if emitted + lifetimeCount edges = 0 then noLifetimes else []) ++ (Text.ofString "```\n").bytes)) := by
  induction edges generalizing emitted with
  | nil =>
    cases emitted with
    | zero => exact (writes_string (.ofString "```\n")).fputs noLifetimes
    | succ emitted => exact writes_string (.ofString "```\n")
  | cons edge edges ih =>
    rw [writeLifetimes]
    by_cases hkind : edge.kind = .resourceLifetime
    · have hcount : lifetimeCount (edge :: edges) = lifetimeCount edges + 1 :=
        List.countP_cons_of_pos (decide_eq_true hkind)
      have h := (ih (emitted + 1)).fprintf (lifetimeLine emitted)
      rw [if_neg (not_not.mpr hkind), hcount, List.range'_succ, List.flatMap_cons, List.append_assoc,
        if_neg (by omega)]
      rwa [if_neg (by omega)] at h
    · have hcount : lifetimeCount (edge :: edges) = lifetimeCount edges :=
        List.countP_cons_of_neg fun h => hkind (of_decide_eq_true h)
      rw [if_pos hkind, hcount]
      exact ih emitted

theorem writes_graph (model : Model) : Writes (writeGraph model) (graphText model) := by
  have h := (writes_lifetimes 0 model.edges).fputs
    (Text.ofString "# Resource lifetime graph\n\n```mermaid\nflowchart LR\n").bytes
  rw [Nat.zero_add, ← List.range_eq_range'] at h
  exact h

def reportTexts (lookup : Text → Option Lesson) (analysis : Analysis) : List (List UInt8) :=
  [policyText analysis .resource "p101 resource policy",
    policyText analysis .synchronization "p101 synchronization policy",
    policyText analysis .sanitizer "p101 sanitizer policy", analysis.traceTree.bytes,
    (traceSummaryText analysis).bytes, correlatedText analysis] ++
  jsonSchemas.map (fun entry => (ModelAnalysis.writeJsonDocument lookup entry.2.1 entry.2.2 analysis).bytes) ++
  [graphText analysis.model]

theorem reports_reportTexts (lookup : Text → Option Lesson) (analysis : Analysis) :
    List.Forall₂ (fun report text => Reports report.write text) (reports lookup analysis) (reportTexts lookup analysis) := by
  have htexts : List.Forall₂ (fun report text => Reports report.write text) (textReports analysis)
      [policyText analysis .resource "p101 resource policy",
        policyText analysis .synchronization "p101 synchronization policy",
        policyText analysis .sanitizer "p101 sanitizer policy", analysis.traceTree.bytes,
        (traceSummaryText analysis).bytes, correlatedText analysis] :=
    .cons (writes_policyText analysis _ _).reports <| .cons (writes_policyText analysis _ _).reports <|
    .cons (writes_policyText analysis _ _).reports <| .cons (reports_string _) <|
    .cons (writes_traceSummary analysis).reports <| .cons (writes_correlated analysis).reports .nil
  have hdocuments : List.Forall₂ (fun report text => Reports report.write text) (jsonReports lookup analysis)
      (jsonSchemas.map fun entry => (ModelAnalysis.writeJsonDocument lookup entry.2.1 entry.2.2 analysis).bytes) := by
    rw [jsonReports, List.forall₂_map_left_iff, List.forall₂_map_right_iff, List.forall₂_same]
    exact fun entry _ => reports_jsonDocument lookup entry.2.1 entry.2.2 analysis
  exact List.rel_append (List.rel_append htexts hdocuments) (.cons (writes_graph analysis.model).reports .nil)

def Closes (directory : Directory) (name : Text) : Prop := ∃ file, directory.file name = .ok file ∧ file.closes = .ok ()

/-- The file was opened under the name, has the text and was closed; no operation on it failed. -/
structure Holds (directory : Directory) (name : Text) (text : List UInt8) (file : Text × OutputStream.Stream) : Prop where
  closed : Closes directory name
  name : file.1 = name
  written : file.2.written = text
  succeeded : ∀ operation ∈ file.2.log, operation.2 = true

inductive OpeningFails (directory : Directory) (name : Text) : Raised → Prop
  | long (hlong : pathSize ≤ (directory.path ++ .ofString "/" ++ name).length) :
      OpeningFails directory name (.errno .eoverflow)
  | system (e : Errno) (hfile : directory.file name = .error e) : OpeningFails directory name (.errno e)

/-- A write to the file failed, and neither its flush nor its closing. -/
structure FailsInWriting (directory : Directory) (name : Text) (t : OutputStream.Stream) : Prop where
  log : ∃ before operation, t.log = before ++ [(operation, false), (Operation.flush, true)]
  closed : Closes directory name

/-- How the work on one file ends: with its text in it, without opening it, or with a beginning of its text.
A failure has raised an error, but for a failed write of a report that does not raise one. -/
inductive ReportEnding (directory : Directory) (report : Report) (text : List UInt8) (bundle : Bundle) : ℤ × Bundle → Prop
  | complete (t : OutputStream.Stream) (hholds : Holds directory report.name text (report.name, t)) :
      ReportEnding directory report text bundle (0, { bundle with files := bundle.files ++ [(report.name, t)] })
  | unopened (e : Raised) (hfails : OpeningFails directory report.name e) :
      ReportEnding directory report text bundle (-1, bundle.raise e)
  | failed (status : ℤ) (hstatus : status ≠ 0) (t : OutputStream.Stream) (hbeginning : t.written <+: text)
      (raised : List Raised)
      (hraised : raised = [] → report.raises = false ∧ FailsInWriting directory report.name t) :
      ReportEnding directory report text bundle (status, ⟨bundle.files ++ [(report.name, t)], raised⟩)

/-- A failed operation on a file of the directory leaves nothing and returns EOF. -/
def Directory.FailsWithEof (directory : Directory) : Prop :=
  ∀ name file, directory.file name = .ok file → file.stream.FailsWithEof

/-- What the writes of a report leave on the stream of its file. -/
structure WritesAttempted (text : List UInt8) (status : ℤ) (stream : OutputStream.Stream) : Prop where
  beginning : stream.written <+: text
  all : status = 0 → stream.written = text ∧ ∀ operation ∈ stream.log, operation.2 = true
  failed : status ≠ 0 → ∃ before operation, stream.log = before ++ [(operation, false)]

theorem writesAttempted {x : Writer} {text : List UInt8} (h : Reports x text) {file : OutputFile Errno}
    (hfails : file.stream.FailsWithEof) : WritesAttempted text (x file.stream).1 (x file.stream).2 := by
  obtain ⟨pieces, rfl, hwrites⟩ := h
  obtain ⟨hstatus, hstream⟩ := hwrites file.stream hfails
  have hbytes : (pieces.map Operation.write).flatMap Operation.bytes = pieces.flatten := by
    rw [List.flatMap_map]
    simp [Operation.bytes, List.flatMap_id']
  obtain ⟨beginning, hwritten, hprefix⟩ := written_attempt (pieces.map Operation.write) file.stream
  have hattempted := attempted (pieces.map Operation.write) file.stream
  rw [hbytes] at hprefix
  rw [hstream]
  generalize attempt (pieces.map Operation.write) file.stream = tried at hattempted hstatus hwritten
  refine ⟨hwritten ▸ hprefix, fun hzero => ?_, fun hnonzero => ?_⟩
  · cases hattempted with
    | failed => cases hstatus.mp hzero
    | all t log written =>
      refine ⟨by rw [written, hbytes]; rfl, fun operation hoperation => ?_⟩
      rw [log] at hoperation
      obtain ⟨op, -, rfl⟩ := List.mem_map.mp hoperation
      rfl
  · cases hattempted with
    | all => exact absurd (hstatus.mpr rfl) hnonzero
    | failed t before op after split log => exact ⟨_, op, log⟩

theorem reportEnding {directory : Directory} (hdirectory : directory.FailsWithEof) {report : Report}
    {text : List UInt8} (hreport : Reports report.write text) (bundle : Bundle) :
    ReportEnding directory report text bundle (writeReport directory report bundle) := by
  rw [writeReport]
  split
  · next hlong => exact .unopened _ (.long hlong)
  · cases hfile : directory.file report.name with
    | error e => exact .unopened _ (.system e hfile)
    | ok file =>
      obtain ⟨hbeginning, hall, hfailed⟩ := writesAttempted hreport (hdirectory _ _ hfile)
      dsimp only
      generalize report.write file.stream = result at hbeginning hall hfailed ⊢
      obtain ⟨status, stream⟩ := result
      dsimp only at hbeginning hall hfailed ⊢
      have hflush : (stream.record .flush).written = stream.written := by
        rw [OutputStream.Stream.record]
        simp [Operation.bytes]
      rw [← hflush] at hbeginning
      obtain ⟨raised, hraised, hkept, hnone⟩ : ∃ raised,
          (if report.raises = true ∧ status ≠ 0 then bundle.raise (.errno .eio) else bundle) = ⟨bundle.files, raised⟩ ∧
            (status = 0 → raised = bundle.raised) ∧ (status ≠ 0 → raised = [] → report.raises = false) := by
        split
        · next hraises =>
          exact ⟨_, rfl, fun hzero => absurd hzero hraises.2, fun _ h => absurd h (by simp)⟩
        · next hquiet =>
          exact ⟨_, rfl, fun _ => rfl, fun hstatus _ => Bool.eq_false_of_not_eq_true fun h => hquiet ⟨h, hstatus⟩⟩
      rw [hraised]
      split
      · next hclosed =>
        have hcloses : Closes directory report.name := ⟨file, hfile, hclosed.2⟩
        have hrecorded : (stream.record .flush).log = stream.log ++ [(Operation.flush, true)] := by
          rw [OutputStream.Stream.record, hclosed.1]
        by_cases hzero : status = 0
        · obtain ⟨hwritten, hsucceeded⟩ := hall hzero
          subst hzero
          rw [hkept rfl]
          refine .complete _ ⟨hcloses, rfl, hflush.trans hwritten, fun operation hoperation => ?_⟩
          rw [hrecorded] at hoperation
          rcases List.mem_append.mp hoperation with hold | hnew
          · exact hsucceeded operation hold
          · rw [List.mem_singleton.mp hnew]
        · refine .failed status hzero _ hbeginning raised fun h => ⟨hnone hzero h, ?_, hcloses⟩
          obtain ⟨before, operation, hlog⟩ := hfailed hzero
          exact ⟨before, operation, by rw [hrecorded, hlog, List.append_assoc]; rfl⟩
      · split
        · next hquiet => exact .failed (-1) (by decide) _ hbeginning raised fun h => absurd h hquiet.2
        · exact .failed (-1) (by decide) _ hbeginning (raised ++ [_]) fun h => absurd h (by simp)

/-- The entries are written one after the other, and these are the files of all of them. -/
def AllHeld (directory : Directory) (entries : List (Report × List UInt8)) (files : List (Text × OutputStream.Stream)) :
    Prop := List.Forall₂ (fun entry file => Holds directory entry.1.name entry.2 file) entries files

inductive BundleEnding (analysis : Analysis) (directory : Directory) (entries : List (Report × List UInt8)) :
    ℤ × Bundle → Prop
  | complete (files : List (Text × OutputStream.Stream)) (hfiles : AllHeld directory entries files) :
      BundleEnding analysis directory entries (0, ⟨files, []⟩)
  | unordered (hordered : analysis.ordered = none) :
      BundleEnding analysis directory entries (-1, ⟨[], [.errno .einval]⟩)
  | unmade (e : Errno) (hmade : directory.made = .error e) : BundleEnding analysis directory entries (-1, ⟨[], [.errno e]⟩)
  | unopened (before after : List (Report × List UInt8)) (report : Report) (text : List UInt8)
      (hsplit : entries = before ++ (report, text) :: after) (files : List (Text × OutputStream.Stream))
      (hfiles : AllHeld directory before files) (e : Raised) (hfails : OpeningFails directory report.name e) :
      BundleEnding analysis directory entries (-1, ⟨files, [e]⟩)
  | failed (before after : List (Report × List UInt8)) (report : Report) (text : List UInt8)
      (hsplit : entries = before ++ (report, text) :: after) (files : List (Text × OutputStream.Stream))
      (hfiles : AllHeld directory before files) (status : ℤ) (hstatus : status ≠ 0) (t : OutputStream.Stream)
      (hbeginning : t.written <+: text) (raised : List Raised)
      (hraised : raised = [] → report.raises = false ∧ FailsInWriting directory report.name t) :
      BundleEnding analysis directory entries (status, ⟨files ++ [(report.name, t)], raised⟩)

theorem bundleEnding_writeReports (analysis : Analysis) {directory : Directory} (hdirectory : directory.FailsWithEof)
    {before after : List (Report × List UInt8)} {files : List (Text × OutputStream.Stream)}
    (hreports : ∀ entry ∈ after, Reports entry.1.write entry.2) (hfiles : AllHeld directory before files) :
    BundleEnding analysis directory (before ++ after) (writeReports directory (after.map Prod.fst) ⟨files, []⟩) := by
  induction after generalizing before files with
  | nil =>
    rw [List.append_nil]
    exact .complete files hfiles
  | cons entry after ih =>
    obtain ⟨report, text⟩ := entry
    have hending := reportEnding hdirectory (hreports _ List.mem_cons_self) ⟨files, []⟩
    rw [List.map_cons, writeReports]
    generalize writeReport directory report ⟨files, []⟩ = result at hending ⊢
    cases hending with
    | complete t hholds =>
      have hnext := ih (fun entry hentry => hreports entry (List.mem_cons_of_mem _ hentry))
        (List.rel_append hfiles (.cons hholds .nil))
      rw [List.append_assoc] at hnext
      exact hnext
    | unopened e hfails => exact .unopened before after report text rfl files hfiles e hfails
    | failed status hstatus t hbeginning raised hraised =>
      dsimp only
      rw [if_neg hstatus]
      exact .failed before after report text rfl files hfiles status hstatus t hbeginning raised hraised

/-- The files of a bundle, one after the other. -/
theorem bundleEnding_reports (lookup : Text → Option Lesson) (analysis : Analysis) {directory : Directory}
    (hdirectory : directory.FailsWithEof) :
    BundleEnding analysis directory ((reports lookup analysis).zip (reportTexts lookup analysis))
      (writeReports directory (reports lookup analysis) {}) := by
  have htexts := reports_reportTexts lookup analysis
  have hreports : ∀ entry ∈ (reports lookup analysis).zip (reportTexts lookup analysis), Reports entry.1.write entry.2 := by
    rintro ⟨report, text⟩ hentry
    exact (List.forall₂_iff_zip.mp htexts).2 hentry
  have hending := @bundleEnding_writeReports analysis _ hdirectory [] _ [] hreports .nil
  rw [List.map_fst_zip (Nat.le_of_eq htexts.length_eq)] at hending
  exact hending

/-- A bundle that is written returns 0 and has every file with its text. Otherwise it stops at one file:
those before it are complete, and none behind it is opened. -/
theorem bundleEnding (lookup : Text → Option Lesson) (analysis : Analysis) {directory : Directory}
    (hdirectory : directory.FailsWithEof) :
    BundleEnding analysis directory ((reports lookup analysis).zip (reportTexts lookup analysis))
      (writeBundle lookup analysis directory) := by
  rw [writeBundle]
  split
  · next hordered => exact .unordered hordered
  · cases hmade : directory.made with
    | error e => exact .unmade e hmade
    | ok => exact bundleEnding_reports lookup analysis hdirectory

def openAnalysis : Analysis := (observedRun Summary.openAllocation).2.state

/-- A directory on a disk that is full after some operations on each file. -/
def fullDisk (room : ℕ) : Directory where
  path := .ofString "out"
  file _ := .ok { answer := fun n => { succeeds := n < room }, flushError := .eio }

theorem bundleEnding_fullDisk :
    BundleEnding openAnalysis (fullDisk 5) ((reports (fun _ => none) openAnalysis).zip
        (reportTexts (fun _ => none) openAnalysis))
      (writeBundle (fun _ => none) openAnalysis (fullDisk 5)) := by
  have hfails : (fullDisk 5).FailsWithEof := by
    intro name file hfile n hfails
    obtain rfl := Except.ok.inj hfile
    rfl
  exact bundleEnding _ _ hfails

/-- The directory is there, its path leaves room for the names, and its files open, take all writes and close. -/
structure Directory.Healthy (directory : Directory) : Prop where
  made : directory.made = .ok ()
  short : directory.path.length + 24 < pathSize
  opens : ∀ name, ∃ file, directory.file name = .ok file ∧ file.stream.NeverFails ∧ file.closes = .ok ()

theorem Directory.Healthy.failsWithEof {directory : Directory} (h : directory.Healthy) : directory.FailsWithEof := by
  intro name file hfile n hfails
  obtain ⟨file', hfile', hnever, -⟩ := h.opens name
  obtain rfl := Except.ok.inj (hfile.symm.trans hfile')
  rw [hnever n (Nat.zero_le n)] at hfails
  cases hfails

theorem length_name_le (lookup : Text → Option Lesson) (analysis : Analysis) :
    ∀ report ∈ reports lookup analysis, report.name.length ≤ 23 := by
  have hnames : (reports lookup analysis).map Report.name =
      ["resource-report.txt", "concurrency-report.txt", "sanitizer-report.txt", "trace-tree.txt", "trace-summary.txt",
        "correlated-report.txt", "resource-report.json", "concurrency-report.json", "sanitizer-report.json",
        "correlated-report.json", "resource-lifetimes.md"].map Text.ofString := rfl
  intro report hreport
  have hname := List.mem_map_of_mem (f := Report.name) hreport
  rw [hnames] at hname
  revert hname
  generalize report.name = name
  revert name
  decide

theorem writeReports_healthy {directory : Directory} (h : directory.Healthy) {entries : List (Report × List UInt8)}
    (hreports : ∀ entry ∈ entries, Reports entry.1.write entry.2 ∧ entry.1.name.length ≤ 23) (bundle : Bundle) :
    (writeReports directory (entries.map Prod.fst) bundle).1 = 0 := by
  induction entries generalizing bundle with
  | nil => rfl
  | cons entry entries ih =>
    obtain ⟨⟨pieces, -, hwrites⟩, hname⟩ := hreports entry List.mem_cons_self
    obtain ⟨file, hfile, hnever, hcloses⟩ := h.opens entry.1.name
    obtain ⟨hstatus, hstream⟩ := hwrites file.stream (h.failsWithEof _ _ hfile)
    have hzero := hstatus.mpr (attempt_of_neverFails (pieces.map .write) hnever).1
    have hanswer : (entry.1.write file.stream).2.answer = file.answer := by
      rw [hstream]
      exact answer_attempt _ _
    have hflush : (entry.1.write file.stream).2.next.succeeds = true := by
      rw [OutputStream.Stream.next, hanswer]
      exact hnever _ (Nat.zero_le _)
    have hshort : ¬ pathSize ≤ (directory.path ++ .ofString "/" ++ entry.1.name).length := by
      have hroom := h.short
      have hslash : (Text.ofString "/").length = 1 := rfl
      rw [Text.length_append, Text.length_append, hslash]
      omega
    have hwritten : (writeReport directory entry.1 bundle).1 = 0 := by
      rw [writeReport, if_neg hshort, hfile]
      dsimp only
      rw [if_pos ⟨hflush, hcloses⟩]
      exact hzero
    rw [List.map_cons, writeReports, if_pos hwritten]
    exact ih (fun entry hentry => hreports entry (List.mem_cons_of_mem _ hentry)) _

theorem length_schema {entry : Text × Text × Option Policy} (h : entry ∈ jsonSchemas) :
    entry.2.1 ≠ .empty ∧ entry.2.1.length < Summary.jsonKeyCapacity := by
  revert h
  revert entry
  decide

/-- A run that returns 0 has an order of the nodes. -/
theorem ordered_ne_none {records : RecordLibrary} {model : Model} (hmodel : Finished records model)
    {sanitizer : Option SanitizerFile} {outcomes : List Bool} {w : World Analysis}
    (hrun : runAnalysis sanitizer ⟨{ model := model }, outcomes⟩ = (.ok (), w)) : w.state.ordered ≠ none := by
  change (buildCausalOrder >>= fun _ => passes sanitizer) ⟨{ model := model }, outcomes⟩ = (.ok (), w) at hrun
  obtain ⟨⟨⟩, w₁, hbuild, hpasses⟩ := Fallible.run_bind_eq_ok.mp hrun
  have hchange := (obeys_passes sanitizer w₁).1
  rw [hpasses] at hchange
  rw [hchange.ordered]
  have hsound := hmodel.reachable.sound
  by_cases hrefused : false ∈ outcomes.take 6
  · rw [buildCausalOrder_refused { model := model } outcomes hsound hrefused] at hbuild
    cases hbuild
  · obtain ⟨order, -, hgranted⟩ := buildCausalOrder_granted { model := model } outcomes hsound hrefused
    rw [hgranted] at hbuild
    obtain ⟨-, rfl⟩ := Prod.mk.inj hbuild
    rw [Analysis.concluded]
    split <;> exact Option.some_ne_none _

theorem mem_zip_reports (lookup : Text → Option Lesson) (analysis : Analysis) {entry : Text × Text × Option Policy}
    (h : entry ∈ jsonSchemas) :
    (⟨entry.1, writeJsonDocument lookup entry.2.1 entry.2.2 analysis, false, false⟩,
      (ModelAnalysis.writeJsonDocument lookup entry.2.1 entry.2.2 analysis).bytes) ∈
        (reports lookup analysis).zip (reportTexts lookup analysis) := by
  rw [reports, reportTexts, List.zip_append (by rfl), List.zip_append (by rfl), jsonReports, List.zip_map']
  apply List.mem_append_left
  apply List.mem_append_right
  exact List.mem_map_of_mem h

theorem exists_of_forall₂ {α β : Type} {R : α → β → Prop} {as : List α} {bs : List β} (h : List.Forall₂ R as bs) {a : α}
    (ha : a ∈ as) : ∃ b ∈ bs, R a b := by
  induction h with
  | nil => exact absurd ha List.not_mem_nil
  | @cons x y xs ys hxy hrest ih =>
    rcases List.mem_cons.mp ha with rfl | ha
    · exact ⟨y, List.mem_cons_self, hxy⟩
    · obtain ⟨b, hb, hab⟩ := ih ha
      exact ⟨b, List.mem_cons_of_mem _ hb, hab⟩

/-- In a healthy directory the bundle of an analysis that ran is written completely, and the readers of
summaries find in each of its documents the number of the findings that it is about. -/
theorem bundle_readBack (lookup : Text → Option Lesson) {records : RecordLibrary} {model : Model}
    (hmodel : Finished records model) {sanitizer : Option SanitizerFile} {outcomes : List Bool} {w : World Analysis}
    (hrun : runAnalysis sanitizer ⟨{ model := model }, outcomes⟩ = (.ok (), w)) {directory : Directory}
    (hdirectory : directory.Healthy) :
    ∃ files, writeBundle lookup w.state directory = (0, ⟨files, []⟩) ∧
      AllHeld directory ((reports lookup w.state).zip (reportTexts lookup w.state)) files ∧
      ∀ entry ∈ jsonSchemas, ∃ file ∈ files, ∃ text : Text, file.1 = entry.1 ∧ file.2.written = text.bytes ∧
        ∀ (lib : Summary.JsonLibrary) (summary : Summary.PolicySummary),
          Summary.parsePolicySummaryJson lib text entry.2.1 summary =
            (true, { findings := (Summary.selectedFindings entry.2.2 w.state.findings).length, parsed := true }) := by
  have htexts := reports_reportTexts lookup w.state
  have hreports : ∀ entry ∈ (reports lookup w.state).zip (reportTexts lookup w.state),
      Reports entry.1.write entry.2 ∧ entry.1.name.length ≤ 23 := by
    rintro ⟨report, text⟩ hentry
    exact ⟨(List.forall₂_iff_zip.mp htexts).2 hentry, length_name_le lookup w.state report (List.of_mem_zip hentry).1⟩
  have hstatus := writeReports_healthy hdirectory hreports {}
  rw [List.map_fst_zip (Nat.le_of_eq htexts.length_eq)] at hstatus
  have hending := bundleEnding_reports lookup w.state hdirectory.failsWithEof
  rw [writeBundle, if_neg (ordered_ne_none hmodel hrun), hdirectory.made]
  dsimp only
  generalize writeReports directory (reports lookup w.state) {} = result at hstatus hending
  cases hending with
  | unordered => cases hstatus
  | unmade => cases hstatus
  | unopened => cases hstatus
  | failed before after report text hsplit files hfiles status hne => exact absurd hstatus hne
  | complete files hfiles =>
    refine ⟨files, rfl, hfiles, fun entry hentry => ?_⟩
    obtain ⟨file, hfile, hholds⟩ := exists_of_forall₂ hfiles (mem_zip_reports lookup w.state hentry)
    refine ⟨file, hfile, _, hholds.name, hholds.written, fun lib summary => ?_⟩
    obtain ⟨hne, hlength⟩ := length_schema hentry
    have hran := runAnalysis_ok hmodel hrun
    have hcount := Summary.findingCount_eq hran entry.2.2
    have hsize : w.state.findingCount entry.2.2 ≤ sizeMax := by
      rw [hcount]
      exact (List.length_filter_le _ _).trans hran.bounded.length_le
    rw [← hcount]
    apply Summary.parsePolicySummaryJson_documentBytes hne hlength (Summary.skips_findingsArray lookup _) _ hsize
      (Summary.bytes_writeJsonDocument lookup entry.2.1 entry.2.2 w.state)
    intro rest
    rw [Summary.headD_findingsArray]
    rfl

def emptyDirectory : Directory where
  path := .ofString "out"
  file _ := .ok { answer := fun _ => {}, flushError := .eio }

theorem bundle_readBack_openAllocation :
    ∃ files, writeBundle (fun _ => none) openAnalysis emptyDirectory =
        (0, ⟨files, []⟩) ∧
      AllHeld emptyDirectory ((reports (fun _ => none) openAnalysis).zip
        (reportTexts (fun _ => none) openAnalysis)) files ∧
      ∀ entry ∈ jsonSchemas, ∃ file ∈ files, ∃ text : Text, file.1 = entry.1 ∧ file.2.written = text.bytes ∧
        ∀ (lib : Summary.JsonLibrary) (summary : Summary.PolicySummary),
          Summary.parsePolicySummaryJson lib text entry.2.1 summary =
            (true, { findings := (Summary.selectedFindings entry.2.2 openAnalysis.findings).length, parsed := true }) := by
  have hfinished : Finished .standard (modelOf .standard Summary.openAllocation) := finished_modelOf _ (by decide)
  have hrun := runAnalysis_eq_observedRun Summary.openAllocation (by decide +kernel)
  have hhealthy : emptyDirectory.Healthy := ⟨rfl, by decide, fun name => ⟨_, rfl, fun _ _ => rfl, rfl⟩⟩
  exact bundle_readBack _ hfinished hrun hhealthy

end ToolEvent.AnalysisBundle
