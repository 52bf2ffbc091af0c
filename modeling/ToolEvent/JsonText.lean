import ToolEvent.Analysis

/-!
# JSON texts of an analysis

The writers of `src/analysis.c` for JSON strings, findings and documents of findings, to a
stream without write errors. The lesson catalogue is not part of this repository.
-/

namespace ToolEvent.ModelAnalysis

/-- The lower-case hexadecimal digit of a number less than 16. -/
def hexDigit (n : ℕ) : UInt8 := ((if n < 10 then 48 else 87) + n).toUInt8

/-- What the loop of `write_json_string` writes for one byte. -/
def jsonByte (b : UInt8) : List UInt8 :=
  (if b = 34 ∨ b = 92 then [92] else []) ++
    (if b = 10 then [92, 110] else if b = 13 then [92, 114] else if b = 9 then [92, 116]
    else if b < 32 then [92, 117, 48, 48, hexDigit (b.toNat / 16), hexDigit (b.toNat % 16)]
    else [b])

theorem hexDigit_ne_zero : ∀ n < 16, hexDigit n ≠ 0 := by decide

theorem zero_notMem_jsonByte {b : UInt8} (h : b ≠ 0) : 0 ∉ jsonByte b := by
  have hb : 0 ≠ b := h.symm
  have hdigits : b < 32 → 0 ≠ hexDigit (b.toNat / 16) ∧ 0 ≠ hexDigit (b.toNat % 16) := by
    intro hcontrol
    have hlt : b.toNat < 32 := UInt8.lt_iff_toNat_lt.mp hcontrol
    exact ⟨(hexDigit_ne_zero _ (by omega)).symm, (hexDigit_ne_zero _ (by omega)).symm⟩
  unfold jsonByte
  split_ifs with hquote hnewline hreturn htab hcontrol hnewline hreturn htab hcontrol <;>
    simp [*]

def writeJsonString (text : Text) : Text :=
  ⟨34 :: text.bytes.flatMap jsonByte ++ [34], by
    simp only [List.cons_append, List.mem_cons, List.mem_append, List.mem_flatMap, not_or]
    refine ⟨by decide, ?_, by decide⟩
    rintro ⟨b, hb, hzero⟩
    exact zero_notMem_jsonByte (fun h => text.nulFree (h ▸ hb)) hzero⟩

/-- What is read of a `struct p101_tool_rule_definition`. -/
structure Lesson where
  lessonId : Text
  lessonPath : Text
  lessonUrl : Text

def policyName : Policy → String
  | .resource => "resource"
  | .synchronization => "synchronization"
  | .trace => "trace"
  | .sanitizer => "sanitizer"

def lessonText : Option Lesson → Text
  | none => .empty
  | some lesson =>
    .ofString ",\"lesson\":\x7b\"primary\":\x7b\"lesson_id\":" ++ writeJsonString lesson.lessonId ++
      .ofString ",\"path\":" ++ writeJsonString lesson.lessonPath ++ .ofString ",\"url\":" ++
      writeJsonString lesson.lessonUrl ++ .ofString "\x7d,\"related\":[]\x7d"

/-- A member of the evidence, which is left out when its text is empty. -/
def evidenceMember (start : String) (text : Text) : Text :=
  if text = .empty then .empty else .ofString start ++ writeJsonString text

/-- `write_finding_json`, with the lookup of a lesson by the identifier of a finding. -/
def writeFindingJson (lookup : Text → Option Lesson) (finding : Finding) : Text :=
  .ofString "\x7b\"id\":" ++ writeJsonString finding.diagnosticId ++
    .ofString ",\"severity\":\"error\",\"policy\":" ++ writeJsonString (.ofString (policyName finding.policy)) ++
    .ofString ",\"location\":\x7b\"file\":" ++ writeJsonString finding.fileName ++ .ofString ",\"line\":" ++
    .decimal finding.lineNumber ++ .ofString ",\"function\":" ++ writeJsonString finding.functionName ++
    .ofString "\x7d,\"message\":" ++ writeJsonString finding.message ++ lessonText (lookup finding.diagnosticId) ++
    .ofString ",\"evidence\":\x7b\"node\":" ++ writeJsonString finding.nodeId ++
    evidenceMember ",\"from\":" finding.evidenceFrom ++ evidenceMember ",\"to\":" finding.evidenceTo ++
    evidenceMember ",\"detail\":" finding.evidenceDetail ++ .ofString "\x7d\x7d"

/-- The loop of `write_json_document`, with the number of findings emitted so far; a negative
policy is no policy. -/
def writeFindings (lookup : Text → Option Lesson) (policy : Option Policy) : ℕ → List Finding → Text
  | _, [] => .empty
  | emitted, finding :: findings =>
    if policy.any (· ≠ finding.policy) then writeFindings lookup policy emitted findings
    else .ofString (if emitted = 0 then "\n    " else ",\n    ") ++ writeFindingJson lookup finding ++
      writeFindings lookup policy (emitted + 1) findings

/-- The number that `write_json_document` writes. -/
def Analysis.findingCount (analysis : Analysis) (policy : Option Policy) : ℕ :=
  match policy with
  | none => analysis.findings.length
  | some policy => analysis.policyCounts policy

def writeJsonDocument (lookup : Text → Option Lesson) (schema : Text) (policy : Option Policy)
    (analysis : Analysis) : Text :=
  .ofString "\x7b\n  \"schema\": " ++ writeJsonString schema ++ .ofString ",\n  \"findings\": [" ++
    writeFindings lookup policy 0 analysis.findings ++ .ofString "\n  ],\n  \"summary\": \x7b\"findings\": " ++
    .decimal (analysis.findingCount policy) ++ .ofString "\x7d\n\x7d\n"

end ToolEvent.ModelAnalysis
