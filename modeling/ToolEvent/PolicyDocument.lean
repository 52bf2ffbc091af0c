import ToolEvent.AnalysisRun
import ToolEvent.SummarySkips

/-!
# Policy documents and their reader

The document that `write_json_document` writes is accepted by the reader of policy
summaries, which finds in it the number of the findings written.
-/

namespace ToolEvent.Summary

open Fallible ModelAnalysis RunModel

variable {lib : JsonLibrary}

def keyBytes (key : String) : List UInt8 := (writeJsonString (.ofString key)).bytes ++ [58]

def jsonMember (key : String) (value : List UInt8) : Text × List UInt8 := (.ofString key, value)

def stringMember (key : String) (text : Text) : Text × List UInt8 := jsonMember key (writeJsonString text).bytes

theorem memberBytes_jsonMember (key : String) (value : List UInt8) :
    memberBytes (jsonMember key value) = keyBytes key ++ value := by
  simp [memberBytes, jsonMember, keyBytes]

theorem memberBytes_stringMember (key : String) (text : Text) :
    memberBytes (stringMember key text) = keyBytes key ++ (writeJsonString text).bytes :=
  memberBytes_jsonMember key _

def optionalMember (key : String) (text : Text) : List (Text × List UInt8) :=
  if text = .empty then [] else [stringMember key text]

def lessonMembers : Option Lesson → List (Text × List UInt8)
  | none => []
  | some lesson =>
    [jsonMember "lesson" (objectBytes
      (jsonMember "primary" (objectBytes (stringMember "lesson_id" lesson.lessonId)
        [stringMember "path" lesson.lessonPath, stringMember "url" lesson.lessonUrl]))
      [jsonMember "related" (arrayBytes [] [] [])])]

def findingMembers (lookup : Text → Option Lesson) (finding : Finding) : List (Text × List UInt8) :=
  [stringMember "severity" (.ofString "error"), stringMember "policy" (.ofString (policyName finding.policy)),
    jsonMember "location" (objectBytes (stringMember "file" finding.fileName)
      [jsonMember "line" (Text.decimal finding.lineNumber).bytes, stringMember "function" finding.functionName]),
    stringMember "message" finding.message] ++
  lessonMembers (lookup finding.diagnosticId) ++
  [jsonMember "evidence" (objectBytes (stringMember "node" finding.nodeId)
    (optionalMember "from" finding.evidenceFrom ++ optionalMember "to" finding.evidenceTo ++
      optionalMember "detail" finding.evidenceDetail))]

theorem followed_append (members members' : List (Text × List UInt8)) :
    followed (members ++ members') = followed members ++ followed members' := List.flatMap_append

theorem followed_cons (member : Text × List UInt8) (members : List (Text × List UInt8)) :
    followed (member :: members) = 44 :: memberBytes member ++ followed members := List.flatMap_cons

theorem bytes_evidenceMember {start key : String} (h : (Text.ofString start).bytes = 44 :: keyBytes key) (text : Text) :
    (evidenceMember start text).bytes = followed (optionalMember key text) := by
  unfold evidenceMember optionalMember
  split
  · rfl
  · rw [Text.bytes_append, h, followed_cons, memberBytes_stringMember]
    simp [followed]

theorem bytes_lessonText (lesson : Option Lesson) : (lessonText lesson).bytes = followed (lessonMembers lesson) := by
  cases lesson with
  | none => rfl
  | some lesson =>
    have hprimary : (Text.ofString ",\"lesson\":\x7b\"primary\":\x7b\"lesson_id\":").bytes =
        44 :: keyBytes "lesson" ++ 123 :: keyBytes "primary" ++ 123 :: keyBytes "lesson_id" := by decide
    have hpath : (Text.ofString ",\"path\":").bytes = 44 :: keyBytes "path" := by decide
    have hurl : (Text.ofString ",\"url\":").bytes = 44 :: keyBytes "url" := by decide
    have hrelated : (Text.ofString "\x7d,\"related\":[]\x7d").bytes =
        125 :: 44 :: keyBytes "related" ++ [91, 93, 125] := by decide
    simp [lessonText, lessonMembers, hprimary, hpath, hurl, hrelated, followed, memberBytes_jsonMember,
      memberBytes_stringMember, objectBytes, arrayBytes]

theorem bytes_writeFindingJson (lookup : Text → Option Lesson) (finding : Finding) :
    (writeFindingJson lookup finding).bytes =
      objectBytes (stringMember "id" finding.diagnosticId) (findingMembers lookup finding) := by
  have hid : (Text.ofString "\x7b\"id\":").bytes = 123 :: keyBytes "id" := by decide
  have hpolicy : (Text.ofString ",\"severity\":\"error\",\"policy\":").bytes =
      44 :: keyBytes "severity" ++ (writeJsonString (.ofString "error")).bytes ++ 44 :: keyBytes "policy" := by decide
  have hfile : (Text.ofString ",\"location\":\x7b\"file\":").bytes =
      44 :: keyBytes "location" ++ 123 :: keyBytes "file" := by decide
  have hline : (Text.ofString ",\"line\":").bytes = 44 :: keyBytes "line" := by decide
  have hfunction : (Text.ofString ",\"function\":").bytes = 44 :: keyBytes "function" := by decide
  have hmessage : (Text.ofString "\x7d,\"message\":").bytes = 125 :: 44 :: keyBytes "message" := by decide
  have hnode : (Text.ofString ",\"evidence\":\x7b\"node\":").bytes =
      44 :: keyBytes "evidence" ++ 123 :: keyBytes "node" := by decide
  have hend : (Text.ofString "\x7d\x7d").bytes = [125, 125] := by decide
  have hfrom : (evidenceMember ",\"from\":" finding.evidenceFrom).bytes =
      followed (optionalMember "from" finding.evidenceFrom) := bytes_evidenceMember (by decide) _
  have hto : (evidenceMember ",\"to\":" finding.evidenceTo).bytes =
      followed (optionalMember "to" finding.evidenceTo) := bytes_evidenceMember (by decide) _
  have hdetail : (evidenceMember ",\"detail\":" finding.evidenceDetail).bytes =
      followed (optionalMember "detail" finding.evidenceDetail) := bytes_evidenceMember (by decide) _
  simp only [writeFindingJson, Text.bytes_append, hid, hpolicy, hfile, hline, hfunction, hmessage, hnode, hend,
    hfrom, hto, hdetail, bytes_lessonText, findingMembers, objectBytes, followed_append, followed_cons,
    memberBytes_jsonMember, memberBytes_stringMember, List.append_assoc, List.cons_append, List.nil_append]
  rfl

theorem skipsMember_jsonMember {key : String} (h : (Text.ofString key).length < jsonKeyCapacity) {levels : ℕ}
    {value : List UInt8} (hvalue : Skips lib levels value) : SkipsMember lib levels (jsonMember key value) :=
  ⟨h, hvalue⟩

theorem skipsMember_stringMember {key : String} (h : (Text.ofString key).length < jsonKeyCapacity) (levels : ℕ)
    (text : Text) : SkipsMember lib (levels + 1) (stringMember key text) := ⟨h, skips_string levels text⟩

theorem skipsMember_optionalMember {key : String} (h : (Text.ofString key).length < jsonKeyCapacity) (levels : ℕ)
    (text : Text) : ∀ member ∈ optionalMember key text, SkipsMember lib (levels + 1) member := by
  unfold optionalMember
  split
  · exact nofun
  · intro member hmember
    obtain rfl := List.mem_singleton.mp hmember
    exact skipsMember_stringMember h levels text

theorem skipsMember_lessonMembers (levels : ℕ) (lesson : Option Lesson) :
    ∀ member ∈ lessonMembers lesson, SkipsMember lib (levels + 3) member := by
  cases lesson with
  | none => exact nofun
  | some lesson =>
    have hprimary : Skips lib (levels + 2) (objectBytes (stringMember "lesson_id" lesson.lessonId)
        [stringMember "path" lesson.lessonPath, stringMember "url" lesson.lessonUrl]) := by
      refine skips_object fun member hmember => ?_
      simp only [List.mem_cons, List.not_mem_nil, or_false] at hmember
      rcases hmember with rfl | rfl | rfl <;> exact skipsMember_stringMember (by decide) levels _
    have hrelated : Skips lib (levels + 2) (arrayBytes [] [] []) :=
      skips_array ⟨rfl, rfl, .inr rfl⟩ (by simp) (by simp)
    intro member hmember
    obtain rfl := List.mem_singleton.mp hmember
    refine skipsMember_jsonMember (by decide) (skips_object fun member hmember => ?_)
    simp only [List.mem_cons, List.not_mem_nil, or_false] at hmember
    rcases hmember with rfl | rfl
    · exact skipsMember_jsonMember (by decide) hprimary
    · exact skipsMember_jsonMember (by decide) hrelated

theorem skips_writeFindingJson (levels : ℕ) (lookup : Text → Option Lesson) (finding : Finding) :
    Skips lib (levels + 4) (writeFindingJson lookup finding).bytes := by
  rw [bytes_writeFindingJson]
  have hlocation : Skips lib (levels + 3) (objectBytes (stringMember "file" finding.fileName)
      [jsonMember "line" (Text.decimal finding.lineNumber).bytes, stringMember "function" finding.functionName]) := by
    refine skips_object fun member hmember => ?_
    simp only [List.mem_cons, List.not_mem_nil, or_false] at hmember
    rcases hmember with rfl | rfl | rfl
    · exact skipsMember_stringMember (by decide) _ _
    · exact skipsMember_jsonMember (by decide) (skips_decimal _ _)
    · exact skipsMember_stringMember (by decide) _ _
  have hevidence : Skips lib (levels + 3) (objectBytes (stringMember "node" finding.nodeId)
      (optionalMember "from" finding.evidenceFrom ++ optionalMember "to" finding.evidenceTo ++
        optionalMember "detail" finding.evidenceDetail)) := by
    refine skips_object fun member hmember => ?_
    rw [List.mem_cons, List.mem_append, List.mem_append] at hmember
    rcases hmember with rfl | (hfrom | hto) | hdetail
    · exact skipsMember_stringMember (by decide) _ _
    · exact skipsMember_optionalMember (by decide) _ _ member hfrom
    · exact skipsMember_optionalMember (by decide) _ _ member hto
    · exact skipsMember_optionalMember (by decide) _ _ member hdetail
  have hmembers : ∀ member ∈ stringMember "id" finding.diagnosticId :: findingMembers lookup finding,
      SkipsMember lib (levels + 3) member := by
    intro member hmember
    simp only [findingMembers, List.mem_cons, List.mem_append, List.not_mem_nil, or_false] at hmember
    rcases hmember with rfl | ((rfl | rfl | rfl | rfl) | hlesson) | rfl
    · exact skipsMember_stringMember (by decide) _ _
    · exact skipsMember_stringMember (by decide) _ _
    · exact skipsMember_stringMember (by decide) _ _
    · exact skipsMember_jsonMember (by decide) hlocation
    · exact skipsMember_stringMember (by decide) _ _
    · exact skipsMember_lessonMembers levels _ member hlesson
    · exact skipsMember_jsonMember (by decide) hevidence
  change Skips lib (levels + 3 + 1) _
  exact skips_object hmembers

def selectedFindings (policy : Option Policy) (findings : List Finding) : List Finding :=
  findings.filter (fun finding => policy.all (· = finding.policy))

def elementIndent : List UInt8 := [10, 32, 32, 32, 32]

def closingIndent : List UInt8 := [10, 32, 32]

def findingsArray (lookup : Text → Option Lesson) (findings : List Finding) : List UInt8 :=
  arrayBytes elementIndent closingIndent (findings.map fun finding => (writeFindingJson lookup finding).bytes)

theorem writeFindings_cons (lookup : Text → Option Lesson) (policy : Option Policy) (emitted : ℕ) (finding : Finding)
    (findings : List Finding) :
    (selectedFindings policy (finding :: findings) = selectedFindings policy findings ∧
      writeFindings lookup policy emitted (finding :: findings) = writeFindings lookup policy emitted findings) ∨
    (selectedFindings policy (finding :: findings) = finding :: selectedFindings policy findings ∧
      writeFindings lookup policy emitted (finding :: findings) =
        .ofString (if emitted = 0 then "\n    " else ",\n    ") ++ writeFindingJson lookup finding ++
          writeFindings lookup policy (emitted + 1) findings) := by
  rw [selectedFindings, List.filter_cons, writeFindings]
  cases policy with
  | none => exact .inr ⟨rfl, rfl⟩
  | some policy =>
    rcases eq_or_ne policy finding.policy with heq | hne
    · exact .inr (by simp [heq, selectedFindings])
    · exact .inl (by simp [hne, selectedFindings])

/-- Every finding after the first one emitted has a comma before it. -/
theorem bytes_writeFindings_emitted (lookup : Text → Option Lesson) (policy : Option Policy) (findings : List Finding)
    (emitted : ℕ) : (writeFindings lookup policy (emitted + 1) findings).bytes =
      laidOut elementIndent ((selectedFindings policy findings).map fun f => (writeFindingJson lookup f).bytes) := by
  induction findings generalizing emitted with
  | nil => rfl
  | cons finding findings ih =>
    have hcomma : (Text.ofString ",\n    ").bytes = 44 :: elementIndent := by decide
    rcases writeFindings_cons lookup policy (emitted + 1) finding findings with ⟨hselected, htext⟩ | ⟨hselected, htext⟩
    · rw [hselected, htext, ih]
    · rw [hselected, htext, if_neg (Nat.succ_ne_zero emitted), Text.bytes_append, Text.bytes_append, hcomma, ih]
      rfl

/-- The loop writes an array of the findings selected. -/
theorem bytes_writeFindings (lookup : Text → Option Lesson) (policy : Option Policy) (findings : List Finding) :
    91 :: (writeFindings lookup policy 0 findings).bytes ++ closingIndent ++ [93] =
      findingsArray lookup (selectedFindings policy findings) := by
  induction findings with
  | nil => rfl
  | cons finding findings ih =>
    have hindent : (Text.ofString "\n    ").bytes = elementIndent := by decide
    rcases writeFindings_cons lookup policy 0 finding findings with ⟨hselected, htext⟩ | ⟨hselected, htext⟩
    · rw [hselected, htext, ih]
    · rw [hselected, htext, if_pos rfl, Text.bytes_append, Text.bytes_append, hindent, bytes_writeFindings_emitted]
      simp [findingsArray, arrayBytes]

variable {σ : Type}

theorem run_readObject (handle : Text → Reader σ Unit) (rest : List UInt8) (s : σ) :
    readObject lib handle (.within (123 :: rest), s) = readMembers lib handle (rest.length + 1) true (.within rest, s) := by
  rw [readObject, run_bind_of_ok (run_expect 123 rest s), run_read_bind]
  rfl

/-- One step of the loop over members, from the key to the value. -/
theorem run_readMembers_key {handle : Text → Reader σ Unit} {key : Text} (hkey : key.length < jsonKeyCapacity)
    {gap rest : List UInt8} (hgap : gap.all Json.isSpace = true) (hrest : Json.isSpace (rest.headD 0) = false)
    (f : Unit → Reader σ Unit) (s : σ) :
    (parseString lib (some jsonKeyCapacity) >>= fun key => skipSpace >>= fun _ => expect 58 >>= fun _ =>
      skipSpace >>= fun _ => handle key >>= f)
        (.within ((writeJsonString key).bytes ++ 58 :: (gap ++ rest)), s) = (handle key >>= f) (.within rest, s) := by
  have hsize : ∀ n, some jsonKeyCapacity = some n → key.length < n := fun n hn => Option.some.inj hn ▸ hkey
  rw [run_bind_of_ok (run_parseString hsize _ s), run_bind_of_ok (run_skipSpace_nil rfl s),
    run_bind_of_ok (run_expect 58 _ s), run_bind_of_ok (run_skipSpace hgap hrest s)]

theorem run_readMembers_first {handle : Text → Reader σ Unit} {key : Text} (hkey : key.length < jsonKeyCapacity)
    {front gap rest : List UInt8} (hfront : front.all Json.isSpace = true) (hgap : gap.all Json.isSpace = true)
    (hrest : Json.isSpace (rest.headD 0) = false) (fuel : ℕ) (s : σ) :
    readMembers lib handle (fuel + 1) true
        (.within (front ++ ((writeJsonString key).bytes ++ 58 :: (gap ++ rest))), s) =
      (handle key >>= fun _ => readMembers lib handle fuel false) (.within rest, s) := by
  have hhead := headD_writeJsonString key (58 :: (gap ++ rest))
  rw [readMembers, run_bind_of_ok (run_skipSpace hfront (by rw [hhead]; rfl) s), run_peek_bind hhead,
    if_neg (by decide), if_pos rfl, run_bind_of_ok (run_pure _ _)]
  exact run_readMembers_key hkey hgap hrest _ s

theorem run_readMembers_next {handle : Text → Reader σ Unit} {key : Text} (hkey : key.length < jsonKeyCapacity)
    {front gap rest : List UInt8} (hfront : front.all Json.isSpace = true) (hgap : gap.all Json.isSpace = true)
    (hrest : Json.isSpace (rest.headD 0) = false) (fuel : ℕ) (s : σ) :
    readMembers lib handle (fuel + 1) false
        (.within (44 :: (front ++ ((writeJsonString key).bytes ++ 58 :: (gap ++ rest)))), s) =
      (handle key >>= fun _ => readMembers lib handle fuel false) (.within rest, s) := by
  have hhead := headD_writeJsonString key (58 :: (gap ++ rest))
  have hcomma : (expect 44 >>= fun _ => skipSpace : Reader σ Unit)
      (.within (44 :: (front ++ ((writeJsonString key).bytes ++ 58 :: (gap ++ rest)))), s) =
      (.ok (), .within ((writeJsonString key).bytes ++ 58 :: (gap ++ rest)), s) := by
    rw [run_bind_of_ok (run_expect 44 _ s)]
    exact run_skipSpace hfront (by rw [hhead]; rfl) s
  rw [readMembers, run_bind_of_ok (run_skipSpace_nil rfl s), run_peek_bind List.headD_cons, if_neg (by decide),
    if_neg (by decide), run_bind_of_ok hcomma]
  exact run_readMembers_key hkey hgap hrest _ s

theorem run_readMembers_end {handle : Text → Reader σ Unit} {spaces : List UInt8} (hspaces : spaces.all Json.isSpace = true)
    (rest : List UInt8) (fuel : ℕ) (first : Bool) (s : σ) :
    readMembers lib handle (fuel + 1) first (.within (spaces ++ 125 :: rest), s) = (.ok (), .within rest, s) := by
  rw [readMembers, run_bind_of_ok (run_skipSpace hspaces rfl s), run_peek_bind List.headD_cons, if_pos rfl]
  rfl

theorem le_foldl_digits (digits : List UInt8) (parsed : ℕ) :
    parsed ≤ digits.foldl (fun n b => 10 * n + (b.toNat - 48)) parsed := by
  induction digits generalizing parsed with
  | nil => exact Nat.le_refl parsed
  | cons b digits ih => exact le_trans (by omega) (ih (10 * parsed + (b.toNat - 48)))

/-- A number that is small enough is read. -/
theorem parseDigits_append {digits : List UInt8} (hdigits : ∀ b ∈ digits, Decimal.isDigit b = true) {rest : List UInt8}
    (hrest : Decimal.isDigit (rest.headD 0) = false) (parsed : ℕ)
    (hsize : digits.foldl (fun n b => 10 * n + (b.toNat - 48)) parsed ≤ sizeMax) :
    parseDigits parsed (digits ++ rest) =
      some (digits.foldl (fun n b => 10 * n + (b.toNat - 48)) parsed, rest) := by
  induction digits generalizing parsed with
  | nil =>
    cases rest with
    | nil => rfl
    | cons b rest =>
      change (if Decimal.isDigit b then _ else some (parsed, b :: rest)) = _
      exact if_neg (by simpa using hrest)
  | cons b digits ih =>
    have hle := le_foldl_digits digits (10 * parsed + (b.toNat - 48))
    rw [List.foldl_cons] at hsize ⊢
    have hroom : ¬ (sizeMax - (b.toNat - 48)) / 10 < parsed := by omega
    rw [List.cons_append, parseDigits, if_pos (hdigits b List.mem_cons_self), if_neg hroom, Nat.mul_comm parsed 10]
    exact ih (fun c hc => hdigits c (List.mem_cons_of_mem _ hc)) _ hsize

theorem headD_digits (n : ℕ) (rest : List UInt8) : Decimal.isDigit ((Decimal.digits n ++ rest).headD 0) = true := by
  obtain ⟨d, ds, hcons, -⟩ := Decimal.digits_eq_cons n
  have hdigits := (Decimal.isNumeral_digits n).digits
  rw [hcons] at hdigits ⊢
  exact hdigits d List.mem_cons_self

theorem run_parseSize {n : ℕ} (hn : n ≤ sizeMax) {rest : List UInt8}
    (hrest : Decimal.isDigit (rest.headD 0) = false) (s : σ) :
    parseSize (.within (Decimal.digits n ++ rest), s) = (.ok n, .within rest, s) := by
  have hdigits := (Decimal.isNumeral_digits n).digits
  have hvalue : (Decimal.digits n).foldl (fun n b => 10 * n + (b.toNat - 48)) 0 = n := Decimal.value_digits n
  have hparse := parseDigits_append hdigits hrest 0 (hvalue.symm ▸ hn)
  simp only [parseSize, onBytes, headD_digits n rest, if_true, hparse, hvalue]

def summaryBytes (count : ℕ) (rest : List UInt8) : List UInt8 :=
  123 :: ([] ++ ((writeJsonString (.ofString "findings")).bytes ++ 58 :: ([32] ++
    (Decimal.digits count ++ ([] ++ 125 :: rest)))))

/-- The bytes of a document, with the array of findings and their number. -/
def documentBytes (schema : Text) (findings : List UInt8) (count : ℕ) : List UInt8 :=
  123 :: (closingIndent ++ ((writeJsonString (.ofString "schema")).bytes ++ 58 :: ([32] ++
    ((writeJsonString schema).bytes ++ 44 :: (closingIndent ++ ((writeJsonString (.ofString "findings")).bytes ++ 58 ::
    ([32] ++ (findings ++ 44 :: (closingIndent ++ ((writeJsonString (.ofString "summary")).bytes ++ 58 :: ([32] ++
    summaryBytes count ([10] ++ 125 :: [10]))))))))))))

theorem bytes_writeJsonDocument (lookup : Text → Option Lesson) (schema : Text) (policy : Option Policy)
    (analysis : Analysis) : (writeJsonDocument lookup schema policy analysis).bytes =
      documentBytes schema (findingsArray lookup (selectedFindings policy analysis.findings))
        (analysis.findingCount policy) := by
  have hschema : (Text.ofString "\x7b\n  \"schema\": ").bytes =
      123 :: (closingIndent ++ ((writeJsonString (.ofString "schema")).bytes ++ [58, 32])) := by decide
  have hfindings : (Text.ofString ",\n  \"findings\": [").bytes =
      44 :: (closingIndent ++ ((writeJsonString (.ofString "findings")).bytes ++ [58, 32, 91])) := by decide
  have hsummary : (Text.ofString "\n  ],\n  \"summary\": \x7b\"findings\": ").bytes =
      closingIndent ++ (93 :: 44 :: (closingIndent ++ ((writeJsonString (.ofString "summary")).bytes ++ 58 :: 32 :: 123 ::
        ((writeJsonString (.ofString "findings")).bytes ++ [58, 32])))) := by decide
  have hend : (Text.ofString "\x7d\n\x7d\n").bytes = [125, 10, 125, 10] := by decide
  have hcount : (Text.decimal (analysis.findingCount policy)).bytes = Decimal.digits (analysis.findingCount policy) :=
    Text.bytes_decimal_of_nonneg (Int.natCast_nonneg _)
  rw [writeJsonDocument, documentBytes, summaryBytes, ← bytes_writeFindings]
  simp only [Text.bytes_append, hschema, hfindings, hsummary, hend, hcount, List.append_assoc, List.cons_append,
    List.nil_append]

theorem run_parsePolicySummary {count : ℕ} (hcount : count ≤ sizeMax) (rest : List UInt8) (state : PolicyState) :
    parsePolicySummary lib (.within (summaryBytes count rest), state) =
      (.ok (), .within rest,
        { state with
          summary := { state.summary with findings := count }
          seenRecords := false
          seenFindings := true }) := by
  have hmember : ∀ s : PolicyState, s.seenFindings = false →
      policyMember lib (.ofString "findings") (.within (Decimal.digits count ++ ([] ++ 125 :: rest)), s) =
        (.ok (), .within ([] ++ 125 :: rest),
          { s with summary := { s.summary with findings := count }, seenFindings := true }) := by
    intro s hs
    have hrecords : Text.ofString "findings" ≠ .ofString "records" := by decide
    rw [policyMember, run_read_bind]
    dsimp only
    rw [if_neg hrecords, if_pos rfl, hs, if_neg Bool.false_ne_true,
      run_bind_of_ok (run_parseSize hcount rfl s)]
    rfl
  have hobject : ∀ s : PolicyState, s.seenFindings = false →
      readObject lib (policyMember lib) (.within (summaryBytes count rest), s) = (.ok (), .within rest,
        { s with summary := { s.summary with findings := count }, seenFindings := true }) := by
    intro s hs
    have hspace := isSpace_of_isDigit (headD_digits count ([] ++ 125 :: rest))
    rw [summaryBytes, run_readObject, run_readMembers_first (by decide) rfl rfl hspace,
      run_bind_of_ok (hmember s hs), List.length_append, List.length_append, List.length_cons, ← Nat.add_assoc]
    exact run_readMembers_end rfl rest _ false _
  rw [parsePolicySummary, updatePolicy, run_update_bind, run_bind_of_ok (hobject _ rfl), run_read_bind]
  rfl

theorem run_documentMember_schema {schema : Text} (hlength : schema.length < jsonKeyCapacity) (rest : List UInt8)
    {state : PolicyState} (h : state.seenSchema = false) :
    documentMember lib schema (.ofString "schema") (.within ((writeJsonString schema).bytes ++ rest), state) =
      (.ok (), .within rest, { state with seenSchema := true, schemaOk := true }) := by
  have hsize : ∀ n, some jsonKeyCapacity = some n → schema.length < n := fun n hn => Option.some.inj hn ▸ hlength
  rw [documentMember, run_read_bind]
  dsimp only
  rw [if_pos rfl, h, if_neg Bool.false_ne_true,
    run_bind_of_ok (run_parseString hsize rest state)]
  simp [updatePolicy]

theorem run_documentMember_summary (schema : Text) {count : ℕ} (hcount : count ≤ sizeMax) (rest : List UInt8)
    {state : PolicyState} (h : state.seenSummary = false) :
    documentMember lib schema (.ofString "summary") (.within (summaryBytes count rest), state) =
      (.ok (), .within rest,
        { state with
          summary := { state.summary with findings := count }
          seenSummary := true
          seenRecords := false
          seenFindings := true }) := by
  have hschema : Text.ofString "summary" ≠ .ofString "schema" := by decide
  rw [documentMember, run_read_bind]
  dsimp only
  rw [if_neg hschema, if_pos rfl, h, if_neg Bool.false_ne_true,
    run_bind_of_ok (run_parsePolicySummary hcount rest state)]
  rfl

theorem run_documentMember_skip (schema : Text) {key : Text} (hschema : key ≠ .ofString "schema")
    (hsummary : key ≠ .ofString "summary") {value : List UInt8} (hvalue : Skips lib jsonMaxDepth value)
    {rest : List UInt8} (hrest : Delimited rest) (state : PolicyState) :
    documentMember lib schema key (.within (value ++ rest), state) = (.ok (), .within rest, state) := by
  rw [documentMember, run_read_bind]
  dsimp only
  rw [if_neg hschema, if_neg hsummary]
  exact hvalue state rest hrest

theorem run_documentMembers {schema : Text} (hlength : schema.length < jsonKeyCapacity) {findings : List UInt8}
    (hskips : Skips lib jsonMaxDepth findings) (hspace : ∀ rest, Json.isSpace ((findings ++ rest).headD 0) = false)
    {count : ℕ} (hcount : count ≤ sizeMax) :
    readObject lib (documentMember lib schema) (.within (documentBytes schema findings count), {}) =
      (.ok (), .within [10],
        { summary := { findings := count }
          seenSchema := true
          seenSummary := true
          schemaOk := true
          seenFindings := true }) := by
  rw [documentBytes, run_readObject]
  generalize hbytes : closingIndent ++ _ = bytes
  obtain ⟨fuel, hfuel⟩ : ∃ fuel, bytes.length + 1 = fuel + 1 + 1 + 1 + 1 := by
    refine ⟨bytes.length - 3, ?_⟩
    have hlong : 3 ≤ bytes.length := by
      rw [← hbytes, List.length_append]
      exact Nat.le_add_right _ _
    omega
  have hfindings : Text.ofString "findings" ≠ .ofString "schema" ∧ Text.ofString "findings" ≠ .ofString "summary" := by
    decide
  have hcomma : ∀ rest, Delimited (44 :: rest) := fun rest => List.mem_cons_self
  rw [hfuel, ← hbytes, run_readMembers_first (by decide) rfl rfl rfl,
    run_bind_of_ok (run_documentMember_schema hlength _ rfl),
    run_readMembers_next (by decide) rfl rfl (hspace _),
    run_bind_of_ok (run_documentMember_skip schema hfindings.1 hfindings.2 hskips (hcomma _) _),
    run_readMembers_next (by decide) rfl rfl rfl,
    run_bind_of_ok (run_documentMember_summary schema hcount _ rfl)]
  exact run_readMembers_end rfl [10] fuel false _

theorem parsePolicySummaryJson_documentBytes {schema : Text} (hne : schema ≠ .empty)
    (hlength : schema.length < jsonKeyCapacity) {findings : List UInt8} (hskips : Skips lib jsonMaxDepth findings)
    (hspace : ∀ rest, Json.isSpace ((findings ++ rest).headD 0) = false) {count : ℕ} (hcount : count ≤ sizeMax) {text : Text}
    (htext : text.bytes = documentBytes schema findings count) (summary : PolicySummary) :
    parsePolicySummaryJson lib text schema summary = (true, { findings := count, parsed := true }) := by
  have hempty : ¬ schema.isEmpty := fun h => hne (Text.ext (List.isEmpty_iff.mp h))
  have hread : readPolicySummary lib schema (.within text.bytes, {}) =
      (.ok (), .within [],
        { summary := { findings := count, parsed := true }
          seenSchema := true
          seenSummary := true
          schemaOk := true
          seenFindings := true }) := by
    have hfront : Json.isSpace ((documentBytes schema findings count).headD 0) = false := rfl
    rw [htext, readPolicySummary, run_bind_of_ok (run_skipSpace_nil hfront _),
      run_bind_of_ok (run_documentMembers hlength hskips hspace hcount)]
    rfl
  rw [parsePolicySummaryJson, if_neg hempty, hread]

theorem findingCount_eq {model : Model} {analysis : Analysis} (h : Ran model analysis) (policy : Option Policy) :
    analysis.findingCount policy = (selectedFindings policy analysis.findings).length := by
  cases policy with
  | none =>
    have hall : selectedFindings none analysis.findings = analysis.findings :=
      List.filter_eq_self.mpr fun finding _ => rfl
    rw [Analysis.findingCount, hall]
  | some policy =>
    have hselected : selectedFindings (some policy) analysis.findings =
        analysis.findings.filter (fun finding => finding.policy = policy) :=
      List.filter_congr fun finding _ => by simp [eq_comm]
    rw [Analysis.findingCount, h.counted policy, hselected]

theorem isLayout_findings : IsLayout elementIndent closingIndent := ⟨rfl, rfl, .inl rfl⟩

theorem skips_findingsArray (lookup : Text → Option Lesson) (findings : List Finding) :
    Skips lib jsonMaxDepth (findingsArray lookup findings) := by
  refine skips_array isLayout_findings (fun element helement => ?_) fun element helement => ?_
  · obtain ⟨finding, -, rfl⟩ := List.mem_map.mp helement
    rw [bytes_writeFindingJson]
    exact ⟨_, rfl⟩
  · obtain ⟨finding, -, rfl⟩ := List.mem_map.mp helement
    exact skips_writeFindingJson 59 lookup finding

theorem headD_findingsArray (lookup : Text → Option Lesson) (findings : List Finding) (rest : List UInt8) :
    (findingsArray lookup findings ++ rest).headD 0 = 91 := by
  cases findings <;> rfl

/-- What is written about an analysis that ran is read back. -/
theorem parsePolicySummaryJson_writeJsonDocument (lib : JsonLibrary) (lookup : Text → Option Lesson)
    {records : RecordLibrary} {model : Model} (hmodel : Finished records model) {file : Option SanitizerFile}
    {outcomes : List Bool} {w : World Analysis}
    (hrun : runAnalysis file ⟨{ model := model }, outcomes⟩ = (.ok (), w)) {schema : Text} (hne : schema ≠ .empty)
    (hlength : schema.length < jsonKeyCapacity) (policy : Option Policy) (summary : PolicySummary) :
    parsePolicySummaryJson lib (writeJsonDocument lookup schema policy w.state) schema summary =
      (true, { findings := (selectedFindings policy w.state.findings).length, parsed := true }) ∧
    (writeJsonDocument lookup schema policy w.state).bytes =
      documentBytes schema (findingsArray lookup (selectedFindings policy w.state.findings))
        (selectedFindings policy w.state.findings).length := by
  have hran := runAnalysis_ok hmodel hrun
  have hcount := findingCount_eq hran policy
  have hsize : w.state.findingCount policy ≤ sizeMax := by
    rw [hcount]
    exact (List.length_filter_le _ _).trans hran.bounded.length_le
  have hbytes := bytes_writeJsonDocument lookup schema policy w.state
  rw [← hcount]
  refine ⟨parsePolicySummaryJson_documentBytes hne hlength (skips_findingsArray lookup _) (fun rest => ?_) hsize hbytes
    summary, hbytes⟩
  rw [headD_findingsArray]
  rfl

/-- An allocation that is not released is a finding of the resource policy. -/
def openAllocation : List EventRecord :=
  [{ runId := some (.ofString "run"), recordKind := .alloc, pid := 1, sequence := 1, ptr := some (.ofString "0x1")
     size := 8 }]

theorem parsePolicySummaryJson_writeJsonDocument_openAllocation :
    parsePolicySummaryJson .standard
      (writeJsonDocument (fun _ => none) (.ofString "p101.resource") (some .resource)
        (observedRun openAllocation).2.state) (.ofString "p101.resource") {} = (true, { findings := 1, parsed := true }) := by
  have hfinished : Finished .standard (modelOf .standard openAllocation) := finished_modelOf _ (by decide)
  have hrun := runAnalysis_eq_observedRun openAllocation (by decide +kernel)
  have hschema : Text.ofString "p101.resource" ≠ .empty := by decide
  have hread := (parsePolicySummaryJson_writeJsonDocument .standard (fun _ => none) hfinished hrun hschema (by decide)
    (some .resource) {}).1
  have hcount : (selectedFindings (some .resource) (observedRun openAllocation).2.state.findings).length = 1 := by
    decide +kernel
  rw [hread, hcount]

end ToolEvent.Summary
