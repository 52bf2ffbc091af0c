import ToolEvent.SummaryLanguage

/-!
# The reader of resource summaries

`p101_tool_event_parse_resource_summary_json` of `src/summary.c`. Its twelve members are taken once
each, in any order, and the values of other members are stepped over.
-/

namespace ToolEvent.Summary

open Fallible

inductive ResourceCounter
  | records | fdLeaks | allocationLeaks | badReleases | execInheritances | genericResourceLeaks
  | genericBadReleases | malformed | badVersion | refused
  deriving DecidableEq

def ResourceCounter.key : ResourceCounter → Text
  | .records => .ofString "records"
  | .fdLeaks => .ofString "fd_leaks"
  | .allocationLeaks => .ofString "allocation_leaks"
  | .badReleases => .ofString "bad_releases"
  | .execInheritances => .ofString "exec_inheritances"
  | .genericResourceLeaks => .ofString "generic_resource_leaks"
  | .genericBadReleases => .ofString "generic_bad_releases"
  | .malformed => .ofString "malformed"
  | .badVersion => .ofString "bad_version"
  | .refused => .ofString "refused"

inductive ResourceField
  | schema
  | counter (c : ResourceCounter)
  | logHealth
  deriving DecidableEq

def ResourceField.key : ResourceField → Text
  | .schema => .ofString "schema"
  | .counter c => c.key
  | .logHealth => .ofString "log_health"

/-- The order in which a key is compared with the names of the members. -/
def ResourceField.all : List ResourceField :=
  [.schema, .counter .records, .counter .fdLeaks, .counter .allocationLeaks, .counter .badReleases,
    .counter .execInheritances, .counter .genericResourceLeaks, .counter .genericBadReleases, .counter .malformed,
    .counter .badVersion, .counter .refused, .logHealth]

def resourceSchema : Text := .ofString "p101-resource-policy-findings-v1"

def completeKey : Text := .ofString "complete"

/-- `struct p101_tool_event_resource_summary`. -/
@[ext] structure ResourceSummary where
  counter : ResourceCounter → ℕ := fun _ => 0
  logComplete : Bool := false
  parsed : Bool := false

/-- The summary and the local variables of its two readers. -/
structure ResourceState where
  summary : ResourceSummary := {}
  seen : ResourceField → Bool := fun _ => false
  schemaOk : Bool := false
  found : Bool := false

namespace ResourceState

def setCounter (c : ResourceCounter) (n : ℕ) (r : ResourceState) : ResourceState :=
  { r with summary := { r.summary with counter := Function.update r.summary.counter c n } }

def setComplete (complete : Bool) (r : ResourceState) : ResourceState :=
  { r with summary := { r.summary with logComplete := complete }, found := true }

def see (field : ResourceField) (r : ResourceState) : ResourceState :=
  { r with seen := Function.update r.seen field true }

/-- What is noted behind the object, with the byte that stands there. -/
def finish (byte : UInt8) (r : ResourceState) : ResourceState :=
  let parsed : Bool := byte = 0 ∧ (∀ field ∈ ResourceField.all, r.seen field = true) ∧ r.schemaOk = true
  { r with summary := { r.summary with parsed := parsed } }

end ResourceState

def updateResource (f : ResourceState → ResourceState) : Reader ResourceState Unit := update (fun s => (s.1, f s.2))

def parseBoolean {σ : Type} : Reader σ Bool :=
  onBytes (fun bytes =>
    if (Text.ofString "true").bytes.isPrefixOf bytes then some (true, bytes.drop (Text.ofString "true").length)
    else if (Text.ofString "false").bytes.isPrefixOf bytes then some (false, bytes.drop (Text.ofString "false").length)
    else none)

variable (lib : JsonLibrary)

/-- The members of `parse_log_health`. -/
def healthMember (key : Text) : Reader ResourceState Unit := do
  let (_, state) ← read
  if key = completeKey then
    if state.found then fail .rejected
    else do
      let complete ← parseBoolean
      updateResource (.setComplete complete)
  else skipValue lib (jsonMaxDepth - 1)

def parseLogHealth : Reader ResourceState Unit := do
  updateResource (fun r => { r with found := false })
  readObject lib (healthMember lib)
  let (_, state) ← read
  if state.found then pure () else fail .rejected

def readField : ResourceField → Reader ResourceState Unit
  | .schema => do
    let schema ← parseString lib (some jsonKeyCapacity)
    updateResource (fun r => { r with schemaOk := schema = resourceSchema })
  | .counter c => do
    let value ← parseSize
    updateResource (.setCounter c value)
  | .logHealth => parseLogHealth lib

/-- The members of `p101_tool_event_parse_resource_summary_json`. -/
def resourceMember (key : Text) : Reader ResourceState Unit := do
  let (_, state) ← read
  match ResourceField.all.find? (fun field => key = field.key) with
  | none => skipValue lib jsonMaxDepth
  | some field =>
    if state.seen field then fail .rejected
    else do
      readField lib field
      updateResource (.see field)

/-- The part of `p101_tool_event_parse_resource_summary_json` after its arguments are checked. -/
def readResourceSummary : Reader ResourceState Unit := do
  skipSpace
  readObject lib (resourceMember lib)
  skipSpace
  let byte ← peek
  updateResource (.finish byte)

/-- `p101_tool_event_parse_resource_summary_json` on non-null arguments: what it returns, and the
summary it leaves. -/
def parseResourceSummaryJson (text : Text) : Bool × ResourceSummary :=
  match readResourceSummary lib (.within text.bytes, {}) with
  | (.ok (), _, state) => (state.summary.parsed, state.summary)
  | (.error _, _, state) => (false, state.summary)

/-- An addition of two `size_t` values. -/
def sizeAdd (a b : ℕ) : ℕ := (a + b) % (sizeMax + 1)

/-- The counters of findings, in the order in which they are added up. -/
def findingCounters : List ResourceCounter :=
  [.fdLeaks, .allocationLeaks, .badReleases, .execInheritances, .genericResourceLeaks, .genericBadReleases, .malformed,
    .badVersion, .refused]

/-- `p101_tool_event_resource_summary_finding_count` on a non-null summary. -/
def resourceSummaryFindingCount (summary : ResourceSummary) : ℕ :=
  if summary.parsed = false then 0
  else
    let count := (findingCounters.map summary.counter).foldl sizeAdd 0
    if summary.logComplete then count else sizeAdd count 1

theorem ResourceField.mem_all (field : ResourceField) : field ∈ ResourceField.all := by
  rcases field with _ | c | _
  · decide
  · cases c <;> decide
  · decide

theorem ResourceField.key_injective {field field' : ResourceField} (h : field.key = field'.key) : field = field' := by
  have hnodup : (ResourceField.all.map ResourceField.key).Nodup := by decide
  exact List.inj_on_of_nodup_map hnodup field.mem_all field'.mem_all h

/-- The key of a field names the field. -/
theorem ResourceField.find_key (field : ResourceField) :
    ResourceField.all.find? (fun field' => field.key = field'.key) = some field := by
  rcases hfind : ResourceField.all.find? (fun field' => field.key = field'.key) with _ | field'
  · exact absurd rfl (of_decide_eq_false (eq_false_of_ne_true (List.find?_eq_none.mp hfind field field.mem_all)))
  · have hfound := List.find?_some hfind
    obtain rfl := ResourceField.key_injective (of_decide_eq_true hfound)
    exact hfind

theorem ResourceField.find_other {key : Text} (h : ∀ field : ResourceField, key ≠ field.key) :
    ResourceField.all.find? (fun field => key = field.key) = none :=
  List.find?_eq_none.mpr fun field _ => ne_true_of_eq_false (decide_eq_false (h field))

end ToolEvent.Summary
