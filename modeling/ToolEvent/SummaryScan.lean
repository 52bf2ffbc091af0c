import ToolEvent.ResourceSummary

/-!
# The readers of summaries byte by byte

The scanners of `src/summary.c` that look at one byte and then step over it, and the readers over
them. The activations of `skip_value` are counted.
-/

namespace ToolEvent.Summary.Scan

open Fallible

variable {σ α : Type}

/-- Work on a copy of the pointer, which is stored if the routine succeeds. -/
def onCopy (x : Reader σ α) : Reader σ α := fun s =>
  match x s with
  | (.ok a, t) => (.ok a, t)
  | (.error stop, t) => (.error stop, s.1, t.2)

/-- Step over the byte under the cursor while it has the property. -/
def skipWhileLoop (p : UInt8 → Bool) : ℕ → Reader σ Unit
  | 0 => fail .unfinished
  | fuel + 1 => do
    let byte ← peek
    if p byte then do
      advance
      skipWhileLoop p fuel
    else pure ()

def skipWhile (p : UInt8 → Bool) : Reader σ Unit := do
  let s ← read
  skipWhileLoop p s.1.steps

def skipSpace : Reader σ Unit := skipWhile Json.isSpace

/-- The loop of `parse_size`. -/
def parseSizeLoop : ℕ → ℕ → Reader σ ℕ
  | 0, _ => fail .unfinished
  | fuel + 1, parsed => do
    let byte ← peek
    if Decimal.isDigit byte then
      if (sizeMax - (byte.toNat - 48)) / 10 < parsed then fail .rejected
      else do
        advance
        parseSizeLoop fuel (parsed * 10 + (byte.toNat - 48))
    else pure parsed

def parseSize : Reader σ ℕ := do
  let byte ← peek
  if Decimal.isDigit byte then do
    let s ← read
    parseSizeLoop s.1.steps 0
  else fail .rejected

/-- `strncmp` of the text under the cursor with a name, up to the length of the name. -/
def startsWithLoop : List UInt8 → Reader σ Bool
  | [] => pure true
  | b :: name => do
    let byte ← peek
    if byte = b then do
      advance
      startsWithLoop name
    else pure false

/-- The comparison does not move the cursor. -/
def startsWith (name : String) : Reader σ Bool := fun s =>
  let (r, t) := startsWithLoop (Text.ofString name).bytes s
  (r, s.1, t.2)

def advanceBy : ℕ → Reader σ Unit
  | 0 => pure ()
  | n + 1 => do
    advance
    advanceBy n

def parseBoolean : Reader σ Bool := do
  let isTrue ← startsWith "true"
  if isTrue then do
    advanceBy 4
    pure true
  else do
    let isFalse ← startsWith "false"
    if isFalse then do
      advanceBy 5
      pure false
    else fail .rejected

def skipDigits : Reader σ Unit := do
  let byte ← peek
  if Decimal.isDigit byte then skipWhile Decimal.isDigit else fail .rejected

/-- The integer part in `skip_number`. -/
def skipInteger : Reader σ Unit := do
  let byte ← peek
  if byte = 48 then do
    advance
    let next ← peek
    if Decimal.isDigit next then fail .rejected else pure ()
  else skipDigits

def skipFraction : Reader σ Unit := do
  let byte ← peek
  if byte = 46 then do
    advance
    skipDigits
  else pure ()

def skipExponent : Reader σ Unit := do
  let byte ← peek
  if byte = 101 ∨ byte = 69 then do
    advance
    let sign ← peek
    (if sign = 43 ∨ sign = 45 then advance else pure ())
    skipDigits
  else pure ()

def skipNumber : Reader σ Unit := onCopy do
  let byte ← peek
  (if byte = 45 then advance else pure ())
  skipInteger
  skipFraction
  skipExponent

/-- The names that `skip_value` compares with. -/
def skipName : Reader σ Unit := do
  let isTrue ← startsWith "true"
  let isShort ← if isTrue then pure true else startsWith "null"
  if isShort then advanceBy 4
  else do
    let isFalse ← startsWith "false"
    if isFalse then advanceBy 5 else fail .rejected

/-- The activations of `skip_value` that have not returned, and the most there have been at a time. -/
structure Calls where
  active : ℕ := 0
  deepest : ℕ := 0

def Calls.enter (calls : Calls) : Calls := ⟨calls.active + 1, max calls.deepest (calls.active + 1)⟩

def Calls.leave (calls : Calls) : Calls := { calls with active := calls.active - 1 }

/-- The body of a function, between its call and its return. -/
def activation (x : Reader (Calls × σ) α) : Reader (Calls × σ) α := fun s =>
  let (r, t) := x (s.1, s.2.1.enter, s.2.2)
  (r, t.1, t.2.1.leave, t.2.2)

def updateOwn (f : σ → σ) : Reader (Calls × σ) Unit := update (fun s => (s.1, s.2.1, f s.2.2))

variable (lib : JsonLibrary)

/-- The recursion of `skip_value`. -/
def skipValueAt : ℕ → ℕ → Reader (Calls × σ) Unit
  | 0, _ => fail .unfinished
  | fuel + 1, depth => activation (
    if jsonMaxDepth ≤ depth then fail .rejected
    else do
      skipSpace
      let byte ← peek
      if byte = 34 then do
        let _ ← parseString lib none
        pure ()
      else if byte = 123 then skipObject lib (skipValueAt fuel (depth + 1))
      else if byte = 91 then skipArray (skipValueAt fuel (depth + 1))
      else if Decimal.isDigit byte ∨ byte = 45 then skipNumber
      else skipName)

def skipValue (depth : ℕ) : Reader (Calls × σ) Unit := skipValueAt lib (jsonMaxDepth + 1) depth

/-- The local variables of `find_top_level_size`. -/
structure SizeState where
  found : Bool := false
  value : ℕ

def keyText (key : Text) : Option Text :=
  let quoted : Bool := 2 ≤ key.length ∧ key.bytes.head? = some 34 ∧ key.bytes.getLast? = some 34
  let name : Text :=
    if quoted then
      ⟨key.bytes.tail.dropLast, fun h => key.nulFree (List.mem_of_mem_tail (List.mem_of_mem_dropLast h))⟩
    else key
  if name.length = 0 ∨ jsonKeyCapacity ≤ name.length then none else some name

/-- The members of `find_top_level_size`. -/
def sizeMember (wanted key : Text) : Reader (Calls × SizeState) Unit := do
  let (_, _, state) ← read
  if key = wanted then
    if state.found then fail .rejected
    else do
      let value ← parseSize
      updateOwn (fun _ => { found := true, value := value })
  else skipValue lib 0

def findTopLevelSize (wanted : Text) : Reader (Calls × SizeState) Bool := do
  skipSpace
  readObject lib (sizeMember lib wanted)
  skipSpace
  let (_, _, state) ← read
  if state.found then do
    let byte ← peek
    pure (byte = 0)
  else pure false

/-- `p101_tool_event_parse_json_size` on non-null arguments. -/
def parseJsonSize (key : Text) : Reader (Calls × SizeState) Bool :=
  match keyText key with
  | none => pure false
  | some wanted => findTopLevelSize lib wanted

/-- The members of `parse_policy_summary`. -/
def policyMember (key : Text) : Reader (Calls × PolicyState) Unit := do
  let (_, _, state) ← read
  if key = .ofString "records" then
    if state.seenRecords then fail .rejected
    else do
      let records ← parseSize
      updateOwn (fun p =>
        { p with summary := { p.summary with records := records, hasRecords := true }, seenRecords := true })
  else if key = .ofString "findings" then
    if state.seenFindings then fail .rejected
    else do
      let findings ← parseSize
      updateOwn (fun p => { p with summary := { p.summary with findings := findings }, seenFindings := true })
  else skipValue lib 0

def parsePolicySummary : Reader (Calls × PolicyState) Unit := do
  updateOwn (fun p => { p with seenRecords := false, seenFindings := false })
  readObject lib (policyMember lib)
  let (_, _, state) ← read
  if state.seenFindings then pure () else fail .rejected

/-- The members of `p101_tool_event_parse_policy_summary_json`. -/
def documentMember (schema key : Text) : Reader (Calls × PolicyState) Unit := do
  let (_, _, state) ← read
  if key = .ofString "schema" then
    if state.seenSchema then fail .rejected
    else do
      let actual ← parseString lib (some jsonKeyCapacity)
      updateOwn (fun p => { p with seenSchema := true, schemaOk := actual = schema })
  else if key = .ofString "summary" then
    if state.seenSummary then fail .rejected
    else do
      parsePolicySummary lib
      updateOwn (fun p => { p with seenSummary := true })
  else skipValue lib 0

/-- The part of `p101_tool_event_parse_policy_summary_json` after its arguments are checked. -/
def readPolicySummary (schema : Text) : Reader (Calls × PolicyState) Unit := do
  skipSpace
  readObject lib (documentMember lib schema)
  skipSpace
  let byte ← peek
  updateOwn (fun p =>
    { p with summary := { p.summary with parsed := byte = 0 ∧ p.seenSchema ∧ p.seenSummary ∧ p.schemaOk } })

/-- The members of `parse_log_health`. -/
def healthMember (key : Text) : Reader (Calls × ResourceState) Unit := do
  let (_, _, state) ← read
  if key = completeKey then
    if state.found then fail .rejected
    else do
      let complete ← parseBoolean
      updateOwn (.setComplete complete)
  else skipValue lib 1

def parseLogHealth : Reader (Calls × ResourceState) Unit := do
  updateOwn (fun r => { r with found := false })
  readObject lib (healthMember lib)
  let (_, _, state) ← read
  if state.found then pure () else fail .rejected

def readField : ResourceField → Reader (Calls × ResourceState) Unit
  | .schema => do
    let schema ← parseString lib (some jsonKeyCapacity)
    updateOwn (fun r => { r with schemaOk := schema = resourceSchema })
  | .counter c => do
    let value ← parseSize
    updateOwn (.setCounter c value)
  | .logHealth => parseLogHealth lib

/-- The members of `p101_tool_event_parse_resource_summary_json`. -/
def resourceMember (key : Text) : Reader (Calls × ResourceState) Unit := do
  let (_, _, state) ← read
  match ResourceField.all.find? (fun field => key = field.key) with
  | none => skipValue lib 0
  | some field =>
    if state.seen field then fail .rejected
    else do
      readField lib field
      updateOwn (.see field)

/-- The part of `p101_tool_event_parse_resource_summary_json` after its arguments are checked. -/
def readResourceSummary : Reader (Calls × ResourceState) Unit := do
  skipSpace
  readObject lib (resourceMember lib)
  skipSpace
  let byte ← peek
  updateOwn (.finish byte)

end ToolEvent.Summary.Scan
