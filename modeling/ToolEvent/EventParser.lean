import ToolEvent.Library.Decimal
import ToolEvent.Library.Delimited
import ToolEvent.Record
import Mathlib.Data.List.DropRight

/-!
# The parser of event lines

`p101_tool_event_read_line` and `p101_tool_event_parse_line` of `src/event.c`. The
parser cuts the line in place; here a field is a text of its own. The integer
types are those of a 64-bit platform.
-/

namespace ToolEvent

def tab : UInt8 := 9
def newline : UInt8 := 10
def carriageReturn : UInt8 := 13
def dash : UInt8 := 45
def backslash : UInt8 := 92

def intMax : ℕ := 2 ^ 31 - 1
def longMax : ℕ := 2 ^ 63 - 1

/-- The escapes of a text field: backslash, tab, newline and carriage return. -/
def fieldEscapes : Delimited.EscapeCode UInt8 where
  mark := backslash
  letter b :=
    if b = backslash then some backslash
    else if b = tab then some 116
    else if b = newline then some 110
    else if b = carriageReturn then some 114
    else none
  symbol l :=
    if l = 116 then tab
    else if l = 110 then newline
    else if l = 114 then carriageReturn
    else l
  letter_mark := by decide
  symbol_letter s l h := by
    split_ifs at h <;> cases h <;> simp_all only <;> decide

namespace Text

/-- The text before the first occurrence of a byte, and the text after it if it occurs. -/
def cut (b : UInt8) (t : Text) : Text × Option Text :=
  (t.takeUntil b,
    match h : (Delimited.cut b t.bytes).2 with
    | none => none
    | some rest => some ⟨rest, fun hmem => t.nulFree (by
        rw [← Delimited.append_cut b t.bytes, h]
        simp [hmem])⟩)

end Text

namespace RecordKind

def magic : RecordKind → Text
  | .fd => .ofString "P101FD"
  | .alloc => .ofString "P101ALLOC"
  | .fork => .ofString "P101FORK"
  | .spawn => .ofString "P101SPAWN"
  | .exec => .ofString "P101EXEC"
  | .execFail => .ofString "P101EXECFAIL"
  | .call => .ofString "P101CALL"
  | .resource => .ofString "P101RESOURCE"
  | .complete => .ofString "P101COMPLETE"

def all : List RecordKind :=
  [.fd, .alloc, .fork, .spawn, .exec, .execFail, .call, .resource, .complete]

end RecordKind

namespace FdKind

def word : FdKind → Text
  | .opened => .ofString "OPEN"
  | .closed => .ofString "CLOSE"

def all : List FdKind := [.opened, .closed]

end FdKind

namespace AllocKind

def word : AllocKind → Text
  | .alloc => .ofString "ALLOC"
  | .free => .ofString "FREE"
  | .realloc => .ofString "REALLOC"

def all : List AllocKind := [.alloc, .free, .realloc]

end AllocKind

namespace CallKind

def word : CallKind → Text
  | .enter => .ofString "ENTER"
  | .exit => .ofString "EXIT"

def all : List CallKind := [.enter, .exit]

end CallKind

namespace ResourceKind

def word : ResourceKind → Text
  | .acquire => .ofString "ACQUIRE"
  | .release => .ofString "RELEASE"
  | .replace => .ofString "REPLACE"
  | .transfer => .ofString "TRANSFER"
  | .use => .ofString "USE"

def all : List ResourceKind := [.acquire, .release, .replace, .transfer, .use]

end ResourceKind

/-- What the parser uses of `lib_record`, with the documented behaviour of each function. -/
structure RecordReader extends RecordLibrary where
  /-- `P101_TOOL_EVENT_LINE_MAX_BYTES`. -/
  lineMaxBytes : ℕ
  /-- `p101_record_split`: the field at the cursor, and the cursor after it. -/
  split : Text → Text × Option Text
  /-- `p101_record_unescape_field`. -/
  unescapeField : Text → Text
  /-- `p101_record_parse_size`. -/
  parseSize : Text → Option ℕ
  /-- `p101_record_event_magic`. -/
  eventMagic : RecordKind → Text
  /-- `p101_record_event_fd_kind_name` and its siblings. -/
  fdKindName : FdKind → Text
  allocKindName : AllocKind → Text
  callKindName : CallKind → Text
  resourceKindName : ResourceKind → Text
  split_eq : ∀ t, split t = t.cut tab
  unescapeField_eq : ∃ f, fieldEscapes.Undoes f ∧ ∀ t, (unescapeField t).bytes = f t.bytes
  parseSize_eq_some : ∀ t n,
    parseSize t = some n ↔ Decimal.IsNumeral t.bytes ∧ Decimal.value t.bytes = n ∧ n ≤ sizeMax
  eventMagic_eq : ∀ kind, eventMagic kind = kind.magic
  fdKindName_eq : ∀ kind, fdKindName kind = kind.word
  allocKindName_eq : ∀ kind, allocKindName kind = kind.word
  callKindName_eq : ∀ kind, callKindName kind = kind.word
  resourceKindName_eq : ∀ kind, resourceKindName kind = kind.word

def RecordReader.standard : RecordReader where
  toRecordLibrary := .standard
  lineMaxBytes := 8192
  split t := t.cut tab
  unescapeField t := ⟨fieldEscapes.unescape t.bytes, fun h => by
    rcases fieldEscapes.mem_unescape h with h | ⟨l, hl, h0⟩
    · exact t.nulFree h
    · have hne : l ≠ 0 := fun heq => t.nulFree (heq ▸ hl)
      simp only [fieldEscapes] at h0
      split_ifs at h0 <;> first | exact hne h0.symm | cases h0⟩
  parseSize t :=
    if Decimal.IsNumeral t.bytes ∧ Decimal.value t.bytes ≤ sizeMax then some (Decimal.value t.bytes)
    else none
  eventMagic := RecordKind.magic
  fdKindName := FdKind.word
  allocKindName := AllocKind.word
  callKindName := CallKind.word
  resourceKindName := ResourceKind.word
  split_eq _ := rfl
  unescapeField_eq := ⟨_, fieldEscapes.undoes_unescape, fun _ => rfl⟩
  parseSize_eq_some t n := by
    rw [Option.ite_none_right_eq_some, and_assoc]
    refine and_congr_right fun _ => ⟨fun ⟨hle, hn⟩ => ⟨Option.some.inj hn, ?_⟩, fun ⟨hn, hle⟩ => ?_⟩
    · exact Option.some.inj hn ▸ hle
    · exact ⟨hn ▸ hle, congrArg some hn⟩
  eventMagic_eq _ := rfl
  fdKindName_eq _ := rfl
  allocKindName_eq _ := rfl
  callKindName_eq _ := rfl
  resourceKindName_eq _ := rfl

/-- A `FILE` open for reading: the bytes to come, and whether reading fails after them. -/
structure Stream where
  bytes : List UInt8
  fails : Bool := false
  deriving DecidableEq

/-- What `p101_tool_event_read_line` reports, with the line in the buffer. -/
inductive LineResult
  | eof
  | line (text : Text)
  | malformed
  | error
  deriving DecidableEq

/-- The local variables of `p101_tool_event_read_line`; the buffer is kept reversed. -/
structure LineState where
  sawByte : Bool := false
  malformed : Bool := false
  line : List UInt8 := []
  /-- Whether the loop was left because of the end of the stream. -/
  atEnd : Bool := false
  rest : List UInt8 := []

/-- The reading loop of `p101_tool_event_read_line`. -/
def readLineLoop (lineSize : ℕ) : LineState → List UInt8 → LineState
  | state, [] => { state with atEnd := true }
  | state, ch :: rest =>
    let fits := state.line.length + 1 < lineSize
    let state : LineState :=
      { state with
        sawByte := true
        malformed := state.malformed || ch = 0 || !fits
        line := if fits then ch :: state.line else state.line
        rest := rest }
    if ch = newline then state else readLineLoop lineSize state rest

/-- A NUL byte marks the line as malformed. -/
theorem not_mem_readLineLoop (lineSize : ℕ) (bytes : List UInt8) :
    ∀ state : LineState, (state.malformed = false → (0 : UInt8) ∉ state.line) →
      (readLineLoop lineSize state bytes).malformed = false →
        (0 : UInt8) ∉ (readLineLoop lineSize state bytes).line := by
  induction bytes with
  | nil => exact fun state h => h
  | cons ch rest ih =>
    intro state h
    have hnext : (state.malformed || ch = 0 || !decide (state.line.length + 1 < lineSize)) = false →
        (0 : UInt8) ∉ if state.line.length + 1 < lineSize then ch :: state.line else state.line := by
      intro hclean
      obtain ⟨⟨hmalformed, hch⟩, -⟩ := by simpa using hclean
      split
      · exact fun hmem => (List.mem_cons.mp hmem).elim (fun h0 => hch h0.symm) (h hmalformed)
      · exact h hmalformed
    by_cases hch : ch = newline
    · simpa only [readLineLoop, if_pos hch] using hnext
    · simpa only [readLineLoop, if_neg hch] using ih _ hnext

/-- `p101_tool_event_read_line` on non-null arguments and a buffer of `lineSize` bytes. -/
def readLine (lineSize : ℕ) (stream : Stream) : LineResult × Stream :=
  let state := readLineLoop lineSize {} stream.bytes
  let stream := { stream with bytes := state.rest }
  if state.atEnd ∧ stream.fails then (.error, stream)
  else if ¬ state.sawByte then (.eof, stream)
  else if h : state.malformed = false then
    (.line ⟨state.line.reverse, fun hmem =>
      not_mem_readLineLoop lineSize _ {} (fun _ => List.not_mem_nil) h (List.mem_reverse.mp hmem)⟩,
      stream)
  else (.malformed, stream)

/-- `isspace` in the C locale. -/
def isSpace (b : UInt8) : Bool := b = 32 ∨ (9 ≤ b ∧ b ≤ 13)

/-- What `strtol` returns, where it stopped, and whether it converted anything and the
value was in range. -/
structure Strtol where
  value : ℤ
  rest : List UInt8
  converted : Bool
  inRange : Bool

def takeSign : List UInt8 → Bool × List UInt8
  | 45 :: rest => (true, rest)
  | 43 :: rest => (false, rest)
  | rest => (false, rest)

/-- `strtol` in base 10: leading white space, an optional sign, and digits. -/
def strtol (text : Text) : Strtol :=
  let (negative, subject) := takeSign (text.bytes.dropWhile isSpace)
  let digits := subject.takeWhile Decimal.isDigit
  let magnitude := Decimal.value digits
  if digits = [] then { value := 0, rest := text.bytes, converted := false, inRange := true }
  else
    { value :=
        if negative then -(min magnitude (longMax + 1) : ℕ) else (min magnitude longMax : ℕ)
      rest := subject.dropWhile Decimal.isDigit
      converted := true
      inRange := if negative then magnitude ≤ longMax + 1 else magnitude ≤ longMax }

def parseLongField (text : Text) (min max : ℤ) : Option ℤ :=
  if text.isEmpty then none
  else
    let parsed := strtol text
    if ¬ parsed.converted ∨ parsed.rest ≠ [] then none
    else if ¬ parsed.inRange then none
    else if parsed.value < min ∨ max < parsed.value then none
    else some parsed.value

/-- The statuses of `p101_tool_event_parse_line` other than `P101_TOOL_EVENT_PARSE_OK`. -/
inductive ParseFailure
  | other | malformed | badVersion
  deriving DecidableEq

abbrev Parsed := Except ParseFailure

def orMalformed {α : Type} : Option α → Parsed α
  | some a => .ok a
  | none => .error .malformed

def failIf (p : Prop) [Decidable p] (failure : ParseFailure) : Parsed Unit :=
  if p then .error failure else .ok ()

def maxFields : ℕ := 20
def eventFdMax : ℕ := 1048576
def metadataFields : ℕ := 7

/-- A field of the array, which holds `count` fields. -/
def fieldAt (fields : List Text) (index : ℕ) : Text := fields.getD index .empty

variable (reader : RecordReader)

/-- `parse_optional_size_field`: the value, and whether it is available. -/
def parseOptionalSizeField (text : Text) : Option (ℕ × ℤ) :=
  if text = .ofString "-" then some (0, 0) else (reader.parseSize text).map (fun n => (n, 1))

/-- `parse_metadata`: the record with the fields every kind has, and where the payload starts. -/
def parseMetadata (fields : List Text) (record : EventRecord) : Parsed (EventRecord × ℕ) := do
  let version ← orMalformed
    (if metadataFields ≤ fields.length then parseLongField (fieldAt fields 0) 0 longMax else none)
  failIf (version ≠ logVersion) .badVersion
  let runId := fieldAt fields 1
  failIf (runId.isEmpty ∨ reader.runIdMaxBytes < runId.length) .malformed
  let pid ← orMalformed (parseLongField (fieldAt fields 2) 0 longMax)
  let contextId ← orMalformed (reader.parseSize (fieldAt fields 3))
  let sequence ← orMalformed (reader.parseSize (fieldAt fields 4))
  let monotonic ← orMalformed (parseOptionalSizeField reader (fieldAt fields 5))
  let wall ← orMalformed (parseOptionalSizeField reader (fieldAt fields 6))
  return ({ record with
    version := version
    runId := some runId
    pid := pid
    contextId := contextId
    sequence := sequence
    monotonicNs := monotonic.1
    monotonicNsAvailable := monotonic.2
    wallUnixNs := wall.1
    wallUnixNsAvailable := wall.2 }, metadataFields)

/-- The loop of the `lookup_…` functions over the names of an enumeration. -/
def lookupName {α : Type} (names : α → Text) (values : List α) (text : Text) : Option α :=
  values.find? (fun value => names value = text)

def lookupRecordMagic (text : Text) : Option RecordKind :=
  lookupName reader.eventMagic RecordKind.all text

def lookupFdKind (text : Text) : Option FdKind := lookupName reader.fdKindName FdKind.all text

def lookupAllocKind (text : Text) : Option AllocKind :=
  lookupName reader.allocKindName AllocKind.all text

def lookupCallKind (text : Text) : Option CallKind :=
  lookupName reader.callKindName CallKind.all text

def lookupResourceKind (text : Text) : Option ResourceKind :=
  lookupName reader.resourceKindName ResourceKind.all text

def payloadArityMatches (count payload fieldsNeeded : ℕ) : Bool :=
  count ≤ maxFields ∧ fieldsNeeded ≤ count ∧ payload = count - fieldsNeeded

def requireArity (count payload fieldsNeeded : ℕ) : Parsed Unit :=
  failIf (payloadArityMatches count payload fieldsNeeded = false) .malformed

/-- A field in which a single dash stands for the null pointer. -/
def nullableField (text : Text) : Option Text := if text = .ofString "-" then none else some text

/-- `parse_payload`, whose branches are distinguished by the magic. -/
def parsePayload (magic : Text) (fields : List Text) (payload : ℕ) (record : EventRecord) :
    Parsed EventRecord :=
  match lookupRecordMagic reader magic with
  | some .fd => do
    requireArity fields.length payload 5
    let fdKind ← orMalformed (lookupFdKind reader (fieldAt fields payload))
    let fd ← orMalformed (parseLongField (fieldAt fields (payload + 1)) 0 eventFdMax)
    let line ← orMalformed (parseLongField (fieldAt fields (payload + 2)) 0 intMax)
    return { record with
      fdKind := fdKind
      fd := fd
      lineNumber := line
      functionName := some (fieldAt fields (payload + 3))
      fileName := some (fieldAt fields (payload + 4))
      recordKind := .fd }
  | some .alloc => do
    requireArity fields.length payload 7
    let allocKind ← orMalformed (lookupAllocKind reader (fieldAt fields payload))
    let size ← orMalformed (reader.parseSize (fieldAt fields (payload + 3)))
    let line ← orMalformed (parseLongField (fieldAt fields (payload + 4)) 0 intMax)
    return { record with
      allocKind := allocKind
      ptr := some (fieldAt fields (payload + 1))
      newPtr := nullableField (fieldAt fields (payload + 2))
      size := size
      lineNumber := line
      functionName := some (fieldAt fields (payload + 5))
      fileName := some (fieldAt fields (payload + 6))
      recordKind := .alloc }
  | some .fork => do
    requireArity fields.length payload 4
    let childPid ← orMalformed (parseLongField (fieldAt fields payload) 0 longMax)
    let line ← orMalformed (parseLongField (fieldAt fields (payload + 1)) 0 intMax)
    return { record with
      childPid := childPid
      lineNumber := line
      functionName := some (fieldAt fields (payload + 2))
      fileName := some (fieldAt fields (payload + 3))
      target := none
      recordKind := .fork }
  | some .spawn => do
    requireArity fields.length payload 5
    let childPid ← orMalformed (parseLongField (fieldAt fields payload) 0 longMax)
    let line ← orMalformed (parseLongField (fieldAt fields (payload + 1)) 0 intMax)
    return { record with
      childPid := childPid
      lineNumber := line
      functionName := some (fieldAt fields (payload + 2))
      fileName := some (fieldAt fields (payload + 3))
      target := some (fieldAt fields (payload + 4))
      recordKind := .spawn }
  | some .exec => do
    requireArity fields.length payload 6
    let fd ← orMalformed (parseLongField (fieldAt fields payload) 0 eventFdMax)
    let cloexec ← orMalformed (parseLongField (fieldAt fields (payload + 1)) 0 1)
    let line ← orMalformed (parseLongField (fieldAt fields (payload + 2)) 0 intMax)
    return { record with
      fd := fd
      cloexec := cloexec
      lineNumber := line
      functionName := some (fieldAt fields (payload + 3))
      fileName := some (fieldAt fields (payload + 4))
      target := some (fieldAt fields (payload + 5))
      recordKind := .exec }
  | some .execFail => do
    requireArity fields.length payload 4
    let line ← orMalformed (parseLongField (fieldAt fields payload) 0 intMax)
    return { record with
      lineNumber := line
      functionName := some (fieldAt fields (payload + 1))
      fileName := some (fieldAt fields (payload + 2))
      target := some (fieldAt fields (payload + 3))
      recordKind := .execFail }
  | some .call => do
    requireArity fields.length payload 7
    let callKind ← orMalformed (lookupCallKind reader (fieldAt fields payload))
    let line ← orMalformed (parseLongField (fieldAt fields (payload + 1)) 0 intMax)
    return { record with
      callKind := callKind
      lineNumber := line
      functionName := some (fieldAt fields (payload + 2))
      callName := some (fieldAt fields (payload + 3))
      arguments := some (fieldAt fields (payload + 4))
      result := some (fieldAt fields (payload + 5))
      fileName := some (fieldAt fields (payload + 6))
      recordKind := .call }
  | some .resource => do
    requireArity fields.length payload 9
    let resourceKind ← orMalformed (lookupResourceKind reader (fieldAt fields payload))
    let size ← orMalformed (reader.parseSize (fieldAt fields (payload + 4)))
    let line ← orMalformed (parseLongField (fieldAt fields (payload + 6)) 0 intMax)
    return { record with
      resourceKind := resourceKind
      resourceClass := some (fieldAt fields (payload + 1))
      resourceId := some (fieldAt fields (payload + 2))
      relatedId := nullableField (fieldAt fields (payload + 3))
      size := size
      metadata := some (fieldAt fields (payload + 5))
      lineNumber := line
      functionName := some (fieldAt fields (payload + 7))
      fileName := some (fieldAt fields (payload + 8))
      recordKind := .resource }
  | some .complete => do
    requireArity fields.length payload 3
    let eventsAttempted ← orMalformed (reader.parseSize (fieldAt fields payload))
    let writeFailed ← orMalformed (parseLongField (fieldAt fields (payload + 1)) 0 1)
    let writeErrno ← orMalformed (parseLongField (fieldAt fields (payload + 2)) 0 intMax)
    failIf ((writeFailed = 0 ∧ writeErrno ≠ 0) ∨ (writeFailed ≠ 0 ∧ writeErrno = 0)) .malformed
    return { record with
      eventsAttempted := eventsAttempted
      writeFailed := writeFailed
      writeErrno := writeErrno
      recordKind := .complete }
  | none => .error .other

def unescapeRecord (record : EventRecord) : EventRecord :=
  { record with
    runId := record.runId.map reader.unescapeField
    ptr := record.ptr.map reader.unescapeField
    newPtr := record.newPtr.map reader.unescapeField
    target := record.target.map reader.unescapeField
    resourceClass := record.resourceClass.map reader.unescapeField
    resourceId := record.resourceId.map reader.unescapeField
    relatedId := record.relatedId.map reader.unescapeField
    metadata := record.metadata.map reader.unescapeField
    functionName := record.functionName.map reader.unescapeField
    callName := record.callName.map reader.unescapeField
    arguments := record.arguments.map reader.unescapeField
    result := record.result.map reader.unescapeField
    fileName := record.fileName.map reader.unescapeField }

/-- The prefixes of `p101_tool_event_line_is_ours`. -/
def linePrefixes : List Text :=
  ["P101FD\t", "P101ALLOC\t", "P101FORK\t", "P101SPAWN\t", "P101EXEC\t", "P101EXECFAIL\t",
    "P101CALL\t", "P101RESOURCE\t", "P101COMPLETE\t"].map Text.ofString

def lineIsOurs (line : Text) : Bool := linePrefixes.any (fun start => start.bytes.isPrefixOf line.bytes)

/-- The line without the newlines and carriage returns at its end. -/
def stripTerminators (line : Text) : Text :=
  ⟨line.bytes.rdropWhile (fun b => b = newline ∨ b = carriageReturn),
    fun h => line.nulFree ((List.rdropWhile_prefix _ _).subset h)⟩

/-- The splitting loop of `p101_tool_event_parse_line`, with room for so many fields. -/
def splitFields : ℕ → Option Text → List Text × Option Text
  | _, none => ([], none)
  | 0, some cursor => ([], some cursor)
  | room + 1, some cursor =>
    let (field, cursor) := reader.split cursor
    let (fields, cursor) := splitFields room cursor
    (field :: fields, cursor)

/-- The record `p101_tool_event_parse_line` starts from. -/
def initialRecord : EventRecord :=
  { version := 0, recordKind := .fd, fd := -1, childPid := -1, lineNumber := -1 }

/-- `p101_tool_event_parse_line` on non-null arguments. -/
def parseLine (line : Text) : Parsed EventRecord :=
  if lineIsOurs line then do
    let (magic, cursor) := reader.split (stripTerminators line)
    let (fields, cursor) := splitFields reader maxFields cursor
    failIf (cursor ≠ none) .malformed
    let (record, payload) ← parseMetadata reader fields initialRecord
    let record ← parsePayload reader magic fields payload record
    return unescapeRecord reader record
  else .error .other

end ToolEvent
