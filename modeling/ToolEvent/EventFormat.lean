import ToolEvent.EventParser

/-!
# The documented event format

Version 5 of the event format, after `docs/event-format.md`: what a record of each
kind consists of, how it is written as a line, and which lines are records.
-/

namespace ToolEvent.EventFormat

abbrev Long := Fin (longMax + 1)
abbrev Size := Fin (sizeMax + 1)
abbrev LineNumber := Fin (intMax + 1)
abbrev Descriptor := Fin (eventFdMax + 1)

/-- The text of a present text field: escaped, and a single dash kept apart from an
absent text. -/
def writeText (t : Text) : Text :=
  if t = .ofString "-" then .ofString "\\-"
  else ⟨fieldEscapes.escape t.bytes, fun h => by
    obtain ⟨b, hb, h0⟩ := List.mem_flatMap.mp h
    have hne : b ≠ 0 := fun heq => t.nulFree (heq ▸ hb)
    simp only [Delimited.EscapeCode.escapeOne, fieldEscapes] at h0
    split_ifs at h0 <;> simp_all [backslash]⟩

/-- An absent text is written as a dash. -/
def writeOptional : Option Text → Text
  | none => .ofString "-"
  | some t => writeText t

def writeNumber (n : ℕ) : Text := .decimal n

def writeOptionalNumber : Option Size → Text
  | none => .ofString "-"
  | some n => writeNumber n

structure Header (lib : RecordLibrary) where
  runId : Text
  pid : Long
  contextId : Size
  sequence : Size
  monotonicNs : Option Size
  wallUnixNs : Option Size
  runId_length : 1 ≤ (writeText runId).length ∧ (writeText runId).length ≤ lib.runIdMaxBytes

/-- The fields of each kind. A completion receipt reports a failed write by its errno,
which is zero when no write failed. -/
inductive Payload
  | fd (kind : FdKind) (descriptor : Descriptor) (line : LineNumber) (functionName fileName : Option Text)
  | alloc (kind : AllocKind) (ptr newPtr : Option Text) (size : Size) (line : LineNumber)
      (functionName fileName : Option Text)
  | fork (childPid : Long) (line : LineNumber) (functionName fileName : Option Text)
  | spawn (childPid : Long) (line : LineNumber) (functionName fileName target : Option Text)
  | exec (descriptor : Descriptor) (cloexec : Bool) (line : LineNumber)
      (functionName fileName target : Option Text)
  | execFail (line : LineNumber) (functionName fileName target : Option Text)
  | call (kind : CallKind) (line : LineNumber)
      (functionName callName arguments result fileName : Option Text)
  | resource (kind : ResourceKind) (resourceClass resourceId relatedId : Option Text) (size : Size)
      (metadata : Option Text) (line : LineNumber) (functionName fileName : Option Text)
  | complete (eventsAttempted : Size) (writeErrno : LineNumber)

namespace Payload

def kind : Payload → RecordKind
  | fd .. => .fd
  | alloc .. => .alloc
  | fork .. => .fork
  | spawn .. => .spawn
  | exec .. => .exec
  | execFail .. => .execFail
  | call .. => .call
  | resource .. => .resource
  | complete .. => .complete

def fields : Payload → List Text
  | fd kind descriptor line functionName fileName =>
    [kind.word, writeNumber descriptor, writeNumber line, writeOptional functionName, writeOptional fileName]
  | alloc kind ptr newPtr size line functionName fileName =>
    [kind.word, writeOptional ptr, writeOptional newPtr, writeNumber size, writeNumber line,
      writeOptional functionName, writeOptional fileName]
  | fork childPid line functionName fileName =>
    [writeNumber childPid, writeNumber line, writeOptional functionName, writeOptional fileName]
  | spawn childPid line functionName fileName target =>
    [writeNumber childPid, writeNumber line, writeOptional functionName, writeOptional fileName,
      writeOptional target]
  | exec descriptor cloexec line functionName fileName target =>
    [writeNumber descriptor, writeNumber cloexec.toNat, writeNumber line, writeOptional functionName,
      writeOptional fileName, writeOptional target]
  | execFail line functionName fileName target =>
    [writeNumber line, writeOptional functionName, writeOptional fileName, writeOptional target]
  | call kind line functionName callName arguments result fileName =>
    [kind.word, writeNumber line, writeOptional functionName, writeOptional callName,
      writeOptional arguments, writeOptional result, writeOptional fileName]
  | resource kind resourceClass resourceId relatedId size metadata line functionName fileName =>
    [kind.word, writeOptional resourceClass, writeOptional resourceId, writeOptional relatedId,
      writeNumber size, writeOptional metadata, writeNumber line, writeOptional functionName,
      writeOptional fileName]
  | complete eventsAttempted writeErrno =>
    [writeNumber eventsAttempted, writeNumber (decide (writeErrno ≠ 0)).toNat,
      writeNumber writeErrno]

end Payload

variable {lib : RecordLibrary}

def Header.fields (header : Header lib) : List Text :=
  [.ofString "5", writeText header.runId, writeNumber header.pid, writeNumber header.contextId,
    writeNumber header.sequence, writeOptionalNumber header.monotonicNs,
    writeOptionalNumber header.wallUnixNs]

def joinFields (fields : List Text) : Text :=
  ⟨[tab].intercalate (fields.map Text.bytes), fun h => by
    rcases Delimited.mem_intercalate h with h | ⟨bytes, hbytes, h⟩
    · cases h
    · obtain ⟨t, -, rfl⟩ := List.mem_map.mp hbytes
      exact t.nulFree h⟩

inductive Terminator
  | lf | crlf

def Terminator.text : Terminator → Text
  | .lf => .ofString "\n"
  | .crlf => .ofString "\r\n"

def writeLine (header : Header lib) (payload : Payload) (terminator : Terminator) : Text :=
  joinFields (payload.kind.magic :: (header.fields ++ payload.fields)) ++ terminator.text

/-- What a reader finds in a text field that cannot be null: an absent text reads as the
dash it is written as. -/
def readBack (t : Option Text) : Option Text := some (t.getD (.ofString "-"))

def Header.toRecord (header : Header lib) (kind : RecordKind) : EventRecord :=
  { version := logVersion
    recordKind := kind
    runId := some header.runId
    pid := header.pid
    contextId := header.contextId
    sequence := header.sequence
    monotonicNs := (header.monotonicNs.map Fin.val).getD 0
    monotonicNsAvailable := header.monotonicNs.isSome.toNat
    wallUnixNs := (header.wallUnixNs.map Fin.val).getD 0
    wallUnixNsAvailable := header.wallUnixNs.isSome.toNat
    fd := -1
    childPid := -1
    lineNumber := -1 }

def toRecord (header : Header lib) : Payload → EventRecord
  | .fd kind descriptor line functionName fileName =>
    { header.toRecord .fd with
      fdKind := kind
      fd := descriptor
      lineNumber := line
      functionName := readBack functionName
      fileName := readBack fileName }
  | .alloc kind ptr newPtr size line functionName fileName =>
    { header.toRecord .alloc with
      allocKind := kind
      ptr := readBack ptr
      newPtr := newPtr
      size := size
      lineNumber := line
      functionName := readBack functionName
      fileName := readBack fileName }
  | .fork childPid line functionName fileName =>
    { header.toRecord .fork with
      childPid := childPid
      lineNumber := line
      functionName := readBack functionName
      fileName := readBack fileName }
  | .spawn childPid line functionName fileName target =>
    { header.toRecord .spawn with
      childPid := childPid
      lineNumber := line
      functionName := readBack functionName
      fileName := readBack fileName
      target := readBack target }
  | .exec descriptor cloexec line functionName fileName target =>
    { header.toRecord .exec with
      fd := descriptor
      cloexec := cloexec.toNat
      lineNumber := line
      functionName := readBack functionName
      fileName := readBack fileName
      target := readBack target }
  | .execFail line functionName fileName target =>
    { header.toRecord .execFail with
      lineNumber := line
      functionName := readBack functionName
      fileName := readBack fileName
      target := readBack target }
  | .call kind line functionName callName arguments result fileName =>
    { header.toRecord .call with
      callKind := kind
      lineNumber := line
      functionName := readBack functionName
      callName := readBack callName
      arguments := readBack arguments
      result := readBack result
      fileName := readBack fileName }
  | .resource kind resourceClass resourceId relatedId size metadata line functionName fileName =>
    { header.toRecord .resource with
      resourceKind := kind
      resourceClass := readBack resourceClass
      resourceId := readBack resourceId
      relatedId := relatedId
      size := size
      metadata := readBack metadata
      lineNumber := line
      functionName := readBack functionName
      fileName := readBack fileName }
  | .complete eventsAttempted writeErrno =>
    { header.toRecord .complete with
      eventsAttempted := eventsAttempted
      writeFailed := (decide (writeErrno ≠ 0)).toNat
      writeErrno := writeErrno }

/-- The forms a field of a line can have. The numbers of the two number forms are read
by different routines. -/
inductive FieldForm
  | version
  | runId
  | long (max : ℕ)
  | size
  | timestamp
  | word (words : List Text)
  | text

namespace FieldForm

def IsNumber (max : ℕ) (bytes : List UInt8) : Prop :=
  Decimal.IsNumeral bytes ∧ Decimal.value bytes ≤ max

instance (max : ℕ) (bytes : List UInt8) : Decidable (IsNumber max bytes) :=
  inferInstanceAs (Decidable (_ ∧ _))

/-- The documented grammar of the forms. -/
def Matches : FieldForm → List UInt8 → Prop
  | version, bytes => bytes = (Text.ofString "5").bytes
  | runId, bytes => bytes ≠ []
  | long max, bytes => IsNumber max bytes
  | size, bytes => IsNumber sizeMax bytes
  | timestamp, bytes => bytes = [dash] ∨ IsNumber sizeMax bytes
  | word words, bytes => ∃ t ∈ words, bytes = t.bytes
  | text, _ => True

end FieldForm

open FieldForm in
def headerForms : List FieldForm := [version, runId, long longMax, size, size, timestamp, timestamp]

open FieldForm in
def payloadForms : RecordKind → List FieldForm
  | .fd => [word (FdKind.all.map FdKind.word), long eventFdMax, long intMax, text, text]
  | .alloc => [word (AllocKind.all.map AllocKind.word), text, text, size, long intMax, text, text]
  | .fork => [long longMax, long intMax, text, text]
  | .spawn => [long longMax, long intMax, text, text, text]
  | .exec => [long eventFdMax, long 1, long intMax, text, text, text]
  | .execFail => [long intMax, text, text, text]
  | .call => [word (CallKind.all.map CallKind.word), long intMax, text, text, text, text, text]
  | .resource =>
    [word (ResourceKind.all.map ResourceKind.word), text, text, text, size, text, long intMax, text,
      text]
  | .complete => [size, long 1, long intMax]

def lineFields (line : Text) : List (List UInt8) := (stripTerminators line).bytes.splitOn tab

/-- The flag of failed writes and the errno agree: the errno is zero exactly when the
flag is. -/
def ReceiptAgrees (fields : List (List UInt8)) : Prop :=
  Decimal.value (fields.getD 8 []) = 0 ↔ Decimal.value (fields.getD 9 []) = 0

def IsRecordLine (line : Text) : Prop :=
  ∃ kind fields, lineFields line = kind.magic.bytes :: fields ∧
    List.Forall₂ FieldForm.Matches (headerForms ++ payloadForms kind) fields ∧
    (kind = .complete → ReceiptAgrees fields)

end ToolEvent.EventFormat
