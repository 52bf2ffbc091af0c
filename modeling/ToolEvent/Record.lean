import ToolEvent.Text

/-!
# Event records of the protocol

The record structure of `p101_tool_event/event.h`. Enumerations and the two
constants of `lib_record`, which is not part of this repository, appear under
the names the sources use for them.
-/

namespace ToolEvent

inductive RecordKind
  | fd | alloc | fork | spawn | exec | execFail | call | resource | complete
  deriving DecidableEq

inductive FdKind
  | opened | closed
  deriving DecidableEq

inductive AllocKind
  | alloc | free | realloc
  deriving DecidableEq

inductive CallKind
  | enter | exit
  deriving DecidableEq

inductive ResourceKind
  | acquire | release | replace | transfer | use
  deriving DecidableEq

/-- `P101_TOOL_EVENT_LOG_VERSION`, the only supported protocol version. -/
def logVersion : ℤ := 5

/-- What the repository uses of `lib_record`: the bound on run identities and
the test for a pointer text that denotes the null pointer. -/
structure RecordLibrary where
  /-- `P101_TOOL_EVENT_RUN_ID_MAX_BYTES`. -/
  runIdMaxBytes : ℕ
  /-- `p101_record_pointer_is_null`. -/
  pointerIsNull : Option Text → Bool
  pointerIsNull_none : pointerIsNull none = true

/-- A null-pointer test with the spellings that denote the null pointer. -/
def RecordLibrary.standard : RecordLibrary where
  runIdMaxBytes := 128
  pointerIsNull
    | none => true
    | some t => ["", "-", "0", "0x0", "(nil)", "NULL"].any (fun s => Text.ofString s = t)
  pointerIsNull_none := rfl

/-- `struct p101_tool_event_record`. A nullable text pointer is an `Option`. -/
structure EventRecord where
  version : ℤ := logVersion
  recordKind : RecordKind
  runId : Option Text := none
  pid : ℤ := 0
  childPid : ℤ := 0
  contextId : ℕ := 0
  sequence : ℕ := 0
  monotonicNs : ℕ := 0
  wallUnixNs : ℕ := 0
  monotonicNsAvailable : ℤ := 0
  wallUnixNsAvailable : ℤ := 0
  fd : ℤ := 0
  cloexec : ℤ := 0
  fdKind : FdKind := .opened
  allocKind : AllocKind := .alloc
  callKind : CallKind := .enter
  resourceKind : ResourceKind := .acquire
  ptr : Option Text := none
  newPtr : Option Text := none
  target : Option Text := none
  resourceClass : Option Text := none
  resourceId : Option Text := none
  relatedId : Option Text := none
  metadata : Option Text := none
  size : ℕ := 0
  lineNumber : ℤ := 0
  functionName : Option Text := none
  callName : Option Text := none
  arguments : Option Text := none
  result : Option Text := none
  fileName : Option Text := none
  eventsAttempted : ℕ := 0
  writeFailed : ℤ := 0
  writeErrno : ℤ := 0
  deriving DecidableEq

namespace EventRecord

/-- The run identity check shared by the consumers of records: present,
non-empty and within the length limit. -/
def RunIdAdmitted (lib : RecordLibrary) (record : EventRecord) : Prop :=
  ∃ runId, record.runId = some runId ∧ runId ≠ Text.empty ∧ runId.length ≤ lib.runIdMaxBytes

end EventRecord

end ToolEvent
