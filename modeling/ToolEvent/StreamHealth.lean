import ToolEvent.Record

/-!
# Stream health

Incremental observation of a record stream, after the stream-health functions of
`src/event.c`. Every quantity of the verdict is counted once for the stream and
once for the producer of the record. Counters count observed records.
-/

namespace ToolEvent.StreamHealth

structure ProducerHealth where
  runId : Text := .empty
  pid : ℤ := 0
  contextId : ℕ := 0
  recordsObserved : ℕ := 0
  completionRecords : ℕ := 0
  lastSequence : ℕ := 0
  duplicateSequences : ℕ := 0
  nonmonotonicSequences : ℕ := 0
  attemptedCountMismatches : ℕ := 0
  recordsAfterCompletion : ℕ := 0
  writeFailed : ℤ := 0
  writeErrno : ℤ := 0
  pendingExec : ℤ := 0
  deriving DecidableEq

/-- `struct p101_tool_event_stream_health`; the defaults are the zeroed structure. -/
structure Health where
  recordsObserved : ℕ := 0
  completionRecords : ℕ := 0
  producerWriteFailures : ℕ := 0
  duplicateSequences : ℕ := 0
  nonmonotonicSequences : ℕ := 0
  attemptedCountMismatches : ℕ := 0
  recordsAfterCompletion : ℕ := 0
  distinctRunIds : ℕ := 0
  invalidRunIds : ℕ := 0
  mixedRunIds : ℤ := 0
  runId : Text := .empty
  lastWriteErrno : ℤ := 0
  allocationFailed : ℤ := 0
  producers : List ProducerHealth := []
  producerCapacity : ℕ := 0
  deriving DecidableEq

/-- `HEALTH_INITIAL_CAPACITY`. -/
def healthInitialCapacity : ℕ := 8

/-- The index of the producer's slot, after appending a zeroed slot if there is
none. `growth` is the result of the array growth, should one be needed. -/
def findOrAddProducer (growth : Bool) (health : Health) (runId : Text) (pid : ℤ)
    (contextId : ℕ) : Option (ℕ × Health) :=
  match health.producers.findIdx? (fun p =>
      p.runId = runId ∧ p.pid = pid ∧ p.contextId = contextId) with
  | some index => some (index, health)
  | none =>
    let full := health.producers.length = health.producerCapacity
    if full ∧ growth = false then none
    else
      let capacity :=
        if full then
          if health.producerCapacity = 0 then healthInitialCapacity
          else health.producerCapacity * 2
        else health.producerCapacity
      some (health.producers.length, { health with
        producers := health.producers ++ [{ runId, pid, contextId }]
        producerCapacity := capacity })

/-- The producer's `pending_exec` flag after a record. -/
def pendingExecAfter (record : EventRecord) (pendingExec : ℤ) : ℤ :=
  if record.recordKind = .exec then 1
  else if record.recordKind = .execFail ∨ record.recordKind = .complete then 0
  else pendingExec

def isDuplicateSequence (record : EventRecord) (producer : ProducerHealth) : Bool :=
  record.sequence ≠ 0 ∧ record.sequence = producer.lastSequence

def isNonmonotonicSequence (record : EventRecord) (producer : ProducerHealth) : Bool :=
  ¬ isDuplicateSequence record producer ∧ record.sequence ≠ 0 ∧ producer.lastSequence ≠ 0 ∧
    record.sequence < producer.lastSequence

/-- The check of a completion receipt, made after both counters were advanced. -/
def isAttemptedCountMismatch (record : EventRecord) (producer : ProducerHealth) : Bool :=
  record.recordKind = .complete ∧
    record.eventsAttempted ≠ producer.recordsObserved + 1 - (producer.completionRecords + 1)

def isWriteFailure (record : EventRecord) : Bool :=
  record.recordKind = .complete ∧ record.writeFailed ≠ 0

/-- What one admitted record does to the counters of its producer. -/
def observeProducer (record : EventRecord) (producer : ProducerHealth) : ProducerHealth :=
  { producer with
    recordsObserved := producer.recordsObserved + 1
    pendingExec := pendingExecAfter record producer.pendingExec
    recordsAfterCompletion :=
      producer.recordsAfterCompletion + (if 0 < producer.completionRecords then 1 else 0)
    duplicateSequences :=
      producer.duplicateSequences + (isDuplicateSequence record producer).toNat
    nonmonotonicSequences :=
      producer.nonmonotonicSequences + (isNonmonotonicSequence record producer).toNat
    lastSequence :=
      if producer.lastSequence < record.sequence then record.sequence else producer.lastSequence
    completionRecords :=
      producer.completionRecords + (if record.recordKind = .complete then 1 else 0)
    attemptedCountMismatches :=
      producer.attemptedCountMismatches + (isAttemptedCountMismatch record producer).toNat
    writeFailed := if isWriteFailure record then 1 else producer.writeFailed
    writeErrno := if isWriteFailure record then record.writeErrno else producer.writeErrno }

/-- The same for the counters of the stream. `producer` is the slot as it was. -/
def observeStream (record : EventRecord) (producer : ProducerHealth) (health : Health) : Health :=
  { health with
    recordsObserved := health.recordsObserved + 1
    recordsAfterCompletion :=
      health.recordsAfterCompletion + (if 0 < producer.completionRecords then 1 else 0)
    duplicateSequences := health.duplicateSequences + (isDuplicateSequence record producer).toNat
    nonmonotonicSequences :=
      health.nonmonotonicSequences + (isNonmonotonicSequence record producer).toNat
    completionRecords :=
      health.completionRecords + (if record.recordKind = .complete then 1 else 0)
    attemptedCountMismatches :=
      health.attemptedCountMismatches + (isAttemptedCountMismatch record producer).toNat
    producerWriteFailures := health.producerWriteFailures + (isWriteFailure record).toNat
    lastWriteErrno := if isWriteFailure record then record.writeErrno else health.lastWriteErrno }

/-- The bookkeeping of run identities: the first one is remembered, any other
one marks the stream as mixed. -/
def observeRunId (runId : Text) (health : Health) : Health :=
  if health.distinctRunIds = 0 then { health with runId := runId, distinctRunIds := 1 }
  else if health.runId ≠ runId then { health with mixedRunIds := 1, distinctRunIds := 2 }
  else health

variable (lib : RecordLibrary)

/-- `p101_tool_event_stream_health_observe` on non-null arguments. -/
def observe (growth : Bool) (health : Health) (record : EventRecord) : ℤ × Health :=
  match record.runId with
  | none => (-1, { health with invalidRunIds := health.invalidRunIds + 1 })
  | some runId =>
    if runId.isEmpty ∨ lib.runIdMaxBytes < runId.length then
      (-1, { health with invalidRunIds := health.invalidRunIds + 1 })
    else
      let health := observeRunId runId health
      match findOrAddProducer growth health runId record.pid record.contextId with
      | none => (-1, { health with allocationFailed := 1 })
      | some (index, health) =>
        let producer := health.producers.getD index {}
        (0, { observeStream record producer health with
          producers := health.producers.modify index (observeProducer record) })

/-- `p101_tool_event_stream_health_incomplete_producers`. -/
def incompleteProducers (health : Health) : ℕ :=
  health.producers.countP (fun producer =>
    producer.completionRecords ≠ 1 ∨ producer.writeFailed ≠ 0 ∨
      producer.attemptedCountMismatches ≠ 0)

/-- `p101_tool_event_stream_health_is_complete`. -/
def isComplete (health : Health) : Bool :=
  health.recordsObserved ≠ 0 ∧ health.producers.length ≠ 0 ∧ health.producerWriteFailures = 0 ∧
    health.duplicateSequences = 0 ∧ health.nonmonotonicSequences = 0 ∧
    health.attemptedCountMismatches = 0 ∧ health.recordsAfterCompletion = 0 ∧
    health.distinctRunIds = 1 ∧ health.invalidRunIds = 0 ∧ health.mixedRunIds = 0 ∧
    health.allocationFailed = 0 ∧ incompleteProducers health = 0

def observeAll (health : Health) (records : List EventRecord) : Health :=
  records.foldl (fun health record => (observe lib true health record).2) health

end ToolEvent.StreamHealth
