import ToolEvent.EventParser
import ToolEvent.RunModel
import ToolEvent.StreamHealth

/-!
# Admitting a pair of event files

A run model is filled from a resource file and a call file, after
`src/model_input.c` and the command of `src/model_cli.c`. Both observe the health of
each stream and admit the pair when both streams are sound and every producer has
completed or is about to execute another program.
-/

namespace ToolEvent.ModelInput

open Fallible World RunModel StreamHealth

/-- A file given by its path: whether it can be opened, what it holds, and whether
closing it succeeds, with what a failure leaves in `errno`. -/
structure InputFile where
  opens : Bool := true
  openErrno : Errno := .unset
  stream : Stream
  closes : Bool := true
  closeErrno : Errno := .unset

variable (reader : RecordReader)

/-- The records of a stream that go into the model: everything but receipts, the calls from
the call stream and the rest from the resource stream. -/
def belongs (calls : Bool) (record : EventRecord) : Bool :=
  record.recordKind ≠ .complete ∧ (calls ↔ record.recordKind = .call)

/-- What `ingest_stream` does with a record that was parsed. The outcome taken here answers
the growth of the producer array, should it be needed. -/
def ingestRecord (calls : Bool) (record : EventRecord) : Routine (Model × Health) Unit := do
  let growth ← allocate
  let state ← readState
  let observed := observe reader.toRecordLibrary growth state.2 record
  updateState (fun s => (s.1, observed.2))
  if observed.1 ≠ 0 then
    fail (.errno (if observed.2.allocationFailed ≠ 0 then .enomem else .einval))
  else if belongs calls record then onFirst (ingest reader.toRecordLibrary record)
  else pure ()

/-- The loop of `ingest_stream`, within a bound on the number of lines. -/
def ingestLines (calls : Bool) : ℕ → Stream → Routine (Model × Health) Unit
  | 0, _ => fail .unfinished
  | lines + 1, stream =>
    match readLine reader.lineMaxBytes stream with
    | (.eof, _) => pure ()
    | (.error, _) => fail (.errno .eio)
    | (.malformed, _) => fail (.errno .einval)
    | (.line line, rest) =>
      match parseLine reader line with
      | .error .other => ingestLines calls lines rest
      | .error _ => fail (.errno .einval)
      | .ok record => do
        ingestRecord reader calls record
        ingestLines calls lines rest

/-- `ingest_stream`. Every line but the last takes a byte at least. -/
def ingestStream (calls : Bool) (stream : Stream) : Routine (Model × Health) Unit :=
  ingestLines reader calls (stream.bytes.length + 1) stream

def ingestPath (calls : Bool) (file : InputFile) : Routine (Model × Health) Unit :=
  if file.opens then do
    ingestStream reader calls file.stream
    if file.closes then pure () else fail (.errno file.closeErrno)
  else fail (.errno file.openErrno)

def observePath (calls : Bool) (file : InputFile) : Routine Model Health :=
  withLocals {} (do
    ingestPath reader calls file
    let state ← readState
    pure state.2)

def streamValid (health : Health) : Bool :=
  0 < health.recordsObserved ∧ 0 < health.producers.length ∧ health.producerWriteFailures = 0 ∧
    health.duplicateSequences = 0 ∧ health.nonmonotonicSequences = 0 ∧
    health.attemptedCountMismatches = 0 ∧ health.recordsAfterCompletion = 0 ∧
    health.distinctRunIds = 1 ∧ health.invalidRunIds = 0 ∧ health.mixedRunIds = 0 ∧
    health.allocationFailed = 0

def producerComplete (producer : ProducerHealth) (resourceHealth : Health) : Bool :=
  (producer.completionRecords = 1 ∧ producer.writeFailed = 0 ∧
      producer.attemptedCountMismatches = 0) ∨
    (producer.completionRecords = 0 ∧ resourceHealth.producers.any (fun candidate =>
      candidate.pid = producer.pid ∧ candidate.contextId = producer.contextId ∧
        candidate.runId = producer.runId ∧ candidate.pendingExec ≠ 0))

def streamsComplete (resourceHealth callHealth : Health) : Bool :=
  [resourceHealth, callHealth].all (fun health =>
    streamValid health && health.producers.all (producerComplete · resourceHealth))

/-- `p101_tool_model_ingest_paths` on non-null arguments. -/
def ingestPaths (resource call : InputFile) : Routine Model Unit := do
  let resourceHealth ← observePath reader false resource
  let callHealth ← observePath reader true call
  if streamsComplete resourceHealth callHealth then finish reader.toRecordLibrary
  else fail (.errno .einval)

def streamIntegrityIsValid (health : Health) : Bool := streamValid health

def producerCompletedOrExeced (producer : ProducerHealth) (resourceHealth : Health) : Bool :=
  producerComplete producer resourceHealth

def admittedStreamsAreComplete (resourceHealth callHealth : Health) : Bool :=
  [resourceHealth, callHealth].all (fun health =>
    streamIntegrityIsValid health &&
      health.producers.all (producerCompletedOrExeced · resourceHealth))

/-- The command up to the point where it has admitted the streams, on a new model. -/
def admitStreams (resource call : InputFile) : Routine Model Unit := do
  let resourceHealth ← observePath reader false resource
  let callHealth ← observePath reader true call
  if admittedStreamsAreComplete resourceHealth callHealth then pure () else fail .check

/-- The records among the lines of a stream, within a bound on the number of lines. -/
def recordsOfLines : ℕ → Stream → List EventRecord
  | 0, _ => []
  | lines + 1, stream =>
    match readLine reader.lineMaxBytes stream with
    | (.line line, rest) => (parseLine reader line).toOption.toList ++ recordsOfLines lines rest
    | (.malformed, rest) => recordsOfLines lines rest
    | _ => []

def recordsOf (file : InputFile) : List EventRecord :=
  recordsOfLines reader (file.stream.bytes.length + 1) file.stream

/-- The pair is admitted: `p101_tool_model_ingest_paths` returns 0 on the model, or the
command admits it, under some outcomes of the allocation requests. -/
def Admitted (model : Model) (resource call : InputFile) : Prop :=
  ∃ outcomes, (ingestPaths reader resource call ⟨model, outcomes⟩).1 = .ok () ∨
    model = {} ∧ (admitStreams reader resource call ⟨model, outcomes⟩).1 = .ok ()

end ToolEvent.ModelInput
