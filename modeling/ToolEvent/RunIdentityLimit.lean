import ToolEvent.EventRoundTrip
import ToolEvent.Lifecycle
import ToolEvent.RunModel
import ToolEvent.StreamHealth

/-!
# The limit on run identities

`parse_metadata` measures a run identity as it is written, and the three consumers of
records measure it as it was. A run identity at the limit is lost when it has to be
escaped.
-/

namespace ToolEvent.EventFormat

/-- The run identity checks of the three consumers let a run identity pass. -/
structure AdmittedByConsumers (lib : RecordLibrary) (runId : Text) : Prop where
  observe : ∀ growth health record, record.runId = some runId →
    (StreamHealth.observe lib growth health record).2.invalidRunIds = health.invalidRunIds
  lifecycle : ∀ record, record.runId = some runId → record.version = logVersion →
    Lifecycle.isAdmitted lib {} record = true
  model : ∀ record, record.runId = some runId → record.version = logVersion →
    RunModel.isAdmitted lib {} record = true

theorem one_le_length_iff {t : Text} : 1 ≤ t.length ↔ t.isEmpty = false := by
  rw [Bool.eq_false_iff, ne_eq, Text.isEmpty_iff, ← List.length_eq_zero_iff, Text.length]
  omega

theorem observeRunId_invalidRunIds (runId : Text) (health : StreamHealth.Health) :
    (StreamHealth.observeRunId runId health).invalidRunIds = health.invalidRunIds := by
  unfold StreamHealth.observeRunId
  split
  · rfl
  · split <;> rfl

theorem findOrAddProducer_invalidRunIds {growth : Bool} {start health : StreamHealth.Health} {runId : Text}
    {pid : ℤ} {contextId index : ℕ}
    (h : StreamHealth.findOrAddProducer growth start runId pid contextId = some (index, health)) :
    health.invalidRunIds = start.invalidRunIds := by
  unfold StreamHealth.findOrAddProducer at h
  split at h
  · cases h
    rfl
  · by_cases hfull : start.producers.length = start.producerCapacity ∧ growth = false
    · rw [if_pos hfull] at h
      cases h
    · rw [if_neg hfull] at h
      cases h
      rfl

theorem observe_invalidRunIds {lib : RecordLibrary} {growth : Bool} {health : StreamHealth.Health}
    {record : EventRecord} {runId : Text} (h : record.runId = some runId) :
    (StreamHealth.observe lib growth health record).2.invalidRunIds = health.invalidRunIds ↔
      1 ≤ runId.length ∧ runId.length ≤ lib.runIdMaxBytes := by
  have hcheck : (1 ≤ runId.length ∧ runId.length ≤ lib.runIdMaxBytes) ↔
      ¬ (runId.isEmpty = true ∨ lib.runIdMaxBytes < runId.length) := by
    rw [one_le_length_iff, not_or, not_lt, Bool.not_eq_true]
  rw [hcheck]
  unfold StreamHealth.observe
  rw [h]
  simp only
  split
  · next hrefused => exact iff_of_false (Nat.succ_ne_self _) (not_not_intro hrefused)
  · next hpassed =>
    have hgiven := observeRunId_invalidRunIds runId health
    refine iff_of_true ?_ hpassed
    split
    · exact hgiven
    · next index health' hfound => exact (findOrAddProducer_invalidRunIds hfound).trans hgiven

/-- The consumers admit the run identities of one byte up to the limit. -/
theorem admittedByConsumers_iff {lib : RecordLibrary} {runId : Text} :
    AdmittedByConsumers lib runId ↔ 1 ≤ runId.length ∧ runId.length ≤ lib.runIdMaxBytes := by
  constructor
  · intro h
    exact (@observe_invalidRunIds lib true {} { recordKind := .fd, runId := some runId } runId rfl).mp
      (h.observe true {} _ rfl)
  · intro h
    have hempty := one_le_length_iff.mp h.1
    refine ⟨fun growth health record hrun => (observe_invalidRunIds hrun).mpr h, ?_, ?_⟩
    · intro record hrun hversion
      simp only [Lifecycle.isAdmitted, hrun, decide_eq_true_eq]
      exact ⟨hversion, ne_true_of_eq_false hempty, h.2, .inl rfl⟩
    · intro record hrun hversion
      simp only [RunModel.isAdmitted, hrun, decide_eq_true_eq]
      exact ⟨trivial, hversion, ne_true_of_eq_false hempty, h.2⟩

/-- What a header consists of besides its run identity. -/
structure HeaderNumbers where
  pid : Long
  contextId : Size
  sequence : Size
  monotonicNs : Option Size
  wallUnixNs : Option Size

/-- A header with the given run identity, whatever the limit is. -/
def HeaderNumbers.header (numbers : HeaderNumbers) {lib : RecordLibrary} (runId : Text)
    (h : 1 ≤ (writeText runId).length ∧ (writeText runId).length ≤ lib.runIdMaxBytes) : Header lib where
  runId := runId
  pid := numbers.pid
  contextId := numbers.contextId
  sequence := numbers.sequence
  monotonicNs := numbers.monotonicNs
  wallUnixNs := numbers.wallUnixNs
  runId_length := h

def writeLineFor (runId : Text) (numbers : HeaderNumbers) (payload : Payload) (terminator : Terminator) :
    Text :=
  joinFields (payload.kind.magic ::
    ([.ofString "5", writeText runId, writeNumber numbers.pid, writeNumber numbers.contextId,
      writeNumber numbers.sequence, writeOptionalNumber numbers.monotonicNs,
      writeOptionalNumber numbers.wallUnixNs] ++ payload.fields)) ++ terminator.text

theorem writeLine_header (numbers : HeaderNumbers) {lib : RecordLibrary} (runId : Text)
    (h : 1 ≤ (writeText runId).length ∧ (writeText runId).length ≤ lib.runIdMaxBytes) (payload : Payload)
    (terminator : Terminator) :
    writeLine (numbers.header runId h) payload terminator = writeLineFor runId numbers payload terminator := rfl

/-- The bytes a text is written with: its own, a backslash before each that is escaped,
and one before a single dash. -/
def writtenLength (t : Text) : ℕ :=
  t.length + t.bytes.countP (fun b => (fieldEscapes.letter b).isSome) + (if t = .ofString "-" then 1 else 0)

theorem length_writeText (t : Text) : (writeText t).length = writtenLength t := by
  unfold writeText writtenLength
  split
  · next h =>
    rw [h]
    decide
  · exact fieldEscapes.length_escape t.bytes

theorem length_le_writtenLength (t : Text) : t.length ≤ writtenLength t := by
  unfold writtenLength
  omega

/-- The parser lets no written run identity pass that exceeds the limit. -/
theorem length_le_of_parseMetadata {reader : RecordReader} {fields : List Text} {record : EventRecord}
    {parsed : EventRecord × ℕ} (h : parseMetadata reader fields record = .ok parsed) :
    (fieldAt fields 1).length ≤ reader.runIdMaxBytes := by
  unfold parseMetadata at h
  obtain ⟨_, -, h⟩ := bind_eq_ok.mp h
  obtain ⟨_, -, h⟩ := bind_eq_ok.mp h
  obtain ⟨_, hrun, -⟩ := bind_eq_ok.mp h
  have hfits := failIf_eq_ok.mp hrun
  rw [not_or, not_lt] at hfits
  exact hfits.2

theorem length_le_of_parseLine {reader : RecordReader} {runId : Text} {numbers : HeaderNumbers}
    {payload : Payload} {terminator : Terminator} (hpos : 1 ≤ runId.length) {record : EventRecord}
    (h : parseLine reader (writeLineFor runId numbers payload terminator) = .ok record) :
    (writeText runId).length ≤ reader.runIdMaxBytes := by
  -- a library whose limit is the length of this run identity
  let lib : RecordLibrary := { reader.toRecordLibrary with runIdMaxBytes := (writeText runId).length }
  have hlimit : 1 ≤ (writeText runId).length ∧ (writeText runId).length ≤ lib.runIdMaxBytes := by
    rw [length_writeText]
    exact ⟨hpos.trans (length_le_writtenLength runId), (length_writeText runId).ge⟩
  rw [← writeLine_header numbers runId hlimit] at h
  obtain ⟨-, magic, fields, hfields, -, hparsed⟩ := parseLine_eq_ok.mp h
  rw [lineFields_writeLine] at hfields
  obtain ⟨-, hrest⟩ := List.cons.inj hfields
  have hsame := List.map_injective_iff.mpr Text.bytes_injective hrest
  obtain ⟨parsed, hmetadata, -⟩ := bind_eq_ok.mp hparsed
  have hlength := length_le_of_parseMetadata hmetadata
  rw [← hsame] at hlength
  exact hlength

/-- The consumers admit every run identity within the limit. The parser reads it back
exactly when it is within the limit as it is written. -/
theorem parsesRunId_iff (reader : RecordReader) {runId : Text}
    (h : 1 ≤ runId.length ∧ runId.length ≤ reader.runIdMaxBytes) (numbers : HeaderNumbers)
    (payload : Payload) (terminator : Terminator) :
    AdmittedByConsumers reader.toRecordLibrary runId ∧
      ((∃ record, parseLine reader (writeLineFor runId numbers payload terminator) = .ok record ∧
          record.runId = some runId) ↔ writtenLength runId ≤ reader.runIdMaxBytes) := by
  refine ⟨admittedByConsumers_iff.mpr h, ?_⟩
  constructor
  · rintro ⟨record, hparsed, -⟩
    rw [← length_writeText]
    exact length_le_of_parseLine h.1 hparsed
  · intro hwritten
    have hlimit : 1 ≤ (writeText runId).length ∧ (writeText runId).length ≤ reader.runIdMaxBytes := by
      rw [length_writeText]
      exact ⟨h.1.trans (length_le_writtenLength runId), hwritten⟩
    refine ⟨toRecord (numbers.header runId hlimit) payload, ?_, ?_⟩
    · rw [← writeLine_header numbers runId hlimit]
      exact parseLine_writeLine reader (numbers.header runId hlimit) payload terminator
    · cases payload <;> rfl

def backslashes (n : ℕ) : Text :=
  ⟨List.replicate n backslash, fun h => absurd (List.eq_of_mem_replicate h) (by decide)⟩

def plainNumbers : HeaderNumbers where
  pid := 1
  contextId := 0
  sequence := 1
  monotonicNs := none
  wallUnixNs := none

theorem parsesRunId_sixtyFour :
    ∃ record, parseLine .standard (writeLineFor (backslashes 64) plainNumbers
      (.fd .opened 3 10 none none) .lf) = .ok record ∧ record.runId = some (backslashes 64) :=
  (@parsesRunId_iff .standard (backslashes 64) (by decide) plainNumbers
    (.fd .opened 3 10 none none) .lf).2.mpr (by decide)

/-- A run identity of sixty-five backslashes is admitted by the consumers and refused by
the parser. -/
theorem backslashes_refused :
    AdmittedByConsumers RecordReader.standard.toRecordLibrary (backslashes 65) ∧
      ¬ ∃ record, parseLine .standard (writeLineFor (backslashes 65) plainNumbers
        (.fd .opened 3 10 none none) .lf) = .ok record := by
  constructor
  · exact admittedByConsumers_iff.mpr (by decide)
  · rintro ⟨record, h⟩
    have hlength := length_le_of_parseLine (by decide) h
    revert hlength
    rw [length_writeText]
    decide

end ToolEvent.EventFormat
