import ToolEvent.EventRoundTrip
import ToolEvent.LineBuffer
import ToolEvent.RunModelRetry
import ToolEvent.StreamAdmission

/-!
# Which pairs of files are admitted

A file is read when each of its lines fits the buffer of the reader and is a record, or is
not one of the reader's lines. Once the allocation requests are granted, a pair is admitted
exactly when both files are read and their records satisfy conditions that speak of the
records alone.
-/

namespace ToolEvent.ModelInput

open Fallible World RunModel StreamHealth Delimited EventFormat

variable {reader : RecordReader}

/-- The text of a line without a NUL byte that fits the buffer. -/
def lineText (size : ℕ) (line : List UInt8) : Option Text :=
  if h : (0 : UInt8) ∉ line ∧ line.length < size then some ⟨line, h.1⟩ else none

def lineResult (size : ℕ) (line : List UInt8) : LineResult := (lineText size line).elim .malformed .line

theorem readLine_nil (size : ℕ) (fails : Bool) :
    readLine size ⟨[], fails⟩ = (if fails then .error else .eof, ⟨[], fails⟩) := by
  cases fails <;> rfl

/-- The reader takes a line at a time. A failing stream is noticed at its end only. -/
theorem readLine_of_ne_nil {size : ℕ} (hsize : 0 < size) {bytes : List UInt8} (h : bytes ≠ []) (fails : Bool) :
    readLine size ⟨bytes, fails⟩ =
      (if newline ∉ (takeLine newline bytes).1 ∧ fails then .error else lineResult size (takeLine newline bytes).1,
        ⟨(takeLine newline bytes).2, fails⟩) := by
  obtain ⟨hfollows, hend, hrest⟩ :=
    (LineBuffer.follows_start size hsize).readLineLoop hsize bytes rfl (fun _ => rfl)
  rw [List.nil_append] at hfollows
  have hsaw : (readLineLoop size {} bytes).sawByte = true := hfollows.sawByte.mpr (takeLine_fst_ne_nil h)
  simp only [readLine, hend, hrest, decide_eq_true_eq, hsaw, not_true_eq_false, if_false]
  split
  · rfl
  · rw [lineResult, lineText]
    by_cases hgood : (0 : UInt8) ∉ (takeLine newline bytes).1 ∧ (takeLine newline bytes).1.length < size
    · have hclean : (readLineLoop size {} bytes).malformed = false := by
        apply Bool.eq_false_iff.mpr
        intro hmalformed
        rcases hfollows.malformed.mp hmalformed with hzero | hlong
        · exact hgood.1 hzero
        · omega
      have hwhole : (takeLine newline bytes).1.take (size - 1) = (takeLine newline bytes).1 :=
        List.take_of_length_le (by omega)
      rw [dif_pos hclean, dif_pos hgood]
      exact Prod.ext (congrArg LineResult.line (Text.ext (hfollows.line.trans hwhole))) rfl
    · have hmalformed : (readLineLoop size {} bytes).malformed = true := by
        apply hfollows.malformed.mpr
        by_contra hneither
        rw [not_or] at hneither
        exact hgood ⟨hneither.1, by omega⟩
      rw [dif_neg (ne_false_of_eq_true hmalformed), dif_neg hgood]
      rfl

/-- A line is read: it is a record, or it is not one of the reader's lines. -/
def IsRead (reader : RecordReader) (line : List UInt8) : Prop :=
  ∃ text, lineText reader.lineMaxBytes line = some text ∧
    ∀ failure, parseLine reader text = .error failure → failure = .other

def recordOn (reader : RecordReader) (line : List UInt8) : Option EventRecord :=
  (lineText reader.lineMaxBytes line).bind fun text => (parseLine reader text).toOption

theorem isRead_iff {line : List UInt8} {text : Text} (htext : lineText reader.lineMaxBytes line = some text) :
    IsRead reader line ↔ ∀ failure, parseLine reader text = .error failure → failure = .other := by
  simp only [IsRead, htext, Option.some.injEq, exists_eq_left']

theorem recordOn_of_text {line : List UInt8} {text : Text} (htext : lineText reader.lineMaxBytes line = some text) :
    recordOn reader line = (parseLine reader text).toOption := by
  rw [recordOn, htext, Option.bind_some]

/-- The loop ends well exactly when every line is read and every record is taken. -/
theorem ingestLines_eq_ok (hsize : 0 < reader.lineMaxBytes) {calls : Bool} (bound : ℕ) {bytes : List UInt8}
    (hbound : bytes.length < bound) {w w' : World (Model × Health)} :
    ingestLines reader calls bound ⟨bytes, false⟩ w = (.ok (), w') ↔
      (∀ line ∈ lines newline bytes, IsRead reader line) ∧
        forEach (ingestRecord reader calls) ((lines newline bytes).filterMap (recordOn reader)) w = (.ok (), w') := by
  induction bound generalizing bytes w with
  | zero => omega
  | succ bound ih =>
    rw [ingestLines]
    by_cases hbytes : bytes = []
    · rw [hbytes, readLine_nil]
      exact (and_iff_right (List.forall_mem_nil _)).symm
    · have hrest : (takeLine newline bytes).2.length < bound := by
        have hless := length_takeLine_snd_lt (d := newline) hbytes
        omega
      rw [readLine_of_ne_nil hsize hbytes, if_neg (fun h => Bool.noConfusion h.2), lines_eq_cons hbytes,
        List.forall_mem_cons, lineResult]
      cases htext : lineText reader.lineMaxBytes (takeLine newline bytes).1 with
      | none =>
        apply iff_of_false
        · intro h
          cases h
        · rintro ⟨⟨⟨text, hread, -⟩, -⟩, -⟩
          rw [htext] at hread
          cases hread
      | some text =>
        rw [Option.elim_some, List.filterMap_cons, recordOn_of_text htext, isRead_iff htext]
        dsimp only
        cases hparse : parseLine reader text with
        | error failure =>
          cases failure with
          | other =>
            have hread : ∀ failure, (Except.error .other : Parsed EventRecord) = .error failure → failure = .other :=
              fun failure h => (Except.error.inj h).symm
            rw [and_assoc, and_iff_right hread]
            exact ih hrest
          | malformed | badVersion =>
            apply iff_of_false
            · intro h
              cases h
            · intro h
              cases h.1.1 _ rfl
        | ok record =>
          have hread : ∀ failure, (Except.ok record : Parsed EventRecord) = .error failure → failure = .other := by
            intro failure h
            cases h
          rw [and_assoc, and_iff_right hread]
          dsimp only [Except.toOption]
          rw [forEach, run_bind_eq_ok, run_bind_eq_ok]
          simp only [ih hrest]
          constructor
          · rintro ⟨⟨⟩, w₁, hrecord, hlines, hrecords⟩
            exact ⟨hlines, ⟨⟩, w₁, hrecord, hrecords⟩
          · rintro ⟨hlines, ⟨⟩, w₁, hrecord, hrecords⟩
            exact ⟨⟨⟩, w₁, hrecord, hlines, hrecords⟩

/-- The loop cannot get past the end of a failing stream. -/
theorem ingestLines_fails (hsize : 0 < reader.lineMaxBytes) {calls : Bool} (bound : ℕ) (bytes : List UInt8)
    (w : World (Model × Health)) : (ingestLines reader calls bound ⟨bytes, true⟩ w).1 ≠ .ok () := by
  have hfail : ∀ (e : Raised) (v : World (Model × Health)),
      ((fail e : Routine (Model × Health) Unit) v).1 ≠ .ok () := by
    intro e v h
    cases h
  induction bound generalizing bytes w with
  | zero => exact hfail _ w
  | succ bound ih =>
    rw [ingestLines]
    by_cases hbytes : bytes = []
    · rw [hbytes, readLine_nil]
      exact hfail _ w
    · rw [readLine_of_ne_nil hsize hbytes]
      by_cases hend : newline ∉ (takeLine newline bytes).1 ∧ true = true
      · rw [if_pos hend]
        exact hfail _ w
      · rw [if_neg hend, lineResult]
        cases lineText reader.lineMaxBytes (takeLine newline bytes).1 with
        | none => exact hfail _ w
        | some text =>
          rw [Option.elim_some]
          dsimp only
          cases parseLine reader text with
          | error failure =>
            cases failure with
            | other => exact ih _ w
            | malformed | badVersion => exact hfail _ w
          | ok record =>
            intro hrun
            obtain ⟨u, hrun⟩ := exists_of_fst_eq hrun
            obtain ⟨⟨⟩, w₁, -, hrest⟩ := run_bind_eq_ok.mp hrun
            exact ih _ w₁ (congrArg Prod.fst hrest)

/-- The records of a stream that does not fail are those on its lines. -/
theorem recordsOfLines_eq (hsize : 0 < reader.lineMaxBytes) (bound : ℕ) {bytes : List UInt8} (hbound : bytes.length < bound) :
    recordsOfLines reader bound ⟨bytes, false⟩ = (lines newline bytes).filterMap (recordOn reader) := by
  induction bound generalizing bytes with
  | zero => omega
  | succ bound ih =>
    rw [recordsOfLines]
    by_cases hbytes : bytes = []
    · rw [hbytes, readLine_nil]
      rfl
    · have hrest : (takeLine newline bytes).2.length < bound := by
        have hless := length_takeLine_snd_lt (d := newline) hbytes
        omega
      rw [readLine_of_ne_nil hsize hbytes, if_neg (fun h => Bool.noConfusion h.2), lines_eq_cons hbytes, lineResult,
        List.filterMap_cons]
      cases htext : lineText reader.lineMaxBytes (takeLine newline bytes).1 with
      | none =>
        rw [Option.elim_none, recordOn, htext, Option.bind_none]
        exact ih hrest
      | some text =>
        rw [Option.elim_some, recordOn_of_text htext]
        dsimp only
        rw [ih hrest]
        cases parseLine reader text <;> rfl

/-- A file can be opened, read to its end and closed, and all its lines are read. -/
structure Readable (reader : RecordReader) (file : InputFile) : Prop where
  opens : file.opens = true
  sound : file.stream.fails = false
  lines : ∀ line ∈ lines newline file.stream.bytes, IsRead reader line
  closes : file.closes = true

theorem ingestPath_eq_ok (hsize : 0 < reader.lineMaxBytes) {calls : Bool} {file : InputFile} {w w' : World (Model × Health)} :
    ingestPath reader calls file w = (.ok (), w') ↔
      Readable reader file ∧ forEach (ingestRecord reader calls) (recordsOf reader file) w = (.ok (), w') := by
  obtain ⟨opens, openErrno, ⟨bytes, fails⟩, closes, closeErrno⟩ := file
  rw [ingestPath]
  cases opens with
  | false =>
    apply iff_of_false
    · intro h
      cases h
    · intro h
      cases h.1.opens
  | true =>
    rw [if_pos rfl, run_bind_eq_ok, ingestStream]
    cases fails with
    | true =>
      apply iff_of_false
      · rintro ⟨⟨⟩, w₁, hstream, -⟩
        exact ingestLines_fails hsize _ bytes w (congrArg Prod.fst hstream)
      · intro h
        cases h.1.sound
    | false =>
      rw [recordsOf, recordsOfLines_eq hsize _ (Nat.lt_succ_self _)]
      simp only [ingestLines_eq_ok hsize _ (Nat.lt_succ_self _)]
      cases closes with
      | false =>
        apply iff_of_false
        · rintro ⟨⟨⟩, w₁, -, hclose⟩
          cases hclose
        · intro h
          cases h.1.closes
      | true =>
        constructor
        · rintro ⟨⟨⟩, w₁, ⟨hlines, hrecords⟩, hclose⟩
          obtain ⟨-, rfl⟩ := Prod.mk.inj hclose
          exact ⟨⟨rfl, rfl, hlines, rfl⟩, hrecords⟩
        · rintro ⟨hread, hrecords⟩
          exact ⟨(), w', ⟨hread.lines, hrecords⟩, rfl⟩

variable {lib : RecordLibrary}

theorem settled_ingest (record : EventRecord) : Settled (ingest lib record) := by
  have hcopy : Settled copyText := settled_allocate (settled_pure ()) _
  have hreserve : ∀ count capacity, Settled (reserve count capacity) := fun count capacity =>
    (settled_pure _).ite ((settled_fail _).ite (settled_allocate (settled_pure _) _))
  have hrun : ∀ runId, Settled (ingestRunId runId) := by
    refine fun runId => settled_readState.bind fun model => ?_
    cases model.runId with
    | none => exact hcopy.bind fun _ => settled_updateState _
    | some own => exact (settled_pure ()).ite (settled_fail _)
  refine settled_readState.bind fun model => Settled.ite ?_ (settled_fail _)
  refine (hrun _).bind fun _ => (settled_pure ()).ite ((hreserve _ _).bind fun capacity => ?_)
  exact (settled_updateState _).bind fun _ =>
    (settled_forEach (fun _ => hcopy) _).bind fun _ => settled_updateState _

def keepRecord (lib : RecordLibrary) (calls : Bool) (record : EventRecord) : Routine (Model × Health) Unit :=
  if belongs calls record then onFirst (ingest lib record) else pure ()

theorem settled_keepRecord (calls : Bool) (record : EventRecord) : Settled (keepRecord lib calls record) :=
  (settled_ingest record).onFirst.ite (settled_pure ())

/-- A record is taken when its run identity is in order and the model takes it. -/
theorem ingestRecord_eq_ok {calls : Bool} {record : EventRecord} {m : Model} {health : Health} {outcomes : List Bool}
    {w : World (Model × Health)} (h : ingestRecord reader calls record ⟨(m, health), outcomes⟩ = (.ok (), w)) :
    record.RunIdAdmitted reader.toRecordLibrary ∧
      keepRecord reader.toRecordLibrary calls record
        ⟨(m, (observe reader.toRecordLibrary true health record).2), outcomes.tail⟩ = (.ok (), w) := by
  rw [ingestRecord, run_bind_of_ok (run_allocate _ outcomes), run_readState_bind] at h
  obtain ⟨⟨⟩, w₁, hobserve, hkeep⟩ := run_bind_eq_ok.mp h
  obtain ⟨-, rfl⟩ := Prod.mk.inj hobserve
  dsimp only at hkeep
  by_cases hstatus : (observe reader.toRecordLibrary (outcomes.headD true) health record).1 = 0
  · obtain ⟨hadmitted, hobserved⟩ := observe_of_status hstatus
    rw [if_neg (not_not_intro hstatus), hobserved] at hkeep
    exact ⟨hadmitted, hkeep⟩
  · rw [if_pos hstatus] at hkeep
    cases hkeep

theorem run_ingestRecord_nil {calls : Bool} {record : EventRecord} (h : record.RunIdAdmitted reader.toRecordLibrary)
    (m : Model) (health : Health) :
    ingestRecord reader calls record ⟨(m, health), []⟩ =
      keepRecord reader.toRecordLibrary calls record ⟨(m, (observe reader.toRecordLibrary true health record).2), []⟩ := by
  obtain ⟨capacity, hobserved⟩ := observe_admitted h health
  rw [ingestRecord, run_bind_of_ok (run_allocate_nil _), run_readState_bind, run_bind_of_ok (run_updateState _ _), hobserved]
  exact congrFun (if_neg (fun hne => hne rfl)) _

theorem settled_ingestRecord (calls : Bool) (record : EventRecord) : Settled (ingestRecord reader calls record) := by
  rintro ⟨m, health⟩ outcomes ⟨⟩ w hrun
  obtain ⟨hadmitted, hkeep⟩ := ingestRecord_eq_ok hrun
  rw [run_ingestRecord_nil hadmitted]
  exact settled_keepRecord calls record _ _ _ _ hkeep

/-- Taking records observes all of them and ingests those that belong to the stream. -/
theorem forEach_ingestRecord_eq_ok {calls : Bool} {records : List EventRecord} {m : Model} {health : Health}
    {w : World (Model × Health)} :
    forEach (ingestRecord reader calls) records ⟨(m, health), []⟩ = (.ok (), w) ↔
      (∀ r ∈ records, r.RunIdAdmitted reader.toRecordLibrary) ∧
        ∃ m', forEach (ingest reader.toRecordLibrary) (records.filter (belongs calls)) ⟨m, []⟩ = (.ok (), ⟨m', []⟩) ∧
          w = ⟨(m', observeAll reader.toRecordLibrary health records), []⟩ := by
  induction records generalizing m health with
  | nil =>
    rw [and_iff_right (List.forall_mem_nil _)]
    constructor
    · intro h
      obtain ⟨-, rfl⟩ := Prod.mk.inj h
      exact ⟨m, rfl, rfl⟩
    · rintro ⟨m', hrun, rfl⟩
      obtain ⟨-, hsame⟩ := Prod.mk.inj hrun
      obtain ⟨rfl, -⟩ := World.mk.inj hsame
      rfl
  | cons r records ih =>
    rw [forEach, run_bind_eq_ok, List.forall_mem_cons]
    constructor
    · rintro ⟨⟨⟩, w₁, hfirst, hrest⟩
      obtain ⟨hadmitted, hkeep⟩ := ingestRecord_eq_ok hfirst
      rw [List.tail_nil, keepRecord] at hkeep
      by_cases hbelongs : belongs calls r
      · rw [if_pos hbelongs] at hkeep
        obtain ⟨⟨m₁, outcomes₁⟩, hingest, rfl⟩ := onFirst_eq_ok.mp hkeep
        obtain rfl : outcomes₁ = [] := (settled_ingest r).outcomes_eq_nil hingest
        obtain ⟨hall, m', hrecords, hw⟩ := ih.mp hrest
        refine ⟨⟨hadmitted, hall⟩, m', ?_, hw⟩
        rw [List.filter_cons_of_pos hbelongs, forEach, run_bind_of_ok hingest]
        exact hrecords
      · rw [if_neg hbelongs] at hkeep
        obtain ⟨-, rfl⟩ := Prod.mk.inj hkeep
        obtain ⟨hall, m', hrecords, hw⟩ := ih.mp hrest
        rw [List.filter_cons_of_neg hbelongs]
        exact ⟨⟨hadmitted, hall⟩, m', hrecords, hw⟩
    · rintro ⟨⟨hadmitted, hall⟩, m', hrecords, rfl⟩
      rw [run_ingestRecord_nil hadmitted, keepRecord]
      by_cases hbelongs : belongs calls r
      · rw [List.filter_cons_of_pos hbelongs, forEach] at hrecords
        obtain ⟨⟨⟩, ⟨m₁, outcomes₁⟩, hingest, hrest⟩ := run_bind_eq_ok.mp hrecords
        obtain rfl : outcomes₁ = [] := (settled_ingest r).outcomes_eq_nil hingest
        rw [if_pos hbelongs]
        exact ⟨(), _, onFirst_eq_ok.mpr ⟨_, hingest, rfl⟩, ih.mpr ⟨hall, m', hrest, rfl⟩⟩
      · rw [List.filter_cons_of_neg hbelongs] at hrecords
        rw [if_neg hbelongs]
        exact ⟨(), _, rfl, ih.mpr ⟨hall, m', hrecords, rfl⟩⟩

theorem settled_ingestLines (calls : Bool) (bound : ℕ) (stream : Stream) :
    Settled (ingestLines reader calls bound stream) := by
  induction bound generalizing stream with
  | zero => exact settled_fail _
  | succ bound ih =>
    rw [ingestLines]
    rcases readLine reader.lineMaxBytes stream with ⟨_ | text | _ | _, rest⟩
    · exact settled_pure ()
    · dsimp only
      cases parseLine reader text with
      | error failure =>
        cases failure with
        | other => exact ih rest
        | malformed | badVersion => exact settled_fail _
      | ok record => exact (settled_ingestRecord calls record).bind fun _ => ih rest
    · exact settled_fail _
    · exact settled_fail _

theorem settled_observePath (calls : Bool) (file : InputFile) : Settled (observePath reader calls file) := by
  apply Settled.withLocals
  have hpath : Settled (ingestPath reader calls file) :=
    Settled.ite ((settled_ingestLines calls _ _).bind fun _ => (settled_pure ()).ite (settled_fail _)) (settled_fail _)
  exact hpath.bind fun _ => settled_readState.bind fun _ => settled_pure _

theorem settled_admitStreams (resource call : InputFile) : Settled (admitStreams reader resource call) :=
  (settled_observePath false resource).bind fun _ =>
    (settled_observePath true call).bind fun _ => (settled_pure ()).ite (settled_fail _)

/-- Granted its requests, reading a file ingests those of its records that belong to the stream. -/
theorem observePath_eq_ok (hsize : 0 < reader.lineMaxBytes) {calls : Bool} {file : InputFile} {m : Model}
    {health : Health} {w : World Model} :
    observePath reader calls file ⟨m, []⟩ = (.ok health, w) ↔
      Readable reader file ∧ (∀ r ∈ recordsOf reader file, r.RunIdAdmitted reader.toRecordLibrary) ∧
        health = observeAll reader.toRecordLibrary {} (recordsOf reader file) ∧
        ∃ m', forEach (ingest reader.toRecordLibrary) ((recordsOf reader file).filter (belongs calls)) ⟨m, []⟩ =
          (.ok (), ⟨m', []⟩) ∧ w = ⟨m', []⟩ := by
  rw [observePath, withLocals_eq_ok]
  constructor
  · rintro ⟨v, hrun, rfl⟩
    obtain ⟨⟨⟩, w₁, hpath, hread⟩ := run_bind_eq_ok.mp hrun
    obtain ⟨hreadable, hrecords⟩ := (ingestPath_eq_ok hsize).mp hpath
    obtain ⟨hadmitted, m', hingest, rfl⟩ := forEach_ingestRecord_eq_ok.mp hrecords
    obtain ⟨hhealth, rfl⟩ := Prod.mk.inj hread
    exact ⟨hreadable, hadmitted, (Except.ok.inj hhealth).symm, m', hingest, rfl⟩
  · rintro ⟨hreadable, hadmitted, rfl, m', hingest, rfl⟩
    have hrecords : forEach (ingestRecord reader calls) (recordsOf reader file) ⟨(m, {}), []⟩ =
        (.ok (), ⟨(m', observeAll reader.toRecordLibrary {} (recordsOf reader file)), []⟩) :=
      forEach_ingestRecord_eq_ok.mpr ⟨hadmitted, m', hingest, rfl⟩
    exact ⟨_, run_bind_eq_ok.mpr ⟨(), _, (ingestPath_eq_ok hsize).mpr ⟨hreadable, hrecords⟩, rfl⟩, rfl⟩

/-- An open model whose node array was made by doubling. -/
structure Grown (m : Model) : Prop where
  within : m.nodes.length ≤ m.nodeCapacity
  doubled : m.nodeCapacity = 0 ∨ ∃ k ≤ 15, m.nodeCapacity = initialCapacity * 2 ^ k

theorem Grown.length_le {m : Model} (h : Grown m) : m.nodes.length ≤ modelLimit := by
  have hwithin := h.within
  rcases h.doubled with hzero | ⟨k, hk, hcapacity⟩
  · omega
  · have hpow : 2 ^ k ≤ 2 ^ 15 := Nat.pow_le_pow_right (by decide) hk
    unfold initialCapacity at hcapacity
    unfold modelLimit
    omega

/-- The next capacity after one that is below the limit. -/
theorem doubled_next {capacity : ℕ} (h : capacity = 0 ∨ ∃ k ≤ 15, capacity = initialCapacity * 2 ^ k)
    (hlimit : capacity < modelLimit) :
    ∃ k ≤ 15, (if capacity = 0 then initialCapacity else capacity * 2) = initialCapacity * 2 ^ k := by
  rcases h with rfl | ⟨k, hk, rfl⟩
  · exact ⟨0, by omega, rfl⟩
  · have hless : k < 15 := by
      by_contra hfull
      obtain rfl : k = 15 := by omega
      exact absurd hlimit (by decide)
    refine ⟨k + 1, hless, ?_⟩
    rw [if_neg (Nat.mul_ne_zero (by decide) (Nat.pos_iff_ne_zero.mp (Nat.two_pow_pos k))), Nat.pow_succ, Nat.mul_assoc]

theorem Grown.ingest {m m' : Model} {r : EventRecord} (hm : Grown m) (hkind : r.recordKind ≠ .complete)
    (h : ingest lib r ⟨m, []⟩ = (.ok (), ⟨m', []⟩)) : Grown m' := by
  rw [run_ingest_nil, if_neg hkind] at h
  split at h
  · cases h
  · split at h
    · next hroom =>
      obtain ⟨-, hworld⟩ := Prod.mk.inj h
      obtain ⟨rfl, -⟩ := World.mk.inj hworld
      refine ⟨?_, hm.doubled⟩
      rw [List.length_append]
      exact hroom
    · next hfull =>
      split at h
      · cases h
      · next hlimit =>
        obtain ⟨-, hworld⟩ := Prod.mk.inj h
        obtain ⟨rfl, -⟩ := World.mk.inj hworld
        obtain ⟨k, hk, hcapacity⟩ := doubled_next hm.doubled (Nat.lt_of_not_le hlimit)
        refine ⟨?_, .inr ⟨k, hk, hcapacity⟩⟩
        have hwithin := hm.within
        change (m.nodes ++ [Node.ofRecord r]).length ≤ if m.nodeCapacity = 0 then initialCapacity else m.nodeCapacity * 2
        rw [List.length_append, List.length_singleton]
        unfold initialCapacity
        split <;> omega

/-- What the ingestion of records with a run identity leaves of a model. -/
theorem ingestAll_ok {records : List EventRecord} {m m' : Model} (hm : Grown m)
    (hrecords : ∀ r ∈ records, r.RunIdAdmitted lib ∧ r.recordKind ≠ .complete)
    (h : forEach (ingest lib) records ⟨m, []⟩ = (.ok (), ⟨m', []⟩)) :
    Grown m' ∧ m'.nodes.length = m.nodes.length + records.length ∧ (∀ r ∈ records, r.runId = m'.runId) ∧
      (m.runId = none ∨ m'.runId = m.runId) := by
  induction records generalizing m with
  | nil =>
    obtain ⟨-, hworld⟩ := Prod.mk.inj h
    obtain ⟨rfl, -⟩ := World.mk.inj hworld
    exact ⟨hm, rfl, by simp, .inr rfl⟩
  | cons r records ih =>
    obtain ⟨⟨runId, hrun, -⟩, hkind⟩ := hrecords r List.mem_cons_self
    obtain ⟨⟨⟩, ⟨m₁, outcomes⟩, hfirst, hrest⟩ := run_bind_eq_ok.mp h
    obtain rfl : outcomes = [] := (settled_ingest r).outcomes_eq_nil hfirst
    obtain ⟨hid, hold, hnodes⟩ := ingest_ok hkind hfirst
    dsimp only at hid hold hnodes
    obtain ⟨hgrown, hlength, hids, hkept⟩ :=
      ih (hm.ingest hkind hfirst) (fun s hs => hrecords s (List.mem_cons_of_mem _ hs)) hrest
    have hsame : m'.runId = r.runId := by
      rcases hkept with hnone | hkept
      · rw [hid, hrun] at hnone
        cases hnone
      · exact hkept.trans hid
    refine ⟨hgrown, ?_, ?_, ?_⟩
    · rw [hlength, hnodes, List.length_append, List.length_singleton, List.length_cons]
      omega
    · intro s hs
      rcases List.mem_cons.mp hs with rfl | hs
      · exact hsame.symm
      · exact hids s hs
    · rcases hold with hnone | hown
      · exact .inl hnone
      · exact .inr (hsame.trans hown.symm)

/-- Records of one version make a model when they are of one run and not too many. -/
theorem ingestAll_iff {records : List EventRecord}
    (hrecords : ∀ r ∈ records, Locatable r ∧ r.RunIdAdmitted lib ∧ r.recordKind ≠ .complete) :
    (∃ m, forEach (ingest lib) records ⟨{}, []⟩ = (.ok (), ⟨m, []⟩)) ↔ OneRun records ∧ records.length ≤ modelLimit := by
  constructor
  · rintro ⟨m, hrun⟩
    obtain ⟨hgrown, hlength, hids, -⟩ :=
      ingestAll_ok ⟨le_rfl, .inl rfl⟩ (fun r hr => (hrecords r hr).2) hrun
    refine ⟨fun r hr s hs => (hids r hr).trans (hids s hs).symm, ?_⟩
    have hle := hgrown.length_le
    rw [hlength] at hle
    exact (Nat.le_add_left _ _).trans hle
  · rintro ⟨hone, hlimit⟩
    have hexists : ∃ runId, (∀ r ∈ records, r.runId = some runId) ∧ (records ≠ [] → RunIdInOrder lib runId) := by
      cases records with
      | nil => exact ⟨.empty, by simp, fun hne => absurd rfl hne⟩
      | cons first rest =>
        obtain ⟨-, ⟨runId, hrun, hne, hlength⟩, -⟩ := hrecords first List.mem_cons_self
        refine ⟨runId, fun r hr => (hone r hr first List.mem_cons_self).trans hrun, fun _ => ⟨?_, hlength⟩⟩
        apply Bool.eq_false_iff.mpr
        intro hempty
        exact hne (Text.ext (Text.isEmpty_iff.mp hempty))
    obtain ⟨runId, hids, horder⟩ := hexists
    obtain ⟨⟨m, outcomes⟩, hrun, hholds⟩ := @holds_ingestAll lib runId records
      (fun r hr => ⟨(hrecords r hr).1, hids r hr, (hrecords r hr).2.2⟩) horder hlimit
    obtain rfl : outcomes = [] := hholds.granted
    exact ⟨m, hrun⟩

/-- The slot of a producer counts nothing that makes a stream unsound. -/
structure SlotSound (producer : ProducerHealth) : Prop where
  unique : producer.duplicateSequences = 0
  monotonic : producer.nonmonotonicSequences = 0
  counted : producer.attemptedCountMismatches = 0
  last : producer.recordsAfterCompletion = 0
  written : producer.writeFailed = 0

theorem writeFailed_slotAfter (k : ProducerKey) (records : List EventRecord) :
    (slotAfter k records).writeFailed = 0 ↔ ∀ r ∈ records, isWriteFailure r = false := by
  induction records using List.reverseRecOn with
  | nil => simp [slotAfter, freshSlot]
  | append_singleton records r ih =>
    rw [slotAfter_concat, List.forall_mem_append, List.forall_mem_singleton, ← ih, observeProducer]
    cases isWriteFailure r <;> simp

/-- `stream_valid` judges the records of each producer. -/
theorem streamValid_iff {records : List EventRecord} (h : ∀ r ∈ records, r.RunIdAdmitted lib) :
    streamValid (observeAll lib {} records) = true ↔
      records ≠ [] ∧ OneRun records ∧ ∀ k, ofKey k records ≠ [] → SlotSound (slotAfter k (ofKey k records)) := by
  obtain ⟨hcons, -, hlen, hinv, halloc, hwf⟩ := observeAll_spec h
  by_cases hne : records = []
  · subst hne
    apply iff_of_false
    · intro hvalid
      simp [observeAll, streamValid] at hvalid
    · exact fun hall => hall.1 rfl
  · have hslots : ∀ P : ProducerHealth → Prop, (∀ p ∈ (observeAll lib {} records).producers, P p) ↔
        ∀ k, ofKey k records ≠ [] → P (slotAfter k (ofKey k records)) := by
      intro P
      constructor
      · exact fun hall k hk => hall _ ((slot_mem_iff h _).mpr ⟨k, hk, rfl⟩)
      · intro hall p hp
        obtain ⟨k, hk, rfl⟩ := (slot_mem_iff h p).mp hp
        exact hall k hk
    obtain ⟨r, hr⟩ := List.exists_mem_of_ne_nil _ hne
    have hproducers : 0 < (observeAll lib {} records).producers.length :=
      List.length_pos_of_mem ((slot_mem_iff h _).mpr
        ⟨recordKey r, ofKey_ne_nil.mpr (List.mem_map_of_mem hr), rfl⟩)
    have hwritten : (observeAll lib {} records).producerWriteFailures = 0 ↔
        ∀ k, ofKey k records ≠ [] → (slotAfter k (ofKey k records)).writeFailed = 0 := by
      rw [hwf, List.countP_eq_zero]
      constructor
      · intro hall k _
        apply (writeFailed_slotAfter k _).mpr
        exact fun s hs => Bool.eq_false_iff.mpr (hall s (List.mem_of_mem_filter hs))
      · intro hall s hs hfailed
        have hmem : s ∈ ofKey (recordKey s) records := List.mem_filter.mpr ⟨hs, decide_eq_true rfl⟩
        have hclean := (writeFailed_slotAfter _ _).mp (hall (recordKey s) (List.ne_nil_of_mem hmem)) s hmem
        rw [hclean] at hfailed
        cases hfailed
    have hobserved : 0 < (observeAll lib {} records).recordsObserved := by
      rw [hlen]
      exact List.length_pos_iff.mpr hne
    simp only [streamValid, decide_eq_true_eq, hobserved, hproducers, hinv, halloc, hwritten, hcons.duplicates,
      hcons.nonmonotonic, hcons.mismatches, hcons.afterCompletion, List.sum_eq_zero_iff_forall_eq_nat,
      List.forall_mem_map, hslots, true_and, and_true]
    have hruns := runIds_iff h hne
    constructor
    · rintro ⟨hwrite, hdup, hnon, hmis, hafter, hone, hmixed⟩
      exact ⟨hne, hruns.mp ⟨hone, hmixed⟩, fun k hk =>
        ⟨hdup k hk, hnon k hk, hmis k hk, hafter k hk, hwrite k hk⟩⟩
    · rintro ⟨-, hone, hall⟩
      obtain ⟨hdistinct, hmixed⟩ := hruns.mpr hone
      exact ⟨fun k hk => (hall k hk).written, fun k hk => (hall k hk).unique, fun k hk => (hall k hk).monotonic,
        fun k hk => (hall k hk).counted, fun k hk => (hall k hk).last, hdistinct, hmixed⟩

/-- `producer_complete` looks for a pending EXEC record of the producer in the resource stream. -/
theorem producerComplete_iff {resource : List EventRecord} (h : ∀ r ∈ resource, r.RunIdAdmitted lib) (k : ProducerKey)
    (records : List EventRecord) :
    producerComplete (slotAfter k records) (observeAll lib {} resource) = true ↔
      ((slotAfter k records).completionRecords = 1 ∧ (slotAfter k records).writeFailed = 0 ∧
          (slotAfter k records).attemptedCountMismatches = 0) ∨
        (slotAfter k records).completionRecords = 0 ∧ ∃ later, ExecPending (ofKey k resource) later := by
  simp only [producerComplete, decide_eq_true_eq, List.any_eq_true]
  apply or_congr_right
  apply and_congr_right
  intro _
  have hown := slotKey_slotAfter k records
  constructor
  · rintro ⟨candidate, hcandidate, hpid, hcontext, hrun, hpending⟩
    obtain ⟨j, -, rfl⟩ := (slot_mem_iff h candidate).mp hcandidate
    have hkey : j = k := by
      rw [← slotKey_slotAfter j (ofKey j resource), ← hown]
      exact Prod.ext hrun (Prod.ext hpid hcontext)
    rw [hkey] at hpending
    exact (pendingExec_iff k _).mp hpending
  · rintro ⟨later, hpending⟩
    have hne : ofKey k resource ≠ [] := by
      obtain ⟨earlier, e, hsplit, -⟩ := hpending
      rw [hsplit]
      simp
    have hkey := (slotKey_slotAfter k (ofKey k resource)).trans hown.symm
    obtain ⟨hrun, hplace⟩ := Prod.mk.inj hkey
    obtain ⟨hpid, hcontext⟩ := Prod.mk.inj hplace
    exact ⟨_, (slot_mem_iff h _).mpr ⟨k, hne, rfl⟩, hpid, hcontext, hrun, (pendingExec_iff k _).mpr ⟨later, hpending⟩⟩

/-- The records of a producer end with their only receipt, which counts them, or they have none and an EXEC
record of the producer is pending in the resource stream. Their sequence numbers increase, as far as they are
available. -/
def Concludes (resource records : List EventRecord) (k : ProducerKey) : Prop :=
  ProducerComplete records ∨
    ((records.map EventRecord.sequence).filter (· ≠ 0)).Pairwise (· < ·) ∧
      (∀ r ∈ records, r.recordKind ≠ .complete) ∧ ∃ later, ExecPending (ofKey k resource) later

theorem concludes_iff {resource : List EventRecord} (h : ∀ r ∈ resource, r.RunIdAdmitted lib) (k : ProducerKey)
    (records : List EventRecord) :
    SlotSound (slotAfter k records) ∧ producerComplete (slotAfter k records) (observeAll lib {} resource) = true ↔
      Concludes resource records k := by
  rw [producerComplete_iff h, Concludes, ← slotClean_iff k, ← slotAfter_sequences k]
  constructor
  · rintro ⟨hsound, ⟨hdone, hwritten, hcounted⟩ | ⟨hnone, hpending⟩⟩
    · exact .inl ⟨hdone, hwritten, hcounted, hsound.last, hsound.unique, hsound.monotonic⟩
    · rw [(slotAfter_counts k records).2.1, List.countP_eq_zero] at hnone
      exact .inr ⟨⟨hsound.unique, hsound.monotonic⟩, fun r hr hkind => hnone r hr (decide_eq_true hkind), hpending⟩
  · rintro (hclean | ⟨⟨hunique, hmonotonic⟩, hkinds, hpending⟩)
    · exact ⟨⟨hclean.unique, hclean.monotonic, hclean.counted, hclean.last, hclean.written⟩,
        .inl ⟨hclean.completed, hclean.written, hclean.counted⟩⟩
    · obtain ⟨hnone, hcounted, hlast, hwritten⟩ := slotAfter_of_no_receipt k hkinds
      exact ⟨⟨hunique, hmonotonic, hcounted, hlast, hwritten⟩, .inr ⟨hnone, hpending⟩⟩

/-- The records of a stream are of one run, and each of its producers has concluded. -/
structure Concluded (resource stream : List EventRecord) : Prop where
  nonempty : stream ≠ []
  oneRun : OneRun stream
  producers : ∀ k, ofKey k stream ≠ [] → Concludes resource (ofKey k stream) k

theorem concluded_iff {resource stream : List EventRecord} (hresource : ∀ r ∈ resource, r.RunIdAdmitted lib)
    (hstream : ∀ r ∈ stream, r.RunIdAdmitted lib) :
    (streamValid (observeAll lib {} stream) &&
        (observeAll lib {} stream).producers.all (producerComplete · (observeAll lib {} resource))) = true ↔
      Concluded resource stream := by
  rw [Bool.and_eq_true, streamValid_iff hstream, List.all_eq_true]
  constructor
  · rintro ⟨⟨hne, hone, hsound⟩, hcomplete⟩
    refine ⟨hne, hone, fun k hk => (concludes_iff hresource k _).mp ⟨hsound k hk, ?_⟩⟩
    exact hcomplete _ ((slot_mem_iff hstream _).mpr ⟨k, hk, rfl⟩)
  · rintro ⟨hne, hone, hproducers⟩
    refine ⟨⟨hne, hone, fun k hk => ((concludes_iff hresource k _).mpr (hproducers k hk)).1⟩, fun p hp => ?_⟩
    obtain ⟨k, hk, rfl⟩ := (slot_mem_iff hstream p).mp hp
    exact ((concludes_iff hresource k _).mpr (hproducers k hk)).2

def keptRecords (resource call : List EventRecord) : List EventRecord :=
  resource.filter (belongs false) ++ call.filter (belongs true)

/-- The conditions on the records of a pair that decide on its admission. -/
structure Admissible (lib : RecordLibrary) (resource call : List EventRecord) : Prop where
  identified : ∀ r ∈ resource ++ call, r.RunIdAdmitted lib
  resourceConcluded : Concluded resource resource
  callConcluded : Concluded resource call
  oneRun : OneRun (keptRecords resource call)
  within : (keptRecords resource call).length ≤ modelLimit

theorem exists_line_of_mem_recordsOf (hsize : 0 < reader.lineMaxBytes) {file : InputFile} (hfile : Readable reader file)
    {r : EventRecord} (h : r ∈ recordsOf reader file) : ∃ text, parseLine reader text = .ok r := by
  obtain ⟨opens, openErrno, ⟨bytes, fails⟩, closes, closeErrno⟩ := file
  obtain rfl : fails = false := hfile.sound
  rw [recordsOf, recordsOfLines_eq hsize _ (Nat.lt_succ_self _)] at h
  obtain ⟨line, -, hline⟩ := List.mem_filterMap.mp h
  obtain ⟨text, -, hparse⟩ := Option.bind_eq_some_iff.mp hline
  refine ⟨text, ?_⟩
  cases hresult : parseLine reader text with
  | error failure =>
    rw [hresult] at hparse
    cases hparse
  | ok record =>
    rw [hresult] at hparse
    exact congrArg Except.ok (Option.some.inj hparse)

/-- The nodes of an admitted pair are those of its records. -/
theorem nodes_of_admitStreams {resource call : InputFile} {outcomes : List Bool} {w : World Model}
    (h : admitStreams reader resource call ⟨{}, outcomes⟩ = (.ok (), w)) :
    w.state.nodes = (keptRecords (recordsOf reader resource) (recordsOf reader call)).map Node.ofRecord := by
  obtain ⟨m₁, rh, ch, hread⟩ := read_of_admitStreams h
  rw [hread.call.nodes, hread.resource.nodes, List.nil_append, keptRecords, List.map_append]

/-- Granted its requests, the command ingests the records of a pair that go into the model, once both files are
read and the producers of both have concluded. -/
theorem admitStreams_eq_ok (hsize : 0 < reader.lineMaxBytes) {resource call : InputFile} {m : Model} {w : World Model} :
    admitStreams reader resource call ⟨m, []⟩ = (.ok (), w) ↔
      Readable reader resource ∧ Readable reader call ∧
        (∀ r ∈ recordsOf reader resource ++ recordsOf reader call, r.RunIdAdmitted reader.toRecordLibrary) ∧
        Concluded (recordsOf reader resource) (recordsOf reader resource) ∧
        Concluded (recordsOf reader resource) (recordsOf reader call) ∧
        ∃ m', forEach (ingest reader.toRecordLibrary) (keptRecords (recordsOf reader resource) (recordsOf reader call))
          ⟨m, []⟩ = (.ok (), ⟨m', []⟩) ∧ w = ⟨m', []⟩ := by
  have hcomplete : ∀ rh ch : Health, admittedStreamsAreComplete rh ch = true ↔
      (streamValid rh && rh.producers.all (producerComplete · rh)) = true ∧
        (streamValid ch && ch.producers.all (producerComplete · rh)) = true := by
    intro rh ch
    rw [admittedStreamsAreComplete_eq, streamsComplete]
    simp only [List.all_cons, List.all_nil, Bool.and_true, Bool.and_eq_true]
  rw [admitStreams]
  constructor
  · intro h
    obtain ⟨rh, w₁, hresource, h⟩ := run_bind_eq_ok.mp h
    obtain ⟨hresourceRead, hresourceIds, rfl, m₁, hfirst, rfl⟩ := (observePath_eq_ok hsize).mp hresource
    obtain ⟨ch, w₂, hcall, h⟩ := run_bind_eq_ok.mp h
    obtain ⟨hcallRead, hcallIds, rfl, m₂, hsecond, rfl⟩ := (observePath_eq_ok hsize).mp hcall
    split at h
    · next hboth =>
      obtain ⟨-, rfl⟩ := Prod.mk.inj h
      obtain ⟨hvalid, hvalid'⟩ := (hcomplete _ _).mp hboth
      exact ⟨hresourceRead, hcallRead, List.forall_mem_append.mpr ⟨hresourceIds, hcallIds⟩,
        (concluded_iff hresourceIds hresourceIds).mp hvalid, (concluded_iff hresourceIds hcallIds).mp hvalid',
        m₂, forEach_append_eq_ok.mpr ⟨_, hfirst, hsecond⟩, rfl⟩
    · cases h
  · rintro ⟨hresourceRead, hcallRead, hids, hresourceDone, hcallDone, m₂, hrun, rfl⟩
    obtain ⟨hresourceIds, hcallIds⟩ := List.forall_mem_append.mp hids
    obtain ⟨⟨m₁, outcomes⟩, hfirst, hsecond⟩ := forEach_append_eq_ok.mp hrun
    obtain rfl : outcomes = [] := (settled_forEach settled_ingest _).outcomes_eq_nil hfirst
    have hresource := (observePath_eq_ok hsize).mpr ⟨hresourceRead, hresourceIds, rfl, m₁, hfirst, rfl⟩
    have hcall := (observePath_eq_ok hsize).mpr ⟨hcallRead, hcallIds, rfl, m₂, hsecond, rfl⟩
    rw [run_bind_of_ok hresource, run_bind_of_ok hcall, if_pos]
    · rfl
    · exact (hcomplete _ _).mpr
        ⟨(concluded_iff hresourceIds hresourceIds).mpr hresourceDone, (concluded_iff hresourceIds hcallIds).mpr hcallDone⟩

/-- Granted its requests, the command admits a pair when both files are read and their records are admissible. -/
theorem admitStreams_iff (hsize : 0 < reader.lineMaxBytes) (resource call : InputFile) :
    (∃ w, admitStreams reader resource call ⟨{}, []⟩ = (.ok (), w)) ↔
      Readable reader resource ∧ Readable reader call ∧
        Admissible reader.toRecordLibrary (recordsOf reader resource) (recordsOf reader call) := by
  have hkept : ∀ r ∈ keptRecords (recordsOf reader resource) (recordsOf reader call), ∃ file ∈ [resource, call],
      r ∈ recordsOf reader file ∧ r.recordKind ≠ .complete := by
    intro r hr
    rcases List.mem_append.mp hr with hr | hr
    · exact ⟨resource, by simp, List.mem_of_mem_filter hr, belongs_ne_complete (List.mem_filter.mp hr).2⟩
    · exact ⟨call, by simp, List.mem_of_mem_filter hr, belongs_ne_complete (List.mem_filter.mp hr).2⟩
  have hmodel : ∀ (_ : Readable reader resource) (_ : Readable reader call)
      (_ : ∀ r ∈ recordsOf reader resource ++ recordsOf reader call, r.RunIdAdmitted reader.toRecordLibrary),
      (∃ m, forEach (ingest reader.toRecordLibrary) (keptRecords (recordsOf reader resource) (recordsOf reader call))
          ⟨{}, []⟩ = (.ok (), ⟨m, []⟩)) ↔
        OneRun (keptRecords (recordsOf reader resource) (recordsOf reader call)) ∧
          (keptRecords (recordsOf reader resource) (recordsOf reader call)).length ≤ modelLimit := by
    intro hresource hcall hids
    apply ingestAll_iff
    intro r hr
    obtain ⟨file, hfile, hmem, hkind⟩ := hkept r hr
    rcases List.mem_pair.mp hfile with rfl | rfl
    · obtain ⟨text, hparse⟩ := exists_line_of_mem_recordsOf hsize hresource hmem
      exact ⟨locatable_of_parseLine hparse hkind, hids r (List.mem_append_left _ hmem), hkind⟩
    · obtain ⟨text, hparse⟩ := exists_line_of_mem_recordsOf hsize hcall hmem
      exact ⟨locatable_of_parseLine hparse hkind, hids r (List.mem_append_right _ hmem), hkind⟩
  constructor
  · rintro ⟨w, hrun⟩
    obtain ⟨hresource, hcall, hids, hdone, hdone', m, hingest, -⟩ := (admitStreams_eq_ok hsize).mp hrun
    obtain ⟨hone, hwithin⟩ := (hmodel hresource hcall hids).mp ⟨m, hingest⟩
    exact ⟨hresource, hcall, hids, hdone, hdone', hone, hwithin⟩
  · rintro ⟨hresource, hcall, hadmissible⟩
    obtain ⟨m, hingest⟩ := (hmodel hresource hcall hadmissible.identified).mpr ⟨hadmissible.oneRun, hadmissible.within⟩
    exact ⟨_, (admitStreams_eq_ok hsize).mpr ⟨hresource, hcall, hadmissible.identified, hadmissible.resourceConcluded,
      hadmissible.callConcluded, m, hingest, rfl⟩⟩

/-- A pair of files can be admitted exactly when both are read and their records are admissible. -/
theorem complete_iff_admissible (hsize : 0 < reader.lineMaxBytes) (resource call : InputFile) :
    Complete reader {} resource call ↔
      Readable reader resource ∧ Readable reader call ∧
        Admissible reader.toRecordLibrary (recordsOf reader resource) (recordsOf reader call) := by
  rw [← admitStreams_iff hsize]
  constructor
  · rintro ⟨outcomes, hok⟩
    obtain ⟨w, hrun⟩ := exists_of_fst_eq hok
    exact ⟨_, settled_admitStreams resource call _ _ _ _ hrun⟩
  · rintro ⟨w, hrun⟩
    exact ⟨[], congrArg Prod.fst hrun⟩

/-- A program whose stream was cut off after an attempt to execute another one. -/
theorem complete_iff_admissible_cutResource :
    Readable .standard cutResource ∧ Readable .standard ownCall ∧
      Admissible .standard (recordsOf .standard cutResource) (recordsOf .standard ownCall) :=
  (complete_iff_admissible (by decide) cutResource ownCall).mp ⟨[], by decide +kernel⟩

/-- A line as a producer writes it, or one that another program left in the file. -/
inductive WrittenLine (lib : RecordLibrary)
  | record (header : Header lib) (payload : Payload) (terminator : Terminator)
  | foreign (text : Text)

def WrittenLine.text : WrittenLine lib → Text
  | record header payload terminator => writeLine header payload terminator
  | foreign text => text

def WrittenLine.written : WrittenLine lib → Option EventRecord
  | record header payload _ => some (toRecord header payload)
  | foreign _ => none

/-- The line fits the buffer. A foreign line is a single line that is not taken for one of the reader's. -/
structure WrittenLine.Fits (size : ℕ) (line : WrittenLine lib) : Prop where
  length : line.text.length < size
  ends : ∃ body, line.text.bytes = body ++ [newline] ∧ newline ∉ body
  foreign : line.written = none → lineIsOurs line.text = false

def writtenFile (lines : List (WrittenLine lib)) : InputFile where
  stream := ⟨lines.flatMap fun line => line.text.bytes, false⟩

/-- A record line ends with its only newline. -/
theorem exists_body_writeLine (header : Header lib) (payload : Payload) (terminator : Terminator) :
    ∃ body, (writeLine header payload terminator).bytes = body ++ [newline] ∧ newline ∉ body := by
  have hclean : newline ∉ (joinFields (recordFields header payload)).bytes := by
    intro hmem
    rcases mem_intercalate hmem with htab | ⟨bytes, hbytes, hmem⟩
    · revert htab
      decide
    · obtain ⟨t, ht, rfl⟩ := List.mem_map.mp hbytes
      exact separate_recordFields header payload t ht newline hmem (.inr (.inl rfl))
  rw [bytes_writeLine]
  cases terminator with
  | lf => exact ⟨_, rfl, hclean⟩
  | crlf =>
    have hcrlf : Terminator.crlf.text.bytes = [carriageReturn] ++ [newline] := by decide
    rw [hcrlf, ← List.append_assoc]
    refine ⟨_, rfl, fun hmem => ?_⟩
    rcases List.mem_append.mp hmem with hmem | hmem
    · exact hclean hmem
    · revert hmem
      decide

/-- Whatever stands in a written line is read as what was written. -/
theorem WrittenLine.Fits.read {line : WrittenLine reader.toRecordLibrary} (h : line.Fits reader.lineMaxBytes) :
    IsRead reader line.text.bytes ∧ recordOn reader line.text.bytes = line.written := by
  have htext : lineText reader.lineMaxBytes line.text.bytes = some line.text := dif_pos ⟨line.text.nulFree, h.length⟩
  rw [isRead_iff htext, recordOn_of_text htext]
  cases line with
  | record header payload terminator =>
    have hcount : (header.fields ++ payload.fields).length ≤ maxFields := by
      cases payload <;> simp [Header.fields, Payload.fields, maxFields]
    have hparse : parseLine reader (writeLine header payload terminator) = .ok (toRecord header payload) := by
      refine parseLine_eq_ok.mpr ⟨lineIsOurs_writeLine header payload terminator, _, _,
        lineFields_writeLine header payload terminator, hcount, ?_⟩
      rw [parseFields, parseMetadata_written]
      exact parsePayload_written header payload
    rw [WrittenLine.text, hparse]
    refine ⟨fun failure hfailure => ?_, rfl⟩
    cases hfailure
  | foreign text =>
    have hparse : parseLine reader text = .error .other := if_neg (ne_true_of_eq_false (h.foreign rfl))
    rw [WrittenLine.text, hparse]
    exact ⟨fun failure hfailure => (Except.error.inj hfailure).symm, rfl⟩

/-- Cutting a written file into lines undoes the writing. -/
theorem lines_writtenFile {size : ℕ} {written : List (WrittenLine lib)} (h : ∀ line ∈ written, line.Fits size) :
    lines newline (writtenFile written).stream.bytes = written.map fun line => line.text.bytes := by
  induction written with
  | nil => rfl
  | cons line written ih =>
    obtain ⟨body, hbody, hclean⟩ := (h line List.mem_cons_self).ends
    have hrest := ih fun later hlater => h later (List.mem_cons_of_mem _ hlater)
    have hbytes : (writtenFile (line :: written)).stream.bytes =
        body ++ newline :: (writtenFile written).stream.bytes := by
      change line.text.bytes ++ (writtenFile written).stream.bytes = _
      rw [hbody, List.append_assoc, List.singleton_append]
    rw [hbytes, lines_append_cons hclean, hrest, List.map_cons, hbody]

theorem readable_writtenFile (hsize : 0 < reader.lineMaxBytes) {written : List (WrittenLine reader.toRecordLibrary)}
    (h : ∀ line ∈ written, line.Fits reader.lineMaxBytes) :
    Readable reader (writtenFile written) ∧
      recordsOf reader (writtenFile written) = written.filterMap WrittenLine.written := by
  have hlines := lines_writtenFile h
  constructor
  · refine ⟨rfl, rfl, fun bytes hbytes => ?_, rfl⟩
    rw [hlines] at hbytes
    obtain ⟨line, hline, rfl⟩ := List.mem_map.mp hbytes
    exact (h line hline).read.1
  · rw [recordsOf]
    refine (recordsOfLines_eq hsize _ (Nat.lt_succ_self _)).trans ?_
    rw [hlines, List.filterMap_map]
    exact List.filterMap_congr fun line hline => (h line hline).read.2

/-- Files of written lines are read back as the records that were written: granted its requests, the command
admits the pair exactly when they are admissible, and whenever it does the nodes of the model are theirs. -/
theorem admission_of_written (hsize : 0 < reader.lineMaxBytes) {resource call : List (WrittenLine reader.toRecordLibrary)}
    (hresource : ∀ line ∈ resource, line.Fits reader.lineMaxBytes) (hcall : ∀ line ∈ call, line.Fits reader.lineMaxBytes) :
    (∀ written ∈ [resource, call], Readable reader (writtenFile written) ∧
      recordsOf reader (writtenFile written) = written.filterMap WrittenLine.written) ∧
    ((∃ w, admitStreams reader (writtenFile resource) (writtenFile call) ⟨{}, []⟩ = (.ok (), w)) ↔
      Admissible reader.toRecordLibrary (resource.filterMap WrittenLine.written) (call.filterMap WrittenLine.written)) ∧
    ∀ outcomes w, admitStreams reader (writtenFile resource) (writtenFile call) ⟨{}, outcomes⟩ = (.ok (), w) →
      w.state.nodes = (keptRecords (resource.filterMap WrittenLine.written)
        (call.filterMap WrittenLine.written)).map Node.ofRecord := by
  obtain ⟨hresourceRead, hresourceRecords⟩ := readable_writtenFile hsize hresource
  obtain ⟨hcallRead, hcallRecords⟩ := readable_writtenFile hsize hcall
  refine ⟨List.forall_mem_cons.mpr ⟨⟨hresourceRead, hresourceRecords⟩, List.forall_mem_singleton.mpr
    ⟨hcallRead, hcallRecords⟩⟩, ?_⟩
  rw [← hresourceRecords, ← hcallRecords]
  constructor
  · rw [admitStreams_iff hsize, and_iff_right hresourceRead, and_iff_right hcallRead]
  · exact fun outcomes w hrun => nodes_of_admitStreams hrun

/-- A line of another program, and the receipt of a producer that attempted nothing. -/
def quietLines : List (WrittenLine RecordReader.standard.toRecordLibrary) :=
  [.foreign (.ofString "ready\n"),
    .record ⟨.ofString "a", ⟨1, by decide⟩, ⟨1, by decide⟩, ⟨2, by decide⟩, none, none, by decide +kernel⟩
      (.complete ⟨0, by decide⟩ ⟨0, by decide⟩) .lf]

theorem admission_of_written_quietLines :
    recordsOf .standard (writtenFile quietLines) = quietLines.filterMap WrittenLine.written ∧
      Admissible .standard (quietLines.filterMap WrittenLine.written) (quietLines.filterMap WrittenLine.written) := by
  have hfits : ∀ line ∈ quietLines, line.Fits RecordReader.standard.lineMaxBytes := by
    intro line hline
    simp only [quietLines, List.mem_cons, List.not_mem_nil, or_false] at hline
    rcases hline with rfl | rfl
    · exact ⟨by decide +kernel, ⟨(Text.ofString "ready").bytes, by decide +kernel, by decide +kernel⟩, fun _ => by decide +kernel⟩
    · exact ⟨by decide +kernel, exists_body_writeLine _ _ _, fun h => by cases h⟩
  obtain ⟨hread, hadmitted, -⟩ := admission_of_written (by decide) hfits hfits
  exact ⟨(hread quietLines List.mem_cons_self).2, hadmitted.mp (exists_of_fst_eq (by decide +kernel))⟩

end ToolEvent.ModelInput
