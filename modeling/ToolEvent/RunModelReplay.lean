import ToolEvent.EventFields
import ToolEvent.RunModelFinish

/-!
# The replay of nodes

A model keeps a record as a node of owned texts and replays the record it makes of the
node again. Absent texts become empty on the way, which the lifecycle does not
distinguish for a record that was parsed.
-/

namespace ToolEvent.Lifecycle

open Fallible World

/-- Two records agree in everything that the lifecycle copies of a record's place. -/
structure SamePlace (r s : EventRecord) : Prop where
  recordKind : r.recordKind = s.recordKind
  pid : r.pid = s.pid
  contextId : r.contextId = s.contextId
  sequence : r.sequence = s.sequence
  monotonicNs : r.monotonicNs = s.monotonicNs
  timed : r.monotonicNsAvailable ≠ 0 ↔ s.monotonicNsAvailable ≠ 0
  lineNumber : r.lineNumber = s.lineNumber
  functionName : orUnknown r.functionName = orUnknown s.functionName
  fileName : orUnknown r.fileName = orUnknown s.fileName

structure SameResource (r s : EventRecord) : Prop extends SamePlace r s where
  resourceKind : r.resourceKind = s.resourceKind
  resourceClass : r.resourceClass = s.resourceClass
  resourceId : r.resourceId = s.resourceId
  absent : isAbsent r.relatedId = isAbsent s.relatedId
  relatedId : r.relatedId.getD .empty = s.relatedId.getD .empty
  size : r.size = s.size

variable {r s : EventRecord}

theorem SameResource.newEntry (h : SameResource r s) (resourceId : Text) :
    newEntry r resourceId = newEntry s resourceId := by
  simp only [Lifecycle.newEntry, recordClass, h.recordKind, h.pid, h.contextId, h.sequence,
    h.monotonicNs, h.timed, h.lineNumber, h.functionName, h.fileName, h.resourceClass, h.size]

theorem SameResource.newFinding (h : SameResource r s) (kind : FindingKind) (previous : Option Entry) :
    newFinding kind r previous = newFinding kind s previous := by
  simp only [Lifecycle.newFinding, recordClass, recordId, h.recordKind, h.pid, h.contextId, h.sequence,
    h.monotonicNs, h.timed, h.lineNumber, h.functionName, h.fileName, h.resourceClass, h.resourceId]

theorem SamePlace.closedBy (h : SamePlace r s) : Entry.closedBy r = Entry.closedBy s := by
  funext entry
  simp only [Entry.closedBy, h.contextId, h.sequence, h.monotonicNs, h.timed, h.lineNumber,
    h.functionName, h.fileName]

theorem SameResource.addEntry (h : SameResource r s) (resourceId : Text) :
    addEntry r resourceId = addEntry s resourceId := by
  simp only [Lifecycle.addEntry, h.newEntry]

theorem SameResource.addFinding (h : SameResource r s) (kind : FindingKind) (previous : Option Entry) :
    addFinding kind r previous = addFinding kind s previous := by
  simp only [Lifecycle.addFinding, h.newFinding]

theorem SameResource.releaseEntry (h : SameResource r s) : releaseEntry r = releaseEntry s := by
  simp only [Lifecycle.releaseEntry, recordClass, recordId, h.pid, h.resourceClass, h.resourceId,
    h.closedBy, h.addFinding]
  rfl

theorem SameResource.ingestResource (h : SameResource r s) : ingestResource r = ingestResource s := by
  simp only [Lifecycle.ingestResource, recordClass, recordId, h.pid, h.resourceClass, h.resourceId,
    h.resourceKind, h.absent, h.relatedId, h.addFinding, h.addEntry, h.releaseEntry]
  rfl

end ToolEvent.Lifecycle

namespace ToolEvent.RunModel

open Fallible World Lifecycle

variable {lib : RecordLibrary}

structure Locatable (record : EventRecord) : Prop where
  version : record.version = logVersion
  functionName : record.functionName ≠ none
  fileName : record.fileName ≠ none
  identified : record.recordKind = .resource →
    record.resourceClass ≠ none ∧ record.resourceId ≠ none

def replayed (record : EventRecord) : EventRecord := recordFromNode (Node.ofRecord record)

theorem samePlace_replayed {r : EventRecord} (h : Locatable r) : SamePlace (replayed r) r where
  recordKind := rfl
  pid := rfl
  contextId := rfl
  sequence := rfl
  monotonicNs := rfl
  timed := by
    by_cases htimed : r.monotonicNsAvailable = 0 <;> simp [replayed, recordFromNode, Node.ofRecord, htimed]
  lineNumber := rfl
  functionName := by
    obtain ⟨name, hname⟩ := Option.ne_none_iff_exists'.mp h.functionName
    simp [replayed, recordFromNode, Node.ofRecord, hname]
  fileName := by
    obtain ⟨name, hname⟩ := Option.ne_none_iff_exists'.mp h.fileName
    simp [replayed, recordFromNode, Node.ofRecord, hname]

theorem relatedId_replayed (r : EventRecord) :
    isAbsent (replayed r).relatedId = isAbsent r.relatedId ∧
      (replayed r).relatedId.getD .empty = r.relatedId.getD .empty := by
  have hrelated : (replayed r).relatedId = some (r.relatedId.getD .empty) := rfl
  cases hown : r.relatedId <;> simp [hrelated, hown, isAbsent, Text.isEmpty, Text.empty]

theorem ingestResource_replayed {r : EventRecord} (h : Locatable r) (hkind : r.recordKind = .resource) :
    ingestResource (replayed r) = ingestResource r := by
  obtain ⟨hclass, hid⟩ := h.identified hkind
  obtain ⟨resourceClass, hclass⟩ := Option.ne_none_iff_exists'.mp hclass
  obtain ⟨resourceId, hid⟩ := Option.ne_none_iff_exists'.mp hid
  apply SameResource.ingestResource
  refine ⟨samePlace_replayed h, rfl, ?_, ?_, ?_, ?_, rfl⟩
  · simp [replayed, recordFromNode, Node.ofRecord, hkind, hclass]
  · simp [replayed, recordFromNode, Node.ofRecord, hid]
  · exact (relatedId_replayed r).1
  · exact (relatedId_replayed r).2

theorem ingestFd_replayed {r : EventRecord} (h : Locatable r) :
    ingestFd (replayed r) = ingestFd r := by
  apply SameResource.ingestResource
  obtain ⟨hkind, hpid, hcontext, hsequence, hns, htimed, hline, hfunction, hfile⟩ := samePlace_replayed h
  exact ⟨⟨hkind, hpid, hcontext, hsequence, hns, htimed, hline, hfunction, hfile⟩,
    rfl, rfl, rfl, rfl, rfl, rfl⟩

theorem sameResource_allocation {r : EventRecord} (h : Locatable r) (kind : ResourceKind)
    (resourceId : Option Text) :
    SameResource (normalizedAllocation (replayed r) kind resourceId)
      (normalizedAllocation r kind resourceId) := by
  obtain ⟨hkind, hpid, hcontext, hsequence, hns, htimed, hline, hfunction, hfile⟩ := samePlace_replayed h
  exact ⟨⟨hkind, hpid, hcontext, hsequence, hns, htimed, hline, hfunction, hfile⟩,
    rfl, rfl, rfl, rfl, rfl, rfl⟩

/-- A pointer text is null as a node's text if it is in the record, and the same text if not. -/
theorem pointer_replayed (hempty : lib.pointerIsNull (some .empty) = true) (ptr : Option Text) :
    lib.pointerIsNull (some (ptr.getD .empty)) = lib.pointerIsNull ptr ∧
      (lib.pointerIsNull ptr = false → some (ptr.getD .empty) = ptr) := by
  cases ptr with
  | none => simp [hempty, lib.pointerIsNull_none]
  | some ptr => simp

theorem ingestAllocation_replayed (hempty : lib.pointerIsNull (some .empty) = true) {r : EventRecord}
    (h : Locatable r) : ingestAllocation lib (replayed r) = ingestAllocation lib r := by
  obtain ⟨hptr, hptrText⟩ := pointer_replayed hempty r.ptr
  obtain ⟨hnew, hnewText⟩ := pointer_replayed hempty r.newPtr
  have hp : (replayed r).ptr = some (r.ptr.getD .empty) := rfl
  have hn : (replayed r).newPtr = some (r.newPtr.getD .empty) := rfl
  have hkind : (replayed r).allocKind = r.allocKind := rfl
  have hpid : (replayed r).pid = r.pid := rfl
  have hresource := fun kind resourceId => (sameResource_allocation h kind resourceId).ingestResource
  have hfinding := fun kind resourceId => (sameResource_allocation h kind resourceId).addFinding
  unfold ingestAllocation
  rw [hkind, hp, hn, hptr, hnew, hpid]
  cases hnullPtr : lib.pointerIsNull r.ptr <;> cases hnullNew : lib.pointerIsNull r.newPtr <;>
    simp only [hnullPtr, hnullNew, hptrText, hnewText, hresource, hfinding, Option.getD_some,
      Bool.false_eq_true, if_false, if_true]

theorem sameResource_inherited {r : EventRecord} (h : Locatable r) (entry : Entry) :
    SameResource (inheritedRecord (replayed r) entry) (inheritedRecord r entry) := by
  obtain ⟨-, -, hcontext, hsequence, hns, htimed, hline, hfunction, hfile⟩ := samePlace_replayed h
  exact ⟨⟨rfl, rfl, hcontext, hsequence, hns, htimed, hline, hfunction, hfile⟩,
    rfl, rfl, rfl, (relatedId_replayed r).1, (relatedId_replayed r).2, rfl⟩

theorem ingestFork_replayed {r : EventRecord} (h : Locatable r) : ingestFork (replayed r) = ingestFork r := by
  have hpid : (replayed r).pid = r.pid := rfl
  have hchild : (replayed r).childPid = r.childPid := rfl
  have hentry : forkEntry (replayed r) = forkEntry r := by
    funext index
    simp only [forkEntry, hpid, hchild, (sameResource_inherited h _).addEntry]
  simp only [ingestFork, isForkReplayed, hpid, hchild, hentry]
  rfl

theorem sameResource_exec {r : EventRecord} (h : Locatable r) :
    SameResource (normalizedExec (replayed r)) (normalizedExec r) := by
  obtain ⟨hkind, hpid, hcontext, hsequence, hns, htimed, hline, hfunction, hfile⟩ := samePlace_replayed h
  exact ⟨⟨hkind, hpid, hcontext, hsequence, hns, htimed, hline, hfunction, hfile⟩,
    rfl, rfl, rfl, (relatedId_replayed r).1, (relatedId_replayed r).2, rfl⟩

theorem ingestExec_replayed {r : EventRecord} (h : Locatable r) : ingestExec (replayed r) = ingestExec r := by
  have hpid : (replayed r).pid = r.pid := rfl
  have hfd : (replayed r).fd = r.fd := rfl
  have hcloexec : (replayed r).cloexec = 0 ↔ r.cloexec = 0 := by
    by_cases hown : r.cloexec = 0 <;> simp [replayed, recordFromNode, Node.ofRecord, hown]
  have hsame := sameResource_exec h
  simp only [ingestExec, hpid, hfd, hcloexec, hsame.addFinding, hsame.releaseEntry]

/-- Replaying the record made of a node is replaying the record the node was made of. -/
theorem ingest_replayed (hempty : lib.pointerIsNull (some .empty) = true) {r : EventRecord}
    (h : Locatable r) {runId : Text} (hrun : r.runId = some runId) :
    Lifecycle.ingest lib (replayed r) = Lifecycle.ingest lib r := by
  have hrunId : (replayed r).runId = some runId := by
    simp [replayed, recordFromNode, Node.ofRecord, hrun]
  have hversion : (replayed r).version = r.version := h.version.symm
  have hrecordKind : (replayed r).recordKind = r.recordKind := rfl
  have hreplay : ingestKind lib (replayed r) = ingestKind lib r := by
    unfold ingestKind
    rw [hrecordKind]
    cases hown : r.recordKind with
    | resource => exact ingestResource_replayed h hown
    | fd => exact ingestFd_replayed h
    | alloc => exact ingestAllocation_replayed hempty h
    | fork => exact ingestFork_replayed h
    | exec => exact ingestExec_replayed h
    | execFail | spawn | call | complete => rfl
  have hadmitted : ∀ m : Lifecycle.Model,
      Lifecycle.isAdmitted lib m (replayed r) = Lifecycle.isAdmitted lib m r := by
    intro m
    simp only [Lifecycle.isAdmitted, hrunId, hrun, hversion]
  funext w
  simp only [Lifecycle.ingest, hadmitted, hreplay, hrunId, hrun]

theorem locatable_of_parsePayload {reader : RecordReader} {magic : Text} {fields : List Text} {payload : ℕ}
    {record record' : EventRecord} (h : parsePayload reader magic fields payload record = .ok record') :
    record'.version = record.version ∧
      (record'.recordKind ≠ .complete → record'.functionName ≠ none ∧ record'.fileName ≠ none) ∧
      (record'.recordKind = .resource → record'.resourceClass ≠ none ∧ record'.resourceId ≠ none) := by
  unfold parsePayload at h
  split at h
  case h_10 => cases h
  all_goals simp only [bind_eq_ok, orMalformed_eq_ok, failIf_eq_ok] at h
  case h_1 | h_2 | h_5 | h_8 =>
    obtain ⟨_, _, _, _, _, _, _, _, h⟩ := h
    cases h
    simp
  case h_3 | h_4 | h_7 =>
    obtain ⟨_, _, _, _, _, _, h⟩ := h
    cases h
    simp
  case h_6 =>
    obtain ⟨_, _, _, _, h⟩ := h
    cases h
    simp
  case h_9 =>
    obtain ⟨_, _, _, _, _, _, _, _, _, _, h⟩ := h
    cases h
    simp

/-- A parsed record other than a receipt says where it was recorded. -/
theorem locatable_of_parseLine {reader : RecordReader} {line : Text} {record : EventRecord}
    (h : parseLine reader line = .ok record) (hkind : record.recordKind ≠ .complete) :
    Locatable record := by
  obtain ⟨-, magic, fields, -, -, hparse⟩ := parseLine_eq_ok.mp h
  simp only [parseFields, bind_eq_ok] at hparse
  obtain ⟨⟨header, payload⟩, hmetadata, parsed, hpayload, hunescape⟩ := hparse
  obtain rfl := Except.ok.inj hunescape
  obtain ⟨hversion, hplace, hidentified⟩ := locatable_of_parsePayload hpayload
  simp only [parseMetadata, bind_eq_ok, orMalformed_eq_ok, failIf_eq_ok] at hmetadata
  obtain ⟨version, -, -, hfive, -, -, _, -, _, -, _, -, _, -, _, -, hheader⟩ := hmetadata
  cases hheader
  have hmap : ∀ t : Option Text, t ≠ none → t.map reader.unescapeField ≠ none := by
    intro t ht
    simpa using ht
  obtain ⟨hfunction, hfile⟩ := hplace hkind
  refine ⟨hversion.trans (not_not.mp hfive), hmap _ hfunction, hmap _ hfile, fun hresource => ?_⟩
  obtain ⟨hclass, hid⟩ := hidentified hresource
  exact ⟨hmap _ hclass, hmap _ hid⟩

/-- Ingest records into a model one after the other, and finish it. -/
def ingestAndFinish (lib : RecordLibrary) (records : List EventRecord) : Routine Model Unit := do
  forEach (ingest lib) records
  finish lib

/-- The same with a lifecycle model, directly. -/
def replayAndFinish (lib : RecordLibrary) (records : List EventRecord) : Routine Lifecycle.Model Unit := do
  forEach (Lifecycle.ingest lib) records
  Lifecycle.finish

/-- A run identity passes the checks of both ingestions. -/
def RunIdInOrder (lib : RecordLibrary) (runId : Text) : Prop :=
  runId.isEmpty = false ∧ runId.length ≤ lib.runIdMaxBytes

/-- A model in which records of a run were ingested without failing allocations. -/
structure Holds (runId : Text) (records : List EventRecord) (w : World Model) : Prop where
  granted : w.outcomes = []
  nodes : w.state.nodes = records.map Node.ofRecord
  within : w.state.nodes.length ≤ w.state.nodeCapacity
  runId : w.state.runId = none ∨ w.state.runId = some runId
  finished : w.state.finished = false

theorem run_ingestRunId_nil {m : Model} {runId : Text} (h : m.runId = none ∨ m.runId = some runId) :
    ingestRunId runId ⟨m, []⟩ = (.ok (), ⟨{ m with runId := some runId }, []⟩) := by
  unfold ingestRunId
  rw [run_readState_bind]
  rcases h with h | h
  · simp only [h]
    rfl
  · simp only [h, if_true]
    rw [← h]
    rfl

theorem Holds.ingest {runId : Text} {records : List EventRecord} {w : World Model} {r : EventRecord}
    (h : Holds runId records w) (hrun : r.runId = some runId) (hid : RunIdInOrder lib runId)
    (hversion : r.version = logVersion) (hkind : r.recordKind ≠ .complete)
    (hlimit : records.length < modelLimit) :
    ∃ w', ingest lib r w = (.ok (), w') ∧ Holds runId (records ++ [r]) w' := by
  obtain ⟨m, outcomes⟩ := w
  obtain ⟨hgranted, hnodes, hwithin, hown, hfinished⟩ := h
  dsimp only at hgranted hnodes hwithin hown hfinished
  subst hgranted
  have hcount : m.nodes.length < modelLimit := by simpa [hnodes] using hlimit
  obtain ⟨capacity, hreserve⟩ := reserve_total hcount hwithin { m with runId := some runId }
  have hroom := (reserve_ok hreserve).2.1 hwithin
  have hadmitted : isAdmitted lib m r = true := by
    simp [isAdmitted, hrun, hfinished, hversion, hid.1, hid.2]
  unfold RunModel.ingest
  rw [run_readState_bind, if_pos hadmitted, hrun, Option.getD_some,
    run_bind_of_ok (run_ingestRunId_nil hown), if_neg hkind, run_bind_of_ok hreserve]
  refine ⟨_, rfl, rfl, ?_, ?_, .inr rfl, hfinished⟩
  · simp [hnodes]
  · simp only [List.length_append, List.length_singleton]
    omega

theorem holds_ingestAll {runId : Text} {records : List EventRecord}
    (hrecords : ∀ r ∈ records, Locatable r ∧ r.runId = some runId ∧ r.recordKind ≠ .complete)
    (hid : records ≠ [] → RunIdInOrder lib runId) (hlimit : records.length ≤ modelLimit) :
    ∃ w, forEach (ingest lib) records ⟨{}, []⟩ = (.ok (), w) ∧ Holds runId records w := by
  apply forEach_run (ingest lib) records (fun pre w => Holds runId pre w)
  · rintro pre r post w rfl hw
    obtain ⟨hlocatable, hrun, hkind⟩ := hrecords r (by simp)
    rw [List.length_append, List.length_cons] at hlimit
    exact hw.ingest hrun (hid (by simp)) hlocatable.version hkind (by omega)
  · exact ⟨rfl, rfl, le_rfl, .inl rfl, rfl⟩

/-- No record of the run is ingested when its identity is not in order. -/
theorem ingest_of_not_runIdInOrder {runId : Text} {r : EventRecord} (hrun : r.runId = some runId)
    (hid : ¬ RunIdInOrder lib runId) (w : World Model) (v : World Lifecycle.Model) :
    (ingest lib r w).1 ≠ .ok () ∧ (Lifecycle.ingest lib r v).1 ≠ .ok () := by
  have hmodel : ¬ isAdmitted lib w.state r = true := by
    simp only [isAdmitted, hrun, decide_eq_true_eq]
    exact fun h => hid ⟨by simpa using h.2.2.1, h.2.2.2⟩
  have hlifecycle : ¬ Lifecycle.isAdmitted lib v.state r = true := by
    simp only [Lifecycle.isAdmitted, hrun, decide_eq_true_eq]
    exact fun h => hid ⟨by simpa using h.2.1, h.2.2.1⟩
  constructor
  · rw [RunModel.ingest, run_readState_bind, if_neg hmodel]
    simp
  · rw [Lifecycle.ingest, run_readState_bind, if_neg hlifecycle]
    simp

/-- The lifecycle of a model that parsed records were ingested into is the one they leave when
they are replayed directly. -/
theorem lifecycle_iff_replayed {reader : RecordReader} (hempty : reader.pointerIsNull (some .empty) = true)
    {records : List EventRecord} {runId : Text}
    (hparsed : ∀ r ∈ records, ∃ line, parseLine reader line = .ok r)
    (hrun : ∀ r ∈ records, r.runId = some runId)
    (hkinds : ∀ r ∈ records, r.recordKind ∉ [RecordKind.call, .complete, .spawn])
    (hnodes : records.length ≤ modelLimit)
    (hedges : (edgesOf reader.toRecordLibrary (records.map Node.ofRecord)).length ≤ modelLimit)
    (lifecycle : Lifecycle.Model) :
    (∃ w, ingestAndFinish reader.toRecordLibrary records ⟨{}, []⟩ = (.ok (), w) ∧
        w.state.lifecycle = some lifecycle) ↔
      ∃ v, replayAndFinish reader.toRecordLibrary records ⟨{}, []⟩ = (.ok (), v) ∧ v.state = lifecycle := by
  have hrecords : ∀ r ∈ records, Locatable r ∧ r.runId = some runId ∧ r.recordKind ≠ .complete := by
    intro r hr
    obtain ⟨line, hline⟩ := hparsed r hr
    have hkind : r.recordKind ≠ .complete := fun h => hkinds r hr (by simp [h])
    exact ⟨locatable_of_parseLine hline hkind, hrun r hr, hkind⟩
  by_cases hid : records ≠ [] → RunIdInOrder reader.toRecordLibrary runId
  · obtain ⟨⟨m, outcomes⟩, hingest, hholds⟩ := holds_ingestAll hrecords hid hnodes
    obtain rfl : outcomes = [] := hholds.granted
    have hstored : m.nodes = records.map Node.ofRecord := hholds.nodes
    have hreplay : replayNodes reader.toRecordLibrary m.nodes =
        replayAndFinish reader.toRecordLibrary records := by
      have hall : ∀ node ∈ records.map Node.ofRecord, isReplayed node = true := by
        intro node hnode
        obtain ⟨r, hr, rfl⟩ := List.mem_map.mp hnode
        have hkind := hkinds r hr
        simp only [List.mem_cons, List.not_mem_nil, or_false, not_or] at hkind
        simp [isReplayed, Node.ofRecord, hkind.1, hkind.2.2]
      rw [hstored, replayNodes, List.filter_eq_self.mpr hall, forEach_map, replayAndFinish]
      congr 1
      apply forEach_congr
      intro r hr
      exact ingest_replayed hempty (hrecords r hr).1 (hrun r hr)
    rw [← hstored] at hedges
    unfold ingestAndFinish
    rw [run_bind_of_ok hingest, finish_iff_replayed _ hholds.finished hedges, hreplay]
  · rw [Classical.not_imp] at hid
    obtain ⟨hne, hid⟩ := hid
    obtain ⟨r, rest, rfl⟩ := List.exists_cons_of_ne_nil hne
    obtain ⟨hmodel, hdirect⟩ := ingest_of_not_runIdInOrder (hrun r List.mem_cons_self) hid
      ⟨{}, []⟩ ⟨{}, []⟩
    constructor
    · rintro ⟨w, hingest, -⟩
      obtain ⟨⟨⟩, w₁, hloop, -⟩ := run_bind_eq_ok.mp hingest
      obtain ⟨⟨⟩, w₂, hfirst, -⟩ := run_bind_eq_ok.mp hloop
      exact absurd (congrArg Prod.fst hfirst) hmodel
    · rintro ⟨v, hreplay, -⟩
      obtain ⟨⟨⟩, w₁, hloop, -⟩ := run_bind_eq_ok.mp hreplay
      obtain ⟨⟨⟩, w₂, hfirst, -⟩ := run_bind_eq_ok.mp hloop
      exact absurd (congrArg Prod.fst hfirst) hdirect

/-- Records without a new pointer, without a related resource, and of a fork. -/
def absentTextRecords : List EventRecord :=
  ["P101ALLOC\t5\ta\t1\t1\t1\t-\t-\tREALLOC\t0x1\t-\t8\t3\tf\tc",
    "P101RESOURCE\t5\ta\t1\t1\t2\t-\t-\tREPLACE\tlock\tm\t-\t0\t-\t4\tf\tc",
    "P101FD\t5\ta\t1\t1\t3\t-\t-\tOPEN\t3\t7\tf\tc",
    "P101FORK\t5\ta\t1\t1\t4\t-\t-\t2\t9\tf\tc"].filterMap
    (fun line => (parseLine .standard (.ofString line)).toOption)

theorem lifecycle_iff_replayed_absentTextRecords :
    ∃ w v, ingestAndFinish RecordReader.standard.toRecordLibrary absentTextRecords ⟨{}, []⟩ = (.ok (), w) ∧
      replayAndFinish RecordReader.standard.toRecordLibrary absentTextRecords ⟨{}, []⟩ = (.ok (), v) ∧
      w.state.lifecycle = some v.state := by
  have hparsed : ∀ r ∈ absentTextRecords, ∃ line, parseLine .standard line = .ok r := by
    intro r hr
    obtain ⟨line, -, hline⟩ := List.mem_filterMap.mp hr
    refine ⟨.ofString line, ?_⟩
    cases h : parseLine .standard (.ofString line) with
    | error e => simp [h, Except.toOption] at hline
    | ok r' =>
      rw [h] at hline
      exact congrArg Except.ok (Option.some.inj hline)
  have hrun : ∀ r ∈ absentTextRecords, r.runId = some (.ofString "a") := by decide +kernel
  have hkinds : ∀ r ∈ absentTextRecords, r.recordKind ∉ [RecordKind.call, .complete, .spawn] := by
    decide +kernel
  have hedges : (edgesOf RecordReader.standard.toRecordLibrary
      (absentTextRecords.map Node.ofRecord)).length ≤ modelLimit := by decide +kernel
  have hok : (replayAndFinish RecordReader.standard.toRecordLibrary absentTextRecords ⟨{}, []⟩).1 = .ok () := by
    decide +kernel
  obtain ⟨v, hv⟩ : ∃ v, replayAndFinish RecordReader.standard.toRecordLibrary absentTextRecords ⟨{}, []⟩ =
      (.ok (), v) := exists_of_fst_eq hok
  obtain ⟨w, hw, hlifecycle⟩ := (lifecycle_iff_replayed (by decide) hparsed hrun hkinds (by decide +kernel)
    hedges v.state).mpr ⟨v, hv, rfl⟩
  exact ⟨w, v, hw, hv, hlifecycle⟩

end ToolEvent.RunModel
