import ToolEvent.ModelInput
import ToolEvent.RunModelEdges
import ToolEvent.StreamCompleteness

/-!
# What admission reads

Reading a file to its end is ingesting its records one after the other, and what
this leaves behind is known: the health of all of its records, and the model
extended by the nodes of those that belong to the stream.
-/

namespace ToolEvent.ModelInput

open Fallible World RunModel StreamHealth

variable {reader : RecordReader}

/-- A slot that is found without the allocator's help is found with it. -/
theorem findOrAddProducer_of_some {growth : Bool} {health : Health} {runId : Text} {pid : ℤ}
    {contextId : ℕ} {p : ℕ × Health} (h : findOrAddProducer growth health runId pid contextId = some p) :
    findOrAddProducer true health runId pid contextId = some p := by
  cases growth with
  | true => exact h
  | false =>
    simp only [findOrAddProducer] at h ⊢
    cases hfind : health.producers.findIdx? (fun p =>
        p.runId = runId ∧ p.pid = pid ∧ p.contextId = contextId) with
    | some index =>
      rw [hfind] at h
      exact h
    | none =>
      rw [hfind] at h
      dsimp only at h ⊢
      rw [if_neg (by simp)]
      by_cases hfull : health.producers.length = health.producerCapacity
      · rw [if_pos (by simpa using hfull)] at h
        cases h
      · rwa [if_neg (fun hboth => hfull hboth.1)] at h

/-- A record is admitted by the health of its stream when its run identity is in order,
and observing it then does not depend on the allocator. -/
theorem observe_of_status {lib : RecordLibrary} {growth : Bool} {health : Health}
    {record : EventRecord} (h : (observe lib growth health record).1 = 0) :
    record.RunIdAdmitted lib ∧ observe lib growth health record = observe lib true health record := by
  unfold observe at h ⊢
  cases hrun : record.runId with
  | none => simp [hrun] at h
  | some runId =>
    simp only [hrun] at h ⊢
    split at h
    · cases h
    · next hvalid =>
      rw [if_neg hvalid, if_neg hvalid]
      rw [not_or] at hvalid
      refine ⟨⟨runId, hrun, fun hempty => hvalid.1 ?_, not_lt.mp hvalid.2⟩, ?_⟩
      · rw [hempty]
        rfl
      · cases hfound : findOrAddProducer growth (observeRunId runId health) runId record.pid
            record.contextId with
        | none => simp [hfound] at h
        | some p => rw [findOrAddProducer_of_some hfound]

/-- The run identity of the model is fixed once, and kept. -/
theorem ingestRunId_ok {runId : Text} {w w' : World Model} (h : ingestRunId runId w = (.ok (), w')) :
    w'.state = { w.state with runId := some runId } ∧
      (w.state.runId = none ∨ w.state.runId = some runId) := by
  unfold ingestRunId at h
  rw [run_readState_bind] at h
  cases hown : w.state.runId with
  | none =>
    simp only [hown] at h
    obtain ⟨⟨⟩, w₁, hcopy, h⟩ := run_bind_eq_ok.mp h
    have hstate := state_eq_of_evolves evolves_copyText w
    rw [hcopy] at hstate
    rw [run_updateState] at h
    cases h
    exact ⟨by rw [hstate], .inl rfl⟩
  | some own =>
    simp only [hown] at h
    split at h
    · next heq =>
      cases h
      subst heq
      refine ⟨?_, .inr rfl⟩
      rw [← hown]
    · cases h

/-- What a successful ingestion does to the model. -/
theorem ingest_ok {lib : RecordLibrary} {record : EventRecord} {w w' : World Model}
    (hkind : record.recordKind ≠ .complete) (h : ingest lib record w = (.ok (), w')) :
    w'.state.runId = record.runId ∧ (w.state.runId = none ∨ w.state.runId = record.runId) ∧
      w'.state.nodes = w.state.nodes ++ [Node.ofRecord record] := by
  unfold ingest at h
  rw [run_readState_bind] at h
  split at h
  · next hadmitted =>
    have hrecord : record.runId = some (record.runId.getD .empty) := by
      unfold isAdmitted at hadmitted
      cases hrun : record.runId with
      | none => simp [hrun] at hadmitted
      | some runId => rfl
    obtain ⟨⟨⟩, w₁, hrun, h₁⟩ := run_bind_eq_ok.mp h
    obtain ⟨capacity, w₂, hreserve, h₂⟩ := run_bind_eq_ok.mp h₁
    obtain ⟨⟨⟩, w₃, hcapacity, h₃⟩ := run_bind_eq_ok.mp h₂
    obtain ⟨⟨⟩, w₄, hcopies, hnode⟩ := run_bind_eq_ok.mp h₃
    obtain ⟨hstate₁, hown⟩ := ingestRunId_ok hrun
    have hstate₂ := state_eq_of_evolves (evolves_reserve w.state.nodes.length w.state.nodeCapacity) w₁
    have hstate₄ := state_eq_of_evolves (fun r => evolves_forEach (fun _ : ℕ => evolves_copyText r)
      (List.range recordTextCount)) w₃
    rw [hreserve] at hstate₂
    rw [hcopies] at hstate₄
    obtain ⟨-, rfl⟩ := Prod.mk.inj hcapacity
    obtain ⟨-, rfl⟩ := Prod.mk.inj hnode
    simp only at hstate₂ hstate₄ ⊢
    rw [hstate₄, hstate₂, hstate₁, hrecord]
    exact ⟨rfl, hown, rfl⟩
  · simp at h

/-- What reading a stream with the given records leaves behind. -/
structure Streamed (lib : RecordLibrary) (calls : Bool) (records : List EventRecord) (m m' : Model)
    (health : Health) : Prop where
  admitted : ∀ r ∈ records, r.RunIdAdmitted lib
  health : health = observeAll lib {} records
  /-- The model has the run identity of every record that belongs to it. -/
  runId : ∀ r ∈ records, belongs calls r → m'.runId = r.runId
  kept : m.runId = none ∨ m'.runId = m.runId
  nodes : m'.nodes = m.nodes ++ (records.filter (belongs calls)).map Node.ofRecord
  reachable : Reachable lib m → Reachable lib m'

theorem belongs_ne_complete {calls : Bool} {record : EventRecord} (h : belongs calls record) :
    record.recordKind ≠ .complete := by
  simp only [belongs, decide_eq_true_eq] at h
  exact h.1

theorem observeAll_concat {lib : RecordLibrary} (records : List EventRecord) (r : EventRecord) :
    observeAll lib {} (records ++ [r]) = (observe lib true (observeAll lib {} records) r).2 := by
  simp [observeAll, List.foldl_append]

theorem Streamed.ingestRecord {calls : Bool} {records : List EventRecord} {m : Model}
    {w w' : World (Model × Health)} {r : EventRecord}
    (h : Streamed reader.toRecordLibrary calls records m w.state.1 w.state.2)
    (hrun : ingestRecord reader calls r w = (.ok (), w')) :
    Streamed reader.toRecordLibrary calls (records ++ [r]) m w'.state.1 w'.state.2 := by
  obtain ⟨⟨model, health⟩, outcomes⟩ := w
  unfold ModelInput.ingestRecord at hrun
  rw [run_bind_of_ok (run_allocate _ outcomes), run_readState_bind] at hrun
  obtain ⟨⟨⟩, w₁, hobserve, hingest⟩ := run_bind_eq_ok.mp hrun
  obtain ⟨-, rfl⟩ := Prod.mk.inj hobserve
  dsimp only at h hingest
  by_cases hstatus : (observe reader.toRecordLibrary (outcomes.headD true) health r).1 = 0
  · obtain ⟨hadmitted, hobserved⟩ := observe_of_status hstatus
    rw [if_neg (not_not.mpr hstatus), hobserved] at hingest
    have hall : ∀ s ∈ records ++ [r], s.RunIdAdmitted reader.toRecordLibrary := by
      intro s hs
      rcases List.mem_append.mp hs with hs | hs
      · exact h.admitted s hs
      · exact List.mem_singleton.mp hs ▸ hadmitted
    have hhealth : (observe reader.toRecordLibrary true health r).2 =
        observeAll reader.toRecordLibrary {} (records ++ [r]) := by
      rw [observeAll_concat, h.health]
    by_cases hbelongs : belongs calls r
    · rw [if_pos hbelongs] at hingest
      obtain ⟨hok, rfl⟩ := Prod.mk.inj hingest
      obtain ⟨hid, hold, hnodes⟩ := ingest_ok (belongs_ne_complete hbelongs)
        (Prod.ext hok rfl)
      refine ⟨hall, hhealth, fun s hs hsb => ?_, ?_, ?_, fun hm => (h.reachable hm).ingest r _⟩
      · rcases List.mem_append.mp hs with hs | hs
        · have hs' := h.runId s hs hsb
          have hsome : s.runId ≠ none := by
            obtain ⟨t, ht, -⟩ := h.admitted s hs
            simp [ht]
          rcases hold with hold | hold
          · exact absurd (hs' ▸ hold) hsome
          · exact hid.trans (hold.symm.trans hs')
        · rw [List.mem_singleton.mp hs]
          exact hid
      · rcases h.kept with hkept | hkept
        · exact .inl hkept
        · rcases hold with hold | hold
          · exact .inl (hkept ▸ hold)
          · exact .inr (hid.trans (hold.symm.trans hkept))
      · rw [List.filter_append, List.filter_cons_of_pos hbelongs, List.filter_nil, List.map_append,
          List.map_singleton, ← List.append_assoc, ← h.nodes]
        exact hnodes
    · rw [if_neg hbelongs] at hingest
      obtain ⟨-, rfl⟩ := Prod.mk.inj hingest
      have hmem : ∀ s ∈ records ++ [r], belongs calls s → s ∈ records := by
        intro s hs hsb
        rcases List.mem_append.mp hs with hs | hs
        · exact hs
        · exact absurd (List.mem_singleton.mp hs ▸ hsb) hbelongs
      refine ⟨hall, hhealth, fun s hs hsb => h.runId s (hmem s hs hsb) hsb, h.kept, ?_, h.reachable⟩
      rw [List.filter_append, List.filter_cons_of_neg hbelongs, List.filter_nil, List.append_nil]
      exact h.nodes
  · rw [if_pos hstatus] at hingest
    cases hingest

/-- A stream that was read to its end left behind what its records say. -/
theorem streamed_of_ingestLines {calls : Bool} {m : Model} (lines : ℕ) :
    ∀ {stream : Stream} {records : List EventRecord} {w w' : World (Model × Health)},
      Streamed reader.toRecordLibrary calls records m w.state.1 w.state.2 →
      ingestLines reader calls lines stream w = (.ok (), w') →
      Streamed reader.toRecordLibrary calls (records ++ recordsOfLines reader lines stream) m
        w'.state.1 w'.state.2 := by
  induction lines with
  | zero => exact fun _ hrun => nomatch hrun
  | succ lines ih =>
    intro stream records w w' h hrun
    rw [ingestLines] at hrun
    rw [recordsOfLines]
    rcases hline : readLine reader.lineMaxBytes stream with ⟨_ | line | _ | _, rest⟩ <;>
      rw [hline] at hrun <;> dsimp only at hrun ⊢
    · obtain ⟨-, rfl⟩ := Prod.mk.inj hrun
      simpa using h
    · rcases hparse : parseLine reader line with ⟨_ | _ | _⟩ | record <;> rw [hparse] at hrun <;>
        dsimp only at hrun
      · exact ih h hrun
      · cases hrun
      · cases hrun
      · obtain ⟨⟨⟩, w₁, hrecord, hrest⟩ := run_bind_eq_ok.mp hrun
        have hnext := ih (h.ingestRecord hrecord) hrest
        rwa [List.append_assoc] at hnext
    · cases hrun
    · cases hrun

theorem streamed_nil (lib : RecordLibrary) (calls : Bool) (m : Model) :
    Streamed lib calls [] m m {} where
  admitted := by simp
  health := rfl
  runId := by simp
  kept := .inr rfl
  nodes := by simp
  reachable := id

/-- Reading a file observes and ingests its records. -/
theorem streamed_of_observePath {calls : Bool} {file : InputFile} {health : Health}
    {w w' : World Model} (h : observePath reader calls file w = (.ok health, w')) :
    Streamed reader.toRecordLibrary calls (recordsOf reader file) w.state w'.state health := by
  obtain ⟨v, hrun, rfl⟩ := withLocals_eq_ok.mp h
  obtain ⟨⟨⟩, w₁, hpath, hread⟩ := run_bind_eq_ok.mp hrun
  obtain ⟨hhealth, rfl⟩ := Prod.mk.inj hread
  obtain rfl := Except.ok.inj hhealth
  unfold ingestPath at hpath
  split at hpath
  · obtain ⟨⟨⟩, w₂, hstream, hclose⟩ := run_bind_eq_ok.mp hpath
    split at hclose
    · obtain ⟨-, rfl⟩ := Prod.mk.inj hclose
      exact streamed_of_ingestLines _ (streamed_nil _ calls w.state) hstream
    · cases hclose
  · cases hpath

structure Read (reader : RecordReader) (resource call : InputFile) (m₀ m₁ m₂ : Model)
    (resourceHealth callHealth : Health) : Prop where
  resource : Streamed reader.toRecordLibrary false (recordsOf reader resource) m₀ m₁ resourceHealth
  call : Streamed reader.toRecordLibrary true (recordsOf reader call) m₁ m₂ callHealth
  complete : streamsComplete resourceHealth callHealth = true

theorem read_of_ingestPaths {resource call : InputFile} {w w' : World Model}
    (h : ingestPaths reader resource call w = (.ok (), w')) :
    ∃ w₂ m₁ rh ch, Read reader resource call w.state m₁ w₂.state rh ch ∧
      finish reader.toRecordLibrary w₂ = (.ok (), w') := by
  obtain ⟨rh, w₁, hresource, h₁⟩ := run_bind_eq_ok.mp h
  obtain ⟨ch, w₂, hcall, h₂⟩ := run_bind_eq_ok.mp h₁
  split at h₂
  · next hcomplete =>
    exact ⟨w₂, w₁.state, rh, ch, ⟨streamed_of_observePath hresource, streamed_of_observePath hcall,
      hcomplete⟩, h₂⟩
  · cases h₂

theorem admittedStreamsAreComplete_eq (resourceHealth callHealth : Health) :
    admittedStreamsAreComplete resourceHealth callHealth = streamsComplete resourceHealth callHealth :=
  rfl

theorem read_of_admitStreams {resource call : InputFile} {w w' : World Model}
    (h : admitStreams reader resource call w = (.ok (), w')) :
    ∃ m₁ rh ch, Read reader resource call w.state m₁ w'.state rh ch := by
  obtain ⟨rh, w₁, hresource, h₁⟩ := run_bind_eq_ok.mp h
  obtain ⟨ch, w₂, hcall, h₂⟩ := run_bind_eq_ok.mp h₁
  split at h₂
  · next hcomplete =>
    obtain ⟨-, rfl⟩ := Prod.mk.inj h₂
    rw [admittedStreamsAreComplete_eq] at hcomplete
    exact ⟨w₁.state, rh, ch, streamed_of_observePath hresource, streamed_of_observePath hcall,
      hcomplete⟩
  · cases h₂

theorem Admitted.read {model : Model} {resource call : InputFile}
    (h : Admitted reader model resource call) :
    ∃ m₁ m₂ rh ch, Read reader resource call model m₁ m₂ rh ch := by
  obtain ⟨outcomes, h | ⟨rfl, h⟩⟩ := h
  · obtain ⟨w₂, m₁, rh, ch, hread, -⟩ := read_of_ingestPaths (Prod.ext h rfl)
    exact ⟨m₁, w₂.state, rh, ch, hread⟩
  · obtain ⟨m₁, rh, ch, hread⟩ := read_of_admitStreams (Prod.ext h rfl)
    exact ⟨m₁, _, rh, ch, hread⟩

/-- What `stream_valid` says of the records of a stream: there are some, they carry one run
identity, and the sequence numbers of every producer increase. -/
structure SoundRecords (records : List EventRecord) : Prop where
  nonempty : records ≠ []
  oneRun : ∀ r ∈ records, ∀ s ∈ records, r.runId = s.runId
  increasing : ∀ r ∈ records, (((ofProducer r.pid r.contextId records).map EventRecord.sequence).filter
    (· ≠ 0)).Pairwise (· < ·)

theorem soundRecords_of_streamValid {lib : RecordLibrary} {records : List EventRecord}
    (hadmitted : ∀ r ∈ records, r.RunIdAdmitted lib)
    (h : streamValid (observeAll lib {} records) = true) : SoundRecords records := by
  obtain ⟨hcons, hprod, hlen, hinv, halloc, hwf⟩ := observeAll_spec hadmitted
  simp only [streamValid, decide_eq_true_eq] at h
  obtain ⟨hobserved, -, -, hdup, hnon, -, -, hone, -, hmixed, -⟩ := h
  have hne : records ≠ [] := by
    rintro rfl
    rw [hlen] at hobserved
    cases hobserved
  have hrun := (runIds_iff hadmitted hne).mp ⟨hone, hmixed⟩
  refine ⟨hne, hrun, fun r hr => ?_⟩
  have hmem : slotAfter (recordKey r) (ofProducer r.pid r.contextId records) ∈
      (observeAll lib {} records).producers := by
    rw [hprod, ← foldRow_eq_slotAfter hrun hr]
    exact (KeyedTable.mem_fold_iff slotKey_freshSlot slotKey_observeProducer records _).mpr
      ⟨recordKey r, List.mem_map_of_mem hr, rfl⟩
  rw [hcons.duplicates, List.sum_eq_zero_iff_forall_eq_nat] at hdup
  rw [hcons.nonmonotonic, List.sum_eq_zero_iff_forall_eq_nat] at hnon
  exact (slotAfter_sequences _ _).mp
    ⟨hdup _ (List.mem_map_of_mem hmem), hnon _ (List.mem_map_of_mem hmem)⟩

theorem Read.valid {resource call : InputFile} {m₀ m₁ m₂ : Model} {rh ch : Health}
    (h : Read reader resource call m₀ m₁ m₂ rh ch) :
    SoundRecords (recordsOf reader resource) ∧ SoundRecords (recordsOf reader call) := by
  have hcomplete := h.complete
  simp only [streamsComplete, List.all_cons, List.all_nil, Bool.and_true, Bool.and_eq_true] at hcomplete
  obtain ⟨⟨hresource, -⟩, hcall, -⟩ := hcomplete
  rw [h.resource.health] at hresource
  rw [h.call.health] at hcall
  exact ⟨soundRecords_of_streamValid h.resource.admitted hresource,
    soundRecords_of_streamValid h.call.admitted hcall⟩

end ToolEvent.ModelInput
