import ToolEvent.ModelInputRuns

/-!
# What an admitted pair of streams satisfies

Run identities are compared within each stream, and across the two only through the
records that go into the model. A producer without a receipt is excused by a pending
EXEC record, which later work of the producer does not cancel.
-/

namespace ToolEvent.ModelInput

open Fallible World RunModel StreamHealth

variable {reader : RecordReader}

def OneRun (records : List EventRecord) : Prop := ∀ r ∈ records, ∀ s ∈ records, r.runId = s.runId

/-- Both files hold a record that goes into the model, or they start with the same run
identity. -/
def RunsCompared (reader : RecordReader) (resource call : InputFile) : Prop :=
  ((∃ r ∈ recordsOf reader resource, belongs false r) ∧
      ∃ r ∈ recordsOf reader call, belongs true r) ∨
    (recordsOf reader resource).head?.map EventRecord.runId =
      (recordsOf reader call).head?.map EventRecord.runId

theorem head?_runId {records : List EventRecord} (h : SoundRecords records) {r : EventRecord}
    (hr : r ∈ records) : records.head?.map EventRecord.runId = some r.runId := by
  obtain ⟨first, rest, rfl⟩ := List.exists_cons_of_ne_nil h.nonempty
  exact congrArg some (h.oneRun first List.mem_cons_self r hr)

/-- The identity of the model connects the records that go into it. -/
theorem Read.runId_eq {resource call : InputFile} {m₀ m₁ m₂ : Model} {rh ch : Health}
    (h : Read reader resource call m₀ m₁ m₂ rh ch) {r s : EventRecord}
    (hr : r ∈ recordsOf reader resource) (hrb : belongs false r)
    (hs : s ∈ recordsOf reader call) (hsb : belongs true s) : r.runId = s.runId := by
  have hm₁ := h.resource.runId r hr hrb
  have hm₂ := h.call.runId s hs hsb
  rcases h.call.kept with hnone | hkept
  · obtain ⟨t, ht, -⟩ := h.resource.admitted r hr
    rw [hnone, ht] at hm₁
    cases hm₁
  · exact hm₁.symm.trans (hkept.symm.trans hm₂)

/-- The records of an admitted pair carry one run identity exactly when the identities of
the two files were compared, or agree anyway. -/
theorem oneRun_iff_runsCompared {model : Model} {resource call : InputFile}
    (h : Admitted reader model resource call) :
    OneRun (recordsOf reader resource ++ recordsOf reader call) ↔
      RunsCompared reader resource call := by
  obtain ⟨m₁, m₂, rh, ch, hread⟩ := h.read
  obtain ⟨hresource, hcall⟩ := hread.valid
  constructor
  · intro hone
    obtain ⟨r, hr⟩ := List.exists_mem_of_ne_nil _ hresource.nonempty
    obtain ⟨s, hs⟩ := List.exists_mem_of_ne_nil _ hcall.nonempty
    right
    rw [head?_runId hresource hr, head?_runId hcall hs,
      hone r (List.mem_append_left _ hr) s (List.mem_append_right _ hs)]
  · intro hcompared
    have hacross : ∀ r ∈ recordsOf reader resource, ∀ s ∈ recordsOf reader call,
        r.runId = s.runId := by
      intro r hr s hs
      rcases hcompared with ⟨⟨r', hr', hrb⟩, s', hs', hsb⟩ | hhead
      · calc r.runId = r'.runId := hresource.oneRun r hr r' hr'
          _ = s'.runId := hread.runId_eq hr' hrb hs' hsb
          _ = s.runId := hcall.oneRun s' hs' s hs
      · rw [head?_runId hresource hr, head?_runId hcall hs] at hhead
        exact Option.some.inj hhead
    intro r hr s hs
    rcases List.mem_append.mp hr with hr | hr <;> rcases List.mem_append.mp hs with hs | hs
    · exact hresource.oneRun r hr s hs
    · exact hacross r hr s hs
    · exact (hacross s hs r hr).symm
    · exact hcall.oneRun r hr s hs

def fileOf (lines : List String) : InputFile where
  stream := { bytes := lines.flatMap (fun line => (Text.ofString line).bytes ++ [newline]) }

/-- A program of one run that opened a file and made no call, and the receipt of another. -/
def silentResource : InputFile :=
  fileOf ["P101FD\t5\ta\t1\t1\t1\t-\t-\tOPEN\t3\t7\tf\tc", "P101COMPLETE\t5\ta\t1\t1\t2\t-\t-\t1\t0\t0"]

def silentCall : InputFile := fileOf ["P101COMPLETE\t5\tb\t1\t1\t2\t-\t-\t0\t0\t0"]

/-- Two runs are combined when a file holds receipts only. -/
theorem silentCall_mixes_runs :
    (ingestPaths .standard silentResource silentCall ⟨{}, []⟩).1 = .ok () ∧
      (admitStreams .standard silentResource silentCall ⟨{}, []⟩).1 = .ok () ∧
      ¬ OneRun (recordsOf .standard silentResource ++ recordsOf .standard silentCall) := by
  refine ⟨by decide +kernel, by decide +kernel, fun hone => ?_⟩
  have hmixed : ∃ r ∈ recordsOf .standard silentResource ++ recordsOf .standard silentCall,
      ∃ s ∈ recordsOf .standard silentResource ++ recordsOf .standard silentCall,
        r.runId ≠ s.runId := by decide +kernel
  obtain ⟨r, hr, s, hs, hne⟩ := hmixed
  exact hne (hone r hr s hs)

def ownCall : InputFile := fileOf ["P101COMPLETE\t5\ta\t1\t1\t2\t-\t-\t0\t0\t0"]

theorem oneRun_iff_runsCompared_ownCall :
    OneRun (recordsOf .standard silentResource ++ recordsOf .standard ownCall) ↔
      RunsCompared .standard silentResource ownCall :=
  have h : Admitted .standard {} silentResource ownCall := ⟨[], .inl (by decide +kernel)⟩
  oneRun_iff_runsCompared h

def ofKey (k : ProducerKey) (records : List EventRecord) : List EventRecord :=
  records.filter (fun record => recordKey record = k)

/-- The producer occurs in the stream, without a receipt. -/
def Unfinished (k : ProducerKey) (records : List EventRecord) : Prop :=
  ofKey k records ≠ [] ∧ ∀ r ∈ ofKey k records, r.recordKind ≠ .complete

/-- The producer's last record in the resource stream is an EXEC record. -/
def EndsInExec (k : ProducerKey) (records : List EventRecord) : Prop :=
  ∃ last ∈ (ofKey k records).getLast?, last.recordKind = .exec

/-- A record that leaves a pending EXEC pending. -/
def IsOrdinary (record : EventRecord) : Prop :=
  record.recordKind ≠ .exec ∧ record.recordKind ≠ .execFail ∧ record.recordKind ≠ .complete

/-- The producer's last EXEC record is followed by ordinary records only, if by any. -/
def ExecPending (records later : List EventRecord) : Prop :=
  ∃ earlier e, records = earlier ++ e :: later ∧ e.recordKind = .exec ∧ ∀ r ∈ later, IsOrdinary r

/-- The producer ends its part of the resource stream by going on working past an EXEC record. -/
def WorksPastExec (k : ProducerKey) (records : List EventRecord) : Prop :=
  ∃ later ≠ [], ExecPending (ofKey k records) later

/-- The `pending_exec` flag of a slot is set when an EXEC record is pending. -/
theorem pendingExec_iff (k : ProducerKey) (records : List EventRecord) :
    (slotAfter k records).pendingExec ≠ 0 ↔ ∃ later, ExecPending records later := by
  induction records using List.reverseRecOn with
  | nil => simp [slotAfter, freshSlot, ExecPending]
  | append_singleton records r ih =>
    rw [slotAfter_concat]
    by_cases hexec : r.recordKind = .exec
    · simp only [observeProducer, pendingExecAfter, hexec, if_true, ne_eq, one_ne_zero,
        not_false_eq_true, true_iff]
      exact ⟨[], records, r, rfl, hexec, by simp⟩
    · by_cases hreset : r.recordKind = .execFail ∨ r.recordKind = .complete
      · simp only [observeProducer, pendingExecAfter, hexec, hreset, if_false, if_true, ne_eq,
          not_true_eq_false, false_iff]
        rintro ⟨later, earlier, e, hsplit, he, hlater⟩
        rcases List.eq_nil_or_concat later with rfl | ⟨rest, last, rfl⟩
        · obtain ⟨-, hlast⟩ := List.append_inj' hsplit rfl
          obtain rfl := List.singleton_inj.mp hlast
          exact hexec he
        · rw [List.concat_eq_append, ← List.cons_append, ← List.append_assoc] at hsplit
          obtain ⟨-, hlast⟩ := List.append_inj' hsplit rfl
          obtain rfl := List.singleton_inj.mp hlast
          have := hlater r (by simp)
          exact hreset.elim this.2.1 this.2.2
      · simp only [observeProducer, pendingExecAfter, hexec, hreset, if_false]
        rw [ih]
        constructor
        · rintro ⟨later, earlier, e, rfl, he, hlater⟩
          refine ⟨later ++ [r], earlier, e, by simp, he, fun s hs => ?_⟩
          rcases List.mem_append.mp hs with hs | hs
          · exact hlater s hs
          · rw [List.mem_singleton.mp hs]
            exact ⟨hexec, not_or.mp hreset⟩
        · rintro ⟨later, earlier, e, hsplit, he, hlater⟩
          rcases List.eq_nil_or_concat later with rfl | ⟨rest, last, rfl⟩
          · obtain ⟨-, hlast⟩ := List.append_inj' hsplit rfl
            obtain rfl := List.singleton_inj.mp hlast
            exact absurd he hexec
          · rw [List.concat_eq_append, ← List.cons_append, ← List.append_assoc] at hsplit
            obtain ⟨hrest, -⟩ := List.append_inj' hsplit rfl
            exact ⟨rest, earlier, e, hrest, he, fun s hs => hlater s (by simp [hs])⟩

/-- While an EXEC record is pending, it is the last record unless the producer went on working. -/
theorem endsInExec_iff {k : ProducerKey} {records later : List EventRecord}
    (h : ExecPending (ofKey k records) later) : EndsInExec k records ↔ ¬ WorksPastExec k records := by
  constructor
  · rintro ⟨last, hlast, hexec⟩ ⟨later', hne, earlier, e, hsplit, -, hordinary⟩
    rw [hsplit, List.getLast?_append_cons, List.getLast?_cons_of_ne_nil hne] at hlast
    exact (hordinary last (List.mem_of_getLast? hlast)).1 hexec
  · intro hworks
    have hnil : later = [] := by
      by_contra hne
      exact hworks ⟨later, hne, h⟩
    obtain ⟨earlier, e, hsplit, he, -⟩ := h
    subst hnil
    exact ⟨e, by rw [hsplit]; simp, he⟩

theorem slotKey_slotAfter (k : ProducerKey) (records : List EventRecord) :
    slotKey (slotAfter k records) = k := by
  induction records using List.reverseRecOn with
  | nil => rfl
  | append_singleton records r ih => rw [slotAfter_concat, slotKey_observeProducer, ih]

theorem ofKey_ne_nil {k : ProducerKey} {records : List EventRecord} :
    ofKey k records ≠ [] ↔ k ∈ records.map recordKey := by
  simp [ofKey, List.filter_eq_nil_iff]

/-- The slots in the health of a stream are those of its producers. -/
theorem slot_mem_iff {lib : RecordLibrary} {records : List EventRecord}
    (h : ∀ r ∈ records, r.RunIdAdmitted lib) (p : ProducerHealth) :
    p ∈ (observeAll lib {} records).producers ↔
      ∃ k, ofKey k records ≠ [] ∧ p = slotAfter k (ofKey k records) := by
  rw [(observeAll_spec h).2.1, KeyedTable.mem_fold_iff slotKey_freshSlot slotKey_observeProducer]
  apply exists_congr
  intro k
  rw [ofKey_ne_nil]
  rfl

/-- Both streams were read, and `streams_complete` and `admitted_streams_are_complete`
accept what was observed. -/
def Complete (reader : RecordReader) (model : Model) (resource call : InputFile) : Prop :=
  ∃ outcomes, (admitStreams reader resource call ⟨model, outcomes⟩).1 = .ok ()

/-- Every producer that misses its receipt in a stream has an EXEC record as the last of its
records in the resource stream. -/
def ExecRule (resource call : List EventRecord) : Prop :=
  ∀ stream ∈ [resource, call], ∀ k, Unfinished k stream → EndsInExec k resource

/-- A producer without a receipt is excused by a pending EXEC record only. -/
theorem Read.execPending {resource call : InputFile} {m₀ m₁ m₂ : Model} {rh ch : Health}
    (h : Read reader resource call m₀ m₁ m₂ rh ch) {stream : List EventRecord}
    (hstream : stream ∈ [recordsOf reader resource, recordsOf reader call]) {k : ProducerKey}
    (hk : Unfinished k stream) : ∃ later, ExecPending (ofKey k (recordsOf reader resource)) later := by
  have hresource := h.resource.health
  have hcall := h.call.health
  subst hresource hcall
  have hslot : slotAfter k (ofKey k stream) ∈
      (observeAll reader.toRecordLibrary {} stream).producers := by
    apply (slot_mem_iff ?_ _).mpr ⟨k, hk.1, rfl⟩
    rcases List.mem_pair.mp hstream with rfl | rfl
    · exact h.resource.admitted
    · exact h.call.admitted
  have hexcused : producerComplete (slotAfter k (ofKey k stream))
      (observeAll reader.toRecordLibrary {} (recordsOf reader resource)) := by
    have hcomplete := h.complete
    simp only [streamsComplete, List.all_cons, List.all_nil, Bool.and_true, Bool.and_eq_true,
      List.all_eq_true] at hcomplete
    rcases List.mem_pair.mp hstream with rfl | rfl
    · exact hcomplete.1.2 _ hslot
    · exact hcomplete.2.2 _ hslot
  have hnone : (slotAfter k (ofKey k stream)).completionRecords = 0 :=
    (slotAfter_of_no_receipt k hk.2).1
  simp only [producerComplete, hnone, List.any_eq_true, decide_eq_true_eq] at hexcused
  obtain ⟨hreceipt, -⟩ | ⟨-, candidate, hcandidate, hpid, hcontext, hrun, hpending⟩ := hexcused
  · cases hreceipt
  · obtain ⟨j, -, rfl⟩ := (slot_mem_iff h.resource.admitted candidate).mp hcandidate
    have hkey : j = k := by
      rw [← slotKey_slotAfter j (ofKey j (recordsOf reader resource)),
        ← slotKey_slotAfter k (ofKey k stream)]
      exact Prod.ext hrun (Prod.ext hpid hcontext)
    rw [hkey] at hpending
    exact (pendingExec_iff k _).mp hpending

/-- An accepted pair keeps the rule about missing receipts exactly when no producer that
misses one went on working past an EXEC record. -/
theorem execRule_iff_stopsAtExec {model : Model} {resource call : InputFile}
    (h : Complete reader model resource call) :
    ExecRule (recordsOf reader resource) (recordsOf reader call) ↔
      ∀ stream ∈ [recordsOf reader resource, recordsOf reader call], ∀ k, Unfinished k stream →
        ¬ WorksPastExec k (recordsOf reader resource) := by
  obtain ⟨outcomes, hok⟩ := h
  obtain ⟨m₁, rh, ch, hread⟩ := read_of_admitStreams (Prod.ext hok rfl)
  have hends : ∀ stream ∈ [recordsOf reader resource, recordsOf reader call], ∀ k,
      Unfinished k stream →
        (EndsInExec k (recordsOf reader resource) ↔ ¬ WorksPastExec k (recordsOf reader resource)) := by
    intro stream hstream k hk
    obtain ⟨later, hpending⟩ := hread.execPending hstream hk
    exact endsInExec_iff hpending
  constructor
  · intro hrule stream hstream k hk
    exact (hends stream hstream k hk).mp (hrule stream hstream k hk)
  · intro hstops stream hstream k hk
    exact (hends stream hstream k hk).mpr (hstops stream hstream k hk)

/-- A program that recorded an attempt to execute another one, and went on to open a file:
the stream was cut off there. -/
def cutResource : InputFile :=
  fileOf ["P101EXEC\t5\ta\t1\t1\t1\t-\t-\t3\t0\t9\tf\tc\tprog",
    "P101FD\t5\ta\t1\t1\t2\t-\t-\tOPEN\t4\t10\tf\tc"]

/-- The attempt is still pending, so the cut stream is accepted. -/
theorem cutResource_accepted :
    Complete .standard {} cutResource ownCall ∧
      (ingestPaths .standard cutResource ownCall ⟨{}, []⟩).1 = .ok () ∧
      ¬ ExecRule (recordsOf .standard cutResource) (recordsOf .standard ownCall) := by
  refine ⟨⟨[], by decide +kernel⟩, by decide +kernel, fun hrule => ?_⟩
  have hunfinished : Unfinished (.ofString "a", 1, 1) (recordsOf .standard cutResource) := by
    unfold Unfinished
    decide +kernel
  obtain ⟨last, hlast, hexec⟩ := hrule _ List.mem_cons_self _ hunfinished
  have hopen : ∀ r ∈ (ofKey (.ofString "a", 1, 1) (recordsOf .standard cutResource)).getLast?,
      r.recordKind ≠ .exec := by decide +kernel
  exact hopen last hlast hexec

def execResource : InputFile := fileOf ["P101EXEC\t5\ta\t1\t1\t1\t-\t-\t3\t0\t9\tf\tc\tprog"]

theorem execRule_iff_stopsAtExec_execResource :
    Complete .standard {} execResource ownCall ∧
      (ExecRule (recordsOf .standard execResource) (recordsOf .standard ownCall) ↔
        ∀ stream ∈ [recordsOf .standard execResource, recordsOf .standard ownCall], ∀ k,
          Unfinished k stream → ¬ WorksPastExec k (recordsOf .standard execResource)) :=
  have h : Complete .standard {} execResource ownCall := ⟨[], by decide +kernel⟩
  ⟨h, execRule_iff_stopsAtExec h⟩

end ToolEvent.ModelInput
