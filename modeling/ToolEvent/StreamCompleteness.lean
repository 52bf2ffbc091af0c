import ToolEvent.StreamHealth
import ToolEvent.Library.KeyedTable
import ToolEvent.Library.LatestMatch
import Mathlib.Tactic.FinCases
import Mathlib.Tactic.Tauto

/-!
# What the completeness verdict of a stream says

The incremental counters characterise a global condition on the record list. The
producers form a table keyed by run identity, process and context, so each slot
is a fold over the records of one producer; the counters of the stream are the
sums of the counters of the slots.
-/

namespace ToolEvent.StreamHealth

open KeyedTable

def ofProducer (pid : ℤ) (contextId : ℕ) (records : List EventRecord) : List EventRecord :=
  records.filter (fun record => record.pid = pid ∧ record.contextId = contextId)

/-- One producer's evidence is complete: increasing sequence numbers (zero means
unavailable), and one clean completion receipt at the end that counts the rest. -/
structure ProducerComplete (records : List EventRecord) : Prop where
  increasing : ((records.map EventRecord.sequence).filter (· ≠ 0)).Pairwise (· < ·)
  receipt : ∃ earlier last, records = earlier ++ [last] ∧ last.recordKind = .complete ∧
    (∀ record ∈ earlier, record.recordKind ≠ .complete) ∧ last.writeFailed = 0 ∧
    last.eventsAttempted = earlier.length

/-- A stream is complete: it is not empty, carries one run identity, and every
producer that occurs in it is complete. -/
structure StreamComplete (records : List EventRecord) : Prop where
  nonempty : records ≠ []
  oneRun : ∀ r ∈ records, ∀ s ∈ records, r.runId = s.runId
  producers : ∀ r ∈ records, ProducerComplete (ofProducer r.pid r.contextId records)

/-- Two streams hold the same records of every producer in the same order. -/
def Interleaving (records records' : List EventRecord) : Prop :=
  ∀ pid contextId, ofProducer pid contextId records' = ofProducer pid contextId records

abbrev ProducerKey := Text × ℤ × ℕ

def slotKey (producer : ProducerHealth) : ProducerKey :=
  (producer.runId, producer.pid, producer.contextId)

def freshSlot (k : ProducerKey) : ProducerHealth :=
  { runId := k.1, pid := k.2.1, contextId := k.2.2 }

def recordKey (record : EventRecord) : ProducerKey :=
  (record.runId.getD .empty, record.pid, record.contextId)

@[simp] theorem slotKey_freshSlot (k : ProducerKey) : slotKey (freshSlot k) = k := rfl

@[simp] theorem slotKey_observeProducer (record : EventRecord) (producer : ProducerHealth) :
    slotKey (observeProducer record producer) = slotKey producer := rfl

/-- Finding or adding a slot and updating it is updating the table of producers. -/
theorem findOrAddProducer_eq (health : Health) (runId : Text) (pid : ℤ) (contextId : ℕ) :
    ∃ index health', findOrAddProducer true health runId pid contextId = some (index, health') ∧
      health'.producers.getD index {} =
        rowOf slotKey freshSlot (runId, pid, contextId) health.producers ∧
      (∀ f, health'.producers.modify index f =
        update slotKey freshSlot (runId, pid, contextId) f health.producers) ∧
      ∃ producers producerCapacity,
        health' = { health with producers := producers, producerCapacity := producerCapacity } := by
  have hkey : (fun p : ProducerHealth => decide (p.runId = runId ∧ p.pid = pid ∧
      p.contextId = contextId)) = (fun p => decide (slotKey p = (runId, pid, contextId))) := by
    funext p
    simp [slotKey]
  unfold findOrAddProducer
  rw [hkey]
  split
  · next index h =>
    obtain ⟨-, hget⟩ := update_of_findIdx?_eq_some freshSlot id h
    exact ⟨index, health, rfl, hget _, fun f => (update_of_findIdx?_eq_some freshSlot f h).1.symm, _, _, rfl⟩
  · next h =>
    obtain ⟨-, hrow⟩ := update_of_findIdx?_eq_none freshSlot id h
    refine ⟨_, _, if_neg (by simp), ?_, fun f => ?_, _, _, rfl⟩
    · simp [hrow, freshSlot]
    · rw [(update_of_findIdx?_eq_none freshSlot f h).1]
      exact LatestMatch.modify_append_cons f _ _ []

variable {lib : RecordLibrary}

/-- The bookkeeping of run identities touches three fields only. -/
theorem observeRunId_eq (runId : Text) (health : Health) :
    ∃ runId' distinct mixed, observeRunId runId health =
      { health with runId := runId', distinctRunIds := distinct, mixedRunIds := mixed } := by
  unfold observeRunId
  split
  · exact ⟨_, _, _, rfl⟩
  · split <;> exact ⟨_, _, _, rfl⟩

/-- Observing an admitted record updates its slot and the counters of the stream. -/
theorem observe_admitted {record : EventRecord} (h : record.RunIdAdmitted lib) (health : Health) :
    ∃ producerCapacity, observe lib true health record =
      (0, { observeStream record
              (rowOf slotKey freshSlot (recordKey record) health.producers)
              (observeRunId (recordKey record).1 health) with
            producers := update slotKey freshSlot (recordKey record) (observeProducer record)
              health.producers
            producerCapacity := producerCapacity }) := by
  obtain ⟨runId, hrun, hne, hlen⟩ := h
  have hempty : runId.isEmpty = false := by
    cases hb : runId.bytes with
    | nil => exact absurd (Text.ext hb) hne
    | cons b bs => simp [Text.isEmpty, hb]
  have hprod : (observeRunId runId health).producers = health.producers := by
    obtain ⟨runId', distinct, mixed, heq⟩ := observeRunId_eq runId health
    rw [heq]
  obtain ⟨index, health', hfind, hget, hmod, producers, capacity, rfl⟩ :=
    findOrAddProducer_eq (observeRunId runId health) runId record.pid record.contextId
  rw [hprod] at hget hmod
  refine ⟨capacity, ?_⟩
  simp only [observe, hrun, hempty, Bool.false_eq_true, false_or, not_lt.mpr hlen, if_false, hfind,
    recordKey, Option.getD_some]
  simp only [hget, hmod]
  rfl

/-- The counters of the stream are the sums of the counters of the slots. -/
structure Consistent (health : Health) : Prop where
  duplicates : health.duplicateSequences = (health.producers.map (·.duplicateSequences)).sum
  nonmonotonic : health.nonmonotonicSequences = (health.producers.map (·.nonmonotonicSequences)).sum
  mismatches : health.attemptedCountMismatches =
    (health.producers.map (·.attemptedCountMismatches)).sum
  afterCompletion : health.recordsAfterCompletion =
    (health.producers.map (·.recordsAfterCompletion)).sum
  writeFailures : health.producerWriteFailures = 0 → ∀ p ∈ health.producers, p.writeFailed = 0

theorem consistent_observe {record : EventRecord} (hr : record.RunIdAdmitted lib)
    {health : Health} (h : Consistent health) : Consistent (observe lib true health record).2 := by
  obtain ⟨capacity, hobs⟩ := observe_admitted hr health
  rw [hobs]
  obtain ⟨runId, distinct, mixed, hrun⟩ := observeRunId_eq (recordKey record).1 health
  rw [hrun]
  constructor
  · have hsum := sum_map_update slotKey freshSlot (recordKey record) (observeProducer record)
      (·.duplicateSequences) health.producers rfl
    simp only [observeStream, observeProducer, h.duplicates] at hsum ⊢
    omega
  · have hsum := sum_map_update slotKey freshSlot (recordKey record) (observeProducer record)
      (·.nonmonotonicSequences) health.producers rfl
    simp only [observeStream, observeProducer, h.nonmonotonic] at hsum ⊢
    omega
  · have hsum := sum_map_update slotKey freshSlot (recordKey record) (observeProducer record)
      (·.attemptedCountMismatches) health.producers rfl
    simp only [observeStream, observeProducer, h.mismatches] at hsum ⊢
    omega
  · have hsum := sum_map_update slotKey freshSlot (recordKey record) (observeProducer record)
      (·.recordsAfterCompletion) health.producers rfl
    simp only [observeStream, observeProducer, h.afterCompletion] at hsum ⊢
    omega
  · intro hzero p hp
    simp only [observeStream] at hzero
    have hclean : isWriteFailure record = false := by
      cases hw : isWriteFailure record with
      | false => rfl
      | true => simp [hw] at hzero
    have hall := h.writeFailures (by omega)
    have hupd : ∀ rows : List ProducerHealth, (∀ q ∈ rows, q.writeFailed = 0) →
        ∀ q ∈ update slotKey freshSlot (recordKey record) (observeProducer record) rows,
          q.writeFailed = 0 := by
      intro rows
      induction rows with
      | nil => intro _ q hq; simp [update, observeProducer, hclean, freshSlot] at hq; simp [hq]
      | cons row rows ih =>
        intro hrows q hq
        have hrow := hrows row List.mem_cons_self
        have hrest := fun r hr => hrows r (List.mem_cons_of_mem _ hr)
        simp only [update] at hq
        split at hq
        · rcases List.mem_cons.mp hq with rfl | hq
          · simpa [observeProducer, hclean] using hrow
          · exact hrest q hq
        · rcases List.mem_cons.mp hq with rfl | hq
          · exact hrow
          · exact ih hrest q hq
    exact hupd health.producers hall p hp

/-- What is true of the health of every list of admitted records. -/
theorem observeAll_spec {records : List EventRecord} (h : ∀ r ∈ records, r.RunIdAdmitted lib) :
    Consistent (observeAll lib {} records) ∧
      (observeAll lib {} records).producers =
        fold slotKey freshSlot recordKey observeProducer [] records ∧
      (observeAll lib {} records).recordsObserved = records.length ∧
      (observeAll lib {} records).invalidRunIds = 0 ∧
      (observeAll lib {} records).allocationFailed = 0 ∧
      (observeAll lib {} records).producerWriteFailures = records.countP isWriteFailure := by
  induction records using List.reverseRecOn with
  | nil => exact ⟨⟨rfl, rfl, rfl, rfl, by simp [observeAll]⟩, rfl, rfl, rfl, rfl, rfl⟩
  | append_singleton records r ih =>
    obtain ⟨hcons, hprod, hlen, hinv, halloc, hwf⟩ :=
      ih (fun s hs => h s (List.mem_append_left _ hs))
    have hr := h r (by simp)
    obtain ⟨capacity, hobs⟩ := observe_admitted hr (observeAll lib {} records)
    have hstep : observeAll lib {} (records ++ [r]) =
        (observe lib true (observeAll lib {} records) r).2 := by
      simp [observeAll, List.foldl_append]
    obtain ⟨runId, distinct, mixed, hrun⟩ :=
      observeRunId_eq (recordKey r).1 (observeAll lib {} records)
    rw [hstep]
    refine ⟨consistent_observe hr hcons, ?_⟩
    rw [hobs, hrun]
    refine ⟨?_, ?_, ?_, ?_, ?_⟩
    · rw [fold_concat, hprod]
    · simp [observeStream, hlen]
    · simp [observeStream, hinv]
    · simp [observeStream, halloc]
    · simp only [observeStream, hwf, List.countP_append, List.countP_singleton]
      cases isWriteFailure r <;> simp

/-- Exactly one run identity was seen when all records carry the same one. -/
theorem runIds_iff {records : List EventRecord} (h : ∀ r ∈ records, r.RunIdAdmitted lib)
    (hne : records ≠ []) :
    ((observeAll lib {} records).distinctRunIds = 1 ∧ (observeAll lib {} records).mixedRunIds = 0) ↔
      ∀ r ∈ records, ∀ s ∈ records, r.runId = s.runId := by
  -- the remembered identity is that of the first record, and any other one sticks as mixed
  have hinv : ∀ first rest, (∀ r ∈ first :: rest, r.RunIdAdmitted lib) →
      (observeAll lib {} (first :: rest)).runId = (recordKey first).1 ∧
      (((observeAll lib {} (first :: rest)).distinctRunIds = 1 ∧
          (observeAll lib {} (first :: rest)).mixedRunIds = 0 ∧
          ∀ r ∈ rest, r.runId = first.runId) ∨
        ((observeAll lib {} (first :: rest)).distinctRunIds = 2 ∧
          ∃ r ∈ rest, r.runId ≠ first.runId)) := by
    intro first rest
    induction rest using List.reverseRecOn with
    | nil =>
      intro hadm
      obtain ⟨capacity, hobs⟩ := observe_admitted (hadm first (by simp)) ({} : Health)
      simp [observeAll, hobs, observeStream, observeRunId]
    | append_singleton rest r ih =>
      intro hadm
      obtain ⟨hrun, hcase⟩ := ih (fun s hs => hadm s (by
        rcases List.mem_cons.mp hs with rfl | hs
        · simp
        · exact List.mem_cons_of_mem _ (List.mem_append_left _ hs)))
      obtain ⟨capacity, hobs⟩ := observe_admitted (hadm r (by simp))
        (observeAll lib {} (first :: rest))
      have hstep : observeAll lib {} (first :: (rest ++ [r])) =
          (observe lib true (observeAll lib {} (first :: rest)) r).2 := by
        simp [observeAll, List.foldl_append]
      have hsame : (recordKey first).1 = (recordKey r).1 ↔ r.runId = first.runId := by
        obtain ⟨t, ht, -, -⟩ := hadm first List.mem_cons_self
        obtain ⟨u, hu, -, -⟩ := hadm r (by simp)
        simp [recordKey, ht, hu, eq_comm]
      rw [hstep, hobs]
      rcases hcase with ⟨hone, hmixed, hall⟩ | ⟨htwo, s, hs, hne⟩
      · by_cases heq : r.runId = first.runId
        · have hkey := hsame.mpr heq
          simp only [observeStream, observeRunId, hone, hrun, hkey, ne_eq, not_true_eq_false,
            one_ne_zero, if_false, true_and]
          refine Or.inl ⟨hmixed, fun s hs => ?_⟩
          rcases List.mem_append.mp hs with hs | hs
          · exact hall s hs
          · rw [List.mem_singleton.mp hs, heq]
        · have hkey := mt hsame.mp heq
          simp only [observeStream, observeRunId, hone, hrun, hkey, ne_eq, not_false_eq_true,
            one_ne_zero, if_false, if_true, true_and]
          exact Or.inr ⟨r, by simp, heq⟩
      · have hexists : ∃ x ∈ rest ++ [r], x.runId ≠ first.runId :=
          ⟨s, List.mem_append_left _ hs, hne⟩
        refine ⟨?_, Or.inr ⟨?_, hexists⟩⟩
        · by_cases hkey : (recordKey first).1 = (recordKey r).1 <;>
            simp [observeStream, observeRunId, htwo, hrun, hkey]
        · by_cases hkey : (recordKey first).1 = (recordKey r).1 <;>
            simp [observeStream, observeRunId, htwo, hrun, hkey]
  obtain ⟨first, rest, rfl⟩ := List.exists_cons_of_ne_nil hne
  obtain ⟨-, ⟨hone, hmixed, hall⟩ | ⟨htwo, r, hr, hne'⟩⟩ := hinv first rest h
  · simp only [hone, hmixed, and_self, true_iff]
    intro r hr s hs
    have hfirst : ∀ x ∈ first :: rest, x.runId = first.runId := by
      intro x hx
      rcases List.mem_cons.mp hx with rfl | hx
      · rfl
      · exact hall x hx
    rw [hfirst r hr, hfirst s hs]
  · constructor
    · rintro ⟨hone, -⟩
      omega
    · intro hall
      exact absurd (hall r (List.mem_cons_of_mem _ hr) first List.mem_cons_self) hne'

def slotAfter (k : ProducerKey) (records : List EventRecord) : ProducerHealth :=
  records.foldl (fun producer record => observeProducer record producer) (freshSlot k)

theorem slotAfter_concat (k : ProducerKey) (records : List EventRecord) (r : EventRecord) :
    slotAfter k (records ++ [r]) = observeProducer r (slotAfter k records) := by
  simp [slotAfter, List.foldl_append]

/-- The counters that need no condition on the records. -/
theorem slotAfter_counts (k : ProducerKey) (records : List EventRecord) :
    (slotAfter k records).recordsObserved = records.length ∧
      (slotAfter k records).completionRecords =
        records.countP (fun r => r.recordKind = .complete) ∧
      ∀ bound, (slotAfter k records).lastSequence < bound ↔
        0 < bound ∧ ∀ r ∈ records, r.sequence < bound := by
  induction records using List.reverseRecOn with
  | nil => simp [slotAfter, freshSlot]
  | append_singleton records r ih =>
    obtain ⟨hlen, hcount, hlast⟩ := ih
    rw [slotAfter_concat]
    refine ⟨by simp [observeProducer, hlen], ?_, fun bound => ?_⟩
    · by_cases hr : r.recordKind = .complete <;>
        simp [observeProducer, hcount, List.countP_append, hr]
    · have hlast' := hlast bound
      simp only [observeProducer, List.forall_mem_append, List.mem_singleton, forall_eq]
      split <;> rw [← and_assoc, ← hlast'] <;> omega

/-- No receipt seen means that the receipt counters are untouched. -/
theorem slotAfter_of_no_receipt (k : ProducerKey) {records : List EventRecord}
    (h : ∀ r ∈ records, r.recordKind ≠ .complete) :
    (slotAfter k records).completionRecords = 0 ∧
      (slotAfter k records).attemptedCountMismatches = 0 ∧
      (slotAfter k records).recordsAfterCompletion = 0 ∧ (slotAfter k records).writeFailed = 0 := by
  induction records using List.reverseRecOn with
  | nil => simp [slotAfter, freshSlot]
  | append_singleton records r ih =>
    obtain ⟨h1, h2, h3, h4⟩ := ih (fun s hs => h s (List.mem_append_left _ hs))
    have hr := h r (by simp)
    rw [slotAfter_concat]
    simp [observeProducer, isAttemptedCountMismatch, isWriteFailure, hr, h1, h2, h3, h4]

/-- The two sequence counters stay zero when the available numbers increase. -/
theorem slotAfter_sequences (k : ProducerKey) (records : List EventRecord) :
    ((slotAfter k records).duplicateSequences = 0 ∧
        (slotAfter k records).nonmonotonicSequences = 0) ↔
      ((records.map EventRecord.sequence).filter (· ≠ 0)).Pairwise (· < ·) := by
  induction records using List.reverseRecOn with
  | nil => simp [slotAfter, freshSlot]
  | append_singleton records r ih =>
    have hlast := (slotAfter_counts k records).2.2 r.sequence
    rw [slotAfter_concat]
    by_cases hzero : r.sequence = 0
    · simpa [observeProducer, isDuplicateSequence, isNonmonotonicSequence, hzero] using ih
    · have hstep : (isDuplicateSequence r (slotAfter k records) = false ∧
          isNonmonotonicSequence r (slotAfter k records) = false) ↔
            (slotAfter k records).lastSequence < r.sequence := by
        simp only [isDuplicateSequence, isNonmonotonicSequence, decide_eq_false_iff_not,
          decide_eq_true_eq]
        omega
      have hall : (∀ s ∈ (records.map EventRecord.sequence).filter (· ≠ 0), s < r.sequence) ↔
          (slotAfter k records).lastSequence < r.sequence := by
        rw [hlast]
        constructor
        · intro hs
          refine ⟨Nat.pos_of_ne_zero hzero, fun x hx => ?_⟩
          by_cases hx0 : x.sequence = 0
          · omega
          · exact hs x.sequence (List.mem_filter.mpr ⟨List.mem_map_of_mem hx, by simpa using hx0⟩)
        · rintro ⟨-, hs⟩ n hn
          obtain ⟨x, hx, rfl⟩ := List.mem_map.mp (List.mem_filter.mp hn).1
          exact hs x hx
      have hfilter : ((records ++ [r]).map EventRecord.sequence).filter (· ≠ 0) =
          (records.map EventRecord.sequence).filter (· ≠ 0) ++ [r.sequence] := by
        simp [List.filter_append, hzero]
      rw [hfilter, List.pairwise_append]
      simp only [List.pairwise_singleton, List.mem_singleton, forall_eq, true_and]
      rw [← ih, hall, ← hstep]
      simp only [observeProducer, Nat.add_eq_zero_iff, Bool.toNat_eq_zero]
      tauto

structure SlotClean (producer : ProducerHealth) : Prop where
  completed : producer.completionRecords = 1
  written : producer.writeFailed = 0
  counted : producer.attemptedCountMismatches = 0
  last : producer.recordsAfterCompletion = 0
  unique : producer.duplicateSequences = 0
  monotonic : producer.nonmonotonicSequences = 0

/-- The counters of a slot report no defect exactly when the producer is complete. -/
theorem slotClean_iff (k : ProducerKey) (records : List EventRecord) :
    SlotClean (slotAfter k records) ↔ ProducerComplete records := by
  constructor
  · rintro ⟨hdone, hwritten, hcounted, hlast, huniq, hmono⟩
    refine ⟨(slotAfter_sequences k records).mp ⟨huniq, hmono⟩, ?_⟩
    rcases List.eq_nil_or_concat records with rfl | ⟨earlier, last, rfl⟩
    · simp [slotAfter, freshSlot] at hdone
    · obtain ⟨hlen, hcount, -⟩ := slotAfter_counts k earlier
      simp only [List.concat_eq_append] at hdone hwritten hcounted hlast
      rw [slotAfter_concat] at hdone hwritten hcounted hlast
      have hnone : (slotAfter k earlier).completionRecords = 0 := by
        by_contra hpos
        simp [observeProducer, Nat.pos_of_ne_zero hpos] at hlast
      have hkinds : ∀ r ∈ earlier, r.recordKind ≠ .complete := by
        rw [hcount, List.countP_eq_zero] at hnone
        simpa using hnone
      have hkind : last.recordKind = .complete := by
        by_contra hne
        simp [observeProducer, hnone, hne] at hdone
      obtain ⟨-, hmis, -, hwf⟩ := slotAfter_of_no_receipt k hkinds
      refine ⟨earlier, last, by simp, hkind, hkinds, ?_, ?_⟩
      · by_contra hne
        simp [observeProducer, isWriteFailure, hkind, hne] at hwritten
      · by_contra hne
        simp [observeProducer, isAttemptedCountMismatch, hkind, hmis, hlen, hnone, hne] at hcounted
  · rintro ⟨hinc, earlier, last, rfl, hkind, hkinds, hwf, hatt⟩
    obtain ⟨huniq, hmono⟩ := (slotAfter_sequences k (earlier ++ [last])).mpr hinc
    obtain ⟨hnone, hmis, hafter, hwritten⟩ := slotAfter_of_no_receipt k hkinds
    have hlen := (slotAfter_counts k earlier).1
    refine ⟨?_, ?_, ?_, ?_, huniq, hmono⟩ <;> rw [slotAfter_concat]
    · simp [observeProducer, hnone, hkind]
    · simp [observeProducer, isWriteFailure, hwf, hwritten]
    · simp [observeProducer, isAttemptedCountMismatch, hatt, hlen, hnone, hmis]
    · simp [observeProducer, hnone, hafter]

/-- In a stream of one run, the slot of a producer is the fold over its records. -/
theorem foldRow_eq_slotAfter {records : List EventRecord}
    (hone : ∀ r ∈ records, ∀ s ∈ records, r.runId = s.runId) {r : EventRecord}
    (hr : r ∈ records) :
    foldRow freshSlot recordKey observeProducer (recordKey r) records =
      slotAfter (recordKey r) (ofProducer r.pid r.contextId records) := by
  have hfilter : records.filter (fun s => recordKey s = recordKey r) =
      ofProducer r.pid r.contextId records := by
    refine List.filter_congr fun s hs => ?_
    simp [recordKey, hone s hs r hr]
  rw [foldRow, hfilter, slotAfter]

/-- The verdict reads the slots: it holds when there are any, they belong to one
run, and no slot reports a defect. -/
theorem isComplete_observeAll {records : List EventRecord}
    (h : ∀ r ∈ records, r.RunIdAdmitted lib) (hne : records ≠ []) :
    isComplete (observeAll lib {} records) = true ↔
      (∀ r ∈ records, ∀ s ∈ records, r.runId = s.runId) ∧
        ∀ p ∈ (observeAll lib {} records).producers, SlotClean p := by
  obtain ⟨hcons, hprod, hlen, hinv, halloc, hwf⟩ := observeAll_spec h
  rw [← runIds_iff h hne]
  have hlen' : (observeAll lib {} records).recordsObserved ≠ 0 := by
    simpa [hlen, List.length_eq_zero_iff] using hne
  have hslots : (observeAll lib {} records).producers.length ≠ 0 := by
    obtain ⟨r, hr⟩ := List.exists_mem_of_ne_nil _ hne
    have hmem : foldRow freshSlot recordKey observeProducer (recordKey r) records ∈
        fold slotKey freshSlot recordKey observeProducer [] records :=
      (mem_fold_iff slotKey_freshSlot slotKey_observeProducer records _).mpr
        ⟨recordKey r, List.mem_map_of_mem hr, rfl⟩
    rw [hprod]
    exact List.length_pos_of_mem hmem |>.ne'
  have hwrite : (observeAll lib {} records).producerWriteFailures = 0 ∨
      ∃ p ∈ (observeAll lib {} records).producers, p.writeFailed ≠ 0 := by
    by_cases hzero : records.countP isWriteFailure = 0
    · exact Or.inl (by rw [hwf, hzero])
    · obtain ⟨r, hr, hfail⟩ := List.countP_pos_iff.mp (Nat.pos_of_ne_zero hzero)
      refine Or.inr ⟨_, by rw [hprod]; exact (mem_fold_iff slotKey_freshSlot
        slotKey_observeProducer records _).mpr ⟨recordKey r, List.mem_map_of_mem hr, rfl⟩, ?_⟩
      -- once a receipt reported a failed write, the slot keeps the mark
      have hkeep : ∀ items : List EventRecord, (∃ s ∈ items, isWriteFailure s = true) →
          (slotAfter (recordKey r) items).writeFailed ≠ 0 := by
        intro items
        induction items using List.reverseRecOn with
        | nil => simp
        | append_singleton items s ih =>
          rintro ⟨t, ht, hfail⟩
          rw [slotAfter_concat]
          by_cases hs : isWriteFailure s = true
          · simp [observeProducer, hs]
          · have htm : t ∈ items := by
              rcases List.mem_append.mp ht with ht | ht
              · exact ht
              · exact absurd hfail (List.mem_singleton.mp ht ▸ hs)
            simpa [observeProducer, hs] using ih ⟨t, htm, hfail⟩
      exact hkeep _ ⟨r, List.mem_filter.mpr ⟨hr, by simp⟩, hfail⟩
  have hcounts : incompleteProducers (observeAll lib {} records) = 0 ↔
      ∀ p ∈ (observeAll lib {} records).producers, p.completionRecords = 1 ∧ p.writeFailed = 0 ∧
        p.attemptedCountMismatches = 0 := by
    simp only [incompleteProducers, List.countP_eq_zero, decide_eq_true_eq, not_or, not_not]
  simp only [isComplete, hlen', hslots, hinv, halloc, hcounts, hcons.duplicates,
    hcons.nonmonotonic, hcons.mismatches, hcons.afterCompletion, List.sum_eq_zero_iff_forall_eq_nat,
    List.forall_mem_map, decide_eq_true_eq, ne_eq, not_false_eq_true, true_and]
  constructor
  · rintro ⟨-, hdup, hnon, hmis, haft, hone, hmixed, hall⟩
    refine ⟨⟨hone, hmixed⟩, fun p hp => ?_⟩
    obtain ⟨hdone, hwritten, hcounted⟩ := hall p hp
    exact ⟨hdone, hwritten, hcounted, haft p hp, hdup p hp, hnon p hp⟩
  · rintro ⟨⟨hone, hmixed⟩, hall⟩
    have hzero : (observeAll lib {} records).producerWriteFailures = 0 := by
      rcases hwrite with hzero | ⟨p, hp, hfail⟩
      · exact hzero
      · exact absurd (hall p hp).written hfail
    exact ⟨hzero, fun p hp => (hall p hp).unique, fun p hp => (hall p hp).monotonic,
      fun p hp => (hall p hp).counted, fun p hp => (hall p hp).last, hone, hmixed,
      fun p hp => ⟨(hall p hp).completed, (hall p hp).written, (hall p hp).counted⟩⟩

theorem isComplete_iff_streamComplete {records : List EventRecord}
    (h : ∀ r ∈ records, r.RunIdAdmitted lib) :
    isComplete (observeAll lib {} records) = true ↔ StreamComplete records := by
  by_cases hne : records = []
  · subst hne
    constructor
    · intro hc
      simp [observeAll, isComplete] at hc
    · intro hc
      exact absurd rfl hc.nonempty
  · have hprod := (observeAll_spec h).2.1
    rw [isComplete_observeAll h hne, hprod]
    constructor
    · rintro ⟨hone, hall⟩
      refine ⟨hne, hone, fun r hr => ?_⟩
      have hclean := hall _ ((mem_fold_iff slotKey_freshSlot slotKey_observeProducer records _).mpr
        ⟨recordKey r, List.mem_map_of_mem hr, rfl⟩)
      rw [foldRow_eq_slotAfter hone hr] at hclean
      exact (slotClean_iff _ _).mp hclean
    · rintro ⟨-, hone, hall⟩
      refine ⟨hone, fun p hp => ?_⟩
      obtain ⟨k, hk, rfl⟩ :=
        (mem_fold_iff slotKey_freshSlot slotKey_observeProducer records p).mp hp
      obtain ⟨r, hr, rfl⟩ := List.mem_map.mp hk
      rw [foldRow_eq_slotAfter hone hr]
      exact (slotClean_iff _ _).mpr (hall r hr)

theorem Interleaving.mem_iff {records records' : List EventRecord}
    (h : Interleaving records records') (r : EventRecord) : r ∈ records' ↔ r ∈ records := by
  have hself : ∀ items : List EventRecord, r ∈ items ↔ r ∈ ofProducer r.pid r.contextId items := by
    intro items
    simp [ofProducer]
  rw [hself records', h r.pid r.contextId, ← hself records]

/-- Completeness does not depend on how the producers' records interleave. -/
theorem Interleaving.streamComplete {records records' : List EventRecord}
    (h : Interleaving records records') (hc : StreamComplete records) : StreamComplete records' := by
  refine ⟨?_, fun r hr s hs => hc.oneRun r ((h.mem_iff r).mp hr) s ((h.mem_iff s).mp hs), ?_⟩
  · obtain ⟨r, hr⟩ := List.exists_mem_of_ne_nil _ hc.nonempty
    exact List.ne_nil_of_mem ((h.mem_iff r).mpr hr)
  · intro r hr
    rw [h r.pid r.contextId]
    exact hc.producers r ((h.mem_iff r).mp hr)

/-- The verdict after observing any admitted records into a zeroed health object
is the completeness of the stream, and the same for every interleaving. -/
theorem isComplete_characterization (lib : RecordLibrary) (records : List EventRecord)
    (h : ∀ r ∈ records, r.RunIdAdmitted lib) :
    (isComplete (observeAll lib {} records) = true ↔ StreamComplete records) ∧
      ∀ records', Interleaving records records' →
        isComplete (observeAll lib {} records') = isComplete (observeAll lib {} records) := by
  refine ⟨isComplete_iff_streamComplete h, fun records' hi => ?_⟩
  have h' : ∀ r ∈ records', r.RunIdAdmitted lib := fun r hr => h r ((hi.mem_iff r).mp hr)
  have hsymm : Interleaving records' records := fun pid contextId => (hi pid contextId).symm
  rw [Bool.eq_iff_iff, isComplete_iff_streamComplete h, isComplete_iff_streamComplete h']
  exact ⟨hsymm.streamComplete, hi.streamComplete⟩

def twoProducers : List EventRecord :=
  [{ recordKind := .fd, runId := some (.ofString "run"), pid := 1, sequence := 1 },
    { recordKind := .fork, runId := some (.ofString "run"), pid := 2, sequence := 1 },
    { recordKind := .complete, runId := some (.ofString "run"), pid := 2, sequence := 4,
      eventsAttempted := 1 },
    { recordKind := .complete, runId := some (.ofString "run"), pid := 1, eventsAttempted := 1 }]

theorem streamComplete_twoProducers : StreamComplete twoProducers :=
  (isComplete_characterization .standard twoProducers (fun r hr => by
    refine ⟨.ofString "run", ?_, by decide, by decide⟩
    fin_cases hr <;> rfl)).1.mp (by decide)

end ToolEvent.StreamHealth
