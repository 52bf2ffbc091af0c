import ToolEvent.LifecycleRollback

/-!
# Which exec attempt a failure undoes

The pending marks that an exec record leaves are not cleared when the process
goes on with other records. A later failure of the same process then undoes the
changes of the earlier, successful attempt.
-/

namespace ToolEvent.Lifecycle

open Fallible World LatestMatch Relation

/-- The model after records have been ingested in order, whether they are accepted
or not, with the outcomes of the allocation requests of each call. -/
def feed (lib : RecordLibrary) (m : Model) (calls : List (EventRecord × List Bool)) : Model :=
  calls.foldl (fun m call => (ingest lib call.1 ⟨m, call.2⟩).2.state) m

theorem feed_cons (lib : RecordLibrary) (m : Model) (call : EventRecord × List Bool)
    (calls : List (EventRecord × List Bool)) :
    feed lib m (call :: calls) = feed lib (feed lib m [call]) calls := rfl

theorem feed_append (lib : RecordLibrary) (m : Model) (calls calls' : List (EventRecord × List Bool)) :
    feed lib m (calls ++ calls') = feed lib (feed lib m calls) calls' := List.foldl_append

def isFailureOf (pid : ℤ) (record : EventRecord) : Bool :=
  record.recordKind = .execFail ∧ record.pid = pid

/-- The attempt that took the model `before` to `after` closed the entry at the index. -/
def ClosedAt (before after : Model) (index : ℕ) : Prop :=
  ∃ entry entry', before.entries[index]? = some entry ∧ entry.live = true ∧
    after.entries[index]? = some entry' ∧ entry'.live = false

/-- The attempt that took the model `before` to `after` raised the finding. -/
def Raised (before after : Model) (finding : Finding) : Prop :=
  finding ∈ after.findings.drop before.findings.length

/-- A step leaves the entries that the attempt closed and the findings it raised. -/
def Spares (before after m m' : Model) : Prop :=
  (∀ index, ClosedAt before after index → m'.entries[index]? = m.entries[index]?) ∧
    ∀ finding, Raised before after finding → finding ∈ m.findings → finding ∈ m'.findings

/-- No failure of the process among the later records undoes the attempt. -/
def FailuresSpare (lib : RecordLibrary) (before after : Model) (pid : ℤ) (start : Model)
    (later : List (EventRecord × List Bool)) : Prop :=
  ∀ earlier call rest, later = earlier ++ call :: rest → isFailureOf pid call.1 = true →
    Spares before after (feed lib start earlier) (feed lib start (earlier ++ [call]))

/-- An entry of the process that an exec record closed and no failure reopened. -/
def PendingEntry (pid : ℤ) (index : ℕ) (m : Model) : Prop :=
  ∃ entry, m.entries[index]? = some entry ∧ entry.isPendingOf pid = true ∧ entry.live = false

def PendingFinding (pid : ℤ) (finding : Finding) (m : Model) : Prop :=
  finding ∈ m.findings ∧ finding.isPendingOf pid = true ∧ finding.kind = .execInherit

section Persistence

variable {pid : ℤ} {record : EventRecord} {m m' : Model}

theorem PendingEntry.of_change {index : ℕ} (hrecord : isFailureOf pid record = false)
    (hstep : Change record m m') (h : PendingEntry pid index m) : PendingEntry pid index m' := by
  obtain ⟨entry, hentry, hpending, hclosed⟩ := h
  cases hstep with
  | entryCapacity => exact ⟨entry, hentry, hpending, hclosed⟩
  | findingCapacity => exact ⟨entry, hentry, hpending, hclosed⟩
  | addEntry acquired resourceId =>
    refine ⟨entry, ?_, hpending, hclosed⟩
    rw [List.getElem?_append_left (List.getElem?_eq_some_iff.mp hentry).1, hentry]
  | addFinding => exact ⟨entry, hentry, hpending, hclosed⟩
  | close released pre entry' post eq live =>
    -- only a live entry is closed, so it is another one
    have hother : index ≠ pre.length := by
      rintro rfl
      rw [eq, getElem?_middle, Option.some.injEq] at hentry
      rw [hentry, hclosed] at live
      exact absurd live (by simp)
    exact ⟨entry, by rw [getElem?_of_ne_middle hother entry', ← eq, hentry], hpending, hclosed⟩
  | markPending pre entry' post eq closed =>
    by_cases hsame : index = pre.length
    · subst hsame
      rw [eq, getElem?_middle, Option.some.injEq] at hentry
      subst hentry
      refine ⟨_, getElem?_middle _ _ _, ?_, hclosed⟩
      simp only [Entry.isPendingOf, decide_eq_true_eq] at hpending ⊢
      exact ⟨hpending.1, rfl⟩
    · exact ⟨entry, by rw [getElem?_of_ne_middle hsame entry', ← eq, hentry], hpending, hclosed⟩
  | takeStray => exact ⟨entry, hentry, hpending, hclosed⟩
  | rollback kind =>
    have hother : record.pid ≠ pid := by simpa [isFailureOf, kind] using hrecord
    have howner : entry.pid = pid := by
      simp only [Entry.isPendingOf, decide_eq_true_eq] at hpending
      exact hpending.1
    have hfixed : entry.rolledBack record.pid = entry :=
      Entry.rolledBack_of_ne (by rw [howner]; exact hother.symm)
    refine ⟨entry, ?_, hpending, hclosed⟩
    simp only [rollbackExec, List.getElem?_map, hentry, Option.map_some, hfixed]

theorem PendingFinding.of_change {finding : Finding} (hrecord : isFailureOf pid record = false)
    (hstep : Change record m m') (h : PendingFinding pid finding m) :
    PendingFinding pid finding m' := by
  obtain ⟨hmem, hpending, hkind⟩ := h
  cases hstep with
  | addFinding => exact ⟨List.mem_append_left _ hmem, hpending, hkind⟩
  | takeStray owner resourceClass resourceId =>
    have hnot : finding.isStray owner resourceClass resourceId = false := by
      simp [Finding.isStray, hkind]
    exact ⟨(List.mem_eraseP_of_neg (by simp [hnot])).mpr hmem, hpending, hkind⟩
  | rollback kind =>
    have hother : record.pid ≠ pid := by simpa [isFailureOf, kind] using hrecord
    have hkept : finding.isPendingOf record.pid = false := by
      simp only [Finding.isPendingOf, decide_eq_true_eq] at hpending
      simp [Finding.isPendingOf, hpending.1, hother.symm]
    exact ⟨List.mem_filter.mpr ⟨hmem, by simp [hkept]⟩, hpending, hkind⟩
  | _ => exact ⟨hmem, hpending, hkind⟩

end Persistence

/-- What the elementary changes of a record keep, ingesting the record keeps, as long
as it only depends on the entries and findings of the model. -/
theorem ingest_keeps {lib : RecordLibrary} {record : EventRecord} (I : Model → Prop)
    (hchange : ∀ m m', Change record m m' → I m → I m')
    (hstore : ∀ m m' : Model, m.store = m'.store → I m → I m') (w : World Model) (h : I w.state) :
    I (ingest lib record w).2.state := by
  have hopen : I { w.state with finished := false } := hstore w.state _ rfl h
  rcases ingest_cases lib record w with
    ⟨_, hrun⟩ | ⟨_, r, w', _, hchanges, ⟨e, _, hrun⟩ | ⟨_, hrun⟩⟩
  · rw [hrun]
    exact h
  · rw [hrun]
    exact invariant_of_reaches I hchange hchanges hopen
  · rw [hrun]
    have hw' := invariant_of_reaches I hchange hchanges hopen
    exact hstore w'.state _ (by simp [Model.store]) hw'

/-- Once a model has a run identity, it keeps it. -/
theorem ingest_runId {lib : RecordLibrary} {record : EventRecord} {w : World Model}
    (h : w.state.runId.isEmpty = false) :
    (ingest lib record w).2.state.runId = w.state.runId := by
  rcases ingest_cases lib record w with
    ⟨_, hrun⟩ | ⟨_, r, w', _, hchanges, ⟨e, _, hrun⟩ | ⟨_, hrun⟩⟩
  · rw [hrun]
  all_goals
    have hsame := invariant_of_reaches (fun m' : Model => m'.runId = w.state.runId)
      (fun _ _ hstep hm => hstep.header.1.trans hm) hchanges rfl
    rw [hrun]
  · exact hsame
  · simp only [Model.adoptRunId, hsame, h, Bool.false_eq_true, if_false]

theorem isAdmitted_congr {lib : RecordLibrary} {m m' : Model} (h : m.runId = m'.runId)
    (record : EventRecord) : isAdmitted lib m record = isAdmitted lib m' record := by
  unfold isAdmitted
  rw [h]

/-- A failure of the process that is refused changes nothing. -/
theorem ingest_of_refused {lib : RecordLibrary} {record : EventRecord} {w : World Model}
    (h : isAdmitted lib w.state record = false) : ingest lib record w = (.error .check, w) := by
  rcases ingest_cases lib record w with ⟨_, hrun⟩ | ⟨hadmitted, _⟩
  · exact hrun
  · simp [h] at hadmitted

theorem ingest_failure {lib : RecordLibrary} {record : EventRecord} {w : World Model}
    (hadmitted : isAdmitted lib w.state record = true) (hkind : record.recordKind = .execFail) :
    (ingest lib record w).2.state.entries = w.state.entries.map (Entry.rolledBack record.pid) ∧
      (ingest lib record w).2.state.findings =
        w.state.findings.filter (fun finding => ¬ finding.isPendingOf record.pid) := by
  have hstep : ∀ w' : World Model, ingestKind lib record w' =
      (.ok (), { w' with state := rollbackExec record.pid w'.state }) := by
    intro w'
    simp only [ingestKind, hkind, run_updateState]
  simp only [ingest, run_bind, run_readState, hadmitted, if_true, run_updateState, hstep,
    Model.adoptRunId_entries, Model.adoptRunId_findings]
  exact ⟨rfl, rfl⟩

theorem addFinding_ok {kind : FindingKind} {record : EventRecord} {previous : Option Entry}
    {w w' : World Model} (h : addFinding kind record previous w = (.ok (), w')) :
    w'.state.entries = w.state.entries ∧
      w'.state.findings = w.state.findings ++ [newFinding kind record previous] := by
  obtain ⟨_, w₁, hroom, h⟩ := run_bind_eq_ok.mp h
  obtain ⟨_, w₂, hcopy, h⟩ := run_bind_eq_ok.mp h
  obtain ⟨_, w₃, hcopy', hupdate⟩ := run_bind_eq_ok.mp h
  obtain ⟨_, capacity, hw₁⟩ := ensureFindingCapacity_ok hroom
  have hw₂ : w₂.state = w₁.state := by
    rw [← state_eq_of_evolves (fun r => evolves_copyTexts 2) w₁, hcopy]
  have hw₃ : w₃.state = w₂.state := by
    rw [← state_eq_of_evolves (fun r => evolves_copyTexts (if previous.isSome then 4 else 2)) w₂,
      hcopy']
  rw [run_updateState, Prod.mk.injEq] at hupdate
  rw [← hupdate.2, hw₃, hw₂, hw₁]
  exact ⟨rfl, rfl⟩

/-- What an accepted exec record does: nothing without a live descriptor, else it
leaves a pending finding or a pending closed entry. -/
theorem ingestExec_ok {exec : EventRecord} {w w' : World Model}
    (h : ingestExec exec w = (.ok (), w')) :
    (findLatest w.state.entries exec.pid fdResourceClass (formatFdIdentifier exec.fd) true = none ∧
        w'.state.entries = w.state.entries ∧ w'.state.findings = w.state.findings) ∨
      ∃ pre entry post,
        SplitAt (Entry.matches exec.pid fdResourceClass (formatFdIdentifier exec.fd) true)
          w.state.entries pre entry post ∧
        ((w'.state.entries = w.state.entries ∧ w'.state.findings = w.state.findings ++
            [newFinding .execInherit (normalizedExec exec) (some entry)]) ∨
          (w'.state.entries =
              pre ++ (entry.closedBy (normalizedExec exec)).markExecPending :: post ∧
            w'.state.findings = w.state.findings)) := by
  unfold ingestExec at h
  rw [run_readState_bind] at h
  cases hfind : findLatest w.state.entries exec.pid fdResourceClass (formatFdIdentifier exec.fd)
    true with
  | none =>
    simp only [hfind, run_pure, Prod.mk.injEq] at h
    exact Or.inl ⟨rfl, by rw [← h.2], by rw [← h.2]⟩
  | some index =>
    obtain ⟨pre, entry, post, hs, rfl⟩ := exists_split_of_latestIndex hfind
    refine Or.inr ⟨pre, entry, post, hs, ?_⟩
    simp only [hfind] at h
    by_cases hkeep : exec.cloexec = 0
    · simp only [hkeep, if_true, hs.getElem?] at h
      exact Or.inl (addFinding_ok h)
    · simp only [hkeep, if_false] at h
      obtain ⟨_, w₁, hrelease, hupdate⟩ := run_bind_eq_ok.mp h
      have hw₁ := releaseEntry_ok hs hrelease
      rw [run_updateState, Prod.mk.injEq] at hupdate
      rw [← hupdate.2, hw₁]
      exact Or.inr ⟨modify_append_cons _ _ _ _, rfl⟩

/-- An accepted exec record: as `ingestExec_ok`, and the model has a run identity. -/
theorem ingest_exec_ok {lib : RecordLibrary} {exec : EventRecord} {m : Model}
    {outcomes : List Bool} {w : World Model} (hexec : exec.recordKind = .exec)
    (h : ingest lib exec ⟨m, outcomes⟩ = (.ok (), w)) :
    w.state.runId.isEmpty = false ∧
      ((findLatest m.entries exec.pid fdResourceClass (formatFdIdentifier exec.fd) true = none ∧
          w.state.entries = m.entries ∧ w.state.findings = m.findings) ∨
        ∃ pre entry post,
          SplitAt (Entry.matches exec.pid fdResourceClass (formatFdIdentifier exec.fd) true)
            m.entries pre entry post ∧
          ((w.state.entries = m.entries ∧ w.state.findings = m.findings ++
              [newFinding .execInherit (normalizedExec exec) (some entry)]) ∨
            (w.state.entries =
                pre ++ (entry.closedBy (normalizedExec exec)).markExecPending :: post ∧
              w.state.findings = m.findings))) := by
  rcases ingest_cases lib exec ⟨m, outcomes⟩ with
    ⟨_, hrun⟩ | ⟨hadmitted, r, w', hkind, _, ⟨e, _, hrun⟩ | ⟨rfl, hrun⟩⟩
  · simp [h] at hrun
  · simp [h] at hrun
  obtain ⟨runId, hrunId, _, hnonempty, _, _⟩ := isAdmitted_iff.mp hadmitted
  obtain rfl := (Prod.mk.inj (h.symm.trans hrun)).2
  simp only [ingestKind, hexec] at hkind
  refine ⟨?_, by simpa using ingestExec_ok hkind⟩
  unfold Model.adoptRunId
  split
  · simpa [hrunId] using hnonempty
  · next hset => simpa using hset

theorem feed_runId {lib : RecordLibrary} {m : Model} (h : m.runId.isEmpty = false)
    (calls : List (EventRecord × List Bool)) : (feed lib m calls).runId = m.runId := by
  induction calls generalizing m with
  | nil => rfl
  | cons call calls ih =>
    have hfirst : (feed lib m [call]).runId = m.runId := ingest_runId h
    rw [feed_cons, ih (by rw [hfirst]; exact h), hfirst]

theorem feed_keeps {lib : RecordLibrary} {pid : ℤ} {I : Model → Prop}
    (hkeep : ∀ (record : EventRecord) (w : World Model), isFailureOf pid record = false →
      I w.state → I (ingest lib record w).2.state)
    {calls : List (EventRecord × List Bool)}
    (hcalls : ∀ call ∈ calls, isFailureOf pid call.1 = false) {m : Model} (hm : I m) :
    I (feed lib m calls) := by
  induction calls generalizing m with
  | nil => exact hm
  | cons call calls ih =>
    exact ih (fun c hc => hcalls c (List.mem_cons_of_mem _ hc))
      (hkeep call.1 ⟨m, call.2⟩ (hcalls call List.mem_cons_self) hm)

/-- A change that every record but a failure keeps, and that every admitted failure
undoes, is undone by the first admitted failure. -/
theorem exists_unspared {lib : RecordLibrary} {before after : Model} {pid : ℤ} (I : Model → Prop)
    (hkeep : ∀ (record : EventRecord) (w : World Model), isFailureOf pid record = false →
      I w.state → I (ingest lib record w).2.state)
    (hbreak : ∀ (record : EventRecord) (w : World Model), isFailureOf pid record = true →
      isAdmitted lib w.state record = true → I w.state →
      ¬ Spares before after w.state (ingest lib record w).2.state)
    {start : Model} (hid : start.runId.isEmpty = false) (hstart : I start)
    {later : List (EventRecord × List Bool)}
    (hfailure : ∃ call ∈ later, isFailureOf pid call.1 = true ∧
      isAdmitted lib start call.1 = true) :
    ¬ FailuresSpare lib before after pid start later := by
  induction later generalizing start with
  | nil => simp at hfailure
  | cons call later ih =>
    intro hspare
    by_cases hfirst : isFailureOf pid call.1 = true ∧ isAdmitted lib start call.1 = true
    · exact hbreak call.1 ⟨start, call.2⟩ hfirst.1 hfirst.2 hstart
        (hspare [] call later rfl hfirst.1)
    · have hnext : I (feed lib start [call]) := by
        cases hkind : isFailureOf pid call.1 with
        | false => exact hkeep call.1 ⟨start, call.2⟩ hkind hstart
        | true =>
          have hrefused : isAdmitted lib start call.1 = false := by simpa [hkind] using hfirst
          have hsame : feed lib start [call] = start := by
            simp [feed, ingest_of_refused (w := ⟨start, call.2⟩) hrefused]
          rwa [hsame]
      have hrunId : (feed lib start [call]).runId = start.runId := feed_runId hid [call]
      obtain ⟨failure, hmem, hkind, hadmitted⟩ := hfailure
      have hrest : failure ∈ later := by
        rcases List.mem_cons.mp hmem with rfl | hrest
        · exact absurd ⟨hkind, hadmitted⟩ hfirst
        · exact hrest
      refine ih (by rw [hrunId]; exact hid) hnext
        ⟨failure, hrest, hkind, by rwa [isAdmitted_congr hrunId]⟩ ?_
      intro earlier c rest hlater hc
      have hat := hspare (call :: earlier) c rest (by rw [hlater]; rfl) hc
      rwa [List.cons_append, feed_cons lib start call earlier, feed_cons lib start call] at hat

theorem pendingEntry_kept {lib : RecordLibrary} {pid : ℤ} {index : ℕ} (record : EventRecord)
    (w : World Model) (hrecord : isFailureOf pid record = false)
    (h : PendingEntry pid index w.state) : PendingEntry pid index (ingest lib record w).2.state := by
  refine ingest_keeps _ (fun _ _ hstep => PendingEntry.of_change hrecord hstep) ?_ w h
  intro m m' hstore hm
  have hentries : m.entries = m'.entries := congrArg Store.entries hstore
  unfold PendingEntry at hm ⊢
  rwa [← hentries]

theorem pendingFinding_kept {lib : RecordLibrary} {pid : ℤ} {finding : Finding}
    (record : EventRecord) (w : World Model) (hrecord : isFailureOf pid record = false)
    (h : PendingFinding pid finding w.state) :
    PendingFinding pid finding (ingest lib record w).2.state := by
  refine ingest_keeps _ (fun _ _ hstep => PendingFinding.of_change hrecord hstep) ?_ w h
  intro m m' hstore hm
  have hfindings : m.findings = m'.findings := congrArg Store.findings hstore
  unfold PendingFinding at hm ⊢
  rwa [← hfindings]

theorem pendingEntry_broken {lib : RecordLibrary} {before after : Model} {pid : ℤ} {index : ℕ}
    (hclosed : ClosedAt before after index) (record : EventRecord) (w : World Model)
    (hfailure : isFailureOf pid record = true) (hadmitted : isAdmitted lib w.state record = true)
    (hpending : PendingEntry pid index w.state) :
    ¬ Spares before after w.state (ingest lib record w).2.state := by
  intro hspares
  simp only [isFailureOf, decide_eq_true_eq] at hfailure
  obtain ⟨entry, hentry, hmark, hnotLive⟩ := hpending
  have hsame := hspares.1 index hclosed
  rw [(ingest_failure hadmitted hfailure.1).1, List.getElem?_map, hentry, Option.map_some,
    Option.some.injEq, hfailure.2] at hsame
  have hlive : (entry.rolledBack pid).live = true := by simp [Entry.rolledBack, hmark, Entry.reopened]
  rw [hsame, hnotLive] at hlive
  exact absurd hlive (by simp)

theorem pendingFinding_broken {lib : RecordLibrary} {before after : Model} {pid : ℤ}
    {finding : Finding} (hraised : Raised before after finding) (record : EventRecord)
    (w : World Model) (hfailure : isFailureOf pid record = true)
    (hadmitted : isAdmitted lib w.state record = true)
    (hpending : PendingFinding pid finding w.state) :
    ¬ Spares before after w.state (ingest lib record w).2.state := by
  intro hspares
  simp only [isFailureOf, decide_eq_true_eq] at hfailure
  have hmem := hspares.2 finding hraised hpending.1
  rw [(ingest_failure hadmitted hfailure.1).2, hfailure.2] at hmem
  simp [hpending.2.1] at hmem

/-- The model holds a live descriptor for the exec record to close or to report. -/
def FindsDescriptor (m : Model) (exec : EventRecord) : Prop :=
  findLatest m.entries exec.pid fdResourceClass (formatFdIdentifier exec.fd) true ≠ none

/-- The later failures of a process spare what an exec record did, with a further
record of the same process and context in between, exactly if the exec record found
no live descriptor or no failure is accepted later. -/
theorem failuresSpare_iff (lib : RecordLibrary) (m : Model) (exec : EventRecord)
    (outcomes : List Bool) (w : World Model) (hexec : exec.recordKind = .exec)
    (haccepted : ingest lib exec ⟨m, outcomes⟩ = (.ok (), w))
    (between : List (EventRecord × List Bool)) (further : EventRecord × List Bool)
    (hbetween : ∀ call ∈ between, isFailureOf exec.pid call.1 = false)
    (hcontext : further.1.pid = exec.pid ∧ further.1.contextId = exec.contextId)
    (hkind : further.1.recordKind ≠ .exec ∧ further.1.recordKind ≠ .execFail)
    (later : List (EventRecord × List Bool)) :
    FailuresSpare lib m w.state exec.pid (feed lib w.state (between ++ [further])) later ↔
      ¬ FindsDescriptor m exec ∨
        ∀ call ∈ later, isFailureOf exec.pid call.1 = true →
          isAdmitted lib w.state call.1 = false := by
  obtain ⟨hid, heffect⟩ := ingest_exec_ok hexec haccepted
  have hstartId : (feed lib w.state (between ++ [further])).runId = w.state.runId :=
    feed_runId hid (between ++ [further])
  have hquiet : ∀ call ∈ between ++ [further], isFailureOf exec.pid call.1 = false := by
    intro call hcall
    rcases List.mem_append.mp hcall with hcall | hcall
    · exact hbetween call hcall
    · obtain rfl := List.mem_singleton.mp hcall
      simp [isFailureOf, hkind.2]
  constructor
  · intro hspare
    by_contra hnot
    rw [not_or, not_not] at hnot
    obtain ⟨hfinds, hlater⟩ := hnot
    have hfailure : ∃ call ∈ later, isFailureOf exec.pid call.1 = true ∧
        isAdmitted lib (feed lib w.state (between ++ [further])) call.1 = true := by
      by_contra hnone
      refine hlater fun call hcall hfailure => ?_
      by_contra hadmitted
      refine hnone ⟨call, hcall, hfailure, ?_⟩
      rw [isAdmitted_congr hstartId]
      simpa using hadmitted
    have hstart : (feed lib w.state (between ++ [further])).runId.isEmpty = false := by
      rw [hstartId]
      exact hid
    rcases heffect with
      ⟨hnone, _⟩ | ⟨pre, entry, post, hs, ⟨hentries, hfindings⟩ | ⟨hentries, hfindings⟩⟩
    · exact hfinds hnone
    · have hpending : PendingFinding exec.pid
          (newFinding .execInherit (normalizedExec exec) (some entry)) w.state :=
        ⟨by rw [hfindings]; exact List.mem_append_right _ (List.mem_singleton_self _),
          by simp [Finding.isPendingOf, newFinding, normalizedExec], rfl⟩
      have hraised : Raised m w.state
          (newFinding .execInherit (normalizedExec exec) (some entry)) := by
        rw [Raised, hfindings, List.drop_left]
        exact List.mem_singleton_self _
      exact exists_unspared _ pendingFinding_kept (pendingFinding_broken hraised) hstart
        (feed_keeps pendingFinding_kept hquiet hpending) hfailure hspare
    · have hkey := hs.holds
      simp only [Entry.matches, decide_eq_true_eq, forall_const] at hkey
      have hpending : PendingEntry exec.pid pre.length w.state :=
        ⟨_, by rw [hentries, getElem?_middle],
          by simp [Entry.isPendingOf, Entry.markExecPending, Entry.closedBy, hkey.1], rfl⟩
      have hclosed : ClosedAt m w.state pre.length :=
        ⟨entry, _, hs.getElem?, hkey.2.2.2, by rw [hentries, getElem?_middle], rfl⟩
      exact exists_unspared _ pendingEntry_kept (pendingEntry_broken hclosed) hstart
        (feed_keeps pendingEntry_kept hquiet hpending) hfailure hspare
  · rintro (hnone | hrefused) earlier call rest hlater hfailure
    · rcases heffect with ⟨_, hentries, hfindings⟩ | ⟨pre, entry, post, hs, _⟩
      · refine ⟨?_, ?_⟩
        · rintro index ⟨entry, entry', hentry, hlive, hentry', hclosed⟩
          rw [hentries, hentry, Option.some.injEq] at hentry'
          rw [← hentry', hlive] at hclosed
          exact absurd hclosed (by simp)
        · intro finding hraised
          simp [Raised, hfindings] at hraised
      · exact absurd (hs.latestIndex_eq.symm.trans (not_not.mp hnone)) (by simp)
    · have hmem : call ∈ later := by simp [hlater]
      have hrunId : (feed lib (feed lib w.state (between ++ [further])) earlier).runId =
          w.state.runId := by
        rw [feed_runId (by rw [hstartId]; exact hid), hstartId]
      have hsame : feed lib (feed lib w.state (between ++ [further])) (earlier ++ [call]) =
          feed lib (feed lib w.state (between ++ [further])) earlier := by
        have hcall := ingest_of_refused
          (w := ⟨feed lib (feed lib w.state (between ++ [further])) earlier, call.2⟩)
          ((isAdmitted_congr hrunId _).trans (hrefused call hmem hfailure))
        rw [feed_append]
        simp [feed] at hcall ⊢
        rw [hcall]
      rw [hsame]
      exact ⟨fun _ _ => rfl, fun _ _ h => h⟩

/-- Process 1 execs with its close-on-exec descriptor 3, opens descriptor 5 in the
new image, and then fails to exec again. -/
def oneDescriptor : Model :=
  feed .standard {}
    [({ recordKind := .fd, runId := some (.ofString "run"), pid := 1, fd := 3, sequence := 1 }, [])]

def successfulExec : EventRecord :=
  { recordKind := .exec, runId := some (.ofString "run"), pid := 1, fd := 3, cloexec := 1,
    sequence := 2 }

def openInNewImage : EventRecord :=
  { recordKind := .fd, runId := some (.ofString "run"), pid := 1, fd := 5, sequence := 3 }

def laterFailure : EventRecord :=
  { recordKind := .execFail, runId := some (.ofString "run"), pid := 1, sequence := 4 }

def afterExec : Model := feed .standard oneDescriptor [(successfulExec, [])]

theorem failuresSpare_iff_successfulExec :
    FailuresSpare .standard oneDescriptor afterExec 1
        (feed .standard afterExec ([] ++ [(openInNewImage, [])])) [(laterFailure, [])] ↔
      ¬ FindsDescriptor oneDescriptor successfulExec ∨
        ∀ call ∈ [(laterFailure, ([] : List Bool))], isFailureOf 1 call.1 = true →
          isAdmitted .standard afterExec call.1 = false :=
  failuresSpare_iff .standard oneDescriptor successfulExec [] ⟨afterExec, []⟩ rfl rfl []
    (openInNewImage, []) (by decide) (by decide) (by decide) [(laterFailure, [])]

theorem laterFailure_undoes_successfulExec :
    ¬ ∀ (lib : RecordLibrary) (m : Model) (exec : EventRecord) (outcomes : List Bool)
        (w : World Model) (between : List (EventRecord × List Bool))
        (further : EventRecord × List Bool) (later : List (EventRecord × List Bool)),
      exec.recordKind = .exec → ingest lib exec ⟨m, outcomes⟩ = (.ok (), w) →
      (∀ call ∈ between, isFailureOf exec.pid call.1 = false) →
      further.1.pid = exec.pid ∧ further.1.contextId = exec.contextId →
      further.1.recordKind ≠ .exec ∧ further.1.recordKind ≠ .execFail →
      FailuresSpare lib m w.state exec.pid (feed lib w.state (between ++ [further])) later := by
  intro h
  have hspare := h .standard oneDescriptor successfulExec [] ⟨afterExec, []⟩ [] (openInNewImage, [])
    [(laterFailure, [])] rfl rfl (by decide) (by decide) (by decide)
  have hentry := (hspare [] (laterFailure, []) [] rfl (by decide)).1 0 ⟨_, _, rfl, rfl, rfl, rfl⟩
  exact absurd hentry (by decide)

end ToolEvent.Lifecycle
