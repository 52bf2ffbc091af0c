import ToolEvent.LifecycleKeyView

/-!
# Where the fork marker stands in the stream

A child may act on inherited descriptors before the marker of the fork reaches the
stream. The replay then gives the same result as with the marker first, exactly if
the child opened none of the inherited descriptors in between.
-/

namespace ToolEvent.Lifecycle

namespace KeyView

def fresh : KeyView := ⟨0, false, []⟩

/-- Two views agree on the live entries and on what was reported, up to order. -/
def Agrees (view view' : KeyView) : Prop :=
  view.live = view'.live ∧ view.reports.Perm view'.reports

theorem foldl_fdStep_unseen {records : List EventRecord}
    (hclosed : ∀ record ∈ records, record.fdKind = .closed) (reports : List (FindingKind × ℕ)) :
    records.foldl fdStep ⟨0, false, reports⟩ =
      ⟨0, false, reports ++ records.map (fun record => (.strayRelease, record.sequence))⟩ := by
  induction records generalizing reports with
  | nil => simp
  | cons record records ih =>
    have hstep : fdStep ⟨0, false, reports⟩ record =
        ⟨0, false, reports ++ [(.strayRelease, record.sequence)]⟩ := by
      simp [fdStep, hclosed record List.mem_cons_self, release]
    rw [List.foldl_cons, hstep, ih (fun r hr => hclosed r (List.mem_cons_of_mem _ hr))]
    simp

theorem clone_foldl_fdStep {records : List EventRecord}
    (hclosed : ∀ record ∈ records, record.fdKind = .closed) :
    (records.foldl fdStep fresh).clone = records.foldl fdStep fresh.clone := by
  let strays := records.map (fun record => (FindingKind.strayRelease, record.sequence))
  have hstrays : ∀ report ∈ strays, isStray report = true := by simp [strays, isStray]
  have hall : strays.filter isStray = strays := List.filter_eq_self.mpr hstrays
  have hnone : strays.filter (fun report => ¬ isStray report) = [] :=
    List.filter_eq_nil_iff.mpr fun report hreport => by simp [hstrays report hreport]
  have hrelease : strays.foldl (fun v report => v.release report.2) fresh.clone =
      records.foldl fdStep fresh.clone := by
    rw [List.foldl_map]
    refine List.foldl_ext _ _ _ fun v record hrecord => ?_
    simp [fdStep, hclosed record hrecord]
  have hlate : (records.foldl fdStep fresh).clone = reconcile ⟨1, true, strays⟩ := by
    rw [fresh, foldl_fdStep_unseen hclosed]
    rfl
  rw [hlate, ← hrelease, reconcile, hall, hnone]
  rfl

def isDuplicate (report : FindingKind × ℕ) : Bool := report.1 = .duplicateAcquire

/-- Before the first open: the late view has not been seen, and the early one holds
the clone unless the late one has a stray release. -/
structure Early (early late : KeyView) : Prop where
  late_unseen : late.live = 0 ∧ late.seen = false
  early_seen : early.seen = true
  noStray : early.reports.countP isStray = 0
  noDuplicate : early.reports.countP isDuplicate =
    late.reports.countP isDuplicate
  claimed : early.live ≠ 0 ∨ late.reports.countP isStray ≠ 0

/-- After it: the late view has a stray release too many, or a duplicate too few. -/
structure Apart (early late : KeyView) : Prop where
  seen : early.seen = true ∧ late.seen = true
  differs : early.reports.countP isStray < late.reports.countP isStray ∨
    (late.live ≤ early.live ∧ late.reports.countP isDuplicate <
      early.reports.countP isDuplicate)

variable {early late : KeyView}

theorem Early.release (h : Early early late) (sequence : ℕ) :
    Early (early.release sequence) (late.release sequence) := by
  obtain ⟨⟨hlive, hunseen⟩, hseen, hstray, hduplicate, _⟩ := h
  have hlate : late.release sequence =
      { late with reports := late.reports ++ [(.strayRelease, sequence)] } := by
    simp [KeyView.release, hlive, hunseen]
  have hearly : (early.release sequence).reports.countP isStray = 0 ∧
      (early.release sequence).reports.countP isDuplicate = early.reports.countP isDuplicate := by
    unfold KeyView.release
    split <;> simp [hstray, isStray, isDuplicate]
  refine ⟨?_, ?_, hearly.1, ?_, Or.inr ?_⟩
  · rw [hlate]
    exact ⟨hlive, hunseen⟩
  · rw [release_seen, hseen]
  · rw [hearly.2, hduplicate, hlate]
    simp [isDuplicate]
  · rw [hlate]
    simp [isStray]

theorem Early.acquire (h : Early early late) (sequence : ℕ) :
    Apart (early.acquire sequence) (late.acquire sequence) := by
  obtain ⟨⟨hlive, hunseen⟩, hseen, hstray, hduplicate, hclaimed⟩ := h
  refine ⟨⟨rfl, rfl⟩, ?_⟩
  by_cases hheld : early.live = 0
  · left
    have hlate := hclaimed.resolve_left (not_not.mpr hheld)
    simp only [KeyView.acquire, hheld, hlive, if_true, List.append_nil]
    omega
  · right
    refine ⟨by simp [KeyView.acquire, hlive], ?_⟩
    simp [KeyView.acquire, hheld, hlive, hduplicate, isDuplicate]

theorem Apart.release (h : Apart early late) (sequence : ℕ) :
    Apart (early.release sequence) (late.release sequence) := by
  obtain ⟨⟨hearly, hlate⟩, hdiffers⟩ := h
  have hreports : ∀ view : KeyView, view.seen = true →
      (view.release sequence).reports.countP isStray = view.reports.countP isStray ∧
        (view.release sequence).reports.countP isDuplicate = view.reports.countP isDuplicate ∧
        (view.release sequence).live = view.live - 1 := by
    intro view hseen
    unfold KeyView.release
    split
    · next hzero => simp [isStray, isDuplicate, hzero]
    · simp
  obtain ⟨hs, hd, hl⟩ := hreports early hearly
  obtain ⟨hs', hd', hl'⟩ := hreports late hlate
  refine ⟨by rw [release_seen, release_seen]; exact ⟨hearly, hlate⟩, ?_⟩
  rw [hs, hd, hl, hs', hd', hl']
  omega

theorem Apart.acquire (h : Apart early late) (sequence : ℕ) :
    Apart (early.acquire sequence) (late.acquire sequence) := by
  obtain ⟨_, hdiffers⟩ := h
  have hstray : ∀ view : KeyView,
      (view.acquire sequence).reports.countP isStray = view.reports.countP isStray := by
    intro view
    by_cases hzero : view.live = 0 <;> simp [KeyView.acquire, hzero, isStray]
  have hduplicate : ∀ view : KeyView, (view.acquire sequence).reports.countP isDuplicate =
      view.reports.countP isDuplicate + if view.live = 0 then 0 else 1 := by
    intro view
    by_cases hzero : view.live = 0 <;> simp [KeyView.acquire, hzero, isDuplicate]
  refine ⟨⟨rfl, rfl⟩, ?_⟩
  rw [hstray, hstray, hduplicate, hduplicate]
  rcases hdiffers with hlt | ⟨hle, hlt⟩
  · exact Or.inl hlt
  · refine Or.inr ⟨Nat.succ_le_succ hle, ?_⟩
    split <;> split <;> omega

theorem Apart.foldl (h : Apart early late) (records : List EventRecord) :
    Apart (records.foldl fdStep early) (records.foldl fdStep late) := by
  induction records generalizing early late with
  | nil => exact h
  | cons record records ih =>
    refine ih ?_
    unfold fdStep
    cases record.fdKind with
    | opened => exact h.acquire _
    | closed => exact h.release _

theorem Apart.not_agrees (h : Apart early late) : ¬ Agrees early late := by
  rintro ⟨_, hperm⟩
  have hstray := hperm.countP_eq isStray
  have hduplicate := hperm.countP_eq isDuplicate
  rcases h.differs with hlt | ⟨_, hlt⟩ <;> omega

/-- Once a record opens the descriptor, the two views stay apart. -/
theorem Early.foldl (h : Early early late) {records : List EventRecord}
    (hopened : ∃ record ∈ records, record.fdKind = .opened) :
    Apart (records.foldl fdStep early) (records.foldl fdStep late) := by
  induction records generalizing early late with
  | nil => simp at hopened
  | cons record records ih =>
    rw [List.foldl_cons, List.foldl_cons]
    cases hkind : record.fdKind with
    | opened =>
      refine Apart.foldl ?_ records
      simpa only [fdStep, hkind] using h.acquire record.sequence
    | closed =>
      refine ih ?_ ?_
      · simpa only [fdStep, hkind] using h.release record.sequence
      · obtain ⟨other, hmem, hother⟩ := hopened
        rcases List.mem_cons.mp hmem with rfl | hrest
        · simp [hkind] at hother
        · exact ⟨other, hrest, hother⟩

/-- The fork may be moved over descriptor records of a fresh key exactly if none of
them opens the descriptor. -/
theorem agrees_iff (before after : List EventRecord) :
    Agrees ((before ++ after).foldl fdStep fresh.clone)
        (after.foldl fdStep (before.foldl fdStep fresh).clone) ↔
      ∀ record ∈ before, record.fdKind = .closed := by
  rw [List.foldl_append]
  constructor
  · intro hagrees
    by_contra hnot
    have hopened : ∃ record ∈ before, record.fdKind = .opened := by
      by_contra hnone
      refine hnot fun record hrecord => ?_
      cases hkind : record.fdKind with
      | opened => exact absurd ⟨record, hrecord, hkind⟩ hnone
      | closed => rfl
    have hstart : Early fresh.clone fresh :=
      ⟨⟨rfl, rfl⟩, rfl, rfl, rfl, Or.inl (by decide)⟩
    have hapart := hstart.foldl hopened
    rw [clone_of_seen hapart.seen.2] at hagrees
    exact (hapart.foldl after).not_agrees hagrees
  · intro hclosed
    rw [clone_foldl_fdStep hclosed]
    exact ⟨rfl, List.Perm.refl _⟩

end KeyView

/-- Kind, key and sequence of a finding. -/
def Finding.summary (finding : Finding) : Key × FindingKind × ℕ := (finding.key, finding.report)

/-- Two models have as many live entries of every key, and the same findings up to order. -/
def SameOutcome (m m' : Model) : Prop :=
  (∀ key, liveOf key m.entries = liveOf key m'.entries) ∧
    (m.findings.map Finding.summary).Perm (m'.findings.map Finding.summary)

theorem count_summary (findings : List Finding) (key : Key) (report : FindingKind × ℕ) :
    (findings.map Finding.summary).count (key, report) = (reportsOf key findings).count report := by
  induction findings with
  | nil => rfl
  | cons finding findings ih =>
    have hcons : reportsOf key (finding :: findings) =
        reportsOf key [finding] ++ reportsOf key findings := reportsOf_append key [finding] findings
    rw [hcons, List.map_cons, List.count_cons, ih, List.count_append, reportsOf_singleton]
    by_cases hkey : finding.key = key <;> by_cases hreport : finding.report = report <;>
      simp [Finding.summary, hkey, hreport, Nat.add_comm]

theorem sameOutcome_iff_views (m m' : Model) :
    SameOutcome m m' ↔ ∀ key, (m.store.view key).Agrees (m'.store.view key) := by
  have hperm : (m.findings.map Finding.summary).Perm (m'.findings.map Finding.summary) ↔
      ∀ key, (reportsOf key m.findings).Perm (reportsOf key m'.findings) := by
    constructor
    · intro h key
      refine List.perm_iff_count.mpr fun report => ?_
      rw [← count_summary, ← count_summary]
      exact h.count_eq _
    · intro h
      refine List.perm_iff_count.mpr fun ⟨key, report⟩ => ?_
      rw [count_summary, count_summary]
      exact (h key).count_eq report
  rw [SameOutcome, hperm, ← forall_and]
  rfl

/-- Descriptor records of another process do not change what a fork inherits. -/
theorem inheritedIds_ingestAll {lib : RecordLibrary} {fork : EventRecord}
    {records : List EventRecord} {store store' : Store}
    (hchild : ∀ record ∈ records, record.recordKind = .fd ∧ record.pid = fork.childPid)
    (h : store.ingestAll lib records = some store') :
    inheritedIds fork store'.entries = inheritedIds fork store.entries := by
  unfold inheritedIds
  split
  · next hreplayed =>
    have hpid : fork.childPid ≠ fork.pid := by
      simp only [isForkReplayed, decide_eq_true_eq, not_or] at hreplayed
      exact Ne.symm hreplayed.2.2
    have hadd : ∀ (record : EventRecord) {resourceId : Text} {s s' : Store},
        record.pid = fork.childPid → s.addEntry record resourceId = some s' →
          s'.entries.filter (Entry.isInheritable fork.pid) =
            s.entries.filter (Entry.isInheritable fork.pid) := by
      intro record resourceId s s' hrecord hadd
      obtain ⟨_, rfl⟩ := Store.addEntry_eq_some.mp hadd
      have hnew : (newEntry record resourceId).isInheritable fork.pid = false := by
        simp [Entry.isInheritable, newEntry, hrecord, hpid]
      simp [hnew]
    refine congrArg _ (foldlM_invariant (fun s => s.entries.filter (Entry.isInheritable fork.pid) =
      store.entries.filter (Entry.isInheritable fork.pid)) h ?_ rfl)
    intro record hrecord s s' hs hstep
    obtain ⟨hkind, hrecordPid⟩ := hchild record hrecord
    rw [← hs]
    simp only [Store.ingest, hkind, ingestFd_eq] at hstep
    cases hopened : record.fdKind with
    | opened =>
      simp only [hopened] at hstep
      obtain ⟨middle, hduplicate, hentry⟩ := Option.bind_eq_some_iff.mp hstep
      refine (hadd (normalizedFd record) hrecordPid hentry).trans ?_
      split at hduplicate
      · obtain ⟨_, rfl⟩ := Store.addFinding_eq_some.mp hduplicate
        rfl
      · obtain rfl : s = middle := by simpa using hduplicate
        rfl
    | closed =>
      simp only [hopened] at hstep
      rcases Store.releaseEntry_cases hstep with ⟨pre, entry, post, hsplit, rfl⟩ | ⟨_, _, _, _, rfl⟩
      · have hkey := congrArg Key.pid (matches_iff_key.mp hsplit.holds).1
        have hentry : entry.pid ≠ fork.pid := by
          have howner : entry.pid = record.pid := hkey
          rw [howner, hrecordPid]
          exact hpid
        have hold : entry.isInheritable fork.pid = false := by simp [Entry.isInheritable, hentry]
        have hnew : (entry.closedBy (normalizedFd record)).isInheritable fork.pid = false := by
          simp [Entry.isInheritable, Entry.closedBy]
        rw [hsplit.eq]
        simp [hold, hnew]
      · rfl
  · rfl

theorem view_unseen {m : Model} {pid : ℤ} (hentries : ∀ entry ∈ m.entries, entry.pid ≠ pid)
    (hfindings : ∀ finding ∈ m.findings, finding.pid ≠ pid) {key : Key} (hkey : key.pid = pid) :
    m.store.view key = KeyView.fresh := by
  have hentry : ∀ entry ∈ m.entries, entry.key ≠ key := by
    intro entry hmem hsame
    exact hentries entry hmem ((congrArg Key.pid hsame).trans hkey)
  have hfinding : ∀ finding ∈ m.findings, finding.key ≠ key := by
    intro finding hmem hsame
    exact hfindings finding hmem ((congrArg Key.pid hsame).trans hkey)
  have hlive : liveOf key m.entries = 0 := by
    refine List.countP_eq_zero.mpr fun entry hmem => ?_
    simp [hentry entry hmem]
  have hreports : reportsOf key m.findings = [] := by
    rw [reportsOf, List.filter_eq_nil_iff.mpr, List.map_nil]
    intro finding hmem
    simp [hfinding finding hmem]
  have hseen : key ∉ m.entries.map Entry.key := by
    simpa using fun entry hmem => hentry entry hmem
  simp [Store.view, Model.store, KeyView.fresh, hlive, hreports, hseen]

theorem ingestAll_cons (lib : RecordLibrary) (record : EventRecord) (records : List EventRecord)
    (store : Store) :
    store.ingestAll lib (record :: records) =
      (store.ingest lib record).bind (fun s => s.ingestAll lib records) := List.foldlM_cons ..

theorem store_ingestAll_append (lib : RecordLibrary) (records records' : List EventRecord)
    (store : Store) :
    store.ingestAll lib (records ++ records') =
      (store.ingestAll lib records).bind (fun s => s.ingestAll lib records') := List.foldlM_append ..

/-- A child that has not been seen before emits descriptor records; its fork marker
stands first, or after the records `before`. The two replays agree exactly if no
record before the marker opens a descriptor that the fork inherits. -/
theorem forkOrder_iff (lib : RecordLibrary) (m : Model) (hreachable : Reachable lib m)
    (fork : EventRecord) (hfork : fork.recordKind = .fork)
    (hentries : ∀ entry ∈ m.entries, entry.pid ≠ fork.childPid)
    (hfindings : ∀ finding ∈ m.findings, finding.pid ≠ fork.childPid)
    (before after : List EventRecord)
    (hchild : ∀ record ∈ before ++ after, record.recordKind = .fd ∧ record.pid = fork.childPid)
    (early late : Model) (hearly : ingestAll lib m (fork :: (before ++ after)) = some early)
    (hlate : ingestAll lib m (before ++ fork :: after) = some late) :
    SameOutcome early late ↔
      ∀ record ∈ before, record.fdKind = .opened →
        formatFdIdentifier record.fd ∉ inheritedIds fork m.entries := by
  have hbounded := hreachable.sound.bounded
  have hstoreEarly := (store_ingestAll hbounded hearly).2.1
  have hstoreLate := (store_ingestAll hbounded hlate).2.1
  rw [ingestAll_cons] at hstoreEarly
  obtain ⟨forked, hforked, hearlyRest⟩ := Option.bind_eq_some_iff.mp hstoreEarly
  rw [store_ingestAll_append] at hstoreLate
  obtain ⟨closed, hclosed, hlateRest⟩ := Option.bind_eq_some_iff.mp hstoreLate
  rw [ingestAll_cons] at hlateRest
  obtain ⟨reconciled, hreconciled, hlateRest⟩ := Option.bind_eq_some_iff.mp hlateRest
  simp only [Store.ingest, hfork] at hforked hreconciled
  have hbefore : ∀ record ∈ before, record.recordKind = .fd ∧ record.pid = fork.childPid :=
    fun record hrecord => hchild record (List.mem_append_left _ hrecord)
  have hafter : ∀ record ∈ after, record.recordKind = .fd ∧ record.pid = fork.childPid :=
    fun record hrecord => hchild record (List.mem_append_right _ hrecord)
  have hids : inheritedIds fork closed.entries = inheritedIds fork m.entries :=
    inheritedIds_ingestAll hbefore hclosed
  let inherits (key : Key) : Prop :=
    key.pid = fork.childPid ∧ key.resourceClass = fdResourceClass ∧
      key.resourceId ∈ inheritedIds fork m.entries
  have hviews : ∀ key, (early.store.view key).Agrees (late.store.view key) ↔
      (inherits key → ∀ record ∈ before.filter (fun record => fdKey record = key),
        record.fdKind = .closed) := by
    intro key
    have hviewEarly := view_ingestAll (fun r hr => (hchild r hr).1) hearlyRest key
    have hviewLate := view_ingestAll (fun r hr => (hafter r hr).1) hlateRest key
    have hstore : m.store.entries = m.entries := rfl
    rw [view_ingestFork hforked key, hstore, List.filter_append] at hviewEarly
    rw [view_ingestFork hreconciled key, view_ingestAll (fun r hr => (hbefore r hr).1) hclosed key,
      hids] at hviewLate
    rw [hviewEarly, hviewLate]
    by_cases hinherits : inherits key
    · rw [if_pos hinherits, if_pos hinherits, view_unseen hentries hfindings hinherits.1,
        KeyView.agrees_iff]
      exact ⟨fun h _ => h, fun h => h hinherits⟩
    · rw [if_neg hinherits, if_neg hinherits, List.foldl_append]
      exact ⟨fun _ h => absurd h hinherits, fun _ => ⟨rfl, List.Perm.refl _⟩⟩
  rw [sameOutcome_iff_views, forall_congr' hviews]
  constructor
  · intro h record hrecord hopened hinherited
    have hclosedKind := h (fdKey record) ⟨(hbefore record hrecord).2, rfl, hinherited⟩ record
      (List.mem_filter.mpr ⟨hrecord, by simp⟩)
    simp [hopened] at hclosedKind
  · rintro h key ⟨_, _, hinherited⟩ record hrecord
    obtain ⟨hmem, hkey⟩ := List.mem_filter.mp hrecord
    rw [decide_eq_true_eq] at hkey
    subst hkey
    cases hkind : record.fdKind with
    | opened => exact absurd hinherited (h record hmem hkind)
    | closed => rfl

def parentDescriptor : EventRecord :=
  { recordKind := .fd, runId := some (.ofString "run"), pid := 1, fd := 3, sequence := 1 }

def beforeFork : Model := (ingest .standard parentDescriptor ⟨{}, []⟩).2.state

def forkMarker : EventRecord :=
  { recordKind := .fork, runId := some (.ofString "run"), pid := 1, childPid := 2, sequence := 2 }

def childReopens : List EventRecord :=
  let run := some (.ofString "run")
  [{ recordKind := .fd, runId := run, pid := 2, fd := 3, fdKind := .closed, sequence := 1 },
    { recordKind := .fd, runId := run, pid := 2, fd := 3, sequence := 2 }]

def markerFirst : Model := (ingestAll .standard beforeFork (forkMarker :: (childReopens ++ []))).getD {}

def markerLast : Model := (ingestAll .standard beforeFork (childReopens ++ forkMarker :: [])).getD {}

theorem forkOrder_iff_childReopens :
    SameOutcome markerFirst markerLast ↔ ∀ record ∈ childReopens, record.fdKind = .opened →
      formatFdIdentifier record.fd ∉ inheritedIds forkMarker beforeFork.entries :=
  forkOrder_iff .standard beforeFork (.ingest .create parentDescriptor []) forkMarker rfl (by decide)
    (by decide) childReopens [] (by decide) markerFirst markerLast (by decide) (by decide)

theorem childReopens_loses_clone :
    ¬ ∀ (lib : RecordLibrary) (m : Model) (fork : EventRecord) (before after : List EventRecord)
        (early late : Model), Reachable lib m → fork.recordKind = .fork →
      (∀ entry ∈ m.entries, entry.pid ≠ fork.childPid) →
      (∀ finding ∈ m.findings, finding.pid ≠ fork.childPid) →
      (∀ record ∈ before ++ after, record.recordKind = .fd ∧ record.pid = fork.childPid) →
      ingestAll lib m (fork :: (before ++ after)) = some early →
      ingestAll lib m (before ++ fork :: after) = some late → SameOutcome early late := by
  intro h
  have hsame := h .standard beforeFork forkMarker childReopens [] markerFirst markerLast
    (.ingest .create parentDescriptor []) rfl (by decide) (by decide) (by decide) (by decide)
    (by decide)
  have hfirst : markerFirst.findings.length = 0 := by decide
  have hlast : markerLast.findings.length = 1 := by decide
  have hlength := hsame.2.length_eq
  rw [List.length_map, List.length_map, hfirst, hlast] at hlength
  exact absurd hlength (by decide)

end ToolEvent.Lifecycle
