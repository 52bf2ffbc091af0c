import ToolEvent.LifecycleLedger

/-!
# The replay seen from one key

The number of live entries of a key, whether it has any entry, and what was reported
about it form a small automaton. Descriptor records act on the view of their own key
only, and a fork acts on the views of the descriptors it clones.
-/

namespace ToolEvent.Lifecycle

open LatestMatch

structure KeyView where
  live : ℕ
  seen : Bool
  reports : List (FindingKind × ℕ)
  deriving DecidableEq

namespace KeyView

def acquire (sequence : ℕ) (view : KeyView) : KeyView where
  live := view.live + 1
  seen := true
  reports := view.reports ++ if view.live = 0 then [] else [(.duplicateAcquire, sequence)]

def release (sequence : ℕ) (view : KeyView) : KeyView :=
  if view.live = 0 then
    { view with
      reports :=
        view.reports ++ [(if view.seen then .doubleRelease else .strayRelease, sequence)] }
  else { view with live := view.live - 1 }

def isStray (report : FindingKind × ℕ) : Bool := report.1 = .strayRelease

/-- Release again what was reported as stray. -/
def reconcile (view : KeyView) : KeyView :=
  (view.reports.filter isStray).foldl (fun v report => v.release report.2)
    { view with reports := view.reports.filter (fun report => ¬ isStray report) }

def clone (view : KeyView) : KeyView :=
  if view.seen then view else { view with live := view.live + 1, seen := true }.reconcile

@[simp] theorem acquire_seen (sequence : ℕ) (view : KeyView) :
    (view.acquire sequence).seen = true := rfl

@[simp] theorem release_seen (sequence : ℕ) (view : KeyView) :
    (view.release sequence).seen = view.seen := by
  unfold release
  split <;> rfl

theorem foldl_release_seen (reports : List (FindingKind × ℕ)) (view : KeyView) :
    (reports.foldl (fun v report => v.release report.2) view).seen = view.seen := by
  induction reports generalizing view with
  | nil => rfl
  | cons report reports ih => rw [List.foldl_cons, ih, release_seen]

theorem clone_seen (view : KeyView) : view.clone.seen = true := by
  unfold clone
  split
  · next h => exact h
  · exact foldl_release_seen _ _

theorem clone_of_seen {view : KeyView} (h : view.seen = true) : view.clone = view := by
  simp [clone, h]

end KeyView

def Finding.key (finding : Finding) : Key :=
  ⟨finding.pid, finding.resourceClass, finding.resourceId⟩

def Finding.report (finding : Finding) : FindingKind × ℕ := (finding.kind, finding.sequence)

def liveOf (key : Key) (entries : List Entry) : ℕ :=
  entries.countP (fun entry => entry.key = key ∧ entry.live = true)

def reportsOf (key : Key) (findings : List Finding) : List (FindingKind × ℕ) :=
  (findings.filter (fun finding => finding.key = key)).map Finding.report

def Store.view (store : Store) (key : Key) : KeyView where
  live := liveOf key store.entries
  seen := decide (key ∈ store.entries.map Entry.key)
  reports := reportsOf key store.findings

theorem liveOf_append (key : Key) (entries entries' : List Entry) :
    liveOf key (entries ++ entries') = liveOf key entries + liveOf key entries' :=
  List.countP_append

theorem reportsOf_append (key : Key) (findings findings' : List Finding) :
    reportsOf key (findings ++ findings') = reportsOf key findings ++ reportsOf key findings' := by
  simp [reportsOf]

theorem liveOf_cons (key : Key) (entry : Entry) (entries : List Entry) :
    liveOf key (entry :: entries) =
      liveOf key entries + if key = entry.key ∧ entry.live = true then 1 else 0 := by
  by_cases hkey : key = entry.key
  · simp [liveOf, List.countP_cons, hkey]
  · simp [liveOf, hkey, Ne.symm hkey]

theorem reportsOf_singleton (key : Key) (finding : Finding) :
    reportsOf key [finding] = if finding.key = key then [finding.report] else [] := by
  by_cases h : finding.key = key <;> simp [reportsOf, h]

def recordKey (record : EventRecord) : Key := ⟨record.pid, recordClass record, recordId record⟩

section Steps

variable {record : EventRecord} {store store' : Store}

theorem matches_iff_key {pid : ℤ} {resourceClass resourceId : Text} {liveOnly : Bool}
    {entry : Entry} :
    entry.matches pid resourceClass resourceId liveOnly = true ↔
      entry.key = ⟨pid, resourceClass, resourceId⟩ ∧ (liveOnly = true → entry.live = true) := by
  cases liveOnly <;> simp [Entry.matches, Entry.key, and_assoc]

theorem findLatest_live_eq_none_iff {entries : List Entry} {pid : ℤ}
    {resourceClass resourceId : Text} :
    findLatest entries pid resourceClass resourceId true = none ↔
      liveOf ⟨pid, resourceClass, resourceId⟩ entries = 0 := by
  rw [findLatest, latestIndex_eq_none_iff, liveOf, List.countP_eq_zero]
  refine forall₂_congr fun entry _ => ?_
  rw [← Bool.not_eq_true, matches_iff_key]
  simp

theorem findLatest_eq_none_iff {entries : List Entry} {pid : ℤ}
    {resourceClass resourceId : Text} :
    findLatest entries pid resourceClass resourceId false = none ↔
      (⟨pid, resourceClass, resourceId⟩ : Key) ∉ entries.map Entry.key := by
  rw [← Option.isNone_iff_eq_none, findLatest_isNone_iff, decide_eq_true_eq]

theorem view_addEntry {resourceId : Text} (h : store.addEntry record resourceId = some store')
    (key : Key) :
    store'.view key =
      if key = ⟨record.pid, recordClass record, resourceId⟩ then
        { store.view key with live := (store.view key).live + 1, seen := true }
      else store.view key := by
  obtain ⟨_, rfl⟩ := Store.addEntry_eq_some.mp h
  have hkey : (newEntry record resourceId).key = ⟨record.pid, recordClass record, resourceId⟩ := rfl
  have hlive : (newEntry record resourceId).live = true := rfl
  have hnew : liveOf key [newEntry record resourceId] =
      if key = ⟨record.pid, recordClass record, resourceId⟩ then 1 else 0 := by
    rw [liveOf_cons, hkey, hlive]
    simp [liveOf]
  unfold Store.view
  rw [liveOf_append, hnew]
  split
  · next hsame => simp [hsame, hkey]
  · next hother => simp [hother, hkey]

/-- The findings that the replay adds for a record are about the key of the record. -/
theorem newFinding_key (kind : FindingKind) {liveOnly : Bool} {previous : Option Entry}
    (h : previous = store.latest record.pid (recordClass record) (recordId record) liveOnly) :
    (newFinding kind record previous).key = recordKey record ∧
      (newFinding kind record previous).report = (kind, record.sequence) := by
  cases previous with
  | none => exact ⟨rfl, rfl⟩
  | some entry =>
    obtain ⟨index, hindex, hentry⟩ := Option.bind_eq_some_iff.mp h.symm
    obtain ⟨pre, entry', post, hs, rfl⟩ := exists_split_of_latestIndex hindex
    obtain rfl : entry' = entry := by simpa [hs.getElem?] using hentry
    have hkey : entry'.key = recordKey record := (matches_iff_key.mp hs.holds).1
    have hclass : entry'.resourceClass = recordClass record := congrArg Key.resourceClass hkey
    have hid : entry'.resourceId = recordId record := congrArg Key.resourceId hkey
    exact ⟨by simp [newFinding, Finding.key, recordKey, hclass, hid], rfl⟩

theorem view_addFinding {kind : FindingKind} {previous : Option Entry}
    (h : store.addFinding kind record previous = some store')
    (hfinding : (newFinding kind record previous).key = recordKey record ∧
      (newFinding kind record previous).report = (kind, record.sequence)) (key : Key) :
    store'.view key =
      if key = recordKey record then
        { store.view key with reports := (store.view key).reports ++ [(kind, record.sequence)] }
      else store.view key := by
  obtain ⟨_, rfl⟩ := Store.addFinding_eq_some.mp h
  unfold Store.view
  rw [reportsOf_append, reportsOf_singleton, hfinding.1, hfinding.2]
  by_cases hsame : key = recordKey record
  · simp [hsame]
  · simp [hsame, Ne.symm hsame]

theorem view_releaseEntry (h : store.releaseEntry record = some store') (key : Key) :
    store'.view key =
      if key = recordKey record then (store.view key).release record.sequence
      else store.view key := by
  rcases Store.releaseEntry_cases h with ⟨pre, entry, post, hs, rfl⟩ | ⟨hnone, hroom, previous, hp, rfl⟩
  · obtain ⟨hkey, hlive⟩ := matches_iff_key.mp hs.holds
    have hkey : entry.key = recordKey record := hkey
    have hkeys : (pre ++ entry.closedBy record :: post).map Entry.key =
        store.entries.map Entry.key := by
      rw [hs.eq, List.map_append, List.map_append]
      rfl
    have hbefore : liveOf key store.entries =
        liveOf key pre + liveOf key post + if key = recordKey record then 1 else 0 := by
      rw [hs.eq, liveOf_append, liveOf_cons, hkey, hlive rfl]
      simp [Nat.add_assoc]
    have hafter : liveOf key (pre ++ entry.closedBy record :: post) =
        liveOf key pre + liveOf key post := by
      have hclosed : (entry.closedBy record).live = false := rfl
      rw [liveOf_append, liveOf_cons, hclosed]
      simp
    unfold Store.view
    rw [hafter, hkeys, hbefore]
    split
    · next hsame => simp [KeyView.release]
    · rfl
  · have hfinding := newFinding_key (if previous.isNone then .strayRelease else .doubleRelease) hp
    have hadd : store.addFinding (if previous.isNone then .strayRelease else .doubleRelease) record
        previous = some ⟨store.entries, store.findings ++ [newFinding
          (if previous.isNone then .strayRelease else .doubleRelease) record previous]⟩ :=
      Store.addFinding_eq_some.mpr ⟨hroom, rfl⟩
    rw [view_addFinding hadd hfinding key]
    split
    · next hsame =>
      have hlive : (store.view key).live = 0 := by
        rw [hsame]
        exact findLatest_live_eq_none_iff.mp hnone
      have hseen : (store.view key).seen = !previous.isNone := by
        rw [Bool.eq_iff_iff, Bool.not_eq_true', ← Bool.not_eq_true, hp, Store.latest_isNone_iff]
        rw [findLatest_eq_none_iff, not_not, hsame]
        simp [Store.view, recordKey]
      simp only [KeyView.release, hlive, hseen, if_true]
      cases previous <;> rfl
    · rfl

theorem view_acquireEntry (h : store.acquireEntry record = some store') (key : Key) :
    store'.view key =
      if key = recordKey record then (store.view key).acquire record.sequence
      else store.view key := by
  obtain ⟨middle, hduplicate, hadd⟩ := Option.bind_eq_some_iff.mp h
  have hentry := view_addEntry hadd key
  have hnone : (store.latest record.pid (recordClass record) (recordId record) true).isSome = true ↔
      liveOf (recordKey record) store.entries ≠ 0 := by
    rw [Option.isSome_iff_ne_none, ne_eq, ← Option.isNone_iff_eq_none, Store.latest_isNone_iff,
      findLatest_live_eq_none_iff]
    rfl
  change store'.view key = if key = recordKey record then _ else middle.view key at hentry
  rw [hentry]
  split at hduplicate
  · next hlive =>
    rw [view_addFinding hduplicate (newFinding_key _ rfl) key]
    split
    · next hsame =>
      have hnonzero : (store.view key).live ≠ 0 := by
        rw [hsame]
        exact hnone.mp hlive
      simp [KeyView.acquire, hnonzero]
    · rfl
  · next hfree =>
    obtain rfl : store = middle := by simpa using hduplicate
    split
    · next hsame =>
      have hzero : (store.view key).live = 0 := by
        rw [hsame]
        exact not_not.mp (mt hnone.mpr hfree)
      simp [KeyView.acquire, hzero]
    · rfl

end Steps

def fdKey (record : EventRecord) : Key := ⟨record.pid, fdResourceClass, formatFdIdentifier record.fd⟩

/-- What a descriptor record does to the view of its key. -/
def KeyView.fdStep (view : KeyView) (record : EventRecord) : KeyView :=
  match record.fdKind with
  | .opened => view.acquire record.sequence
  | .closed => view.release record.sequence

theorem ingestFd_eq (record : EventRecord) (store : Store) :
    store.ingestFd record =
      match record.fdKind with
      | .opened => store.acquireEntry (normalizedFd record)
      | .closed => store.releaseEntry (normalizedFd record) := by
  have hrecorded : isIgnoredClass (recordClass (normalizedFd record)) = false := fd_recorded
  unfold Store.ingestFd Store.ingestResource
  rw [hrecorded]
  cases hkind : record.fdKind <;> simp [normalizedFd, hkind]

theorem view_ingestFd {record : EventRecord} {store store' : Store}
    (h : store.ingestFd record = some store') (key : Key) :
    store'.view key =
      if key = fdKey record then (store.view key).fdStep record else store.view key := by
  rw [ingestFd_eq] at h
  unfold KeyView.fdStep
  cases hkind : record.fdKind with
  | opened =>
    simp only [hkind] at h
    exact view_acquireEntry h key
  | closed =>
    simp only [hkind] at h
    exact view_releaseEntry h key

/-- The view after descriptor records: those of the key, in their order. -/
theorem view_ingestAll {lib : RecordLibrary} {records : List EventRecord} {store store' : Store}
    (hfd : ∀ record ∈ records, record.recordKind = .fd)
    (h : store.ingestAll lib records = some store') (key : Key) :
    store'.view key =
      (records.filter (fun record => fdKey record = key)).foldl KeyView.fdStep (store.view key) := by
  induction records generalizing store with
  | nil =>
    obtain rfl : store = store' := by simpa [Store.ingestAll] using h
    rfl
  | cons record records ih =>
    rw [Store.ingestAll, List.foldlM_cons] at h
    obtain ⟨middle, hfirst, hrest⟩ := Option.bind_eq_some_iff.mp h
    simp only [Store.ingest, hfd record List.mem_cons_self] at hfirst
    rw [ih (fun r hr => hfd r (List.mem_cons_of_mem _ hr)) hrest, view_ingestFd hfirst key,
      List.filter_cons]
    by_cases hkey : fdKey record = key
    · simp [hkey]
    · simp [hkey, Ne.symm hkey]

theorem view_foldlM_releaseEntry {key : Key} {findings : List Finding} {store store' : Store}
    (hkey : ∀ finding ∈ findings, finding.key = key)
    (h : findings.foldlM (fun s f => s.releaseEntry f.toRelease) store = some store')
    (other : Key) :
    store'.view other =
      if other = key then
        (findings.map Finding.report).foldl (fun v report => v.release report.2) (store.view other)
      else store.view other := by
  induction findings generalizing store with
  | nil =>
    obtain rfl : store = store' := by simpa using h
    simp
  | cons finding findings ih =>
    rw [List.foldlM_cons] at h
    obtain ⟨middle, hfirst, hrest⟩ := Option.bind_eq_some_iff.mp h
    have hrelease : recordKey finding.toRelease = key := hkey finding List.mem_cons_self
    rw [ih (fun f hf => hkey f (List.mem_cons_of_mem _ hf)) hrest, view_releaseEntry hfirst other,
      hrelease]
    split <;> rfl

theorem isStray_eq (key : Key) (finding : Finding) :
    finding.isStray key.pid key.resourceClass key.resourceId =
      (KeyView.isStray finding.report && decide (finding.key = key)) := by
  obtain ⟨pid, resourceClass, resourceId⟩ := key
  rw [Bool.eq_iff_iff, Bool.and_eq_true, decide_eq_true_eq, Finding.isStray, decide_eq_true_eq,
    KeyView.isStray, decide_eq_true_eq, Finding.key, Key.mk.injEq]
  rfl

/-- Reconciling a key acts on the view of this key only. -/
theorem view_reconcile {key : Key} {store store' : Store}
    (h : store.reconcile key.pid key.resourceClass key.resourceId = some store') (other : Key) :
    store'.view other =
      if other = key then (store.view other).reconcile else store.view other := by
  have hkey : ∀ finding ∈ store.findings.filter
      (Finding.isStray key.pid key.resourceClass key.resourceId), finding.key = key := by
    intro finding hfinding
    have hstray := (List.mem_filter.mp hfinding).2
    rw [isStray_eq, Bool.and_eq_true, decide_eq_true_eq] at hstray
    exact hstray.2
  rw [view_foldlM_releaseEntry hkey h other]
  split
  · next hsame =>
    subst hsame
    have hstrays : (store.findings.filter
          (Finding.isStray other.pid other.resourceClass other.resourceId)).map Finding.report =
        (store.view other).reports.filter KeyView.isStray := by
      simp only [Store.view, reportsOf, List.filter_map, List.filter_filter]
      exact congrArg _ (List.filter_congr fun finding _ => isStray_eq other finding)
    have hrest : reportsOf other (store.findings.filter
          (fun f => ¬ f.isStray other.pid other.resourceClass other.resourceId)) =
        (store.view other).reports.filter (fun report => ¬ KeyView.isStray report) := by
      simp only [Store.view, reportsOf, List.filter_map, List.filter_filter]
      refine congrArg _ (List.filter_congr fun finding _ => ?_)
      rw [isStray_eq]
      by_cases hfinding : finding.key = other <;> simp [hfinding]
    rw [hstrays, KeyView.reconcile, ← hrest]
    rfl
  · next hother =>
    have hrest : reportsOf other (store.findings.filter
          (fun f => ¬ f.isStray key.pid key.resourceClass key.resourceId)) =
        reportsOf other store.findings := by
      rw [reportsOf, reportsOf, List.filter_filter]
      refine congrArg _ (List.filter_congr fun finding _ => ?_)
      by_cases hfinding : finding.key = other
      · have hne : finding.key ≠ key := fun h => hother (hfinding ▸ h)
        simp [isStray_eq, hne]
      · simp [hfinding]
    simp only [Store.view, hrest]

theorem view_forkEntry {record : EventRecord} {parent : Entry} {store store' : Store}
    (h : store.forkEntry record parent = some store') (key : Key) :
    store'.view key =
      if key = ⟨record.childPid, fdResourceClass, parent.resourceId⟩ then (store.view key).clone
      else store.view key := by
  have hseen : (findLatest store.entries record.childPid fdResourceClass parent.resourceId
      false).isSome = (store.view ⟨record.childPid, fdResourceClass, parent.resourceId⟩).seen := by
    rw [← Option.not_isNone, findLatest_isNone_iff, Store.view, decide_not, Bool.not_not]
  unfold Store.forkEntry at h
  rw [hseen] at h
  split at h
  · next hknown =>
    obtain rfl : store = store' := by simpa using h
    split
    · next hsame => rw [hsame, KeyView.clone_of_seen hknown]
    · rfl
  · next hfresh =>
    split at h
    · simp at h
    obtain ⟨added, hadd, hreconcile⟩ := Option.bind_eq_some_iff.mp h
    rw [@view_reconcile ⟨record.childPid, fdResourceClass, parent.resourceId⟩ _ _ hreconcile key,
      view_addEntry hadd key]
    have hkey : (⟨(inheritedRecord record parent).pid, recordClass (inheritedRecord record parent),
        parent.resourceId⟩ : Key) = ⟨record.childPid, fdResourceClass, parent.resourceId⟩ := rfl
    rw [hkey]
    split
    · next hsame =>
      have hunseen : (store.view key).seen = false := by
        rw [hsame]
        simpa using hfresh
      simp [KeyView.clone, hunseen]
    · rfl

/-- The descriptors that a fork finds live in the parent. -/
def inheritedIds (record : EventRecord) (entries : List Entry) : List Text :=
  if isForkReplayed record then
    (entries.filter (Entry.isInheritable record.pid)).map Entry.resourceId
  else []

/-- A fork clones the descriptors it inherits, and leaves all other views. -/
theorem view_ingestFork {record : EventRecord} {store store' : Store}
    (h : store.ingestFork record = some store') (key : Key) :
    store'.view key =
      if key.pid = record.childPid ∧ key.resourceClass = fdResourceClass ∧
          key.resourceId ∈ inheritedIds record store.entries then (store.view key).clone
      else store.view key := by
  unfold Store.ingestFork at h
  unfold inheritedIds
  split at h
  · next hreplayed =>
    rw [if_pos hreplayed]
    generalize store.entries.filter (Entry.isInheritable record.pid) = parents at h ⊢
    induction parents generalizing store with
    | nil =>
      obtain rfl : store = store' := by simpa using h
      simp
    | cons parent parents ih =>
      rw [List.foldlM_cons] at h
      obtain ⟨middle, hfirst, hrest⟩ := Option.bind_eq_some_iff.mp h
      rw [ih hrest, view_forkEntry hfirst key]
      obtain ⟨pid, resourceClass, resourceId⟩ := key
      have hidem : (store.view ⟨pid, resourceClass, resourceId⟩).clone.clone =
          (store.view ⟨pid, resourceClass, resourceId⟩).clone :=
        KeyView.clone_of_seen (KeyView.clone_seen _)
      by_cases hpid : pid = record.childPid <;> by_cases hclass : resourceClass = fdResourceClass <;>
        by_cases hid : resourceId = parent.resourceId <;> simp_all
  · next hskipped =>
    obtain rfl : store = store' := by simpa using h
    simp [hskipped]

end ToolEvent.Lifecycle
