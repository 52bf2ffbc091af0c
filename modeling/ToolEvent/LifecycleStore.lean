import ToolEvent.Lifecycle

/-!
# The replay as a partial function on entries and findings

With allocations that succeed, a replay step only depends on the entries and the
findings of the model: it is refused, or it yields a new store.
-/

namespace ToolEvent.Lifecycle

open Fallible World LatestMatch

@[ext] structure Store where
  entries : List Entry := []
  findings : List Finding := []
  deriving DecidableEq

def Model.store (model : Model) : Store := ⟨model.entries, model.findings⟩

namespace Store

def latest (store : Store) (pid : ℤ) (resourceClass resourceId : Text) (liveOnly : Bool) :
    Option Entry :=
  latestEntry store.entries pid resourceClass resourceId liveOnly

def addEntry (record : EventRecord) (resourceId : Text) (store : Store) : Option Store :=
  if maxLifecycleEntries ≤ store.entries.length then none
  else some { store with entries := store.entries ++ [newEntry record resourceId] }

def addFinding (kind : FindingKind) (record : EventRecord) (previous : Option Entry)
    (store : Store) : Option Store :=
  if maxLifecycleFindings ≤ store.findings.length then none
  else some { store with findings := store.findings ++ [newFinding kind record previous] }

def closeAt (index : ℕ) (record : EventRecord) (store : Store) : Store :=
  { store with entries := store.entries.modify index (Entry.closedBy record) }

def releaseEntry (record : EventRecord) (store : Store) : Option Store :=
  match findLatest store.entries record.pid (recordClass record) (recordId record) true with
  | some index => some (store.closeAt index record)
  | none =>
    let previous := store.latest record.pid (recordClass record) (recordId record) false
    store.addFinding (if previous.isNone then .strayRelease else .doubleRelease) record previous

def acquireEntry (record : EventRecord) (store : Store) : Option Store :=
  let previous := store.latest record.pid (recordClass record) (recordId record) true
  (if previous.isSome then store.addFinding .duplicateAcquire record previous else some store).bind
    (addEntry record (recordId record))

def replaceEntry (record : EventRecord) (store : Store) : Option Store :=
  if isAbsent record.relatedId then
    store.addFinding .badReplace record
      (store.latest record.pid (recordClass record) (recordId record) false)
  else (store.releaseEntry record).bind (addEntry record (record.relatedId.getD .empty))

def useEntry (record : EventRecord) (store : Store) : Option Store :=
  if (store.latest record.pid (recordClass record) (recordId record) true).isNone then
    store.addFinding .invalidUse record
      (store.latest record.pid (recordClass record) (recordId record) false)
  else some store

def ingestResource (record : EventRecord) (store : Store) : Option Store :=
  if record.resourceClass.isNone ∨ record.resourceId.isNone then none
  else if isIgnoredClass (recordClass record) then some store
  else
    match record.resourceKind with
    | .acquire => store.acquireEntry record
    | .release => store.releaseEntry record
    | .replace | .transfer => store.replaceEntry record
    | .use => store.useEntry record

def ingestFd (record : EventRecord) : Store → Option Store := ingestResource (normalizedFd record)

def ingestAllocation (lib : RecordLibrary) (record : EventRecord) (store : Store) : Option Store :=
  let acquire (pointer : Option Text) : Store → Option Store :=
    if lib.pointerIsNull pointer then some
    else ingestResource (normalizedAllocation record .acquire pointer)
  match record.allocKind with
  | .alloc => acquire record.ptr store
  | .free =>
    if lib.pointerIsNull record.ptr then some store
    else store.ingestResource (normalizedAllocation record .release record.ptr)
  | .realloc =>
    if lib.pointerIsNull record.ptr then acquire record.newPtr store
    else
      let ptr := record.ptr.getD .empty
      if (findLatest store.entries record.pid allocationResourceClass ptr true).isNone then
        (store.addFinding .badReplace (normalizedAllocation record .replace record.ptr)
          (store.latest record.pid allocationResourceClass ptr false)).bind (acquire record.newPtr)
      else if lib.pointerIsNull record.newPtr then some store
      else (store.ingestResource (normalizedAllocation record .release record.ptr)).bind
        (acquire record.newPtr)

/-- Release again, in order, what was reported as stray releases of the key. -/
def reconcile (pid : ℤ) (resourceClass resourceId : Text) (store : Store) : Option Store :=
  let isStray := Finding.isStray pid resourceClass resourceId
  (store.findings.filter isStray).foldlM (fun store finding => store.releaseEntry finding.toRelease)
    { store with findings := store.findings.filter (fun finding => ¬ isStray finding) }

/-- Clone one descriptor of the parent, unless the child already has its own. -/
def forkEntry (record : EventRecord) (entry : Entry) (store : Store) : Option Store :=
  if (findLatest store.entries record.childPid fdResourceClass entry.resourceId false).isSome then
    some store
  else if fdIdentifierLength ≤ entry.resourceId.length then none
  else
    (store.addEntry (inheritedRecord record entry) entry.resourceId).bind
      (reconcile record.childPid fdResourceClass entry.resourceId)

def ingestFork (record : EventRecord) (store : Store) : Option Store :=
  if isForkReplayed record then
    (store.entries.filter (Entry.isInheritable record.pid)).foldlM
      (fun store entry => store.forkEntry record entry) store
  else some store

def ingestExec (record : EventRecord) (store : Store) : Option Store :=
  match findLatest store.entries record.pid fdResourceClass (formatFdIdentifier record.fd) true with
  | none => some store
  | some index =>
    if record.cloexec = 0 then
      store.addFinding .execInherit (normalizedExec record) store.entries[index]?
    else
      let closed := store.closeAt index (normalizedExec record)
      some { closed with entries := closed.entries.modify index Entry.markExecPending }

def rollbackExec (pid : ℤ) (store : Store) : Store where
  entries := store.entries.map (Entry.rolledBack pid)
  findings := store.findings.filter (fun finding => ¬ finding.isPendingOf pid)

def ingest (lib : RecordLibrary) (record : EventRecord) (store : Store) : Option Store :=
  match record.recordKind with
  | .resource => store.ingestResource record
  | .fd => store.ingestFd record
  | .alloc => store.ingestAllocation lib record
  | .fork => store.ingestFork record
  | .exec => store.ingestExec record
  | .execFail => some (store.rollbackExec record.pid)
  | .spawn | .call | .complete => none

def ingestAll (lib : RecordLibrary) (store : Store) (records : List EventRecord) : Option Store :=
  records.foldlM (fun store record => store.ingest lib record) store

section Inversion

variable {record : EventRecord} {store store' : Store}

theorem addEntry_eq_some {resourceId : Text} :
    store.addEntry record resourceId = some store' ↔
      store.entries.length < maxLifecycleEntries ∧
        store' = ⟨store.entries ++ [newEntry record resourceId], store.findings⟩ := by
  unfold addEntry
  split
  · next h => simp [Nat.not_lt.mpr h]
  · next h => simp [Nat.lt_of_not_le h, eq_comm]

theorem addFinding_eq_some {kind : FindingKind} {previous : Option Entry} :
    store.addFinding kind record previous = some store' ↔
      store.findings.length < maxLifecycleFindings ∧
        store' = ⟨store.entries, store.findings ++ [newFinding kind record previous]⟩ := by
  unfold addFinding
  split
  · next h => simp [Nat.not_lt.mpr h]
  · next h => simp [Nat.lt_of_not_le h, eq_comm]

/-- A release closes the latest live entry of its key, or adds a finding. -/
theorem releaseEntry_cases (h : store.releaseEntry record = some store') :
    (∃ pre entry post,
        SplitAt (Entry.matches record.pid (recordClass record) (recordId record) true)
          store.entries pre entry post ∧
        store' = ⟨pre ++ entry.closedBy record :: post, store.findings⟩) ∨
      (findLatest store.entries record.pid (recordClass record) (recordId record) true = none ∧
        store.findings.length < maxLifecycleFindings ∧
        ∃ previous,
          previous = store.latest record.pid (recordClass record) (recordId record) false ∧
          store' = ⟨store.entries, store.findings ++ [newFinding
            (if previous.isNone then .strayRelease else .doubleRelease) record previous]⟩) := by
  unfold releaseEntry at h
  cases hfind : findLatest store.entries record.pid (recordClass record) (recordId record) true with
  | none =>
    simp only [hfind] at h
    obtain ⟨hlt, rfl⟩ := addFinding_eq_some.mp h
    exact Or.inr ⟨rfl, hlt, _, rfl, rfl⟩
  | some index =>
    obtain ⟨pre, entry, post, hs, rfl⟩ := exists_split_of_latestIndex hfind
    simp only [hfind, Option.some.injEq] at h
    refine Or.inl ⟨pre, entry, post, hs, ?_⟩
    rw [← h, closeAt, hs.modify]

end Inversion

def Knows (entries : List Entry) (pid : ℤ) (resourceClass resourceId : Text) : Prop :=
  ∃ entry ∈ entries,
    entry.pid = pid ∧ entry.resourceClass = resourceClass ∧ entry.resourceId = resourceId

theorem knows_iff {entries : List Entry} {pid : ℤ} {resourceClass resourceId : Text} :
    Knows entries pid resourceClass resourceId ↔
      findLatest entries pid resourceClass resourceId false ≠ none := by
  simp [Knows, findLatest, latestIndex_eq_none_iff, Entry.matches]

theorem latest_isNone_iff {store : Store} {pid : ℤ} {resourceClass resourceId : Text}
    {liveOnly : Bool} :
    (store.latest pid resourceClass resourceId liveOnly).isNone ↔
      findLatest store.entries pid resourceClass resourceId liveOnly = none := by
  unfold latest latestEntry
  cases hfind : findLatest store.entries pid resourceClass resourceId liveOnly with
  | none => simp
  | some index =>
    obtain ⟨pre, entry, post, hs, rfl⟩ := exists_split_of_latestIndex hfind
    simp [hs.getElem?]

/-- Releasing a known key closes an entry or reports a double release, whatever
the findings are. -/
theorem releaseEntry_known (record : EventRecord) {entries : List Entry}
    (h : Knows entries record.pid (recordClass record) (recordId record)) :
    ∃ entries' extra,
      (∀ f ∈ extra, f.kind = .doubleRelease) ∧ extra.length ≤ 1 ∧
      Knows entries' record.pid (recordClass record) (recordId record) ∧
      ∀ findings : List Finding, findings.length < maxLifecycleFindings →
        releaseEntry record ⟨entries, findings⟩ = some ⟨entries', findings ++ extra⟩ := by
  cases hfind : findLatest entries record.pid (recordClass record) (recordId record) true with
  | some index =>
    obtain ⟨pre, entry, post, hs, rfl⟩ := exists_split_of_latestIndex hfind
    refine ⟨pre ++ entry.closedBy record :: post, [], by simp, by simp, ?_, ?_⟩
    · have hkey := hs.holds
      simp only [Entry.matches, decide_eq_true_eq] at hkey
      exact ⟨_, List.mem_append_right _ List.mem_cons_self, hkey.1, hkey.2.1, hkey.2.2.1⟩
    · intro findings _
      simp [releaseEntry, hfind, closeAt, hs.modify]
  | none =>
    have hknown := knows_iff.mp h
    refine ⟨entries, [newFinding .doubleRelease record
      (latestEntry entries record.pid (recordClass record) (recordId record) false)], ?_, by simp,
      h, ?_⟩
    · simp only [List.mem_singleton, forall_eq, newFinding]
      split <;> rfl
    · intro findings hlt
      have hsome : (latest ⟨entries, findings⟩ record.pid (recordClass record) (recordId record)
          false).isNone = false := by
        rw [← Bool.not_eq_true, latest_isNone_iff]
        exact hknown
      simp only [releaseEntry, hfind, hsome, addFinding, Nat.not_le.mpr hlt, if_false,
        Bool.false_eq_true]
      rfl

theorem reconcile_nil {pid : ℤ} {resourceClass resourceId : Text} {store : Store}
    (h : store.findings.find? (Finding.isStray pid resourceClass resourceId) = none) :
    store.reconcile pid resourceClass resourceId = some store := by
  have hnone : ∀ f ∈ store.findings, ¬ Finding.isStray pid resourceClass resourceId f :=
    List.find?_eq_none.mp h
  have hstray : store.findings.filter (Finding.isStray pid resourceClass resourceId) = [] :=
    List.filter_eq_nil_iff.mpr hnone
  have hrest : store.findings.filter
      (fun f => ¬ Finding.isStray pid resourceClass resourceId f) = store.findings :=
    List.filter_eq_self.mpr fun f hf => by simpa using hnone f hf
  simp only [reconcile, hstray, hrest]
  rfl

theorem toRelease_key_of_isStray {pid : ℤ} {resourceClass resourceId : Text} {finding : Finding}
    (h : finding.isStray pid resourceClass resourceId = true) :
    finding.toRelease.pid = pid ∧ recordClass finding.toRelease = resourceClass ∧
      recordId finding.toRelease = resourceId := by
  simp only [Finding.isStray, decide_eq_true_eq] at h
  exact h.2

/-- Taking the first stray release and releasing it again is the first step of a
reconciliation. -/
theorem reconcile_step {pid : ℤ} {resourceClass resourceId : Text} {store : Store}
    {finding : Finding} (known : Knows store.entries pid resourceClass resourceId)
    (bounded : store.findings.length ≤ maxLifecycleFindings)
    (h : store.findings.find? (Finding.isStray pid resourceClass resourceId) = some finding) :
    ∃ store', releaseEntry finding.toRelease
        { store with
          findings := store.findings.eraseP (Finding.isStray pid resourceClass resourceId) } =
          some store' ∧
      Knows store'.entries pid resourceClass resourceId ∧
      store'.findings.countP (Finding.isStray pid resourceClass resourceId) + 1 =
        store.findings.countP (Finding.isStray pid resourceClass resourceId) ∧
      store.reconcile pid resourceClass resourceId =
        store'.reconcile pid resourceClass resourceId := by
  obtain ⟨entries, findings⟩ := store
  obtain ⟨hstray, pre, post, rfl, hpre⟩ := List.find?_eq_some_iff_append.mp h
  have herase : (pre ++ finding :: post).eraseP (Finding.isStray pid resourceClass resourceId) =
      pre ++ post := by
    rw [List.eraseP_append_right _ (by simpa using hpre), List.eraseP_cons_of_pos hstray]
  obtain ⟨hpid, hclass, hid⟩ := toRelease_key_of_isStray hstray
  obtain ⟨entries', extra, hkind, hextra, hknown', hrelease⟩ :=
    releaseEntry_known finding.toRelease (by rw [hpid, hclass, hid]; exact known)
  have hnot : ∀ f ∈ extra, Finding.isStray pid resourceClass resourceId f = false := by
    intro f hf
    simp [Finding.isStray, hkind f hf]
  have hlength : (pre ++ post).length < maxLifecycleFindings := by
    simp only [List.length_append, List.length_cons] at bounded ⊢
    omega
  rw [hpid, hclass, hid] at hknown'
  refine ⟨⟨entries', pre ++ post ++ extra⟩, ?_, hknown', ?_, ?_⟩
  · rw [← hrelease _ hlength, herase]
  · have hzero : extra.countP (Finding.isStray pid resourceClass resourceId) = 0 :=
      List.countP_eq_zero.mpr (by simpa using hnot)
    simp only [List.countP_append, hzero, List.countP_cons_of_pos hstray]
    omega
  · have hextraStray : extra.filter (Finding.isStray pid resourceClass resourceId) = [] :=
      List.filter_eq_nil_iff.mpr (by simpa using hnot)
    have hextraRest : extra.filter
        (fun f => ¬ Finding.isStray pid resourceClass resourceId f) = extra :=
      List.filter_eq_self.mpr (by simpa using hnot)
    have hpreStray : pre.filter (Finding.isStray pid resourceClass resourceId) = [] :=
      List.filter_eq_nil_iff.mpr (by simpa using hpre)
    have hrestLength : ((pre ++ post).filter
        (fun f => ¬ Finding.isStray pid resourceClass resourceId f)).length <
        maxLifecycleFindings := lt_of_le_of_lt (List.length_filter_le _ _) hlength
    have hhead := hrelease _ hrestLength
    simp only [reconcile, List.filter_append, List.filter_cons, hstray, hextraStray, hextraRest,
      hpreStray, List.nil_append, List.append_nil, if_true, not_true, decide_false,
      Bool.false_eq_true, if_false, List.foldlM_cons] at hhead ⊢
    rw [hhead]
    rfl

/-- What an entry shows of the process `pid`. -/
def ownedBy (pid : ℤ) (entry : Entry) : Option Entry := if entry.pid = pid then some entry else none

/-- The entries of `pid` are unchanged, and new entries come after all others. -/
def Extends (pid : ℤ) (entries entries' : List Entry) : Prop :=
  entries.map (ownedBy pid) <+: entries'.map (ownedBy pid)

theorem Extends.refl (pid : ℤ) (entries : List Entry) : Extends pid entries entries :=
  List.prefix_refl _

theorem Extends.trans {pid : ℤ} {entries entries' entries'' : List Entry}
    (h : Extends pid entries entries') (h' : Extends pid entries' entries'') :
    Extends pid entries entries'' := List.IsPrefix.trans h h'

theorem extends_append (pid : ℤ) (entries extra : List Entry) :
    Extends pid entries (entries ++ extra) := by
  rw [Extends, List.map_append]
  exact List.prefix_append _ _

theorem Extends.getElem? {pid : ℤ} {entries entries' : List Entry}
    (h : Extends pid entries entries') {index : ℕ} {entry : Entry}
    (hentry : entries[index]? = some entry) :
    ∃ entry', entries'[index]? = some entry' ∧ ownedBy pid entry' = ownedBy pid entry := by
  have hmask : (entries.map (ownedBy pid))[index]? = some (ownedBy pid entry) := by
    rw [List.getElem?_map, hentry, Option.map_some]
  obtain ⟨extra, hextra⟩ := h
  have hmask' : (entries'.map (ownedBy pid))[index]? = some (ownedBy pid entry) := by
    rw [← hextra, List.getElem?_append_left (List.getElem?_eq_some_iff.mp hmask).1, hmask]
  rw [List.getElem?_map, Option.map_eq_some_iff] at hmask'
  exact hmask'

variable {pid : ℤ} {record : EventRecord} {store store' : Store}

theorem addEntry_extends {resourceId : Text} (h : store.addEntry record resourceId = some store') :
    Extends pid store.entries store'.entries := by
  obtain ⟨_, rfl⟩ := addEntry_eq_some.mp h
  exact extends_append _ _ _

theorem releaseEntry_extends (hpid : record.pid ≠ pid) (h : store.releaseEntry record = some store') :
    Extends pid store.entries store'.entries := by
  rcases releaseEntry_cases h with ⟨pre, entry, post, hs, rfl⟩ | ⟨_, _, previous, _, rfl⟩
  · have hkey := hs.holds
    simp only [Entry.matches, decide_eq_true_eq] at hkey
    have hclosed : ownedBy pid (entry.closedBy record) = ownedBy pid entry := by
      simp [ownedBy, Entry.closedBy, hkey.1, hpid]
    simp only [Extends, hs.eq, List.map_append, List.map_cons, hclosed]
    exact List.prefix_refl _
  · exact Extends.refl _ _

theorem reconcile_extends {child : ℤ} {resourceClass resourceId : Text} (hpid : child ≠ pid)
    (h : store.reconcile child resourceClass resourceId = some store') :
    Extends pid store.entries store'.entries := by
  refine foldlM_invariant (fun s => Extends pid store.entries s.entries) h ?_ (Extends.refl _ _)
  intro finding hfinding s s' hs hrelease
  obtain ⟨hchild, _⟩ := toRelease_key_of_isStray (List.mem_filter.mp hfinding).2
  exact hs.trans (releaseEntry_extends (hchild ▸ hpid) hrelease)

theorem forkEntry_extends {entry : Entry} (hpid : record.childPid ≠ pid)
    (h : store.forkEntry record entry = some store') :
    Extends pid store.entries store'.entries := by
  unfold forkEntry at h
  split at h
  · obtain rfl : store = store' := by simpa using h
    exact Extends.refl _ _
  · split at h
    · simp at h
    · obtain ⟨middle, hadd, hreconcile⟩ := Option.bind_eq_some_iff.mp h
      exact (addEntry_extends hadd).trans (reconcile_extends hpid hreconcile)

/-- The loop body of `ingest_fork` at an index of the current entries. -/
def forkAt (record : EventRecord) (index : ℕ) (store : Store) : Option Store :=
  match store.entries[index]? with
  | none => some store
  | some entry => if entry.isInheritable record.pid then store.forkEntry record entry else some store

/-- Visiting the indices one after the other is visiting the entries that were
inheritable at the start. -/
theorem foldlM_forkAt (hpid : record.childPid ≠ record.pid) (pre suffix : List Entry)
    (h : Extends record.pid (pre ++ suffix) store.entries) :
    (List.range' pre.length suffix.length).foldlM (fun s i => s.forkAt record i) store =
      (suffix.filter (Entry.isInheritable record.pid)).foldlM
        (fun s entry => s.forkEntry record entry) store := by
  induction suffix generalizing pre store with
  | nil => rfl
  | cons entry suffix ih =>
    obtain ⟨entry', hentry', howned⟩ := h.getElem?
      (show (pre ++ entry :: suffix)[pre.length]? = some entry by simp)
    have hnext : ∀ s : Store, Extends record.pid store.entries s.entries →
        (List.range' (pre.length + 1) suffix.length).foldlM (fun s i => s.forkAt record i) s =
          (suffix.filter (Entry.isInheritable record.pid)).foldlM
            (fun s entry => s.forkEntry record entry) s := by
      intro s hs
      have hpre : Extends record.pid ((pre ++ [entry]) ++ suffix) s.entries := by
        simpa using h.trans hs
      simpa using ih (pre ++ [entry]) hpre
    rw [List.length_cons, List.range'_succ, List.foldlM_cons, List.filter_cons]
    by_cases hinherit : entry.isInheritable record.pid = true
    · have howner : entry.pid = record.pid := by
        simp only [Entry.isInheritable, decide_eq_true_eq] at hinherit
        exact hinherit.1
      obtain rfl : entry' = entry := by
        unfold ownedBy at howned
        split at howned <;> simp_all
      have hat : store.forkAt record pre.length = store.forkEntry record entry' := by
        simp only [forkAt, hentry', hinherit, if_true]
      rw [if_pos hinherit, List.foldlM_cons, hat]
      cases hfork : store.forkEntry record entry' with
      | none => rfl
      | some s => exact hnext s (forkEntry_extends hpid hfork)
    · have hnot : entry'.isInheritable record.pid = false := by
        by_cases howner : entry'.pid = record.pid
        · obtain rfl : entry = entry' := by
            unfold ownedBy at howned
            split at howned <;> simp_all
          simpa using hinherit
        · simp [Entry.isInheritable, howner]
      have hat : store.forkAt record pre.length = some store := by
        simp only [forkAt, hentry', hnot, Bool.false_eq_true, if_false]
      rw [if_neg hinherit, hat]
      exact hnext store (Extends.refl _ _)

end Store

end ToolEvent.Lifecycle
