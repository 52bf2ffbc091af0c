import ToolEvent.LifecycleRefinement

/-!
# Failed exec attempts leave no trace

Rolling back the pending marks of a process commutes with the replay of all other
processes, and undoes what the process's own exec records did. A failed attempt
therefore leaves the entries and findings of a run without it.
-/

namespace ToolEvent.Lifecycle

open Fallible World LatestMatch

theorem Entry.rolledBack_of_ne {pid : ℤ} {entry : Entry} (h : entry.pid ≠ pid) :
    entry.rolledBack pid = entry := by simp [rolledBack, isPendingOf, h]

@[simp] theorem Entry.rolledBack_pid (pid : ℤ) (entry : Entry) :
    (entry.rolledBack pid).pid = entry.pid := by
  unfold rolledBack
  split <;> rfl

namespace Store

/-- The replay step of another process: what it does to a store, it also does to
the store without the pending changes of `pid`. -/
def Respects (pid : ℤ) (step : Store → Option Store) : Prop :=
  ∀ store store', step store = some store' →
    step (store.rollbackExec pid) = some (store'.rollbackExec pid)

variable {pid : ℤ} {record : EventRecord}

theorem matches_rolledBack {owner : ℤ} (howner : owner ≠ pid) (resourceClass resourceId : Text)
    (liveOnly : Bool) (entry : Entry) :
    (entry.rolledBack pid).matches owner resourceClass resourceId liveOnly =
      entry.matches owner resourceClass resourceId liveOnly := by
  by_cases hentry : entry.pid = pid
  · have hne : entry.pid ≠ owner := fun h => howner (h ▸ hentry)
    simp [Entry.matches, hne]
  · rw [Entry.rolledBack_of_ne hentry]

theorem findLatest_rollbackExec {owner : ℤ} (howner : owner ≠ pid)
    (resourceClass resourceId : Text) (liveOnly : Bool) (store : Store) :
    findLatest (store.rollbackExec pid).entries owner resourceClass resourceId liveOnly =
      findLatest store.entries owner resourceClass resourceId liveOnly :=
  latestIndex_map fun entry _ => matches_rolledBack howner resourceClass resourceId liveOnly entry

theorem getElem?_rollbackExec {owner : ℤ} (howner : owner ≠ pid) {resourceClass resourceId : Text}
    {liveOnly : Bool} {store : Store} {index : ℕ}
    (h : findLatest store.entries owner resourceClass resourceId liveOnly = some index) :
    (store.rollbackExec pid).entries[index]? = store.entries[index]? := by
  obtain ⟨pre, entry, post, hs, rfl⟩ := exists_split_of_latestIndex h
  have hkey := hs.holds
  simp only [Entry.matches, decide_eq_true_eq] at hkey
  have hfixed : entry.rolledBack pid = entry :=
    Entry.rolledBack_of_ne (by rw [hkey.1]; exact howner)
  rw [rollbackExec, List.getElem?_map, hs.getElem?, Option.map_some, hfixed]

theorem latest_rollbackExec {owner : ℤ} (howner : owner ≠ pid) (resourceClass resourceId : Text)
    (liveOnly : Bool) (store : Store) :
    (store.rollbackExec pid).latest owner resourceClass resourceId liveOnly =
      store.latest owner resourceClass resourceId liveOnly := by
  unfold latest latestEntry
  rw [findLatest_rollbackExec howner]
  cases h : findLatest store.entries owner resourceClass resourceId liveOnly with
  | none => rfl
  | some index => exact getElem?_rollbackExec howner h

theorem respects_some : Respects pid some := by
  intro store store' h
  obtain rfl : store = store' := by simpa using h
  rfl

theorem respects_none : Respects pid (fun _ => none) := fun _ _ h => by simp at h

theorem Respects.bind {f g : Store → Option Store} (hf : Respects pid f) (hg : Respects pid g) :
    Respects pid (fun store => (f store).bind g) := by
  intro store store' h
  obtain ⟨middle, hmiddle, hstore'⟩ := Option.bind_eq_some_iff.mp h
  simpa [hf _ _ hmiddle] using hg _ _ hstore'

theorem Respects.ite {p : Prop} [Decidable p] {f g : Store → Option Store} (hf : Respects pid f)
    (hg : Respects pid g) : Respects pid (fun store => if p then f store else g store) := by
  split
  · exact hf
  · exact hg

theorem respects_addEntry (record : EventRecord) (hpid : record.pid ≠ pid) (resourceId : Text) :
    Respects pid (addEntry record resourceId) := by
  intro store store' h
  obtain ⟨hroom, rfl⟩ := addEntry_eq_some.mp h
  have hnew : (newEntry record resourceId).rolledBack pid = newEntry record resourceId :=
    Entry.rolledBack_of_ne hpid
  exact addEntry_eq_some.mpr ⟨by simpa [rollbackExec] using hroom, by simp [rollbackExec, hnew]⟩

theorem newFinding_pid (kind : FindingKind) (record : EventRecord) (previous : Option Entry) :
    (newFinding kind record previous).pid = record.pid := by
  unfold newFinding
  cases previous <;> rfl

theorem respects_addFinding (record : EventRecord) (hpid : record.pid ≠ pid) (kind : FindingKind)
    (previous : Option Entry) : Respects pid (addFinding kind record previous) := by
  intro store store' h
  obtain ⟨hroom, rfl⟩ := addFinding_eq_some.mp h
  have hnew : (newFinding kind record previous).isPendingOf pid = false := by
    simp [Finding.isPendingOf, newFinding_pid, hpid]
  exact addFinding_eq_some.mpr ⟨lt_of_le_of_lt (List.length_filter_le _ _) hroom,
    by simp [rollbackExec, hnew]⟩

theorem respects_releaseEntry (record : EventRecord) (hpid : record.pid ≠ pid) : Respects pid (releaseEntry record) := by
  intro store store' h
  unfold releaseEntry at h ⊢
  rw [findLatest_rollbackExec hpid, latest_rollbackExec hpid]
  cases hfind : findLatest store.entries record.pid (recordClass record) (recordId record) true with
  | none =>
    simp only [hfind] at h
    exact respects_addFinding record hpid _ _ _ _ h
  | some index =>
    simp only [hfind, Option.some.injEq] at h
    obtain ⟨pre, entry, post, hs, rfl⟩ := exists_split_of_latestIndex hfind
    have hkey := hs.holds
    simp only [Entry.matches, decide_eq_true_eq] at hkey
    have hother : entry.pid ≠ pid := by
      rw [hkey.1]
      exact hpid
    have hfixed : entry.rolledBack pid = entry := Entry.rolledBack_of_ne hother
    have hclosed : (entry.closedBy record).rolledBack pid = entry.closedBy record :=
      Entry.rolledBack_of_ne hother
    have hmapped := hs.map (g := Entry.rolledBack pid)
      fun e _ => matches_rolledBack hpid (recordClass record) (recordId record) true e
    have hmodify := hmapped.modify (Entry.closedBy record)
    rw [List.length_map] at hmodify
    rw [← h]
    simp only [closeAt, rollbackExec, hmodify, hs.modify, List.map_append, List.map_cons, hfixed,
      hclosed]

theorem respects_ingestResource (record : EventRecord) (hpid : record.pid ≠ pid) :
    Respects pid (ingestResource record) := by
  refine Respects.ite respects_none (Respects.ite respects_some ?_)
  have hreplace : Respects pid (replaceEntry record) := by
    intro store store' h
    unfold replaceEntry at h ⊢
    rw [latest_rollbackExec hpid]
    split at h
    · next habsent =>
      rw [if_pos habsent]
      exact respects_addFinding record hpid _ _ _ _ h
    · next hpresent =>
      rw [if_neg hpresent]
      exact (respects_releaseEntry record hpid).bind (respects_addEntry record hpid _) _ _ h
  cases record.resourceKind with
  | acquire =>
    intro store store' h
    simp only [acquireEntry] at h ⊢
    rw [latest_rollbackExec hpid]
    exact (Respects.ite (respects_addFinding record hpid _ _) respects_some).bind
      (respects_addEntry record hpid _) _ _ h
  | release => exact respects_releaseEntry record hpid
  | replace => exact hreplace
  | transfer => exact hreplace
  | use =>
    intro store store' h
    simp only [useEntry] at h ⊢
    rw [latest_rollbackExec hpid, latest_rollbackExec hpid]
    exact Respects.ite (respects_addFinding record hpid _ _) respects_some _ _ h

theorem respects_ingestAllocation (record : EventRecord) (hpid : record.pid ≠ pid) (lib : RecordLibrary) :
    Respects pid (ingestAllocation lib record) := by
  have hresource : ∀ kind pointer,
      Respects pid (ingestResource (normalizedAllocation record kind pointer)) :=
    fun kind pointer => respects_ingestResource _ hpid
  have hacquire : ∀ pointer, Respects pid (if lib.pointerIsNull pointer then some
      else ingestResource (normalizedAllocation record .acquire pointer)) := by
    intro pointer
    split
    · exact respects_some
    · exact hresource _ _
  unfold ingestAllocation
  cases record.allocKind with
  | alloc => exact hacquire _
  | free => exact Respects.ite respects_some (hresource _ _)
  | realloc =>
    refine Respects.ite (hacquire _) ?_
    intro store store' h
    dsimp only at h ⊢
    rw [findLatest_rollbackExec hpid, latest_rollbackExec hpid]
    split at h
    · next hstray =>
      rw [if_pos hstray]
      exact (respects_addFinding (normalizedAllocation record .replace record.ptr) hpid _ _).bind
        (hacquire _) _ _ h
    · next hlive =>
      rw [if_neg hlive]
      exact Respects.ite respects_some ((hresource _ _).bind (hacquire _)) _ _ h

theorem respects_foldlM {α : Type*} {step : Store → α → Option Store} {xs : List α}
    (hstep : ∀ x ∈ xs, Respects pid (fun store => step store x)) :
    Respects pid (fun store => xs.foldlM step store) := by
  induction xs with
  | nil => exact respects_some
  | cons x xs ih =>
    exact (hstep x List.mem_cons_self).bind (ih fun y hy => hstep y (List.mem_cons_of_mem _ hy))

theorem respects_reconcile {owner : ℤ} (howner : owner ≠ pid) (resourceClass resourceId : Text) :
    Respects pid (reconcile owner resourceClass resourceId) := by
  intro store store' h
  have hstray : (store.rollbackExec pid).findings.filter
        (Finding.isStray owner resourceClass resourceId) =
      store.findings.filter (Finding.isStray owner resourceClass resourceId) := by
    rw [rollbackExec, List.filter_filter]
    refine List.filter_congr fun finding _ => ?_
    by_cases hstray : finding.isStray owner resourceClass resourceId = true
    · have hother : finding.pid ≠ pid := by
        simp only [Finding.isStray, decide_eq_true_eq] at hstray
        rw [hstray.2.1]
        exact howner
      simp [Finding.isPendingOf, hother]
    · simp [hstray]
  have hrest : ({ store.rollbackExec pid with
        findings := (store.rollbackExec pid).findings.filter
          (fun f => ¬ f.isStray owner resourceClass resourceId) } : Store) =
      rollbackExec pid { store with
        findings := store.findings.filter
          (fun f => ¬ f.isStray owner resourceClass resourceId) } := by
    simp [rollbackExec, List.filter_filter, Bool.and_comm]
  have hfold : Respects pid (fun s =>
      (store.findings.filter (Finding.isStray owner resourceClass resourceId)).foldlM
        (fun s f => releaseEntry f.toRelease s) s) := by
    refine respects_foldlM fun finding hfinding => respects_releaseEntry _ ?_
    rw [(toRelease_key_of_isStray (List.mem_filter.mp hfinding).2).1]
    exact howner
  have hrun := hfold _ _ h
  simp only [reconcile]
  rw [hstray, hrest]
  exact hrun

theorem respects_ingestFork (record : EventRecord) (hpid : record.pid ≠ pid) (hchild : record.childPid ≠ pid) :
    Respects pid (ingestFork record) := by
  refine Respects.ite ?_ respects_some
  intro store store' h
  have hparents : (store.rollbackExec pid).entries.filter (Entry.isInheritable record.pid) =
      store.entries.filter (Entry.isInheritable record.pid) := by
    rw [rollbackExec, List.filter_map]
    have hcomp : ∀ entry : Entry, (Entry.isInheritable record.pid ∘ Entry.rolledBack pid) entry =
        entry.isInheritable record.pid := by
      intro entry
      by_cases hentry : entry.pid = pid
      · have hne : entry.pid ≠ record.pid := fun h => hpid (h ▸ hentry)
        simp [Entry.isInheritable, hne]
      · simp [Entry.rolledBack_of_ne hentry]
    rw [List.filter_congr fun entry _ => hcomp entry]
    refine (List.map_congr_left fun entry hentry => ?_).trans (List.map_id _)
    have howner := (List.mem_filter.mp hentry).2
    simp only [Entry.isInheritable, decide_eq_true_eq] at howner
    exact Entry.rolledBack_of_ne (by rw [howner.1]; exact hpid)
  dsimp only at h ⊢
  rw [hparents]
  refine respects_foldlM (fun entry _ => ?_) _ _ h
  intro s s' hfork
  dsimp only [forkEntry] at hfork ⊢
  rw [findLatest_rollbackExec hchild]
  split at hfork
  · next hknown =>
    rw [if_pos hknown]
    exact respects_some _ _ hfork
  · next hfresh =>
    rw [if_neg hfresh]
    exact Respects.ite respects_none
      ((respects_addEntry (inheritedRecord record entry) hchild _).bind
        (respects_reconcile hchild _ _)) _ _ hfork

/-- An exec record that closes a descriptor or reports it. -/
theorem ingestExec_of_split {store : Store} {pre : List Entry} {entry : Entry} {post : List Entry}
    (hs : SplitAt (Entry.matches record.pid fdResourceClass (formatFdIdentifier record.fd) true)
      store.entries pre entry post) :
    store.ingestExec record =
      if record.cloexec = 0 then store.addFinding .execInherit (normalizedExec record) (some entry)
      else some ⟨pre ++ (entry.closedBy (normalizedExec record)).markExecPending :: post,
        store.findings⟩ := by
  have hfind : findLatest store.entries record.pid fdResourceClass (formatFdIdentifier record.fd)
      true = some pre.length := hs.latestIndex_eq
  simp only [ingestExec, hfind, closeAt, hs.getElem?, hs.modify, modify_append_cons]

theorem respects_ingestExec (record : EventRecord) (hpid : record.pid ≠ pid) : Respects pid (ingestExec record) := by
  intro store store' h
  cases hfind : findLatest store.entries record.pid fdResourceClass (formatFdIdentifier record.fd)
    true with
  | none =>
    simp only [ingestExec, hfind] at h
    simp only [ingestExec, findLatest_rollbackExec hpid, hfind]
    exact respects_some _ _ h
  | some index =>
    obtain ⟨pre, entry, post, hs, rfl⟩ := exists_split_of_latestIndex hfind
    have hkey := hs.holds
    simp only [Entry.matches, decide_eq_true_eq] at hkey
    have hother : entry.pid ≠ pid := by
      rw [hkey.1]
      exact hpid
    have hfixed : entry.rolledBack pid = entry := Entry.rolledBack_of_ne hother
    have hmarked : ((entry.closedBy (normalizedExec record)).markExecPending).rolledBack pid =
        (entry.closedBy (normalizedExec record)).markExecPending := Entry.rolledBack_of_ne hother
    have hmapped : SplitAt
        (Entry.matches record.pid fdResourceClass (formatFdIdentifier record.fd) true)
        (store.rollbackExec pid).entries (pre.map (Entry.rolledBack pid)) (entry.rolledBack pid)
        (post.map (Entry.rolledBack pid)) :=
      hs.map fun e _ =>
        matches_rolledBack hpid fdResourceClass (formatFdIdentifier record.fd) true e
    rw [hfixed] at hmapped
    rw [ingestExec_of_split hs] at h
    rw [ingestExec_of_split hmapped]
    split at h
    · next hkeep =>
      rw [if_pos hkeep]
      exact respects_addFinding (normalizedExec record) hpid _ _ _ _ h
    · next hcloses =>
      rw [if_neg hcloses]
      obtain rfl := Option.some.inj h
      simp [rollbackExec, hmarked]

theorem respects_rollbackExec {owner : ℤ} (howner : owner ≠ pid) :
    Respects pid (fun store => some (store.rollbackExec owner)) := by
  intro store store' h
  obtain rfl := Option.some.inj h
  have hentry : ∀ entry : Entry, (entry.rolledBack pid).rolledBack owner =
      (entry.rolledBack owner).rolledBack pid := by
    intro entry
    by_cases hpid : entry.pid = pid
    · have hne : entry.pid ≠ owner := fun h => howner (h ▸ hpid)
      have hne' : (entry.rolledBack pid).pid ≠ owner := by simpa using hne
      rw [Entry.rolledBack_of_ne hne, Entry.rolledBack_of_ne hne']
    · have hpid' : (entry.rolledBack owner).pid ≠ pid := by simpa using hpid
      rw [Entry.rolledBack_of_ne hpid, Entry.rolledBack_of_ne hpid']
  simp only [rollbackExec, List.map_map, List.filter_filter, Option.some.injEq, Store.mk.injEq]
  refine ⟨List.map_congr_left fun entry _ => hentry entry, ?_⟩
  exact List.filter_congr fun finding _ => Bool.and_comm _ _

theorem respects_ingest (lib : RecordLibrary) (record : EventRecord) (hpid : record.pid ≠ pid)
    (hfork : record.recordKind = .fork → record.childPid ≠ pid) :
    Respects pid (ingest lib record) := by
  unfold ingest
  cases hkind : record.recordKind with
  | resource => exact respects_ingestResource record hpid
  | fd => exact respects_ingestResource (normalizedFd record) hpid
  | alloc => exact respects_ingestAllocation record hpid lib
  | fork => exact respects_ingestFork record hpid (hfork hkind)
  | exec => exact respects_ingestExec record hpid
  | execFail => exact respects_rollbackExec hpid
  | spawn => exact respects_none
  | call => exact respects_none
  | complete => exact respects_none

/-- An exec record of the process is undone by the rollback, entry and finding alike. -/
theorem rollbackExec_ingestExec {store store' : Store} (hpid : record.pid = pid)
    (hpristine : ∀ entry ∈ store.entries, entry.live = true → entry.reopened = entry)
    (h : store.ingestExec record = some store') :
    store'.rollbackExec pid = store.rollbackExec pid := by
  cases hfind : findLatest store.entries record.pid fdResourceClass (formatFdIdentifier record.fd)
    true with
  | none =>
    simp only [ingestExec, hfind] at h
    rw [Option.some.inj h]
  | some index =>
    obtain ⟨pre, entry, post, hs, rfl⟩ := exists_split_of_latestIndex hfind
    have hkey := hs.holds
    simp only [Entry.matches, decide_eq_true_eq, forall_const] at hkey
    rw [ingestExec_of_split hs] at h
    split at h
    · obtain ⟨_, rfl⟩ := addFinding_eq_some.mp h
      have hpending : (newFinding .execInherit (normalizedExec record) (some entry)).isPendingOf pid =
          true := by simp [Finding.isPendingOf, newFinding, normalizedExec, hpid]
      simp [rollbackExec, hpending]
    · obtain rfl := Option.some.inj h
      have hreopened : entry.reopened = entry := hpristine entry hs.mem hkey.2.2.2
      have hundone : ((entry.closedBy (normalizedExec record)).markExecPending).rolledBack pid =
          entry.rolledBack pid := by
        have hnotPending : entry.execPending = false := by
          rw [← hreopened]
          rfl
        have hleft : ((entry.closedBy (normalizedExec record)).markExecPending).rolledBack pid =
            entry.reopened := by
          simp [Entry.rolledBack, Entry.isPendingOf, Entry.markExecPending, Entry.closedBy,
            Entry.reopened, hkey.1, hpid]
        rw [hleft, hreopened]
        simp [Entry.rolledBack, Entry.isPendingOf, hnotPending]
      simp [rollbackExec, hs.eq, hundone]

theorem rollbackExec_eq_self {store : Store}
    (hentries : ∀ entry ∈ store.entries, entry.isPendingOf pid = false)
    (hfindings : ∀ finding ∈ store.findings, finding.isPendingOf pid = false) :
    store.rollbackExec pid = store := by
  have hmap : store.entries.map (Entry.rolledBack pid) = store.entries := by
    refine (List.map_congr_left fun entry hentry => ?_).trans (List.map_id _)
    simp [Entry.rolledBack, hentries entry hentry]
  have hfilter : store.findings.filter (fun finding => ¬ finding.isPendingOf pid) =
      store.findings :=
    List.filter_eq_self.mpr fun finding hfinding => by simp [hfindings finding hfinding]
  rw [rollbackExec, hmap, hfilter]

end Store

def isExecOf (pid : ℤ) (record : EventRecord) : Bool := record.recordKind = .exec ∧ record.pid = pid

/-- A record of another process that does not fork the process either. -/
def isElsewhere (pid : ℤ) (record : EventRecord) : Prop :=
  record.pid ≠ pid ∧ (record.recordKind = .fork → record.childPid ≠ pid)

instance (pid : ℤ) (record : EventRecord) : Decidable (isElsewhere pid record) :=
  inferInstanceAs (Decidable (_ ∧ _))

theorem ingestAll_append (lib : RecordLibrary) (m : Model) (records records' : List EventRecord) :
    ingestAll lib m (records ++ records') =
      (ingestAll lib m records).bind (fun m' => ingestAll lib m' records') := by
  induction records generalizing m with
  | nil => rfl
  | cons record records ih =>
    simp only [List.cons_append, ingestAll]
    rcases ingest lib record ⟨m, []⟩ with ⟨⟨e⟩ | ⟨⟩, w⟩
    · rfl
    · exact ih w.state

/-- One record: the rolled back store takes the step too, or the record is undone. -/
theorem rollback_ingest {lib : RecordLibrary} {pid : ℤ} {record : EventRecord} {m : Model}
    {w : World Model} (hsound : Sound m)
    (hrecord : isExecOf pid record = true ∨ isElsewhere pid record)
    (hrun : ingest lib record ⟨m, []⟩ = (.ok (), w)) :
    (m.store.rollbackExec pid).ingestAll lib
        ([record].filter (fun r => ¬ isExecOf pid r)) = some (w.state.store.rollbackExec pid) := by
  obtain ⟨s, hs, ⟨_, rfl, _⟩, _⟩ :=
    (ingest_produces lib record hsound.bounded (isAdmitted_of_ingest hrun)).of_ok hrun
  rcases hrecord with hexec | ⟨hpid, hfork⟩
  · have hattempt := hexec
    simp only [isExecOf, decide_eq_true_eq] at hattempt
    have hstep : m.store.ingestExec record = some w.state.store := by
      simpa only [Store.ingest, hattempt.1] using hs
    rw [Store.rollbackExec_ingestExec hattempt.2 hsound.pristine hstep]
    simp [hexec, Store.ingestAll]
  · have hother : isExecOf pid record = false := by simp [isExecOf, hpid]
    have hstep := Store.respects_ingest lib record hpid hfork _ _ hs
    simp [hother, Store.ingestAll, hstep]

theorem rollback_ingestAll {lib : RecordLibrary} {pid : ℤ} {records : List EventRecord}
    {m m' : Model} (hsound : Sound m)
    (hrecords : ∀ record ∈ records, isExecOf pid record = true ∨ isElsewhere pid record)
    (hrun : ingestAll lib m records = some m') :
    (m.store.rollbackExec pid).ingestAll lib (records.filter (fun r => ¬ isExecOf pid r)) =
      some (m'.store.rollbackExec pid) := by
  induction records generalizing m with
  | nil =>
    obtain rfl : m = m' := by simpa [ingestAll] using hrun
    rfl
  | cons record records ih =>
    unfold ingestAll at hrun
    rcases hstep : ingest lib record ⟨m, []⟩ with ⟨⟨e⟩ | ⟨⟩, w⟩
    · simp [hstep] at hrun
    simp only [hstep] at hrun
    have hnext : Sound w.state := by
      have hkept := hsound.ingest lib record []
      rwa [hstep] at hkept
    have hfirst := rollback_ingest hsound (hrecords record List.mem_cons_self) hstep
    have hrest := ih hnext (fun r hr => hrecords r (List.mem_cons_of_mem _ hr)) hrun
    rw [← List.singleton_append, List.filter_append]
    simp only [Store.ingestAll, List.foldlM_append] at hfirst hrest ⊢
    rw [hfirst]
    exact hrest

/-- A failed exec attempt leaves no trace: the entries and findings are those of the
run without the exec records of the process and without their failure. -/
theorem execFail_undoes_attempt (lib : RecordLibrary) (m m' : Model) (pid : ℤ)
    (hreachable : Reachable lib m) (hentries : ∀ entry ∈ m.entries, entry.isPendingOf pid = false)
    (hfindings : ∀ finding ∈ m.findings, finding.isPendingOf pid = false)
    (records : List EventRecord) (failure : EventRecord)
    (hrecords : ∀ record ∈ records, isExecOf pid record = true ∨ isElsewhere pid record)
    (hkind : failure.recordKind = .execFail) (hpid : failure.pid = pid)
    (hrun : ingestAll lib m (records ++ [failure]) = some m') :
    ∃ m'', ingestAll lib m (records.filter (fun r => ¬ isExecOf pid r)) = some m'' ∧
      m''.entries = m'.entries ∧ m''.findings = m'.findings := by
  have hsound := hreachable.sound
  obtain ⟨hsame, _, _⟩ := store_ingestAll hsound.bounded hrun
  rw [ingestAll_append] at hrun
  obtain ⟨m₁, hrecordsRun, hfailure⟩ := Option.bind_eq_some_iff.mp hrun
  have hbounded := (store_ingestAll hsound.bounded hrecordsRun).2.2
  have hundone : m'.store = m₁.store.rollbackExec pid := by
    have hlast := (store_ingestAll hbounded hfailure).2.1
    simp only [Store.ingestAll, List.foldlM_cons, List.foldlM_nil, Store.ingest, hkind, hpid] at hlast
    simpa using hlast.symm
  have hfiltered := rollback_ingestAll hsound hrecords hrecordsRun
  have hclean : m.store.rollbackExec pid = m.store :=
    Store.rollbackExec_eq_self hentries hfindings
  rw [hclean, ← hundone] at hfiltered
  have hsub : (records.filter (fun r => ¬ isExecOf pid r)).Sublist (records ++ [failure]) :=
    List.filter_sublist.trans (List.sublist_append_left _ _)
  obtain ⟨m'', hm'', hstore⟩ := ingestAll_of_store hsound.bounded (hsame.sublist hsub) hfiltered
  exact ⟨m'', hm'', congrArg Store.entries hstore, congrArg Store.findings hstore⟩

def twoDescriptors : Model :=
  let opened (fd : ℤ) (sequence : ℕ) : EventRecord :=
    { recordKind := .fd, runId := some (.ofString "run"), pid := 1, fd := fd, sequence := sequence }
  (ingest .standard (opened 4 2) ⟨(ingest .standard (opened 3 1) ⟨{}, []⟩).2.state, []⟩).2.state

/-- Process 1 tries to exec with a descriptor that closes and one that stays open,
while process 2 opens a descriptor. -/
def attempt : List EventRecord :=
  let run := some (.ofString "run")
  [{ recordKind := .exec, runId := run, pid := 1, fd := 3, cloexec := 1, sequence := 3 },
    { recordKind := .fd, runId := run, pid := 2, fd := 5, sequence := 1 },
    { recordKind := .exec, runId := run, pid := 1, fd := 4, sequence := 4 }]

def attemptFailure : EventRecord :=
  { recordKind := .execFail, runId := some (.ofString "run"), pid := 1, sequence := 5 }

def afterAttempt : Model := (ingestAll .standard twoDescriptors (attempt ++ [attemptFailure])).getD {}

theorem execFail_undoes_attempt_twoDescriptors :
    ∃ m'', ingestAll .standard twoDescriptors (attempt.filter (fun r => ¬ isExecOf 1 r)) =
        some m'' ∧ m''.entries = afterAttempt.entries ∧ m''.findings = afterAttempt.findings :=
  execFail_undoes_attempt .standard twoDescriptors afterAttempt 1
    (.ingest (.ingest .create _ []) _ []) (by decide) (by decide) attempt attemptFailure (by decide)
    rfl rfl (by decide)

end ToolEvent.Lifecycle
