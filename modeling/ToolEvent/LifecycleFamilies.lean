import ToolEvent.Library.Projection
import ToolEvent.LifecycleFinish
import ToolEvent.LifecycleRollback

/-!
# Families of processes

A replay treats each family of processes as if it were alone: the entries and findings of
the processes in a set that no fork leaves or enters are those of a replay of their records
alone. How the records of different families are merged into one stream does not matter.
-/

namespace ToolEvent.Lifecycle

open Fallible World LatestMatch Projection

namespace Store

def ofProcesses (shown : ℤ → Bool) (store : Store) : Store where
  entries := store.entries.filter (fun entry => shown entry.pid)
  findings := store.findings.filter (fun finding => shown finding.pid)

/-- Seen from the processes of a set, a step of a process is taken if it is one of them. -/
abbrev Sees (shown : ℤ → Bool) (pid : ℤ) (step : Store → Option Store) : Prop :=
  Projects (ofProcesses shown) (shown pid) step step

variable {shown : ℤ → Bool} {pid : ℤ} {record : EventRecord}

theorem pid_of_matches {resourceClass resourceId : Text} {liveOnly : Bool} {entry : Entry}
    (h : entry.matches pid resourceClass resourceId liveOnly = true) : entry.pid = pid := by
  simp only [Entry.matches, decide_eq_true_eq] at h
  exact h.1

theorem split_ofProcesses {resourceClass resourceId : Text} {liveOnly : Bool} {store : Store} {pre : List Entry}
    {entry : Entry} {post : List Entry} (hpid : shown pid = true)
    (hs : SplitAt (Entry.matches pid resourceClass resourceId liveOnly) store.entries pre entry post) :
    SplitAt (Entry.matches pid resourceClass resourceId liveOnly) (store.ofProcesses shown).entries
      (pre.filter fun entry => shown entry.pid) entry (post.filter fun entry => shown entry.pid) := by
  apply hs.filter
  rw [pid_of_matches hs.holds]
  exact hpid

theorem findLatest_ofProcesses (hpid : shown pid = true) (resourceClass resourceId : Text) (liveOnly : Bool)
    (store : Store) :
    findLatest (store.ofProcesses shown).entries pid resourceClass resourceId liveOnly = none ↔
      findLatest store.entries pid resourceClass resourceId liveOnly = none := by
  apply latestIndex_filter_eq_none_iff
  intro entry _ hentry
  rw [pid_of_matches hentry]
  exact hpid

theorem latest_ofProcesses (hpid : shown pid = true) (resourceClass resourceId : Text) (liveOnly : Bool)
    (store : Store) :
    (store.ofProcesses shown).latest pid resourceClass resourceId liveOnly =
      store.latest pid resourceClass resourceId liveOnly := by
  unfold latest latestEntry
  cases hfind : findLatest store.entries pid resourceClass resourceId liveOnly with
  | none =>
    rw [(findLatest_ofProcesses hpid resourceClass resourceId liveOnly store).mpr hfind]
    rfl
  | some index =>
    obtain ⟨pre, entry, post, hs, rfl⟩ := exists_split_of_latestIndex hfind
    have hpart := split_ofProcesses hpid hs
    rw [findLatest, hpart.latestIndex_eq, Option.bind_some, Option.bind_some, hpart.getElem?, hs.getElem?]

theorem sees_addEntry (record : EventRecord) (resourceId : Text) :
    Sees shown record.pid (addEntry record resourceId) := by
  intro store store' h
  obtain ⟨hroom, rfl⟩ := addEntry_eq_some.mp h
  cases hpid : shown record.pid with
  | true =>
    have hnew : shown (newEntry record resourceId).pid = true := hpid
    apply addEntry_eq_some.mpr
    exact ⟨lt_of_le_of_lt (List.length_filter_le _ _) hroom, by simp [ofProcesses, hnew]⟩
  | false =>
    have hnew : shown (newEntry record resourceId).pid = false := hpid
    simp [seen, ofProcesses, hnew]

theorem sees_addFinding (record : EventRecord) (kind : FindingKind) (previous : Option Entry) :
    Sees shown record.pid (addFinding kind record previous) := by
  intro store store' h
  obtain ⟨hroom, rfl⟩ := addFinding_eq_some.mp h
  have hnew : shown (newFinding kind record previous).pid = shown record.pid := by rw [newFinding_pid]
  cases hpid : shown record.pid with
  | true =>
    rw [hpid] at hnew
    apply addFinding_eq_some.mpr
    exact ⟨lt_of_le_of_lt (List.length_filter_le _ _) hroom, by simp [ofProcesses, hnew]⟩
  | false =>
    rw [hpid] at hnew
    simp [seen, ofProcesses, hnew]

/-- A step that reads what the processes of the set can read, and is then one that they see. -/
theorem sees_of_read {β : Type} (f : Store → β) (g : β → Store → Option Store)
    (hf : shown pid = true → ∀ store, f (store.ofProcesses shown) = f store)
    (hg : ∀ value, Sees shown pid (g value)) : Sees shown pid (fun store => g (f store) store) := by
  intro store store' h
  have hseen := hg (f store) store store' h
  cases hpid : shown pid with
  | true =>
    rw [hpid] at hseen
    change g (f (store.ofProcesses shown)) (store.ofProcesses shown) = _
    rw [hf hpid]
    exact hseen
  | false =>
    rw [hpid] at hseen
    exact hseen

/-- The entry of a process is changed at its place in both stores. -/
theorem ofProcesses_modify {f : Entry → Entry} (hf : ∀ entry, (f entry).pid = entry.pid) {p : Entry → Bool} {store : Store}
    {pre : List Entry} {entry : Entry} {post : List Entry} (hs : SplitAt p store.entries pre entry post)
    (hpid : shown entry.pid = true) :
    ofProcesses shown { store with entries := store.entries.modify pre.length f } =
      { store.ofProcesses shown with
        entries := (store.ofProcesses shown).entries.modify (pre.filter fun entry => shown entry.pid).length f } := by
  have hpart := hs.filter (q := fun entry : Entry => shown entry.pid) hpid
  have hchanged : shown (f entry).pid = true := by rw [hf, hpid]
  have hentries : (pre ++ f entry :: post).filter (fun entry => shown entry.pid) =
      (pre.filter fun entry => shown entry.pid) ++ f entry :: post.filter fun entry => shown entry.pid := by
    rw [List.filter_append, List.filter_cons, if_pos hchanged]
  simp only [ofProcesses, hs.modify, hpart.modify, hentries]

theorem ofProcesses_modify_hidden {f : Entry → Entry} (hf : ∀ entry, (f entry).pid = entry.pid) {p : Entry → Bool}
    {store : Store} {pre : List Entry} {entry : Entry} {post : List Entry} (hs : SplitAt p store.entries pre entry post)
    (hpid : shown entry.pid = false) :
    ofProcesses shown { store with entries := store.entries.modify pre.length f } = store.ofProcesses shown := by
  have hkept := filter_modify_hidden (p := fun entry => shown entry.pid) (f := f) hs hpid (by rw [hf, hpid])
  simp only [ofProcesses, hkept]

theorem sees_releaseEntry (record : EventRecord) : Sees shown record.pid (releaseEntry record) := by
  intro store store' h
  unfold releaseEntry at h
  cases hfind : findLatest store.entries record.pid (recordClass record) (recordId record) true with
  | none =>
    simp only [hfind] at h
    have hseen : seen (shown record.pid) _ _ = _ := sees_addFinding record _ _ store store' h
    cases hpid : shown record.pid with
    | true =>
      rw [hpid] at hseen
      have hnone := (findLatest_ofProcesses hpid (recordClass record) (recordId record) true store).mpr hfind
      simp only [seen, releaseEntry, hnone, latest_ofProcesses hpid, if_true]
      exact hseen
    | false =>
      rw [hpid] at hseen
      exact hseen
  | some index =>
    obtain ⟨pre, entry, post, hs, rfl⟩ := exists_split_of_latestIndex hfind
    simp only [hfind, Option.some.injEq] at h
    have hclosed : ∀ entry : Entry, (entry.closedBy record).pid = entry.pid := fun _ => rfl
    have howner : shown entry.pid = shown record.pid := by rw [pid_of_matches hs.holds]
    rw [← h, closeAt]
    cases hpid : shown record.pid with
    | true =>
      have hpart := split_ofProcesses hpid hs
      rw [ofProcesses_modify hclosed hs (howner.trans hpid)]
      simp only [seen, releaseEntry, findLatest, hpart.latestIndex_eq, if_true, closeAt]
    | false =>
      rw [ofProcesses_modify_hidden hclosed hs (howner.trans hpid)]
      rfl

theorem sees_acquireEntry (record : EventRecord) : Sees shown record.pid (acquireEntry record) :=
  sees_of_read (fun store => store.latest record.pid (recordClass record) (recordId record) true)
    (fun previous store => (if previous.isSome then store.addFinding .duplicateAcquire record previous
      else some store).bind (addEntry record (recordId record)))
    (fun hpid store => latest_ofProcesses hpid _ _ _ store)
    fun _ => (Projects.ite (sees_addFinding record _ _) projects_some).bind (sees_addEntry record _)

theorem sees_replaceEntry (record : EventRecord) : Sees shown record.pid (replaceEntry record) := by
  apply Projects.ite
  · exact sees_of_read (fun store => store.latest record.pid (recordClass record) (recordId record) false)
      (fun previous => addFinding .badReplace record previous) (fun hpid store => latest_ofProcesses hpid _ _ _ store)
      fun _ => sees_addFinding record _ _
  · exact (sees_releaseEntry record).bind (sees_addEntry record _)

theorem sees_useEntry (record : EventRecord) : Sees shown record.pid (useEntry record) :=
  sees_of_read
    (fun store => (store.latest record.pid (recordClass record) (recordId record) true,
      store.latest record.pid (recordClass record) (recordId record) false))
    (fun previous store => if previous.1.isNone then store.addFinding .invalidUse record previous.2 else some store)
    (fun hpid store => by rw [latest_ofProcesses hpid, latest_ofProcesses hpid])
    fun _ => Projects.ite (sees_addFinding record _ _) projects_some

theorem sees_ingestResource (record : EventRecord) : Sees shown record.pid (ingestResource record) := by
  refine Projects.ite (projects_none _) (Projects.ite projects_some ?_)
  cases record.resourceKind with
  | acquire => exact sees_acquireEntry record
  | release => exact sees_releaseEntry record
  | replace => exact sees_replaceEntry record
  | transfer => exact sees_replaceEntry record
  | use => exact sees_useEntry record

theorem sees_ingestAllocation (lib : RecordLibrary) (record : EventRecord) :
    Sees shown record.pid (ingestAllocation lib record) := by
  have hresource : ∀ kind pointer, Sees shown record.pid (ingestResource (normalizedAllocation record kind pointer)) :=
    fun kind pointer => sees_ingestResource (normalizedAllocation record kind pointer)
  have hacquire : ∀ pointer, Sees shown record.pid (if lib.pointerIsNull pointer then some
      else ingestResource (normalizedAllocation record .acquire pointer)) := by
    intro pointer
    split
    · exact projects_some
    · exact hresource _ _
  unfold ingestAllocation
  cases record.allocKind with
  | alloc => exact hacquire _
  | free => exact Projects.ite projects_some (hresource _ _)
  | realloc =>
    refine Projects.ite (hacquire _) ?_
    refine sees_of_read
      (fun store =>
        ((findLatest store.entries record.pid allocationResourceClass (record.ptr.getD .empty) true).isNone,
          store.latest record.pid allocationResourceClass (record.ptr.getD .empty) false))
      (fun previous store =>
        if previous.1 then
          (store.addFinding .badReplace (normalizedAllocation record .replace record.ptr) previous.2).bind
            (if lib.pointerIsNull record.newPtr then some
              else ingestResource (normalizedAllocation record .acquire record.newPtr))
        else if lib.pointerIsNull record.newPtr then some store
        else (store.ingestResource (normalizedAllocation record .release record.ptr)).bind
          (if lib.pointerIsNull record.newPtr then some
            else ingestResource (normalizedAllocation record .acquire record.newPtr)))
      (fun hpid store => ?_) fun value => ?_
    · rw [Prod.mk.injEq]
      refine ⟨?_, latest_ofProcesses hpid _ _ _ store⟩
      rw [Bool.eq_iff_iff, Option.isNone_iff_eq_none, Option.isNone_iff_eq_none]
      exact findLatest_ofProcesses hpid _ _ _ store
    · have hbad : Sees shown record.pid _ :=
        sees_addFinding (normalizedAllocation record .replace record.ptr) .badReplace value.2
      exact Projects.ite (hbad.bind (hacquire _)) (Projects.ite projects_some ((hresource _ _).bind (hacquire _)))

theorem stray_ofProcesses {resourceClass resourceId : Text} (hpid : shown pid = true) (store : Store) :
    (store.ofProcesses shown).findings.filter (Finding.isStray pid resourceClass resourceId) =
      store.findings.filter (Finding.isStray pid resourceClass resourceId) := by
  rw [ofProcesses, List.filter_filter]
  apply List.filter_congr
  intro finding _
  cases hstray : finding.isStray pid resourceClass resourceId with
  | true =>
    have howner : finding.pid = pid := (toRelease_key_of_isStray hstray).1
    rw [howner, hpid]
    rfl
  | false => rfl

theorem sees_reconcile (pid : ℤ) (resourceClass resourceId : Text) :
    Sees shown pid (reconcile pid resourceClass resourceId) := by
  intro store store' h
  have hreleases : ∀ finding ∈ store.findings.filter (Finding.isStray pid resourceClass resourceId),
      Sees shown pid (fun store => store.releaseEntry finding.toRelease) := by
    intro finding hfinding
    have howner := (toRelease_key_of_isStray (List.mem_filter.mp hfinding).2).1
    have hseen : Sees shown finding.toRelease.pid _ := sees_releaseEntry finding.toRelease
    rwa [howner] at hseen
  have hseen := projects_foldlM hreleases _ _ h
  cases hpid : shown pid with
  | true =>
    rw [hpid] at hseen
    change reconcile pid resourceClass resourceId (store.ofProcesses shown) = _
    rw [reconcile, stray_ofProcesses hpid]
    have hrest : ({ store.ofProcesses shown with
          findings := (store.ofProcesses shown).findings.filter
            (fun f => ¬ f.isStray pid resourceClass resourceId) } : Store) =
        ofProcesses shown { store with
          findings := store.findings.filter (fun f => ¬ f.isStray pid resourceClass resourceId) } := by
      simp [ofProcesses, List.filter_filter, Bool.and_comm]
    rw [hrest]
    exact hseen
  | false =>
    rw [hpid] at hseen
    have hrest : ofProcesses shown { store with
        findings := store.findings.filter (fun f => ¬ f.isStray pid resourceClass resourceId) } =
          store.ofProcesses shown := by
      simp only [ofProcesses, List.filter_filter, Store.mk.injEq, true_and]
      apply List.filter_congr
      intro finding _
      cases hstray : finding.isStray pid resourceClass resourceId with
      | true =>
        have howner : finding.pid = pid := (toRelease_key_of_isStray hstray).1
        simp [howner, hpid]
      | false => simp
    rwa [hrest] at hseen

theorem sees_forkEntry (record : EventRecord) (entry : Entry) :
    Sees shown record.childPid (forkEntry record entry) :=
  sees_of_read
    (fun store => (findLatest store.entries record.childPid fdResourceClass entry.resourceId false).isSome)
    (fun known store =>
      if known then some store
      else if fdIdentifierLength ≤ entry.resourceId.length then none
      else (store.addEntry (inheritedRecord record entry) entry.resourceId).bind
        (reconcile record.childPid fdResourceClass entry.resourceId))
    (fun hpid store => by
      rw [Bool.eq_iff_iff, Option.isSome_iff_ne_none, Option.isSome_iff_ne_none, Ne, findLatest_ofProcesses hpid])
    fun _ => Projects.ite projects_some (Projects.ite (projects_none _)
      ((sees_addEntry (inheritedRecord record entry) _).bind (sees_reconcile _ _ _)))

/-- A fork is seen by a set that holds the parent and the child, and not by one that holds neither. -/
theorem sees_ingestFork (record : EventRecord) (hchild : shown record.childPid = shown record.pid) :
    Sees shown record.pid (ingestFork record) := by
  have hentries : ∀ entries : List Entry, Sees shown record.pid (fun store =>
      entries.foldlM (fun store entry => store.forkEntry record entry) store) := by
    intro entries
    have hfork : Sees shown record.childPid fun store =>
        entries.foldlM (fun store entry => store.forkEntry record entry) store :=
      projects_foldlM fun entry _ => sees_forkEntry record entry
    rw [Sees, hchild] at hfork
    exact hfork
  apply Projects.ite
  · refine sees_of_read (fun store => store.entries.filter (Entry.isInheritable record.pid))
      (fun entries store => entries.foldlM (fun store entry => store.forkEntry record entry) store)
      (fun hpid store => ?_) hentries
    rw [ofProcesses, List.filter_filter]
    apply List.filter_congr
    intro entry _
    cases hparent : entry.isInheritable record.pid with
    | true =>
      simp only [Entry.isInheritable, decide_eq_true_eq] at hparent
      rw [hparent.1, hpid]
      rfl
    | false => rfl
  · exact projects_some

theorem sees_ingestExec (record : EventRecord) : Sees shown record.pid (ingestExec record) := by
  intro store store' h
  cases hfind : findLatest store.entries record.pid fdResourceClass (formatFdIdentifier record.fd) true with
  | none =>
    simp only [ingestExec, hfind] at h
    obtain rfl := Option.some.inj h
    cases hpid : shown record.pid with
    | true =>
      have hnone := (findLatest_ofProcesses hpid fdResourceClass (formatFdIdentifier record.fd) true store).mpr hfind
      simp only [seen, ingestExec, hnone, if_true]
    | false => rfl
  | some index =>
    obtain ⟨pre, entry, post, hs, rfl⟩ := exists_split_of_latestIndex hfind
    have howner : shown entry.pid = shown record.pid := by rw [pid_of_matches hs.holds]
    rw [ingestExec_of_split hs] at h
    split at h
    · next hkeep =>
      have hseen : seen (shown record.pid) _ _ = _ :=
        sees_addFinding (normalizedExec record) .execInherit (some entry) store store' h
      cases hpid : shown record.pid with
      | true =>
        rw [hpid] at hseen
        change ingestExec record (store.ofProcesses shown) = _
        rw [ingestExec_of_split (split_ofProcesses hpid hs), if_pos hkeep]
        exact hseen
      | false =>
        rw [hpid] at hseen
        exact hseen
    · next hcloses =>
      obtain rfl := Option.some.inj h
      have hclosed : ∀ entry : Entry, ((entry.closedBy (normalizedExec record)).markExecPending).pid = entry.pid :=
        fun _ => rfl
      rw [← hs.modify fun entry => (entry.closedBy (normalizedExec record)).markExecPending]
      cases hpid : shown record.pid with
      | true =>
        have hpart := split_ofProcesses hpid hs
        change ingestExec record (store.ofProcesses shown) = _
        rw [ingestExec_of_split hpart, if_neg hcloses, ← hpart.modify fun entry =>
          (entry.closedBy (normalizedExec record)).markExecPending]
        exact congrArg some (ofProcesses_modify hclosed hs (howner.trans hpid)).symm
      | false =>
        exact congrArg some (ofProcesses_modify_hidden hclosed hs (howner.trans hpid)).symm

theorem sees_rollbackExec (pid : ℤ) : Sees shown pid (fun store => some (store.rollbackExec pid)) := by
  intro store store' h
  obtain rfl := Option.some.inj h
  have hentries : (store.rollbackExec pid).entries.filter (fun entry => shown entry.pid) =
      (store.ofProcesses shown).entries.map (Entry.rolledBack pid) := by
    rw [rollbackExec, ofProcesses, List.filter_map]
    refine congrArg _ (List.filter_congr fun entry _ => ?_)
    rw [Function.comp_apply, Entry.rolledBack_pid]
  have hfindings : (store.rollbackExec pid).findings.filter (fun finding => shown finding.pid) =
      (store.ofProcesses shown).findings.filter (fun finding => ¬ finding.isPendingOf pid) := by
    rw [rollbackExec, ofProcesses, List.filter_filter, List.filter_filter]
    exact List.filter_congr fun finding _ => Bool.and_comm _ _
  cases hpid : shown pid with
  | true =>
    apply congrArg some
    rw [rollbackExec, ← hentries, ← hfindings]
    rfl
  | false =>
    apply congrArg some
    have hnone : (store.ofProcesses shown).rollbackExec pid = store.ofProcesses shown := by
      apply rollbackExec_eq_self
      · intro entry hentry
        have hshown := (List.mem_filter.mp hentry).2
        have hother : entry.pid ≠ pid := fun h => by simp [h, hpid] at hshown
        simp [Entry.isPendingOf, hother]
      · intro finding hfinding
        have hshown := (List.mem_filter.mp hfinding).2
        have hother : finding.pid ≠ pid := fun h => by simp [h, hpid] at hshown
        simp [Finding.isPendingOf, hother]
    rw [← hnone, rollbackExec, ← hentries, ← hfindings]
    rfl

/-- A record of the replay is seen by its family. -/
theorem sees_ingest (lib : RecordLibrary) (record : EventRecord)
    (hfork : record.recordKind = .fork → shown record.childPid = shown record.pid) :
    Sees shown record.pid (ingest lib record) := by
  unfold ingest
  cases hkind : record.recordKind with
  | resource => exact sees_ingestResource record
  | fd => exact sees_ingestResource (normalizedFd record)
  | alloc => exact sees_ingestAllocation lib record
  | fork => exact sees_ingestFork record (hfork hkind)
  | exec => exact sees_ingestExec record
  | execFail => exact sees_rollbackExec record.pid
  | spawn => exact projects_none _
  | call => exact projects_none _
  | complete => exact projects_none _

/-- What finishing makes of a store. -/
def finished (store : Store) : Store where
  entries := store.entries.map Entry.clearPending
  findings := (store.findings ++ (store.entries.filter (·.live)).map leakFinding).map Finding.clearPending

theorem ofProcesses_finished (shown : ℤ → Bool) (store : Store) :
    store.finished.ofProcesses shown = (store.ofProcesses shown).finished := by
  have hentries : (store.entries.map Entry.clearPending).filter (fun entry => shown entry.pid) =
      (store.entries.filter fun entry => shown entry.pid).map Entry.clearPending := List.filter_map
  have hleaks : ((store.entries.filter (·.live)).map leakFinding).filter (fun finding => shown finding.pid) =
      ((store.entries.filter fun entry => shown entry.pid).filter (·.live)).map leakFinding := by
    rw [List.filter_map, List.filter_filter, List.filter_filter]
    exact congrArg _ (List.filter_congr fun entry _ => Bool.and_comm _ _)
  have hfindings : ∀ findings : List Finding,
      (findings.map Finding.clearPending).filter (fun finding => shown finding.pid) =
        (findings.filter fun finding => shown finding.pid).map Finding.clearPending := fun _ => List.filter_map
  simp only [finished, ofProcesses, hentries, hfindings, List.filter_append, hleaks]

end Store

theorem store_finish {w w' : World Model} (hopen : w.state.finished = false) (h : finish w = (.ok (), w')) :
    w'.state.store = w.state.store.finished := by
  rcases finish_cases w with ⟨hfinished, _⟩ | ⟨_, r, w₁, hloop, _, _, ⟨e, _, hrun⟩ | ⟨hr, hrun⟩⟩
  · simp [hopen] at hfinished
  · simp [h] at hrun
  · obtain rfl := (Prod.mk.inj (h.symm.trans hrun)).2
    rw [hr, List.range_eq_range'] at hloop
    obtain ⟨hentries, hfindings⟩ := @forEach_finishEntry_ok w.state.entries [] w w₁ rfl hloop
    simp only [Model.store, Store.finished, hentries, hfindings, List.nil_append]

theorem finishEntry_total {pre : List Entry} {entry : Entry} {post : List Entry} {m : Model}
    (hentries : m.entries = pre ++ entry :: post)
    (hroom : m.findings.length + ([entry].filter (·.live)).length ≤ maxLifecycleFindings) :
    ∃ m', finishEntry pre.length ⟨m, []⟩ = (.ok (), ⟨m', []⟩) := by
  have hcleared : (pre ++ entry :: post).modify pre.length Entry.clearPending =
      pre ++ entry.clearPending :: post := modify_append_cons _ _ _ _
  have hlive : entry.clearPending.live = entry.live := rfl
  simp only [finishEntry, run_bind, run_updateState, run_readState, hentries, hcleared,
    List.getElem?_append_right (le_refl pre.length), Nat.sub_self, List.getElem?_cons_zero]
  rw [hlive]
  cases hentry : entry.live with
  | true =>
    simp only [List.filter_cons, hentry, if_true, List.filter_nil, List.length_singleton] at hroom
    simp only [if_true, addLeakFinding]
    rcases run_ensureFindingCapacity_nil { m with entries := pre ++ entry.clearPending :: post } with
      ⟨hfull, _⟩ | ⟨_, capacity, hrun⟩
    · simp only at hfull
      omega
    · rw [run_bind_of_ok hrun, run_bind_of_ok (run_copyTexts_nil _ _)]
      exact ⟨_, rfl⟩
  | false => exact ⟨_, rfl⟩

/-- With room for all leaks, the loop over the entries reaches its end. -/
theorem forEach_finishEntry_total {rest pre : List Entry} {m : Model} (hentries : m.entries = pre ++ rest)
    (hroom : m.findings.length + (rest.filter (·.live)).length ≤ maxLifecycleFindings) :
    ∃ m', forEach finishEntry (List.range' pre.length rest.length) ⟨m, []⟩ = (.ok (), ⟨m', []⟩) := by
  induction rest generalizing pre m with
  | nil => exact ⟨m, rfl⟩
  | cons entry rest ih =>
    have hsplit : ((entry :: rest).filter (·.live)).length =
        ([entry].filter (·.live)).length + (rest.filter (·.live)).length := by
      rw [← List.singleton_append, List.filter_append, List.length_append]
    obtain ⟨m₁, hfirst⟩ := finishEntry_total hentries (by omega)
    obtain ⟨he₁, hf₁⟩ := finishEntry_ok hentries hfirst
    have hlength := congrArg List.length hf₁
    rw [List.length_append, List.length_map] at hlength
    change m₁.findings.length = m.findings.length + _ at hlength
    obtain ⟨m₂, hrest⟩ := @ih (pre ++ [entry.clearPending]) m₁ (by simpa using he₁) (by omega)
    refine ⟨m₂, ?_⟩
    rw [List.length_cons, List.range'_succ, forEach, run_bind_of_ok hfirst]
    simpa using hrest

theorem finish_total {m : Model}
    (hroom : m.store.finished.findings.length ≤ maxLifecycleFindings) :
    ∃ w, finish ⟨m, []⟩ = (.ok (), w) := by
  have hleaks : m.findings.length + (m.entries.filter (·.live)).length ≤ maxLifecycleFindings := by
    simpa [Store.finished, Model.store] using hroom
  obtain ⟨m₁, hloop⟩ := @forEach_finishEntry_total m.entries [] m rfl hleaks
  rw [List.length_nil, ← List.range_eq_range'] at hloop
  rcases finish_cases ⟨m, []⟩ with ⟨_, hrun⟩ | ⟨_, r, w₁, hr, _, _, ⟨e, hfail, _⟩ | ⟨_, hrun⟩⟩
  · exact ⟨_, hrun⟩
  · rw [hloop] at hr
    cases hr
    cases hfail
  · exact ⟨_, hrun⟩

/-- A new model accepts all records and is then finished. -/
def ReplaysTo (lib : RecordLibrary) (records : List EventRecord) (store : Store) : Prop :=
  ∃ m w, ingestAll lib {} records = some m ∧ finish ⟨m, []⟩ = (.ok (), w) ∧ w.state.store = store

theorem finished_ingestAll {lib : RecordLibrary} {records : List EventRecord} {m m' : Model}
    (hopen : m.finished = false) (h : ingestAll lib m records = some m') : m'.finished = false := by
  induction records generalizing m with
  | nil => exact Option.some.inj h ▸ hopen
  | cons record records ih =>
    unfold ingestAll at h
    rcases hrun : ingest lib record ⟨m, []⟩ with ⟨⟨e⟩ | ⟨⟩, w⟩
    · simp [hrun] at h
    simp only [hrun] at h
    apply ih _ h
    have hkept := ingest_finished lib record ⟨m, []⟩
    rw [hrun] at hkept
    rcases hkept with hsame | hfalse
    · exact (congrArg Model.finished hsame).trans hopen
    · exact hfalse

theorem replaysTo_iff {lib : RecordLibrary} {records : List EventRecord} {store : Store} :
    ReplaysTo lib records store ↔
      SameRun lib {} records ∧ ∃ before, Store.ingestAll lib {} records = some before ∧
        before.finished = store ∧ store.findings.length ≤ maxLifecycleFindings := by
  have hbounded : ({} : Model).findings.length ≤ maxLifecycleFindings := Nat.zero_le _
  constructor
  · rintro ⟨m, w, hrun, hfinish, rfl⟩
    obtain ⟨hsame, hstore, hroom⟩ := store_ingestAll hbounded hrun
    have hopen := finished_ingestAll rfl hrun
    have hend := store_finish hopen hfinish
    refine ⟨hsame, m.store, hstore, hend.symm, ?_⟩
    rcases finish_cases ⟨m, []⟩ with ⟨hfinished, _⟩ | ⟨_, r, w₁, _, hchanges, _, ⟨e, _, hrun⟩ | ⟨_, hrun⟩⟩
    · simp [hopen] at hfinished
    · simp [hfinish] at hrun
    · obtain rfl := (Prod.mk.inj (hfinish.symm.trans hrun)).2
      have hkept := invariant_of_reaches (fun m : Model => m.findings.length ≤ maxLifecycleFindings)
        (fun _ _ hchange hle => by
          cases hchange with
          | clearEntry => exact hle
          | findingCapacity => exact hle
          | addLeak entry room => simpa using Nat.succ_le_of_lt room) hchanges hroom
      simpa [Model.store] using hkept
  · rintro ⟨hsame, before, hrun, rfl, hroom⟩
    obtain ⟨m, hm, rfl⟩ := ingestAll_of_store hbounded hsame hrun
    have hopen := finished_ingestAll rfl hm
    obtain ⟨w, hw⟩ := finish_total hroom
    exact ⟨m, w, hm, hw, store_finish hopen hw⟩

/-- No fork leaves the set of processes or enters it. -/
def ClosedUnderForks (shown : ℤ → Bool) (records : List EventRecord) : Prop :=
  ∀ record ∈ records, record.recordKind = .fork → shown record.childPid = shown record.pid

instance (shown : ℤ → Bool) (records : List EventRecord) : Decidable (ClosedUnderForks shown records) :=
  inferInstanceAs (Decidable (∀ record ∈ records, _))

theorem Store.ingestAll_ofProcesses {lib : RecordLibrary} {shown : ℤ → Bool} {records : List EventRecord}
    {store : Store} (hclosed : ClosedUnderForks shown records) (h : Store.ingestAll lib {} records = some store) :
    Store.ingestAll lib {} (records.filter fun record => shown record.pid) = some (store.ofProcesses shown) :=
  foldlM_visible (fun record : EventRecord => shown record.pid)
    (fun record hrecord => sees_ingest lib record (hclosed record hrecord)) h

/-- A family of processes is replayed as if it were alone: what a replay of all records leaves
of it is what a replay of its own records leaves. -/
theorem replay_of_family (lib : RecordLibrary) (shown : ℤ → Bool) (records : List EventRecord) (store : Store)
    (hclosed : ClosedUnderForks shown records) (h : ReplaysTo lib records store) :
    ReplaysTo lib (records.filter fun record => shown record.pid)
      ⟨store.entries.filter fun entry => shown entry.pid, store.findings.filter fun finding => shown finding.pid⟩ := by
  obtain ⟨hsame, before, hrun, rfl, hroom⟩ := replaysTo_iff.mp h
  have hpart := Store.ingestAll_ofProcesses hclosed hrun
  apply replaysTo_iff.mpr
  refine ⟨hsame.sublist List.filter_sublist, _, hpart, (Store.ofProcesses_finished shown before).symm, ?_⟩
  exact (List.length_filter_le _ _).trans hroom

/-- Process 1 leaks a descriptor that its child closes, while process 7 frees what it never allocated. -/
def twoFamilies : List EventRecord :=
  let run := some (.ofString "run")
  [{ recordKind := .fd, runId := run, pid := 1, fd := 3, sequence := 1 },
    { recordKind := .alloc, runId := run, pid := 7, allocKind := .free, ptr := some (.ofString "0x7"), sequence := 1 },
    { recordKind := .fork, runId := run, pid := 1, childPid := 2, sequence := 2 },
    { recordKind := .fd, runId := run, pid := 2, fd := 3, fdKind := .closed, sequence := 1 }]

/-- The store that a replay of the records reaches, if it reaches one. -/
def replayedStore (records : List EventRecord) : Store :=
  ((ingestAll .standard {} records).map fun m => (finish ⟨m, []⟩).2.state.store).getD {}

theorem replaysTo_replayedStore {records : List EventRecord}
    (h : ((ingestAll .standard {} records).map fun m => (finish ⟨m, []⟩).1.isOk) = some true) :
    ReplaysTo .standard records (replayedStore records) := by
  obtain ⟨m, hm, hfinish⟩ := Option.map_eq_some_iff.mp h
  refine ⟨m, (finish ⟨m, []⟩).2, hm, ?_, by rw [replayedStore, hm]; rfl⟩
  cases hrun : (finish ⟨m, []⟩).1 with
  | error e => simp [hrun, Except.isOk, Except.toBool] at hfinish
  | ok _ => exact Prod.ext hrun rfl

theorem replay_of_family_twoFamilies :
    ReplaysTo .standard (twoFamilies.filter fun record => decide (record.pid < 5))
      ⟨(replayedStore twoFamilies).entries.filter fun entry => decide (entry.pid < 5),
        (replayedStore twoFamilies).findings.filter fun finding => decide (finding.pid < 5)⟩ :=
  replay_of_family .standard (fun pid => decide (pid < 5)) twoFamilies _ (by decide)
    (replaysTo_replayedStore (by decide +kernel))

/-- Two streams are merged from the same records of each family. -/
def SameFamilies {ι : Type} [DecidableEq ι] (family : ℤ → ι) (records records' : List EventRecord) : Prop :=
  ∀ i, records.filter (fun record => family record.pid = i) = records'.filter (fun record => family record.pid = i)

/-- It does not matter how the records of the families are merged: each family has the same
entries and findings in the same order, and so all families together have the same ones. -/
theorem replay_of_merge (lib : RecordLibrary) {ι : Type} [DecidableEq ι] (family : ℤ → ι)
    (records records' : List EventRecord) (store store' : Store)
    (hclosed : ∀ i, ClosedUnderForks (fun pid => family pid = i) records)
    (hsame : SameFamilies family records records') (h : ReplaysTo lib records store)
    (h' : ReplaysTo lib records' store') :
    (∀ i, store.ofProcesses (fun pid => family pid = i) = store'.ofProcesses (fun pid => family pid = i)) ∧
      store.entries.Perm store'.entries ∧ store.findings.Perm store'.findings := by
  obtain ⟨_, before, hrun, rfl, _⟩ := replaysTo_iff.mp h
  obtain ⟨_, before', hrun', rfl, _⟩ := replaysTo_iff.mp h'
  have hclosed' : ∀ i, ClosedUnderForks (fun pid => family pid = i) records' := by
    intro i record hrecord hfork
    have hpart : record ∈ records.filter (fun r => family r.pid = family record.pid) := by
      rw [hsame]
      exact List.mem_filter.mpr ⟨hrecord, by simp⟩
    exact hclosed i record (List.mem_of_mem_filter hpart) hfork
  have hparts : ∀ i, before.ofProcesses (fun pid => family pid = i) = before'.ofProcesses (fun pid => family pid = i) := by
    intro i
    have hpart := Store.ingestAll_ofProcesses (hclosed i) hrun
    have hpart' := Store.ingestAll_ofProcesses (hclosed' i) hrun'
    rw [hsame i] at hpart
    exact Option.some.inj (hpart.symm.trans hpart')
  have hfinished : ∀ i, before.finished.ofProcesses (fun pid => family pid = i) =
      before'.finished.ofProcesses (fun pid => family pid = i) := by
    intro i
    rw [Store.ofProcesses_finished, Store.ofProcesses_finished, hparts]
  exact ⟨hfinished, perm_of_filter_eq (fun entry : Entry => family entry.pid) fun i =>
      congrArg Store.entries (hfinished i),
    perm_of_filter_eq (fun finding : Finding => family finding.pid) fun i =>
      congrArg Store.findings (hfinished i)⟩

def twoFamiliesApart : List EventRecord :=
  twoFamilies.filter (fun record => record.pid < 5) ++ twoFamilies.filter (fun record => ¬ record.pid < 5)

theorem replay_of_merge_twoFamilies :
    (∀ i : Bool, (replayedStore twoFamilies).ofProcesses (fun pid => decide (pid < 5) = i) =
        (replayedStore twoFamiliesApart).ofProcesses (fun pid => decide (pid < 5) = i)) ∧
      (replayedStore twoFamilies).entries.Perm (replayedStore twoFamiliesApart).entries ∧
      (replayedStore twoFamilies).findings.Perm (replayedStore twoFamiliesApart).findings :=
  replay_of_merge .standard (fun pid => decide (pid < 5)) twoFamilies twoFamiliesApart _ _ (by decide)
    (by unfold SameFamilies; decide +kernel) (replaysTo_replayedStore (by decide +kernel))
    (replaysTo_replayedStore (by decide +kernel))

end ToolEvent.Lifecycle
