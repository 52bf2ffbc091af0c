import ToolEvent.LifecycleAtomic
import ToolEvent.LifecycleEffect

/-!
# A fork that is ingested again

After a fork every live descriptor of the parent has an entry of the child, open or closed. As long
as the parent gets no descriptor this stays so, whatever else is accepted, and then the same fork
record has nothing to clone.
-/

namespace ToolEvent.Lifecycle

open Fallible World LatestMatch

/-- Every live descriptor of the parent has an entry of the child. -/
def Inherited (parent child : ℤ) (entries : List Entry) : Prop :=
  ∀ entry ∈ entries, entry.isInheritable parent = true →
    Store.Knows entries child fdResourceClass entry.resourceId

/-- An entry after a step. It has kept its key, and it is not a descriptor of the parent that was reopened. -/
structure Follows (parent : ℤ) (entry entry' : Entry) : Prop where
  pid : entry'.pid = entry.pid
  resourceClass : entry'.resourceClass = entry.resourceClass
  resourceId : entry'.resourceId = entry.resourceId
  live : entry'.isInheritable parent = true → entry.isInheritable parent = true

/-- Known keys stay known, and the live descriptors of the parent are among those of before. -/
structure Retains (parent : ℤ) (entries entries' : List Entry) : Prop where
  known : ∀ {pid resourceClass resourceId}, Store.Knows entries pid resourceClass resourceId →
    Store.Knows entries' pid resourceClass resourceId
  live : ∀ entry' ∈ entries', entry'.isInheritable parent = true →
    ∃ entry ∈ entries, entry.isInheritable parent = true ∧ entry.resourceId = entry'.resourceId

variable {parent : ℤ}

theorem Retains.refl (entries : List Entry) : Retains parent entries entries :=
  ⟨fun hknown => hknown, fun entry hentry hinherit => ⟨entry, hentry, hinherit, rfl⟩⟩

theorem Retains.trans {entries entries₁ entries₂ : List Entry} (h : Retains parent entries entries₁)
    (h' : Retains parent entries₁ entries₂) : Retains parent entries entries₂ := by
  refine ⟨fun hknown => h'.known (h.known hknown), fun entry₂ hentry₂ hinherit₂ => ?_⟩
  obtain ⟨entry₁, hentry₁, hinherit₁, hid₁⟩ := h'.live entry₂ hentry₂ hinherit₂
  obtain ⟨entry, hentry, hinherit, hid⟩ := h.live entry₁ hentry₁ hinherit₁
  exact ⟨entry, hentry, hinherit, hid.trans hid₁⟩

theorem Inherited.retains {child : ℤ} {entries entries' : List Entry} (h : Inherited parent child entries)
    (hretains : Retains parent entries entries') : Inherited parent child entries' := by
  intro entry' hentry' hinherit'
  obtain ⟨entry, hentry, hinherit, hid⟩ := hretains.live entry' hentry' hinherit'
  exact hid ▸ hretains.known (h entry hentry hinherit)

theorem retains_of_forall₂ {entries entries' : List Entry} (h : List.Forall₂ (Follows parent) entries entries') :
    Retains parent entries entries' := by
  constructor
  · rintro pid resourceClass resourceId ⟨entry, hentry, hpid, hclass, hid⟩
    obtain ⟨entry', hentry', hfollows⟩ := exists_of_forall₂_left h hentry
    exact ⟨entry', hentry', hfollows.pid.trans hpid, hfollows.resourceClass.trans hclass,
      hfollows.resourceId.trans hid⟩
  · intro entry' hentry' hinherit'
    obtain ⟨entry, hentry, hfollows⟩ := exists_of_forall₂_left h.flip hentry'
    exact ⟨entry, hentry, hfollows.live hinherit', hfollows.resourceId.symm⟩

theorem Follows.refl (entry : Entry) : Follows parent entry entry := ⟨rfl, rfl, rfl, fun hinherit => hinherit⟩

theorem retains_modify {f : Entry → Entry} (hf : ∀ entry, Follows parent entry (f entry)) (entries : List Entry)
    (i : ℕ) : Retains parent entries (entries.modify i f) := by
  apply retains_of_forall₂
  induction entries generalizing i with
  | nil => simp
  | cons entry entries ih =>
    cases i with
    | zero => exact .cons (hf entry) (List.forall₂_same.mpr fun entry _ => Follows.refl entry)
    | succ i => exact .cons (Follows.refl entry) (ih i)

theorem retains_append {entries : List Entry} {entry : Entry} (h : entry.isInheritable parent = false) :
    Retains parent entries (entries ++ [entry]) := by
  constructor
  · rintro pid resourceClass resourceId ⟨known, hknown, hkey⟩
    exact ⟨known, List.mem_append_left _ hknown, hkey⟩
  · intro entry' hentry' hinherit'
    rcases List.mem_append.mp hentry' with hold | hnew
    · exact ⟨entry', hold, hinherit', rfl⟩
    · obtain rfl := List.mem_singleton.mp hnew
      exact absurd hinherit' (by simp [h])

theorem follows_closedBy (record : EventRecord) (entry : Entry) : Follows parent entry (entry.closedBy record) :=
  ⟨rfl, rfl, rfl, fun hinherit => by simp [Entry.isInheritable, Entry.closedBy] at hinherit⟩

theorem follows_markExecPending (entry : Entry) : Follows parent entry entry.markExecPending :=
  ⟨rfl, rfl, rfl, fun hinherit => hinherit⟩

/-- A failed execution of another process reopens no descriptor of the parent. -/
theorem follows_rolledBack {pid : ℤ} (hpid : pid ≠ parent) (entry : Entry) :
    Follows parent entry (entry.rolledBack pid) := by
  unfold Entry.rolledBack
  split
  · next hpending =>
    refine ⟨rfl, rfl, rfl, fun hinherit => ?_⟩
    simp only [Entry.isPendingOf, decide_eq_true_eq] at hpending
    simp only [Entry.isInheritable, decide_eq_true_eq] at hinherit
    exact absurd (hpending.1.symm.trans hinherit.1) hpid
  · exact Follows.refl entry

theorem retains_closeLatest (record : EventRecord) (name : ResourceName) (entries : List Entry) :
    Retains parent entries (closeLatest record name entries) := by
  unfold closeLatest
  split
  · exact retains_modify (follows_closedBy record) entries _
  · exact Retains.refl entries

theorem StepsTo.retains {record : EventRecord} {released acquired : Option ResourceName}
    {entries entries' : List Entry} (h : StepsTo record released acquired entries entries')
    (hacquired : ∀ name, acquired = some name → name.1 = fdResourceClass → record.pid ≠ parent) :
    Retains parent entries entries' := by
  have hclosed : Retains parent entries (released.elim entries (fun name => closeLatest record name entries)) := by
    cases released with
    | none => exact Retains.refl entries
    | some name => exact retains_closeLatest record name entries
  unfold StepsTo at h
  cases acquired with
  | none => exact h ▸ hclosed
  | some name =>
    obtain ⟨entry, hadded, rfl⟩ := h
    apply hclosed.trans
    apply retains_append
    apply eq_false_of_ne_true
    intro hinherit
    simp only [Entry.isInheritable, decide_eq_true_eq] at hinherit
    exact hacquired name rfl (hadded.resourceClass.symm.trans hinherit.2.2) (hadded.pid.symm.trans hinherit.1)

namespace Store

variable {record : EventRecord} {store store' : Store}

theorem retains_releaseEntry (h : store.releaseEntry record = some store') :
    Retains parent store.entries store'.entries := by
  unfold releaseEntry at h
  split at h
  · obtain rfl := Option.some.inj h
    exact retains_modify (follows_closedBy record) store.entries _
  · obtain ⟨-, rfl⟩ := addFinding_eq_some.mp h
    exact Retains.refl store.entries

theorem retains_reconcile {pid : ℤ} {resourceClass resourceId : Text}
    (h : store.reconcile pid resourceClass resourceId = some store') :
    Retains parent store.entries store'.entries := by
  apply foldlM_invariant (fun s => Retains parent store.entries s.entries) h
  · intro finding _ s s' hs hrelease
    exact hs.trans (retains_releaseEntry hrelease)
  · exact Retains.refl store.entries

/-- A fork gives descriptors to the child only, and the child knows the one it was asked to clone. -/
theorem retains_forkEntry {entry : Entry} (hchild : record.childPid ≠ parent)
    (h : store.forkEntry record entry = some store') :
    Retains parent store.entries store'.entries ∧
      Knows store'.entries record.childPid fdResourceClass entry.resourceId := by
  unfold forkEntry at h
  split at h
  · next hfound =>
    obtain rfl := Option.some.inj h
    exact ⟨Retains.refl store.entries, knows_iff.mpr (Option.isSome_iff_ne_none.mp hfound)⟩
  · split at h
    · cases h
    · obtain ⟨added, hadd, hreconcile⟩ := Option.bind_eq_some_iff.mp h
      obtain ⟨-, rfl⟩ := addEntry_eq_some.mp hadd
      have hretains : Retains parent _ store'.entries := retains_reconcile hreconcile
      constructor
      · apply Retains.trans _ hretains
        apply retains_append
        simp [Entry.isInheritable, newEntry, inheritedRecord, hchild]
      · apply hretains.known
        exact ⟨_, List.mem_append_right _ List.mem_cons_self, rfl, rfl, rfl⟩

theorem retains_forkEntries {entries : List Entry} (hchild : record.childPid ≠ parent)
    (h : entries.foldlM (fun s entry => s.forkEntry record entry) store = some store') :
    Retains parent store.entries store'.entries ∧
      ∀ entry ∈ entries, Knows store'.entries record.childPid fdResourceClass entry.resourceId := by
  induction entries generalizing store with
  | nil =>
    obtain rfl := Option.some.inj h
    exact ⟨Retains.refl store.entries, by simp⟩
  | cons entry entries ih =>
    rw [List.foldlM_cons] at h
    obtain ⟨middle, hfirst, hrest⟩ := Option.bind_eq_some_iff.mp h
    obtain ⟨hretains, hknows⟩ := retains_forkEntry hchild hfirst
    obtain ⟨hretainsRest, hknowsRest⟩ := ih hrest
    refine ⟨hretains.trans hretainsRest, fun listed hlisted => ?_⟩
    rcases List.mem_cons.mp hlisted with rfl | hlisted
    · exact hretainsRest.known hknows
    · exact hknowsRest listed hlisted

theorem retains_ingestFork (hchild : record.childPid ≠ parent) (h : store.ingestFork record = some store') :
    Retains parent store.entries store'.entries := by
  unfold ingestFork at h
  split at h
  · exact (retains_forkEntries hchild h).1
  · obtain rfl := Option.some.inj h
    exact Retains.refl store.entries

theorem inherited_ingestFork (hreplayed : isForkReplayed record = true) (h : store.ingestFork record = some store') :
    Inherited record.pid record.childPid store'.entries := by
  have hchild : record.childPid ≠ record.pid := by
    simp only [isForkReplayed, decide_eq_true_eq, not_or] at hreplayed
    exact Ne.symm hreplayed.2.2
  rw [ingestFork, if_pos hreplayed] at h
  obtain ⟨hretains, hknows⟩ := retains_forkEntries hchild h
  intro entry' hentry' hinherit'
  obtain ⟨entry, hentry, hinherit, hid⟩ := hretains.live entry' hentry' hinherit'
  exact hid ▸ hknows entry (List.mem_filter.mpr ⟨hentry, hinherit⟩)

theorem retains_ingestExec (h : store.ingestExec record = some store') :
    Retains parent store.entries store'.entries := by
  unfold ingestExec at h
  split at h
  · obtain rfl := Option.some.inj h
    exact Retains.refl store.entries
  · split at h
    · obtain ⟨-, rfl⟩ := addFinding_eq_some.mp h
      exact Retains.refl store.entries
    · obtain rfl := Option.some.inj h
      apply (retains_modify (follows_closedBy (normalizedExec record)) store.entries _).trans
      exact retains_modify follows_markExecPending _ _

theorem retains_rollbackExec {pid : ℤ} (hpid : pid ≠ parent) (store : Store) :
    Retains parent store.entries (store.rollbackExec pid).entries := by
  apply retains_of_forall₂
  rw [rollbackExec, List.forall₂_map_right_iff]
  exact List.forall₂_same.mpr fun entry _ => follows_rolledBack hpid entry

end Store

/-- The record acquires no descriptor for the process, and is no failed execution of it. -/
def KeepsDescriptors (pid : ℤ) (record : EventRecord) : Prop :=
  match record.recordKind with
  | .fd => ¬ (record.fdKind = .opened ∧ record.pid = pid)
  | .resource =>
    ¬ (record.resourceKind ∈ [.acquire, .replace, .transfer] ∧ record.resourceClass = some fdResourceClass ∧
      record.pid = pid)
  | .fork => record.childPid ≠ pid
  | .execFail => record.pid ≠ pid
  | _ => True

instance (pid : ℤ) (record : EventRecord) : Decidable (KeepsDescriptors pid record) := by
  unfold KeepsDescriptors
  cases record.recordKind <;> infer_instance

theorem acquiredBy_of_keepsDescriptors {lib : RecordLibrary} {record : EventRecord} {name : ResourceName}
    (hkeeps : KeepsDescriptors parent record) (hname : acquiredBy lib record = some name)
    (hfd : name.1 = fdResourceClass) : record.pid ≠ parent := by
  intro hpid
  unfold KeepsDescriptors at hkeeps
  unfold acquiredBy at hname
  cases hkind : record.recordKind with
  | fd =>
    simp only [hkind] at hkeeps hname
    split at hname
    · next hopened => exact hkeeps ⟨hopened, hpid⟩
    · cases hname
  | alloc =>
    have hother : allocationResourceClass ≠ fdResourceClass := by decide
    have hpointer : ∀ pointer, allocated lib pointer = some name → False := by
      intro pointer hallocated
      unfold allocated at hallocated
      split at hallocated
      · cases hallocated
      · obtain rfl := Option.some.inj hallocated
        exact hother hfd
    simp only [hkind] at hname
    split at hname
    · exact hpointer _ hname
    · cases hname
    · exact hpointer _ hname
  | resource =>
    simp only [hkind] at hkeeps hname
    have hclass : recordClass record = fdResourceClass → record.resourceClass = some fdResourceClass := by
      intro hclass
      cases hown : record.resourceClass with
      | none => exact absurd (show (Text.empty) = fdResourceClass by rw [← hclass, recordClass, hown]; rfl) (by decide)
      | some own => rw [← hclass, recordClass, hown]; rfl
    unfold acquiredByResource at hname
    split at hname
    · cases hname
    · split at hname
      · next hown =>
        obtain rfl := Option.some.inj hname
        exact hkeeps ⟨by simp [hown], hclass hfd, hpid⟩
      · next hown =>
        split at hname
        · cases hname
        · obtain rfl := Option.some.inj hname
          exact hkeeps ⟨by simp [hown], hclass hfd, hpid⟩
      · next hown =>
        split at hname
        · cases hname
        · obtain rfl := Option.some.inj hname
          exact hkeeps ⟨by simp [hown], hclass hfd, hpid⟩
      · cases hname
      · cases hname
  | fork | exec | execFail | spawn | call | complete =>
    simp only [hkind] at hname
    cases hname

/-- What an accepted record does to the descriptors of a process that it gives none. -/
theorem retains_ingest {lib : RecordLibrary} {record : EventRecord} {m : Model} {w : World Model}
    (bounded : m.findings.length ≤ maxLifecycleFindings) (h : ingest lib record ⟨m, []⟩ = (.ok (), w))
    (hkeeps : KeepsDescriptors parent record) : Retains parent m.entries w.state.entries := by
  by_cases hkind : record.recordKind ∉ [RecordKind.fork, .exec, .execFail]
  · exact (ingest_entries hkind h).retains fun name hname hfd => acquiredBy_of_keepsDescriptors hkeeps hname hfd
  · obtain ⟨store, hstore, ⟨-, hstored, -⟩, -⟩ :=
      (ingest_produces lib record bounded (isAdmitted_of_ingest h)).of_ok h
    have hentries : w.state.entries = store.entries := congrArg Store.entries hstored
    rw [hentries]
    unfold KeepsDescriptors at hkeeps
    unfold Store.ingest at hstore
    cases hown : record.recordKind with
    | fork =>
      simp only [hown] at hkeeps hstore
      exact Store.retains_ingestFork hkeeps hstore
    | exec =>
      simp only [hown] at hstore
      exact Store.retains_ingestExec hstore
    | execFail =>
      simp only [hown] at hkeeps hstore
      obtain rfl := Option.some.inj hstore
      exact Store.retains_rollbackExec hkeeps m.store
    | resource | fd | alloc | spawn | call | complete => simp [hown] at hkind

theorem forkEntry_inherited {fork : EventRecord} {w : World Model}
    (h : Inherited fork.pid fork.childPid w.state.entries) (index : ℕ) : forkEntry fork index w = (.ok (), w) := by
  unfold forkEntry
  rw [run_readState_bind]
  cases hentry : w.state.entries[index]? with
  | none => rfl
  | some entry =>
    by_cases hinherit : entry.isInheritable fork.pid = true
    · have hclass : entry.resourceClass = fdResourceClass := by
        simp only [Entry.isInheritable, decide_eq_true_eq] at hinherit
        exact hinherit.2.2
      have hfound := Store.knows_iff.mp (h entry (List.mem_of_getElem? hentry) hinherit)
      simp [hinherit, hclass, Option.isSome_iff_ne_none.mpr hfound]
    · simp [hinherit]

theorem ingestFork_inherited {fork : EventRecord} {w : World Model}
    (h : isForkReplayed fork = true → Inherited fork.pid fork.childPid w.state.entries) :
    ingestFork fork w = (.ok (), w) := by
  unfold ingestFork
  split
  · next hreplayed =>
    rw [run_readState_bind]
    obtain ⟨w', hrun, rfl⟩ := forEach_run (forkEntry fork) (List.range w.state.entries.length) (fun _ s => s = w)
      (fun _ index _ s _ hs => ⟨s, by rw [hs]; exact forkEntry_inherited (h hreplayed) index, hs⟩) rfl
    exact hrun
  · rfl

/-- The records are accepted one after the other, with any outcomes of their requests. -/
inductive AcceptedRun (lib : RecordLibrary) : Model → List EventRecord → Model → Prop
  | nil (m : Model) : AcceptedRun lib m [] m
  | cons {m m' : Model} {w : World Model} {record : EventRecord} {records : List EventRecord} (outcomes : List Bool)
      (first : ingest lib record ⟨m, outcomes⟩ = (.ok (), w)) (rest : AcceptedRun lib w.state records m') :
      AcceptedRun lib m (record :: records) m'

variable {lib : RecordLibrary}

theorem AcceptedRun.runId {m m' : Model} {records : List EventRecord} (h : AcceptedRun lib m records m')
    (hset : m.runId.isEmpty = false) : m'.runId = m.runId := by
  induction h with
  | nil => rfl
  | @cons m m' w record records outcomes first rest ih =>
    have hfirst : w.state.runId = m.runId := by
      have hkept := @ingest_runId lib record ⟨m, outcomes⟩ hset
      rwa [first] at hkept
    rw [ih (by rw [hfirst]; exact hset), hfirst]

theorem AcceptedRun.inherited {m m' : Model} {records : List EventRecord} {child : ℤ}
    (h : AcceptedRun lib m records m') (hm : Reachable lib m) (hinherited : Inherited parent child m.entries)
    (hkeeps : ∀ record ∈ records, KeepsDescriptors parent record) : Inherited parent child m'.entries := by
  induction h with
  | nil => exact hinherited
  | @cons m m' w record records outcomes first rest ih =>
    have hgranted := settled_ingest lib record m outcomes () w first
    have hretains := retains_ingest hm.sound.bounded hgranted (hkeeps record List.mem_cons_self)
    apply ih _ (hinherited.retains hretains) fun r hr => hkeeps r (List.mem_cons_of_mem _ hr)
    have hnext := hm.ingest record outcomes
    rwa [first] at hnext

/-- After a fork and records that give the parent no descriptor, the fork record is accepted again
and changes neither entries nor findings. -/
theorem ingest_fork_again (lib : RecordLibrary) {m m' : Model} (hm : Reachable lib m) {fork : EventRecord}
    (hfork : fork.recordKind = .fork) {records : List EventRecord} (haccepted : AcceptedRun lib m (fork :: records) m')
    (hkeeps : ∀ record ∈ records, KeepsDescriptors fork.pid record) (outcomes : List Bool) :
    ∃ m'', ingest lib fork ⟨m', outcomes⟩ = (.ok (), ⟨m'', outcomes⟩) ∧
      m''.entries = m'.entries ∧ m''.findings = m'.findings := by
  cases haccepted with
  | @cons _ _ w _ _ earlier first rest =>
    have hgranted := settled_ingest lib fork m earlier () w first
    have hadmitted := isAdmitted_of_ingest first
    obtain ⟨store, hstore, ⟨-, hstored, -⟩, hrunId⟩ :=
      (ingest_produces lib fork hm.sound.bounded (isAdmitted_of_ingest hgranted)).of_ok hgranted
    obtain ⟨runId, hown, -, hnonempty, -, -⟩ := isAdmitted_iff.mp hadmitted
    have hset : w.state.runId.isEmpty = false := by
      rw [hown] at hrunId
      rw [Option.some.inj hrunId, hnonempty]
    have hagain : isAdmitted lib m' fork = true := by
      apply isAdmitted_of_runId hadmitted
      rw [rest.runId hset]
      exact hrunId
    have hreach : Reachable lib w.state := by
      have hnext := hm.ingest fork earlier
      rwa [first] at hnext
    have hinherited : isForkReplayed fork = true → Inherited fork.pid fork.childPid m'.entries := by
      intro hreplayed
      simp only [Store.ingest, hfork] at hstore
      apply rest.inherited hreach _ hkeeps
      rw [show w.state.entries = store.entries from congrArg Store.entries hstored]
      exact Store.inherited_ingestFork hreplayed hstore
    have hreplay : ingestKind lib fork ⟨{ m' with finished := false }, outcomes⟩ =
        (.ok (), ⟨{ m' with finished := false }, outcomes⟩) := by
      simp only [ingestKind, hfork]
      exact ingestFork_inherited hinherited
    refine ⟨({ m' with finished := false } : Model).adoptRunId (fork.runId.getD .empty), ?_, ?_, ?_⟩
    · simp only [ingest, run_bind, run_readState, hagain, if_true, run_updateState, hreplay]
    · exact Model.adoptRunId_entries _ _
    · exact Model.adoptRunId_findings _ _

def openedBeforeFork : Model :=
  (ingest .standard { recordKind := .fd, runId := some (.ofString "run"), pid := 1, fd := 7 } ⟨{}, []⟩).2.state

def forkOfChild : EventRecord :=
  { recordKind := .fork, runId := some (.ofString "run"), pid := 1, childPid := 2 }

/-- The child closes the descriptor, then the parent does. -/
def closedAfterFork : List EventRecord :=
  [2, 1].map fun pid => { recordKind := .fd, runId := some (.ofString "run"), fdKind := .closed, pid := pid, fd := 7 }

theorem ingest_forkOfChild_again : ∃ m' m'',
    AcceptedRun .standard openedBeforeFork (forkOfChild :: closedAfterFork) m' ∧
      ingest .standard forkOfChild ⟨m', []⟩ = (.ok (), ⟨m'', []⟩) ∧
      m''.entries = m'.entries ∧ m''.findings = m'.findings := by
  have hrun : AcceptedRun .standard openedBeforeFork (forkOfChild :: closedAfterFork) _ :=
    .cons [] (Prod.ext (by decide +kernel) rfl) <| .cons [] (Prod.ext (by decide +kernel) rfl) <|
      .cons [] (Prod.ext (by decide +kernel) rfl) <| .nil _
  obtain ⟨m'', hagain⟩ := ingest_fork_again .standard (.ingest .create _ []) rfl hrun (by decide) []
  exact ⟨_, m'', hrun, hagain⟩

end ToolEvent.Lifecycle
