import ToolEvent.LifecycleStore

/-!
# Invariants of the replay

The replay of a record adds entries and findings, closes entries and takes findings out. What
these changes keep is kept by the replay of any record.
-/

namespace ToolEvent.Lifecycle

open Fallible LatestMatch

/-- A record in the order of its context, and its line. -/
structure Place where
  pid : ℤ
  contextId : ℕ
  sequence : ℕ
  lineNumber : ℤ

def placeOf (record : EventRecord) : Place := ⟨record.pid, record.contextId, record.sequence, record.lineNumber⟩

def Finding.place (finding : Finding) : Place :=
  ⟨finding.pid, finding.contextId, finding.sequence, finding.lineNumber⟩

namespace Store

def Preserves (I : Store → Prop) (step : Store → Option Store) : Prop :=
  ∀ store store', I store → step store = some store' → I store'

/-- The elementary changes keep the invariant, where reports are about places of one kind. -/
structure Stable (P : Place → Prop) (I : Store → Prop) : Prop where
  place : ∀ store finding, I store → finding ∈ store.findings → P finding.place
  acquires : ∀ store record resourceId, I store →
    I { store with entries := store.entries ++ [newEntry record resourceId] }
  reports : ∀ store kind record previous, I store → P (placeOf record) → (∀ entry ∈ previous, entry ∈ store.entries) →
    I { store with findings := store.findings ++ [newFinding kind record previous] }
  closes : ∀ store index record, I store → I (store.closeAt index record)
  marks : ∀ (store : Store) index, I store →
    I { store with entries := store.entries.modify index Entry.markExecPending }
  rollsBack : ∀ (store : Store) pid, I store → I { store with entries := store.entries.map (Entry.rolledBack pid) }
  takes : ∀ (store : Store) (p : Finding → Bool), I store → I { store with findings := store.findings.filter p }

section Steps

variable {P : Place → Prop} {I : Store → Prop} {record : EventRecord} {lib : RecordLibrary}

theorem preserves_some : Preserves I some := fun _ _ h hstep => Option.some.inj hstep ▸ h

theorem Preserves.bind {f g : Store → Option Store} (hf : Preserves I f) (hg : Preserves I g) :
    Preserves I (fun store => (f store).bind g) := by
  intro store store' h hstep
  obtain ⟨middle, hmiddle, hstore'⟩ := Option.bind_eq_some_iff.mp hstep
  exact hg _ _ (hf _ _ h hmiddle) hstore'

theorem preserves_foldlM {α : Type*} {step : Store → α → Option Store} {xs : List α}
    (hstep : ∀ x ∈ xs, Preserves I (fun store => step store x)) : Preserves I (fun store => xs.foldlM step store) := by
  induction xs with
  | nil => exact preserves_some
  | cons x xs ih => exact (hstep x List.mem_cons_self).bind (ih fun y hy => hstep y (List.mem_cons_of_mem _ hy))

theorem mem_of_latest {store : Store} {pid : ℤ} {resourceClass resourceId : Text} {liveOnly : Bool} :
    ∀ entry ∈ store.latest pid resourceClass resourceId liveOnly, entry ∈ store.entries := by
  intro entry hentry
  obtain ⟨index, -, hindex⟩ := Option.bind_eq_some_iff.mp hentry
  exact List.mem_of_getElem? hindex

namespace Stable

variable (h : Stable P I)

include h

theorem addEntry (record : EventRecord) (resourceId : Text) : Preserves I (addEntry record resourceId) := by
  intro store store' hstore hstep
  obtain ⟨-, rfl⟩ := addEntry_eq_some.mp hstep
  exact h.acquires store record resourceId hstore

theorem addFinding {store store' : Store} (hstore : I store) (hrecord : P (placeOf record)) {kind : FindingKind}
    {previous : Option Entry} (hprevious : ∀ entry ∈ previous, entry ∈ store.entries)
    (hstep : store.addFinding kind record previous = some store') : I store' := by
  obtain ⟨-, rfl⟩ := addFinding_eq_some.mp hstep
  exact h.reports store kind record previous hstore hrecord hprevious

theorem releaseEntry (hrecord : P (placeOf record)) : Preserves I (releaseEntry record) := by
  intro store store' hstore hstep
  unfold Store.releaseEntry at hstep
  split at hstep
  · next index _ =>
    obtain rfl := Option.some.inj hstep
    exact h.closes store index record hstore
  · exact h.addFinding hstore hrecord mem_of_latest hstep

theorem acquireEntry (hrecord : P (placeOf record)) : Preserves I (acquireEntry record) := by
  intro store store' hstore hstep
  obtain ⟨middle, hmiddle, hadd⟩ := Option.bind_eq_some_iff.mp hstep
  apply h.addEntry record (recordId record) middle store' _ hadd
  split at hmiddle
  · exact h.addFinding hstore hrecord mem_of_latest hmiddle
  · exact preserves_some store middle hstore hmiddle

theorem replaceEntry (hrecord : P (placeOf record)) : Preserves I (replaceEntry record) := by
  intro store store' hstore hstep
  unfold Store.replaceEntry at hstep
  split at hstep
  · exact h.addFinding hstore hrecord mem_of_latest hstep
  · exact (h.releaseEntry hrecord).bind (h.addEntry record _) store store' hstore hstep

theorem useEntry (hrecord : P (placeOf record)) : Preserves I (useEntry record) := by
  intro store store' hstore hstep
  unfold Store.useEntry at hstep
  split at hstep
  · exact h.addFinding hstore hrecord mem_of_latest hstep
  · exact preserves_some store store' hstore hstep

theorem ingestResource (hrecord : P (placeOf record)) : Preserves I (ingestResource record) := by
  intro store store' hstore hstep
  unfold Store.ingestResource at hstep
  split at hstep
  · cases hstep
  · split at hstep
    · exact preserves_some store store' hstore hstep
    · cases hkind : record.resourceKind with
      | acquire =>
        rw [hkind] at hstep
        exact h.acquireEntry hrecord store store' hstore hstep
      | release =>
        rw [hkind] at hstep
        exact h.releaseEntry hrecord store store' hstore hstep
      | replace | transfer =>
        rw [hkind] at hstep
        exact h.replaceEntry hrecord store store' hstore hstep
      | use =>
        rw [hkind] at hstep
        exact h.useEntry hrecord store store' hstore hstep

theorem ingestAllocation (lib : RecordLibrary) (hrecord : P (placeOf record)) :
    Preserves I (ingestAllocation lib record) := by
  -- The normalized records stand at the place of the allocation record.
  have hnormalized : ∀ kind pointer, Preserves I (Store.ingestResource (normalizedAllocation record kind pointer)) := by
    intro kind pointer
    have hplace : P (placeOf (normalizedAllocation record kind pointer)) := hrecord
    exact h.ingestResource hplace
  have hacquire : ∀ pointer, Preserves I (if lib.pointerIsNull pointer then some
      else Store.ingestResource (normalizedAllocation record .acquire pointer)) := by
    intro pointer
    split
    · exact preserves_some
    · exact hnormalized .acquire pointer
  intro store store' hstore hstep
  unfold Store.ingestAllocation at hstep
  split at hstep
  · exact hacquire record.ptr store store' hstore hstep
  · split at hstep
    · exact preserves_some store store' hstore hstep
    · exact hnormalized .release record.ptr store store' hstore hstep
  · split at hstep
    · exact hacquire record.newPtr store store' hstore hstep
    · dsimp only at hstep
      split at hstep
      · obtain ⟨middle, hreport, hnext⟩ := Option.bind_eq_some_iff.mp hstep
        have hplace : P (placeOf (normalizedAllocation record .replace record.ptr)) := hrecord
        exact hacquire record.newPtr middle store' (h.addFinding hstore hplace mem_of_latest hreport) hnext
      · split at hstep
        · exact preserves_some store store' hstore hstep
        · exact (hnormalized .release record.ptr).bind (hnormalized .acquire record.newPtr) store store' hstore hstep

/-- Stray releases that are replayed again keep their places. -/
theorem reconcile (pid : ℤ) (resourceClass resourceId : Text) : Preserves I (reconcile pid resourceClass resourceId) := by
  intro store store' hstore hstep
  have hrelease : ∀ finding ∈ store.findings.filter (Finding.isStray pid resourceClass resourceId),
      Preserves I (fun store => store.releaseEntry finding.toRelease) := by
    intro finding hfinding
    have hplace : P (placeOf finding.toRelease) := h.place store finding hstore (List.mem_filter.mp hfinding).1
    exact h.releaseEntry hplace
  exact preserves_foldlM hrelease _ store' (h.takes store _ hstore) hstep

theorem forkEntry (record : EventRecord) (entry : Entry) : Preserves I (forkEntry record entry) := by
  intro store store' hstore hstep
  unfold Store.forkEntry at hstep
  split at hstep
  · exact preserves_some store store' hstore hstep
  · split at hstep
    · cases hstep
    · exact (h.addEntry _ _).bind (h.reconcile _ _ _) store store' hstore hstep

theorem ingestFork (record : EventRecord) : Preserves I (ingestFork record) := by
  intro store store' hstore hstep
  unfold Store.ingestFork at hstep
  split at hstep
  · exact preserves_foldlM (fun entry _ => h.forkEntry record entry) store store' hstore hstep
  · exact preserves_some store store' hstore hstep

theorem ingestExec (hrecord : P (placeOf record)) : Preserves I (ingestExec record) := by
  have hplace : P (placeOf (normalizedExec record)) := hrecord
  intro store store' hstore hstep
  unfold Store.ingestExec at hstep
  split at hstep
  · exact preserves_some store store' hstore hstep
  · next index _ =>
    split at hstep
    · exact h.addFinding hstore hplace (fun entry hentry => List.mem_of_getElem? hentry) hstep
    · obtain rfl := Option.some.inj hstep
      exact h.marks _ index (h.closes store index (normalizedExec record) hstore)

theorem rollbackExec (pid : ℤ) {store : Store} (hstore : I store) : I (store.rollbackExec pid) :=
  h.takes _ (fun finding => ¬ finding.isPendingOf pid) (h.rollsBack store pid hstore)

/-- The replay of a record keeps the invariant. A fork reports nothing of its own. -/
theorem ingest (lib : RecordLibrary) (hrecord : record.recordKind ≠ .fork → P (placeOf record)) :
    Preserves I (ingest lib record) := by
  intro store store' hstore hstep
  unfold Store.ingest at hstep
  cases hkind : record.recordKind with
  | resource =>
    rw [hkind] at hstep
    exact h.ingestResource (hrecord (by rw [hkind]; decide)) store store' hstore hstep
  | fd =>
    rw [hkind] at hstep
    have hplace : P (placeOf (normalizedFd record)) := hrecord (by rw [hkind]; decide)
    exact h.ingestResource hplace store store' hstore hstep
  | alloc =>
    rw [hkind] at hstep
    exact h.ingestAllocation lib (hrecord (by rw [hkind]; decide)) store store' hstore hstep
  | fork =>
    rw [hkind] at hstep
    exact h.ingestFork record store store' hstore hstep
  | exec =>
    rw [hkind] at hstep
    exact h.ingestExec (hrecord (by rw [hkind]; decide)) store store' hstore hstep
  | execFail =>
    rw [hkind] at hstep
    obtain rfl := Option.some.inj hstep
    exact h.rollbackExec record.pid hstore
  | spawn | call | complete =>
    rw [hkind] at hstep
    cases hstep

end Stable

end Steps

end Store

end ToolEvent.Lifecycle
