import ToolEvent.LifecycleStore

/-!
# Line numbers in the replay

The replay copies the line numbers of records to entries and findings, and never reads them.
Whatever lines the records carry, it takes the same course, so that records may carry other
numbers there to say where an entry or a finding comes from.
-/

namespace ToolEvent.Lifecycle

open Fallible LatestMatch

def lineless (record : EventRecord) : EventRecord := { record with lineNumber := 0 }

def Entry.lineless (entry : Entry) : Entry := { entry with acquiredLineNumber := 0, releasedLineNumber := 0 }

def Finding.lineless (finding : Finding) : Finding := { finding with lineNumber := 0, previousLineNumber := 0 }

def Store.lineless (store : Store) : Store :=
  ⟨store.entries.map Entry.lineless, store.findings.map Finding.lineless⟩

theorem findLatest_lineless (entries : List Entry) (pid : ℤ) (resourceClass resourceId : Text) (liveOnly : Bool) :
    findLatest (entries.map Entry.lineless) pid resourceClass resourceId liveOnly =
      findLatest entries pid resourceClass resourceId liveOnly :=
  latestIndex_map fun _ _ => rfl

theorem latestEntry_lineless (entries : List Entry) (pid : ℤ) (resourceClass resourceId : Text) (liveOnly : Bool) :
    latestEntry (entries.map Entry.lineless) pid resourceClass resourceId liveOnly =
      (latestEntry entries pid resourceClass resourceId liveOnly).map Entry.lineless := by
  unfold latestEntry
  rw [findLatest_lineless, Option.map_bind]
  refine congrArg _ (funext fun index => ?_)
  rw [Function.comp_apply, List.getElem?_map]

theorem newFinding_lineless (kind : FindingKind) (record : EventRecord) (previous : Option Entry) :
    newFinding kind (lineless record) (previous.map Entry.lineless) = (newFinding kind record previous).lineless := by
  cases previous with
  | none => rfl
  | some entry =>
    have hline : ∀ p : Prop, [Decidable p] → (if p then (0 : ℤ) else 0) = 0 := fun p _ => ite_self 0
    simp only [newFinding, Option.map_some, Finding.lineless, Entry.lineless, lineless, hline]
    rfl

def Lineless (f g : Store → Option Store) : Prop := ∀ store : Store, g store.lineless = (f store).map Store.lineless

theorem Lineless.bind {f g f' g' : Store → Option Store} (h : Lineless f g) (h' : Lineless f' g') :
    Lineless (fun store => (f store).bind f') (fun store => (g store).bind g') := by
  intro store
  dsimp only
  rw [h store, Option.map_bind]
  cases f store with
  | none => rfl
  | some middle => exact h' middle

theorem lineless_foldlM {α β : Type} {f : Store → α → Option Store} {g : Store → β → Option Store} (strip : α → β)
    (h : ∀ x, Lineless (fun store => f store x) fun store => g store (strip x)) (xs : List α) :
    Lineless (fun store => xs.foldlM f store) fun store => (xs.map strip).foldlM g store := by
  induction xs with
  | nil => exact fun store => rfl
  | cons x xs ih =>
    intro store
    simp only [List.map_cons, List.foldlM_cons]
    exact (h x).bind ih store

namespace Store

variable (record : EventRecord)

theorem lineless_addEntry (resourceId : Text) :
    Lineless (addEntry record resourceId) (addEntry (Lifecycle.lineless record) resourceId) := by
  intro store
  unfold addEntry
  rw [show store.lineless.entries.length = store.entries.length from List.length_map ..]
  split
  · rfl
  · simp only [Option.map_some, Store.lineless, List.map_append]
    rfl

theorem lineless_addFinding (kind : FindingKind) (previous : Option Entry) :
    Lineless (addFinding kind record previous)
      (addFinding kind (Lifecycle.lineless record) (previous.map Entry.lineless)) := by
  intro store
  unfold addFinding
  rw [show store.lineless.findings.length = store.findings.length from List.length_map .., newFinding_lineless]
  split
  · rfl
  · simp only [Option.map_some, Store.lineless, List.map_append]
    rfl

theorem latest_lineless (store : Store) (pid : ℤ) (resourceClass resourceId : Text) (liveOnly : Bool) :
    store.lineless.latest pid resourceClass resourceId liveOnly =
      (store.latest pid resourceClass resourceId liveOnly).map Entry.lineless :=
  latestEntry_lineless store.entries pid resourceClass resourceId liveOnly

theorem modify_lineless {f g : Entry → Entry} (hfg : ∀ entry, f entry.lineless = (g entry).lineless)
    (entries : List Entry) (index : ℕ) :
    (entries.map Entry.lineless).modify index f = (entries.modify index g).map Entry.lineless := by
  induction entries generalizing index with
  | nil => cases index <;> rfl
  | cons entry entries ih =>
    cases index with
    | zero => exact congrArg (· :: entries.map Entry.lineless) (hfg entry)
    | succ index => exact congrArg (entry.lineless :: ·) (ih index)

theorem lineless_closeAt (index : ℕ) (store : Store) :
    store.lineless.closeAt index (Lifecycle.lineless record) = (store.closeAt index record).lineless :=
  congrArg (fun entries => (⟨entries, store.lineless.findings⟩ : Store))
    (modify_lineless (f := Entry.closedBy (Lifecycle.lineless record)) (g := Entry.closedBy record)
      (fun _ => rfl) store.entries index)

theorem lineless_releaseEntry : Lineless (releaseEntry record) (releaseEntry (Lifecycle.lineless record)) := by
  intro store
  have hlatest : store.lineless.latest (Lifecycle.lineless record).pid (recordClass (Lifecycle.lineless record))
      (recordId (Lifecycle.lineless record)) false = _ := latest_lineless store record.pid _ _ false
  have hfind : findLatest store.lineless.entries (Lifecycle.lineless record).pid
      (recordClass (Lifecycle.lineless record)) (recordId (Lifecycle.lineless record)) true =
        findLatest store.entries record.pid (recordClass record) (recordId record) true := findLatest_lineless ..
  unfold releaseEntry
  dsimp only
  rw [hfind, hlatest, Option.isNone_map]
  cases findLatest store.entries record.pid (recordClass record) (recordId record) true with
  | some index => exact congrArg some (lineless_closeAt record index store)
  | none => exact lineless_addFinding record _ _ store

theorem lineless_acquireEntry : Lineless (acquireEntry record) (acquireEntry (Lifecycle.lineless record)) := by
  intro store
  have hlatest := latest_lineless store record.pid (recordClass record) (recordId record) true
  have hadd := lineless_addEntry record (recordId record)
  change ((if (store.lineless.latest record.pid (recordClass record) (recordId record) true).isSome then
      store.lineless.addFinding .duplicateAcquire (Lifecycle.lineless record)
        (store.lineless.latest record.pid (recordClass record) (recordId record) true)
    else some store.lineless).bind (addEntry (Lifecycle.lineless record) (recordId record))) = _
  rw [hlatest, Option.isSome_map]
  unfold acquireEntry
  dsimp only
  split
  · exact (lineless_addFinding record .duplicateAcquire _).bind hadd store
  · exact hadd store

theorem lineless_replaceEntry : Lineless (replaceEntry record) (replaceEntry (Lifecycle.lineless record)) := by
  intro store
  have hlatest := latest_lineless store record.pid (recordClass record) (recordId record) false
  change (if isAbsent record.relatedId then
      store.lineless.addFinding .badReplace (Lifecycle.lineless record)
        (store.lineless.latest record.pid (recordClass record) (recordId record) false)
    else (store.lineless.releaseEntry (Lifecycle.lineless record)).bind
      (addEntry (Lifecycle.lineless record) (record.relatedId.getD .empty))) = _
  rw [hlatest]
  unfold replaceEntry
  split
  · exact lineless_addFinding record .badReplace _ store
  · exact (lineless_releaseEntry record).bind (lineless_addEntry record _) store

theorem lineless_useEntry : Lineless (useEntry record) (useEntry (Lifecycle.lineless record)) := by
  intro store
  have hlive := latest_lineless store record.pid (recordClass record) (recordId record) true
  have hlatest := latest_lineless store record.pid (recordClass record) (recordId record) false
  change (if (store.lineless.latest record.pid (recordClass record) (recordId record) true).isNone then
      store.lineless.addFinding .invalidUse (Lifecycle.lineless record)
        (store.lineless.latest record.pid (recordClass record) (recordId record) false)
    else some store.lineless) = _
  rw [hlive, hlatest, Option.isNone_map]
  unfold useEntry
  split
  · exact lineless_addFinding record .invalidUse _ store
  · rfl

theorem lineless_some : Lineless some some := fun _ => rfl

theorem lineless_ite {p : Prop} [Decidable p] {f g f' g' : Store → Option Store} (h : Lineless f g)
    (h' : Lineless f' g') : Lineless (fun store => if p then f store else f' store)
      fun store => if p then g store else g' store := by
  intro store
  dsimp only
  split
  · exact h store
  · exact h' store

theorem lineless_ingestResource : Lineless (ingestResource record) (ingestResource (Lifecycle.lineless record)) := by
  have hkind : (Lifecycle.lineless record).resourceKind = record.resourceKind := rfl
  have hmissing : (Lifecycle.lineless record).resourceClass.isNone ∨ (Lifecycle.lineless record).resourceId.isNone ↔
      record.resourceClass.isNone ∨ record.resourceId.isNone := Iff.rfl
  have hclass : recordClass (Lifecycle.lineless record) = recordClass record := rfl
  intro store
  unfold ingestResource
  rw [hkind, hclass, if_congr hmissing rfl rfl]
  split
  · rfl
  · split
    · rfl
    · cases record.resourceKind with
      | acquire => exact lineless_acquireEntry record store
      | release => exact lineless_releaseEntry record store
      | replace | transfer => exact lineless_replaceEntry record store
      | use => exact lineless_useEntry record store

theorem lineless_ingestAllocation (lib : RecordLibrary) :
    Lineless (ingestAllocation lib record) (ingestAllocation lib (Lifecycle.lineless record)) := by
  have hacquire : ∀ pointer, Lineless
      (if lib.pointerIsNull pointer then some else ingestResource (normalizedAllocation record .acquire pointer))
      (if lib.pointerIsNull pointer then some
        else ingestResource (normalizedAllocation (Lifecycle.lineless record) .acquire pointer)) := fun pointer => by
    split
    · exact lineless_some
    · exact lineless_ingestResource (normalizedAllocation record .acquire pointer)
  have hown : (Lifecycle.lineless record).allocKind = record.allocKind := rfl
  have hptr : (Lifecycle.lineless record).ptr = record.ptr := rfl
  have hnew : (Lifecycle.lineless record).newPtr = record.newPtr := rfl
  intro store
  have hlive : findLatest store.lineless.entries (Lifecycle.lineless record).pid allocationResourceClass
      (record.ptr.getD .empty) true =
        findLatest store.entries record.pid allocationResourceClass (record.ptr.getD .empty) true :=
    findLatest_lineless ..
  have hlatest : store.lineless.latest (Lifecycle.lineless record).pid allocationResourceClass
      (record.ptr.getD .empty) false = _ := latest_lineless store record.pid _ _ false
  unfold ingestAllocation
  rw [hown, hptr, hnew]
  dsimp only
  cases record.allocKind with
  | alloc => exact hacquire record.ptr store
  | free =>
    exact lineless_ite lineless_some (lineless_ingestResource (normalizedAllocation record .release record.ptr)) store
  | realloc =>
    dsimp only
    rw [hlive, hlatest]
    split
    · exact hacquire record.newPtr store
    · split
      · have hreport := lineless_addFinding (normalizedAllocation record .replace record.ptr) .badReplace
          (store.latest record.pid allocationResourceClass (record.ptr.getD .empty) false)
        exact hreport.bind (hacquire record.newPtr) store
      · split
        · rfl
        · exact (lineless_ingestResource (normalizedAllocation record .release record.ptr)).bind
            (lineless_ingestResource (normalizedAllocation record .acquire record.newPtr)) store

/-- What is reported as stray is the same without the lines. -/
theorem filter_lineless {p : Finding → Bool} (hp : ∀ finding, p finding.lineless = p finding) (findings : List Finding) :
    (findings.map Finding.lineless).filter p = (findings.filter p).map Finding.lineless := by
  rw [List.filter_map]
  exact congrArg _ (List.filter_congr fun finding _ => hp finding)

theorem lineless_reconcile (pid : ℤ) (resourceClass resourceId : Text) :
    Lineless (reconcile pid resourceClass resourceId) (reconcile pid resourceClass resourceId) := by
  intro store
  have hrelease : ∀ finding : Finding, Lineless (fun store => store.releaseEntry finding.toRelease)
      fun store => store.releaseEntry finding.lineless.toRelease :=
    fun finding => lineless_releaseEntry finding.toRelease
  unfold reconcile
  dsimp only [Store.lineless]
  rw [filter_lineless fun _ => rfl, filter_lineless fun _ => rfl]
  exact lineless_foldlM Finding.lineless hrelease _
    { store with findings := store.findings.filter fun finding => ¬ Finding.isStray pid resourceClass resourceId finding }

theorem lineless_forkEntry (entry : Entry) :
    Lineless (forkEntry record entry) (forkEntry (Lifecycle.lineless record) entry.lineless) := by
  intro store
  have hfind : findLatest store.lineless.entries record.childPid fdResourceClass entry.resourceId false =
      findLatest store.entries record.childPid fdResourceClass entry.resourceId false := findLatest_lineless ..
  change (if (findLatest store.lineless.entries record.childPid fdResourceClass entry.resourceId false).isSome then
      some store.lineless
    else if fdIdentifierLength ≤ entry.resourceId.length then none
    else (store.lineless.addEntry (inheritedRecord (Lifecycle.lineless record) entry.lineless) entry.resourceId).bind
      (reconcile record.childPid fdResourceClass entry.resourceId)) = _
  rw [hfind]
  unfold forkEntry
  split
  · rfl
  · split
    · rfl
    · exact (lineless_addEntry (inheritedRecord record entry) entry.resourceId).bind
        (lineless_reconcile record.childPid fdResourceClass entry.resourceId) store

theorem lineless_ingestFork : Lineless (ingestFork record) (ingestFork (Lifecycle.lineless record)) := by
  intro store
  have hinheritable : store.lineless.entries.filter (Entry.isInheritable record.pid) =
      (store.entries.filter (Entry.isInheritable record.pid)).map Entry.lineless := by
    unfold Store.lineless
    rw [List.filter_map]
    rfl
  change (if isForkReplayed record then
      (store.lineless.entries.filter (Entry.isInheritable record.pid)).foldlM
        (fun store entry => store.forkEntry (Lifecycle.lineless record) entry) store.lineless
    else some store.lineless) = _
  rw [hinheritable]
  unfold ingestFork
  split
  · exact lineless_foldlM Entry.lineless (lineless_forkEntry record) _ store
  · rfl

theorem lineless_ingestExec : Lineless (ingestExec record) (ingestExec (Lifecycle.lineless record)) := by
  intro store
  have hfind : findLatest store.lineless.entries (Lifecycle.lineless record).pid fdResourceClass
      (formatFdIdentifier (Lifecycle.lineless record).fd) true =
        findLatest store.entries record.pid fdResourceClass (formatFdIdentifier record.fd) true :=
    findLatest_lineless ..
  have hcloexec : (Lifecycle.lineless record).cloexec = record.cloexec := rfl
  have hexec : normalizedExec (Lifecycle.lineless record) = Lifecycle.lineless (normalizedExec record) := rfl
  unfold ingestExec
  rw [hfind, hcloexec, hexec]
  cases findLatest store.entries record.pid fdResourceClass (formatFdIdentifier record.fd) true with
  | none => rfl
  | some index =>
    have hentry : store.lineless.entries[index]? = store.entries[index]?.map Entry.lineless := List.getElem?_map ..
    dsimp only
    rw [hentry, lineless_closeAt]
    split
    · exact lineless_addFinding (normalizedExec record) .execInherit _ store
    · have hmarked := modify_lineless (f := Entry.markExecPending) (g := Entry.markExecPending) (fun _ => rfl)
        (store.closeAt index (normalizedExec record)).entries index
      exact congrArg (fun entries => some (⟨entries, store.lineless.findings⟩ : Store)) hmarked

theorem lineless_rollbackExec (pid : ℤ) :
    Lineless (fun store => some (store.rollbackExec pid)) fun store => some (store.rollbackExec pid) := by
  intro store
  have hentries : (store.entries.map Entry.lineless).map (Entry.rolledBack pid) =
      (store.entries.map (Entry.rolledBack pid)).map Entry.lineless := by
    simp only [List.map_map]
    refine List.map_congr_left fun entry _ => ?_
    have hpending : entry.lineless.isPendingOf pid = entry.isPendingOf pid := rfl
    simp only [Function.comp_apply, Entry.rolledBack, hpending]
    split <;> rfl
  dsimp only [Store.rollbackExec, Store.lineless]
  rw [hentries, filter_lineless fun _ => rfl]
  rfl

theorem lineless_ingest (lib : RecordLibrary) :
    Lineless (ingest lib record) (ingest lib (Lifecycle.lineless record)) := by
  have hown : (Lifecycle.lineless record).recordKind = record.recordKind := rfl
  intro store
  unfold ingest
  rw [hown]
  cases record.recordKind with
  | resource => exact lineless_ingestResource record store
  | fd => exact lineless_ingestResource (normalizedFd record) store
  | alloc => exact lineless_ingestAllocation record lib store
  | fork => exact lineless_ingestFork record store
  | exec => exact lineless_ingestExec record store
  | execFail => exact lineless_rollbackExec record.pid store
  | spawn | call | complete => rfl

end Store

end ToolEvent.Lifecycle
