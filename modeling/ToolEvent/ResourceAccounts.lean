import ToolEvent.Library.Accounts
import ToolEvent.LifecycleFamilies
import ToolEvent.LifecycleInvariant
import ToolEvent.LifecycleKeyView

/-!
# The accounts of resources

A replay searches one list of entries for all resources. What it does is kept here as one account for
each resource, to which every record posts a few deeds: how often the resource is live, how often an
attempt of exec closed it, and what was reported about it. Only a fork looks at another account than
the one it posts to.
-/

namespace ToolEvent.Lifecycle

open LatestMatch Accounts

/-- A resource as its records tell: `closing` counts what an attempt of exec closed. -/
structure Account extends KeyView where
  closing : ℕ
  deriving DecidableEq

inductive Deed
  | acquire | adopt | release | move | keep | use | misuse | closeOnExec | keepOnExec | execFails | inherit
  deriving DecidableEq

namespace KeyView

def report (kind : FindingKind) (sequence : ℕ) (view : KeyView) : KeyView :=
  { view with reports := view.reports ++ [(kind, sequence)] }

def adopt (view : KeyView) : KeyView := { view with live := view.live + 1, seen := true }

/-- Go on with a live resource, and report one that is not. -/
def needLive (kind : FindingKind) (sequence : ℕ) (f : KeyView → KeyView) (view : KeyView) : KeyView :=
  if view.live = 0 then view.report kind sequence else f view

end KeyView

namespace Account

def onView (f : KeyView → KeyView) (account : Account) : Account := { account with toKeyView := f account.toKeyView }

/-- The descriptors that exec closes and the reports that it makes, taken back. -/
def execFails (account : Account) : Account where
  live := account.live + account.closing
  seen := account.seen
  reports := account.reports.filter fun report => report.1 ≠ .execInherit
  closing := 0

/-- The account after a deed of the record with a sequence number. -/
def after (account : Account) : Deed × ℕ → Account
  | (.acquire, sequence) => account.onView (KeyView.acquire sequence)
  | (.adopt, _) => account.onView KeyView.adopt
  | (.release, sequence) => account.onView (KeyView.release sequence)
  | (.move, sequence) => account.onView (KeyView.needLive .badReplace sequence (KeyView.release sequence))
  | (.keep, sequence) => account.onView (KeyView.needLive .badReplace sequence id)
  | (.use, sequence) => account.onView (KeyView.needLive .invalidUse sequence id)
  | (.misuse, sequence) => account.onView (KeyView.report .badReplace sequence)
  | (.closeOnExec, sequence) =>
    if account.live = 0 then account
    else { account with toKeyView := account.toKeyView.release sequence, closing := account.closing + 1 }
  | (.keepOnExec, sequence) => if account.live = 0 then account else account.onView (KeyView.report .execInherit sequence)
  | (.execFails, _) => account.execFails
  | (.inherit, _) => account.onView KeyView.clone

def empty : Account := ⟨⟨0, false, []⟩, 0⟩

end Account

def Key.does (own : Key) (deed : Deed × ℕ) (key : Key) : List (Deed × ℕ) := if key = own then [deed] else []

def resourceDeeds (record : EventRecord) (key : Key) : List (Deed × ℕ) :=
  let own := recordKey record
  if isIgnoredClass (recordClass record) then []
  else
    match record.resourceKind with
    | .acquire => own.does (.acquire, record.sequence) key
    | .release => own.does (.release, record.sequence) key
    | .replace | .transfer =>
      if isAbsent record.relatedId then own.does (.misuse, record.sequence) key
      else
        own.does (.release, record.sequence) key ++
          Key.does ⟨record.pid, recordClass record, record.relatedId.getD .empty⟩ (.adopt, record.sequence) key
    | .use => own.does (.use, record.sequence) key

section Records

variable (lib : RecordLibrary)

def pointerDeeds (record : EventRecord) (pointer : Option Text) (deed : Deed) (key : Key) : List (Deed × ℕ) :=
  if lib.pointerIsNull pointer then []
  else Key.does ⟨record.pid, allocationResourceClass, pointer.getD .empty⟩ (deed, record.sequence) key

/-- What an allocation record does. A block whose reallocation fails is kept. -/
def allocationDeeds (record : EventRecord) (key : Key) : List (Deed × ℕ) :=
  match record.allocKind with
  | .alloc => pointerDeeds lib record record.ptr .acquire key
  | .free => pointerDeeds lib record record.ptr .release key
  | .realloc =>
    pointerDeeds lib record record.ptr (if lib.pointerIsNull record.newPtr then .keep else .move) key ++
      pointerDeeds lib record record.newPtr .acquire key

/-- What a record that is not of a fork does. -/
def ownDeeds (record : EventRecord) (key : Key) : List (Deed × ℕ) :=
  match record.recordKind with
  | .resource => resourceDeeds record key
  | .fd => resourceDeeds (normalizedFd record) key
  | .alloc => allocationDeeds lib record key
  | .exec => (fdKey record).does (if record.cloexec = 0 then .keepOnExec else .closeOnExec, record.sequence) key
  | .execFail => if key.pid = record.pid then [(.execFails, record.sequence)] else []
  | .fork | .spawn | .call | .complete => []

/-- What a fork does: the child inherits the descriptors that are live in the parent. -/
def forkDeeds (books : Key → Account) (record : EventRecord) (key : Key) : List (Deed × ℕ) :=
  if isForkReplayed record ∧ key.pid = record.childPid ∧ key.resourceClass = fdResourceClass ∧
      (books ⟨record.pid, fdResourceClass, key.resourceId⟩).live ≠ 0 then [(.inherit, record.sequence)] else []

def deeds (books : Key → Account) (record : EventRecord) (key : Key) : List (Deed × ℕ) :=
  if record.recordKind = .fork then forkDeeds books record key else ownDeeds lib record key

def books (records : List EventRecord) : Key → Account :=
  records.foldl (enter Account.after (deeds lib)) fun _ => .empty

def history (records : List EventRecord) (key : Key) : List (Deed × ℕ) :=
  records.flatMap fun record => ownDeeds lib record key

end Records

namespace Store

/-- What exec closed is not live, and what it reported can be told by its kind. -/
structure Sound (store : Store) : Prop where
  entries : ∀ entry ∈ store.entries, entry.execPending = true → entry.live = false
  findings : ∀ finding ∈ store.findings, finding.execPending = true ↔ finding.kind = .execInherit

def closing (store : Store) (key : Key) : ℕ :=
  store.entries.countP fun entry => entry.key = key ∧ entry.execPending = true

def account (store : Store) (key : Key) : Account := ⟨store.view key, store.closing key⟩

/-- The store is sound, and exec closed so many entries of each resource. -/
def Attempts (closing : Key → ℕ) (store : Store) : Prop := store.Sound ∧ ∀ key, store.closing key = closing key

variable {closing : Key → ℕ} {record : EventRecord}

theorem attempts_addEntry (record : EventRecord) (resourceId : Text) :
    Preserves (Attempts closing) (addEntry record resourceId) := by
  intro store store' ⟨hsound, hclosing⟩ h
  obtain ⟨-, rfl⟩ := addEntry_eq_some.mp h
  have hnew : (newEntry record resourceId).execPending = false := rfl
  refine ⟨⟨fun entry hentry hpending => ?_, hsound.findings⟩, fun key => ?_⟩
  · rcases List.mem_append.mp hentry with hold | hlast
    · exact hsound.entries entry hold hpending
    · rw [List.mem_singleton.mp hlast, hnew] at hpending
      cases hpending
  · rw [← hclosing, Store.closing, List.countP_append]
    simp [hnew, Store.closing]

theorem execPending_newFinding (kind : FindingKind) (record : EventRecord) (previous : Option Entry) :
    (newFinding kind record previous).execPending = true ↔ (newFinding kind record previous).kind = .execInherit := by
  cases previous <;> simp [newFinding]

theorem attempts_addFinding (kind : FindingKind) (record : EventRecord) (previous : Option Entry) :
    Preserves (Attempts closing) (addFinding kind record previous) := by
  intro store store' ⟨hsound, hclosing⟩ h
  obtain ⟨-, rfl⟩ := addFinding_eq_some.mp h
  refine ⟨⟨hsound.entries, fun finding hfinding => ?_⟩, hclosing⟩
  rcases List.mem_append.mp hfinding with hold | hlast
  · exact hsound.findings finding hold
  · rw [List.mem_singleton.mp hlast]
    exact execPending_newFinding kind record previous

/-- Closing an entry leaves its mark of exec. -/
theorem attempts_releaseEntry (record : EventRecord) : Preserves (Attempts closing) (releaseEntry record) := by
  intro store store' hstore h
  rcases releaseEntry_cases h with ⟨pre, entry, post, hs, rfl⟩ | ⟨_, hroom, previous, _, rfl⟩
  · obtain ⟨hsound, hclosing⟩ := hstore
    refine ⟨⟨fun other hother hpending => ?_, hsound.findings⟩, fun key => ?_⟩
    · rw [List.mem_append, List.mem_cons] at hother
      rcases hother with hpre | rfl | hpost
      · apply hsound.entries other _ hpending
        rw [hs.eq]
        exact List.mem_append_left _ hpre
      · rfl
      · apply hsound.entries other _ hpending
        rw [hs.eq]
        exact List.mem_append_right _ (List.mem_cons_of_mem _ hpost)
    · rw [← hclosing, Store.closing, Store.closing, hs.eq, List.countP_append, List.countP_append, List.countP_cons,
        List.countP_cons]
      rfl
  · exact attempts_addFinding _ record previous store _ hstore (addFinding_eq_some.mpr ⟨hroom, rfl⟩)

theorem attempts_reconcile (pid : ℤ) (resourceClass resourceId : Text) :
    Preserves (Attempts closing) (reconcile pid resourceClass resourceId) := by
  intro store store' ⟨hsound, hclosing⟩ h
  have hreleases : Preserves (Attempts closing) fun start =>
      (store.findings.filter (Finding.isStray pid resourceClass resourceId)).foldlM
        (fun store finding => store.releaseEntry finding.toRelease) start :=
    preserves_foldlM fun finding _ => attempts_releaseEntry finding.toRelease
  apply hreleases _ store' _ h
  exact ⟨⟨hsound.entries, fun finding hfinding => hsound.findings finding (List.mem_of_mem_filter hfinding)⟩, hclosing⟩

theorem attempts_acquireEntry (record : EventRecord) : Preserves (Attempts closing) (acquireEntry record) := by
  intro store store' hstore h
  obtain ⟨middle, hduplicate, hadd⟩ := Option.bind_eq_some_iff.mp h
  apply attempts_addEntry record _ middle store' _ hadd
  split at hduplicate
  · exact attempts_addFinding _ record _ store middle hstore hduplicate
  · obtain rfl := Option.some.inj hduplicate
    exact hstore

theorem attempts_forkEntry (record : EventRecord) (entry : Entry) :
    Preserves (Attempts closing) (forkEntry record entry) := by
  intro store store' hstore h
  unfold forkEntry at h
  split at h
  · obtain rfl := Option.some.inj h
    exact hstore
  · split at h
    · cases h
    · exact (attempts_addEntry _ _).bind (attempts_reconcile _ _ _) store store' hstore h

theorem attempts_ingestFork (record : EventRecord) : Preserves (Attempts closing) (ingestFork record) := by
  intro store store' hstore h
  unfold ingestFork at h
  split at h
  · exact preserves_foldlM (fun entry _ => attempts_forkEntry record entry) store store' hstore h
  · obtain rfl := Option.some.inj h
    exact hstore

abbrev Books (deeds : Key → List (Deed × ℕ)) (step : Store → Option Store) : Prop :=
  Posts Sound account Account.after deeds step

/-- A step that does not concern exec and changes the view of one resource by a deed. -/
theorem books_of_view {own : Key} {deed : Deed × ℕ} {f : KeyView → KeyView} {step : Store → Option Store}
    (hdeed : ∀ account : Account, account.after deed = account.onView f)
    (hkeeps : ∀ closing, Preserves (Attempts closing) step)
    (hview : ∀ store store', step store = some store' → ∀ key,
      store'.view key = if key = own then f (store.view key) else store.view key) :
    Books (own.does deed) step := by
  intro store store' hsound h
  obtain ⟨hsound', hclosing⟩ := hkeeps store.closing store store' ⟨hsound, fun _ => rfl⟩ h
  refine ⟨hsound', fun key => ?_⟩
  rw [account, hview store store' h, hclosing, Key.does]
  split
  · rw [List.foldl_cons, hdeed]
    rfl
  · rfl

theorem books_addEntry (record : EventRecord) (resourceId : Text) :
    Books (Key.does ⟨record.pid, recordClass record, resourceId⟩ (.adopt, record.sequence)) (addEntry record resourceId) :=
  books_of_view (fun _ => rfl) (fun _ => attempts_addEntry record resourceId) fun _ _ h => view_addEntry h

theorem books_releaseEntry (record : EventRecord) :
    Books ((recordKey record).does (.release, record.sequence)) (releaseEntry record) :=
  books_of_view (fun _ => rfl) (fun _ => attempts_releaseEntry record) fun _ _ h => view_releaseEntry h

theorem books_acquireEntry (record : EventRecord) :
    Books ((recordKey record).does (.acquire, record.sequence)) (acquireEntry record) :=
  books_of_view (fun _ => rfl) (fun _ => attempts_acquireEntry record) fun _ _ h => view_acquireEntry h

/-- A step that needs a live resource, and reports one that is not. -/
theorem view_needLive {kind : FindingKind} {g : Store → Option Store} {f : KeyView → KeyView}
    (hg : ∀ store store', g store = some store' → ∀ key,
      store'.view key = if key = recordKey record then f (store.view key) else store.view key)
    {store store' : Store}
    (h : (if (store.latest record.pid (recordClass record) (recordId record) true).isNone then
      store.addFinding kind record (store.latest record.pid (recordClass record) (recordId record) false)
      else g store) = some store') (key : Key) :
    store'.view key =
      if key = recordKey record then KeyView.needLive kind record.sequence f (store.view key) else store.view key := by
  have hdead : (store.latest record.pid (recordClass record) (recordId record) true).isNone = true ↔
      (store.view (recordKey record)).live = 0 := latest_isNone_iff.trans findLatest_live_eq_none_iff
  split at h
  · next hnone =>
    rw [view_addFinding h (newFinding_key kind rfl) key]
    split
    · next hsame => rw [hsame, KeyView.needLive, if_pos (hdead.mp hnone), KeyView.report]
    · rfl
  · next hsome =>
    rw [hg store store' h key]
    split
    · next hsame => rw [hsame, KeyView.needLive, if_neg (mt hdead.mpr hsome)]
    · rfl

theorem books_useEntry (record : EventRecord) :
    Books ((recordKey record).does (.use, record.sequence)) (useEntry record) := by
  apply books_of_view (f := KeyView.needLive .invalidUse record.sequence id) fun _ => rfl
  · intro closing store store' hstore h
    unfold useEntry at h
    split at h
    · exact attempts_addFinding _ record _ store store' hstore h
    · obtain rfl := Option.some.inj h
      exact hstore
  · intro store store' h
    apply view_needLive (g := some) (fun store store' h key => ?_) h
    obtain rfl := Option.some.inj h
    split <;> rfl

theorem books_replaceEntry (record : EventRecord) :
    Books (fun key =>
      if isAbsent record.relatedId then (recordKey record).does (.misuse, record.sequence) key
      else (recordKey record).does (.release, record.sequence) key ++
        Key.does ⟨record.pid, recordClass record, record.relatedId.getD .empty⟩ (.adopt, record.sequence) key)
      (replaceEntry record) := by
  unfold replaceEntry
  split
  · apply books_of_view (f := KeyView.report .badReplace record.sequence) fun _ => rfl
    · exact fun _ store => attempts_addFinding _ record _ store
    · exact fun store store' h => view_addFinding h (newFinding_key _ rfl)
  · exact (books_releaseEntry record).bind (books_addEntry record _)

theorem books_ingestResource (record : EventRecord) : Books (resourceDeeds record) (ingestResource record) := by
  apply Posts.ite
  · exact fun _ => posts_none _
  · intro _
    unfold resourceDeeds
    apply Posts.ite
    · intro hignored
      simp only [hignored, if_true]
      exact posts_some
    · intro hrecorded
      simp only [hrecorded, if_false]
      cases record.resourceKind with
      | acquire => exact books_acquireEntry record
      | release => exact books_releaseEntry record
      | replace => exact books_replaceEntry record
      | transfer => exact books_replaceEntry record
      | use => exact books_useEntry record

theorem books_acquirePointer (lib : RecordLibrary) (record : EventRecord) (pointer : Option Text) :
    Books (pointerDeeds lib record pointer .acquire)
      (if lib.pointerIsNull pointer then some else ingestResource (normalizedAllocation record .acquire pointer)) := by
  unfold pointerDeeds
  split
  · exact posts_some
  · exact books_ingestResource (normalizedAllocation record .acquire pointer)

/-- What a reallocation does to the block that it starts from. -/
def leaveBlock (lib : RecordLibrary) (record : EventRecord) (store : Store) : Option Store :=
  if (store.latest record.pid allocationResourceClass (record.ptr.getD .empty) true).isNone then
    store.addFinding .badReplace (normalizedAllocation record .replace record.ptr)
      (store.latest record.pid allocationResourceClass (record.ptr.getD .empty) false)
  else if lib.pointerIsNull record.newPtr then some store
  else store.ingestResource (normalizedAllocation record .release record.ptr)

theorem ingestAllocation_realloc {lib : RecordLibrary} (hkind : record.allocKind = .realloc)
    (hptr : lib.pointerIsNull record.ptr = false) (store : Store) :
    store.ingestAllocation lib record = (store.leaveBlock lib record).bind
      (if lib.pointerIsNull record.newPtr then some
        else ingestResource (normalizedAllocation record .acquire record.newPtr)) := by
  have hdead : (store.latest record.pid allocationResourceClass (record.ptr.getD .empty) true).isNone =
      (findLatest store.entries record.pid allocationResourceClass (record.ptr.getD .empty) true).isNone := by
    rw [Bool.eq_iff_iff, latest_isNone_iff, Option.isNone_iff_eq_none]
  simp only [ingestAllocation, leaveBlock, hkind, hptr, hdead, Bool.false_eq_true, if_false]
  split
  · rfl
  · split
    · rfl
    · rfl

theorem releaseEntry_of_ingestResource {pointer : Option Text} {store store' : Store}
    (h : store.ingestResource (normalizedAllocation record .release pointer) = some store') :
    store.releaseEntry (normalizedAllocation record .release pointer) = some store' := by
  have hrecorded : isIgnoredClass (recordClass (normalizedAllocation record .release pointer)) = false :=
    allocation_recorded
  unfold ingestResource at h
  rw [hrecorded] at h
  split at h
  · cases h
  · exact h

theorem books_leaveBlock {lib : RecordLibrary} (hptr : lib.pointerIsNull record.ptr = false) :
    Books (pointerDeeds lib record record.ptr (if lib.pointerIsNull record.newPtr then .keep else .move))
      (leaveBlock lib record) := by
  have hown : pointerDeeds lib record record.ptr (if lib.pointerIsNull record.newPtr then .keep else .move) =
      (recordKey (normalizedAllocation record .replace record.ptr)).does
        (if lib.pointerIsNull record.newPtr then .keep else .move, record.sequence) := by
    funext key
    rw [pointerDeeds, hptr]
    rfl
  have hgoes : ∀ {store store' : Store} {closing : Key → ℕ}, store.Attempts closing →
      (if lib.pointerIsNull record.newPtr then some store
        else store.ingestResource (normalizedAllocation record .release record.ptr)) = some store' →
      store'.Attempts closing := by
    intro store store' closing hstore h
    split at h
    · obtain rfl := Option.some.inj h
      exact hstore
    · exact attempts_releaseEntry _ store store' hstore (releaseEntry_of_ingestResource h)
  rw [hown]
  apply books_of_view (f := KeyView.needLive .badReplace record.sequence
    (if lib.pointerIsNull record.newPtr then id else KeyView.release record.sequence))
  · intro account
    split <;> rfl
  · intro closing store store' hstore h
    unfold leaveBlock at h
    split at h
    · exact attempts_addFinding _ _ _ store store' hstore h
    · exact hgoes hstore h
  · intro store store' h
    apply @view_needLive (normalizedAllocation record .replace record.ptr) .badReplace
      (fun store => if lib.pointerIsNull record.newPtr then some store
        else store.ingestResource (normalizedAllocation record .release record.ptr)) _ _ _ _ h
    intro store store' h key
    split at h
    · next hnull =>
      obtain rfl := Option.some.inj h
      rw [if_pos hnull, id, ite_self]
    · next hnew =>
      rw [if_neg hnew]
      exact view_releaseEntry (releaseEntry_of_ingestResource h) key

theorem books_ingestAllocation (lib : RecordLibrary) (record : EventRecord) :
    Books (allocationDeeds lib record) (ingestAllocation lib record) := by
  cases hkind : record.allocKind with
  | alloc =>
    have hstep : ingestAllocation lib record =
        if lib.pointerIsNull record.ptr then some else ingestResource (normalizedAllocation record .acquire record.ptr) := by
      funext store
      simp only [ingestAllocation, hkind]
    have hdeeds : allocationDeeds lib record = pointerDeeds lib record record.ptr .acquire := by
      funext key
      simp only [allocationDeeds, hkind]
    rw [hstep, hdeeds]
    exact books_acquirePointer lib record record.ptr
  | free =>
    have hstep : ingestAllocation lib record = fun store =>
        if lib.pointerIsNull record.ptr then some store
        else store.ingestResource (normalizedAllocation record .release record.ptr) := by
      funext store
      simp only [ingestAllocation, hkind]
    have hdeeds : allocationDeeds lib record = pointerDeeds lib record record.ptr .release := by
      funext key
      simp only [allocationDeeds, hkind]
    rw [hstep, hdeeds]
    unfold pointerDeeds
    apply Posts.ite
    · intro hnull
      simp only [hnull, if_true]
      exact posts_some
    · intro hptr
      simp only [hptr, if_false]
      exact books_ingestResource (normalizedAllocation record .release record.ptr)
  | realloc =>
    have hdeeds : allocationDeeds lib record = fun key =>
        pointerDeeds lib record record.ptr (if lib.pointerIsNull record.newPtr then .keep else .move) key ++
          pointerDeeds lib record record.newPtr .acquire key := by
      funext key
      simp only [allocationDeeds, hkind]
    rw [hdeeds]
    cases hptr : lib.pointerIsNull record.ptr with
    | true =>
      have hstep : ingestAllocation lib record =
          if lib.pointerIsNull record.newPtr then some
          else ingestResource (normalizedAllocation record .acquire record.newPtr) := by
        funext store
        simp only [ingestAllocation, hkind, hptr, if_true]
      have hnone : ∀ deed key, pointerDeeds lib record record.ptr deed key = [] := by
        intro deed key
        rw [pointerDeeds, hptr, if_pos rfl]
      rw [hstep]
      simp only [hnone, List.nil_append]
      exact books_acquirePointer lib record record.newPtr
    | false =>
      have hstep : ingestAllocation lib record = _ := funext (ingestAllocation_realloc hkind hptr)
      rw [hstep]
      exact (books_leaveBlock hptr).bind (books_acquirePointer lib record record.newPtr)

/-- Marking a closed entry shows in the number of those that exec closed. -/
theorem account_mark {pre post : List Entry} {entry : Entry} (hpending : entry.execPending = false) (findings : List Finding)
    (key : Key) :
    account ⟨pre ++ entry.markExecPending :: post, findings⟩ key =
      ⟨view ⟨pre ++ entry :: post, findings⟩ key,
        (account ⟨pre ++ entry :: post, findings⟩ key).closing + if key = entry.key then 1 else 0⟩ := by
  have hkey : entry.markExecPending.key = entry.key := rfl
  have hlive : entry.markExecPending.live = entry.live := rfl
  have hmarked : entry.markExecPending.execPending = true := rfl
  have hclosing : Store.closing ⟨pre ++ entry.markExecPending :: post, findings⟩ key =
      Store.closing ⟨pre ++ entry :: post, findings⟩ key + if key = entry.key then 1 else 0 := by
    by_cases hsame : key = entry.key
    · simp [Store.closing, hkey, hmarked, hpending, hsame, Nat.add_assoc]
    · simp [Store.closing, hkey, hpending, hsame, Ne.symm hsame]
  have hview : view ⟨pre ++ entry.markExecPending :: post, findings⟩ key = view ⟨pre ++ entry :: post, findings⟩ key := by
    simp only [view, liveOf_append, liveOf_cons, hkey, hlive, List.map_append, List.map_cons]
  rw [account, hview, hclosing]
  rfl

/-- Exec closes a live descriptor, or reports that it is kept. -/
theorem books_ingestExec (record : EventRecord) :
    Books ((fdKey record).does (if record.cloexec = 0 then .keepOnExec else .closeOnExec, record.sequence))
      (ingestExec record) := by
  have hown : recordKey (normalizedExec record) = fdKey record := rfl
  have hdead : ∀ store : Store, findLatest store.entries record.pid fdResourceClass (formatFdIdentifier record.fd) true =
      none ↔ (store.view (fdKey record)).live = 0 := fun store => findLatest_live_eq_none_iff
  intro store store' hsound h
  cases hfind : findLatest store.entries record.pid fdResourceClass (formatFdIdentifier record.fd) true with
  | none =>
    have hzero : (store.account (fdKey record)).live = 0 := (hdead store).mp hfind
    simp only [ingestExec, hfind] at h
    obtain rfl := Option.some.inj h
    refine ⟨hsound, fun key => ?_⟩
    rw [Key.does]
    split
    · next hsame =>
      rw [hsame, List.foldl_cons, List.foldl_nil]
      split
      · rw [Account.after, if_pos hzero]
      · rw [Account.after, if_pos hzero]
    · rfl
  | some index =>
    have hlive : (store.account (fdKey record)).live ≠ 0 := by
      intro hzero
      rw [(hdead store).mpr hzero] at hfind
      cases hfind
    obtain ⟨pre, entry, post, hs, rfl⟩ := exists_split_of_latestIndex hfind
    rw [ingestExec_of_split hs] at h
    split at h
    · next hkeep =>
      obtain ⟨hsound', hclosing⟩ := attempts_addFinding .execInherit _ _ store store' ⟨hsound, fun _ => rfl⟩ h
      have hprevious : some entry = store.latest record.pid fdResourceClass (formatFdIdentifier record.fd) true := by
        rw [latest, latestEntry, hfind, Option.bind_some, hs.getElem?]
      refine ⟨hsound', fun key => ?_⟩
      rw [account, view_addFinding h (newFinding_key _ hprevious), hclosing, hown, Key.does]
      split
      · next hsame =>
        rw [List.foldl_cons, List.foldl_nil, Account.after, if_neg (hsame ▸ hlive)]
        rfl
      · rfl
    · next hcloses =>
      obtain rfl := Option.some.inj h
      have hrelease : store.releaseEntry (normalizedExec record) =
          some ⟨pre ++ entry.closedBy (normalizedExec record) :: post, store.findings⟩ := by
        have hsame : findLatest store.entries (normalizedExec record).pid (recordClass (normalizedExec record))
            (recordId (normalizedExec record)) true = some pre.length := hfind
        simp only [releaseEntry, hsame, closeAt, hs.modify]
      obtain ⟨hkey, hentryLive⟩ := matches_iff_key.mp hs.holds
      have hpending : (entry.closedBy (normalizedExec record)).execPending = false := by
        by_contra hmarked
        have hclosed := hsound.entries entry hs.mem (Bool.eq_true_of_not_eq_false hmarked)
        rw [hentryLive rfl] at hclosed
        cases hclosed
      obtain ⟨hsound', haccount⟩ := books_releaseEntry (normalizedExec record) store _ hsound hrelease
      have hentry : (entry.closedBy (normalizedExec record)).key = fdKey record := hkey
      refine ⟨⟨fun other hother hmarked => ?_, hsound'.findings⟩, fun key => ?_⟩
      · rw [List.mem_append, List.mem_cons] at hother
        rcases hother with hpre | rfl | hpost
        · exact hsound'.entries other (List.mem_append_left _ hpre) hmarked
        · rfl
        · exact hsound'.entries other (List.mem_append_right _ (List.mem_cons_of_mem _ hpost)) hmarked
      · have hposted := haccount key
        rw [hown, Key.does] at hposted
        rw [account_mark hpending, hentry, Key.does]
        split
        · next hsame =>
          rw [if_pos hsame, List.foldl_cons, List.foldl_nil, Account.after] at hposted
          rw [List.foldl_cons, List.foldl_nil, Account.after, if_neg (hsame ▸ hlive), hposted]
          exact congrArg (Account.mk · _) (congrArg Account.toKeyView hposted)
        · next hother =>
          rw [if_neg hother] at hposted
          rw [hposted]
          exact congrArg (Account.mk · _) (congrArg Account.toKeyView hposted)

theorem key_rolledBack (pid : ℤ) (entry : Entry) : (entry.rolledBack pid).key = entry.key := by
  unfold Entry.rolledBack
  split <;> rfl

/-- Every entry of the process that exec closed is live again. -/
theorem live_rolledBack {entry : Entry} (hclosed : entry.execPending = true → entry.live = false) :
    (if (entry.rolledBack entry.pid).live then 1 else 0) =
      (if entry.live then 1 else 0) + if entry.execPending then 1 else 0 := by
  cases hpending : entry.execPending with
  | true =>
    rw [hclosed hpending]
    simp [Entry.rolledBack, Entry.isPendingOf, hpending, Entry.reopened]
  | false => simp [Entry.rolledBack, Entry.isPendingOf, hpending]

theorem execPending_rolledBack (entry : Entry) : (entry.rolledBack entry.pid).execPending = false := by
  cases hpending : entry.execPending with
  | true => simp [Entry.rolledBack, Entry.isPendingOf, hpending, Entry.reopened]
  | false => simp [Entry.rolledBack, Entry.isPendingOf, hpending]

theorem liveOf_rolledBack {key : Key} {entries : List Entry}
    (hclosed : ∀ entry ∈ entries, entry.execPending = true → entry.live = false) :
    liveOf key (entries.map (Entry.rolledBack key.pid)) =
      liveOf key entries + entries.countP fun entry => entry.key = key ∧ entry.execPending = true := by
  induction entries with
  | nil => rfl
  | cons entry entries ih =>
    have hrest := ih fun other hother => hclosed other (List.mem_cons_of_mem _ hother)
    have hlive := live_rolledBack (hclosed entry List.mem_cons_self)
    rw [List.map_cons, liveOf_cons, liveOf_cons, List.countP_cons, hrest, key_rolledBack]
    by_cases hsame : key = entry.key
    · subst hsame
      have hpid : entry.key.pid = entry.pid := rfl
      simp only [true_and, decide_eq_true_eq, hpid] at hlive ⊢
      omega
    · simp [hsame, Ne.symm hsame]

/-- The resources of other processes keep their entries. -/
theorem countP_rolledBack_of_ne {pid : ℤ} {key : Key} (hpid : key.pid ≠ pid) (p : Entry → Bool) (entries : List Entry) :
    (entries.map (Entry.rolledBack pid)).countP (fun entry => entry.key = key ∧ p entry = true) =
      entries.countP fun entry => entry.key = key ∧ p entry = true := by
  rw [List.countP_map]
  apply List.countP_congr
  intro entry _
  rw [Function.comp_apply, key_rolledBack]
  by_cases hsame : entry.key = key
  · have hother : entry.pid ≠ pid := by
      rw [← hsame] at hpid
      exact hpid
    rw [Entry.rolledBack_of_ne hother]
  · simp [hsame]

theorem reportsOf_rollbackExec {store : Store} (hsound : store.Sound) (pid : ℤ) (key : Key) :
    reportsOf key (store.rollbackExec pid).findings =
      if key.pid = pid then (reportsOf key store.findings).filter fun report => report.1 ≠ .execInherit
      else reportsOf key store.findings := by
  rw [rollbackExec, reportsOf, List.filter_filter]
  split
  · next hpid =>
    rw [reportsOf, List.filter_map, List.filter_filter]
    refine congrArg _ (List.filter_congr fun finding hfinding => ?_)
    have hpending := hsound.findings finding hfinding
    by_cases hsame : finding.key = key
    · have howner : finding.pid = pid := by
        rw [← hpid, ← hsame]
        rfl
      have hkind : finding.isPendingOf pid = decide (finding.report.1 = .execInherit) := by
        rw [Bool.eq_iff_iff, Finding.isPendingOf, decide_eq_true_eq, decide_eq_true_eq, and_iff_right howner, hpending]
        rfl
      simp [hkind, hsame]
    · simp [hsame]
  · next hpid =>
    rw [reportsOf]
    refine congrArg _ (List.filter_congr fun finding _ => ?_)
    by_cases hsame : finding.key = key
    · have howner : finding.pid ≠ pid := by
        rw [← hsame] at hpid
        exact hpid
      simp [Finding.isPendingOf, howner]
    · simp [hsame]

theorem sound_rollbackExec {store : Store} (hsound : store.Sound) (pid : ℤ) : (store.rollbackExec pid).Sound := by
  refine ⟨fun entry hentry hpending => ?_, fun finding hfinding => hsound.findings finding (List.mem_of_mem_filter hfinding)⟩
  obtain ⟨old, hold, rfl⟩ := List.mem_map.mp hentry
  unfold Entry.rolledBack at hpending ⊢
  split at hpending
  · cases hpending
  · next hkept =>
    rw [if_neg hkept]
    exact hsound.entries old hold hpending

theorem books_rollbackExec (pid : ℤ) (sequence : ℕ) :
    Books (fun key => if key.pid = pid then [(.execFails, sequence)] else []) fun store => some (store.rollbackExec pid) := by
  intro store store' hsound h
  obtain rfl := Option.some.inj h
  have hkeys : (store.rollbackExec pid).entries.map Entry.key = store.entries.map Entry.key := by
    rw [rollbackExec, List.map_map]
    exact List.map_congr_left fun entry _ => key_rolledBack pid entry
  refine ⟨sound_rollbackExec hsound pid, fun key => ?_⟩
  dsimp only
  split
  · next hpid =>
    subst hpid
    have hlive : liveOf key (store.rollbackExec key.pid).entries = liveOf key store.entries + store.closing key :=
      liveOf_rolledBack hsound.entries
    have hclosing : (store.rollbackExec key.pid).closing key = 0 := by
      apply List.countP_eq_zero.mpr
      intro entry hentry hmarked
      obtain ⟨old, -, rfl⟩ := List.mem_map.mp hentry
      obtain ⟨hsame, hpending⟩ := of_decide_eq_true hmarked
      rw [key_rolledBack] at hsame
      have hpid : key.pid = old.pid := by
        rw [← hsame]
        rfl
      rw [hpid, execPending_rolledBack] at hpending
      cases hpending
    have hreports := reportsOf_rollbackExec hsound key.pid key
    rw [if_pos rfl] at hreports
    rw [account, view, hlive, hkeys, hreports, hclosing]
    rfl
  · next hpid =>
    have hlive : liveOf key (store.rollbackExec pid).entries = liveOf key store.entries :=
      countP_rolledBack_of_ne hpid Entry.live store.entries
    have hclosing : (store.rollbackExec pid).closing key = store.closing key :=
      countP_rolledBack_of_ne hpid Entry.execPending store.entries
    have hreports := reportsOf_rollbackExec hsound pid key
    rw [if_neg hpid] at hreports
    rw [account, view, hlive, hkeys, hreports, hclosing]
    rfl

theorem live_ne_zero_iff {store : Store} {key : Key} :
    (store.account key).live ≠ 0 ↔ ∃ entry ∈ store.entries, entry.key = key ∧ entry.live = true := by
  have hcount : (store.account key).live = liveOf key store.entries := rfl
  rw [hcount, ← Nat.pos_iff_ne_zero, liveOf, List.countP_pos_iff]
  simp only [decide_eq_true_eq]

theorem mem_inheritedIds_iff {store : Store} {id : Text} :
    id ∈ inheritedIds record store.entries ↔
      isForkReplayed record = true ∧ (store.account ⟨record.pid, fdResourceClass, id⟩).live ≠ 0 := by
  rw [live_ne_zero_iff, inheritedIds]
  split
  · next hreplayed =>
    rw [and_iff_right hreplayed]
    simp only [List.mem_map, List.mem_filter, Entry.isInheritable, Entry.key, decide_eq_true_eq, Key.mk.injEq]
    grind
  · next hskipped => exact iff_of_false List.not_mem_nil fun hinherits => hskipped hinherits.1

/-- A fork looks at the accounts of the parent, and posts to those of the child. -/
theorem account_ingestFork {store store' : Store} (hsound : store.Sound) (h : store.ingestFork record = some store') :
    store'.Sound ∧ store'.account = fun key => (forkDeeds store.account record key).foldl Account.after (store.account key) := by
  obtain ⟨hsound', hclosing⟩ := attempts_ingestFork record store store' ⟨hsound, fun _ => rfl⟩ h
  refine ⟨hsound', funext fun key => ?_⟩
  rw [account, view_ingestFork h key, hclosing, forkDeeds]
  split
  · next hchild =>
    obtain ⟨hreplayed, hlive⟩ := mem_inheritedIds_iff.mp hchild.2.2
    rw [if_pos ⟨hreplayed, hchild.1, hchild.2.1, hlive⟩]
    rfl
  · next hother =>
    rw [if_neg fun hfork => hother ⟨hfork.2.1, hfork.2.2.1, mem_inheritedIds_iff.mpr ⟨hfork.1, hfork.2.2.2⟩⟩]
    rfl

theorem account_ingest {lib : RecordLibrary} {store store' : Store} (hsound : store.Sound)
    (h : store.ingest lib record = some store') :
    store'.Sound ∧ store'.account = enter Account.after (deeds lib) store.account record := by
  have hown : ∀ {step : Store → Option Store} {own : Key → List (Deed × ℕ)}, record.recordKind ≠ .fork →
      ownDeeds lib record = own → Books own step → step store = some store' →
      store'.Sound ∧ store'.account = enter Account.after (deeds lib) store.account record := by
    intro step own hkind hdeeds hbooks hstep
    obtain ⟨hsound', haccount⟩ := hbooks store store' hsound hstep
    refine ⟨hsound', funext fun key => ?_⟩
    rw [haccount, enter, deeds, if_neg hkind, hdeeds]
  unfold ingest at h
  cases hkind : record.recordKind with
  | resource =>
    simp only [hkind] at h
    apply hown (by simp [hkind]) _ (books_ingestResource record) h
    funext key
    simp only [ownDeeds, hkind]
  | fd =>
    simp only [hkind] at h
    apply hown (by simp [hkind]) _ (books_ingestResource (normalizedFd record)) h
    funext key
    simp only [ownDeeds, hkind]
  | alloc =>
    simp only [hkind] at h
    apply hown (by simp [hkind]) _ (books_ingestAllocation lib record) h
    funext key
    simp only [ownDeeds, hkind]
  | fork =>
    simp only [hkind] at h
    obtain ⟨hsound', haccount⟩ := account_ingestFork hsound h
    refine ⟨hsound', haccount.trans (funext fun key => ?_)⟩
    rw [enter, deeds, if_pos hkind]
  | exec =>
    simp only [hkind] at h
    apply hown (by simp [hkind]) _ (books_ingestExec record) h
    funext key
    simp only [ownDeeds, hkind]
  | execFail =>
    simp only [hkind] at h
    apply hown (by simp [hkind]) _ (books_rollbackExec record.pid record.sequence) h
    funext key
    simp only [ownDeeds, hkind]
  | spawn =>
    simp only [hkind] at h
    cases h
  | call =>
    simp only [hkind] at h
    cases h
  | complete =>
    simp only [hkind] at h
    cases h

/-- The accounts of a replay are those of its records. -/
theorem account_ingestAll {lib : RecordLibrary} {records : List EventRecord} {store : Store}
    (h : ingestAll lib {} records = some store) : store.account = books lib records := by
  have hsound : Sound {} := ⟨fun entry hentry => absurd hentry List.not_mem_nil, fun finding hfinding =>
    absurd hfinding List.not_mem_nil⟩
  exact (account_run (fun record _ _ _ hsound hstep => account_ingest hsound hstep) hsound h).2

theorem reportsOf_leaks (key : Key) (entries : List Entry) :
    (reportsOf key ((entries.filter (·.live)).map leakFinding)).map Prod.fst = List.replicate (liveOf key entries) .leak := by
  induction entries with
  | nil => rfl
  | cons entry entries ih =>
    have hkey : (leakFinding entry).key = entry.key := rfl
    rw [liveOf_cons, List.filter_cons]
    cases hlive : entry.live with
    | true =>
      rw [if_pos rfl, List.map_cons, ← List.singleton_append, reportsOf_append, List.map_append, ih, reportsOf_singleton, hkey]
      by_cases hsame : key = entry.key
      · rw [if_pos hsame.symm, if_pos ⟨hsame, rfl⟩, Nat.add_comm, List.replicate_add]
        rfl
      · rw [if_neg (Ne.symm hsame), if_neg fun h => hsame h.1]
        rfl
    | false =>
      rw [if_neg Bool.false_ne_true, ih, if_neg fun h => Bool.false_ne_true h.2, Nat.add_zero]

/-- Finishing reports the live resources, each as often as it is live. -/
theorem view_finished (store : Store) (key : Key) :
    (store.finished.view key).live = (store.view key).live ∧ ∃ leaks,
      (store.finished.view key).reports = (store.view key).reports ++ leaks ∧
        leaks.map Prod.fst = List.replicate (store.view key).live .leak := by
  have hcleared : ∀ findings : List Finding, reportsOf key (findings.map Finding.clearPending) = reportsOf key findings := by
    intro findings
    rw [reportsOf, reportsOf, List.filter_map, List.map_map]
    rfl
  refine ⟨?_, reportsOf key ((store.entries.filter (·.live)).map leakFinding), ?_, reportsOf_leaks key store.entries⟩
  · exact List.countP_map
  · change reportsOf key store.finished.findings = _
    rw [finished, hcleared, reportsOf_append]
    rfl

end Store

/-- A replay leaves of every resource what its account says, and reports the rest of its life as leaks. -/
theorem replay_keepsBooks (lib : RecordLibrary) (records : List EventRecord) (store : Store)
    (h : ReplaysTo lib records store) (key : Key) :
    (store.view key).live = (books lib records key).live ∧ ∃ leaks,
      (store.view key).reports = (books lib records key).reports ++ leaks ∧
        leaks.map Prod.fst = List.replicate (books lib records key).live .leak := by
  obtain ⟨-, before, hrun, rfl, -⟩ := replaysTo_iff.mp h
  rw [← Store.account_ingestAll hrun]
  exact Store.view_finished before key

theorem replay_keepsBooks_twoFamilies :
    ((replayedStore twoFamilies).view ⟨2, fdResourceClass, formatFdIdentifier 3⟩).live =
        (books .standard twoFamilies ⟨2, fdResourceClass, formatFdIdentifier 3⟩).live ∧ ∃ leaks,
      ((replayedStore twoFamilies).view ⟨2, fdResourceClass, formatFdIdentifier 3⟩).reports =
          (books .standard twoFamilies ⟨2, fdResourceClass, formatFdIdentifier 3⟩).reports ++ leaks ∧
        leaks.map Prod.fst =
          List.replicate (books .standard twoFamilies ⟨2, fdResourceClass, formatFdIdentifier 3⟩).live .leak :=
  replay_keepsBooks .standard twoFamilies _ (replaysTo_replayedStore (by decide +kernel)) _

/-- The rest of the life of a resource of which nothing is to be reported. It is live so many times, exec
closed it so many times, and so many reports wait for exec to fail. -/
def Lives : List Deed → ℕ → ℕ → ℕ → Prop
  | [], live, _, kept => live = 0 ∧ kept = 0
  | .acquire :: rest, live, closing, kept => live = 0 ∧ Lives rest 1 closing kept
  | .adopt :: rest, live, closing, kept => Lives rest (live + 1) closing kept
  | .release :: rest, live, closing, kept => live ≠ 0 ∧ Lives rest (live - 1) closing kept
  | .move :: rest, live, closing, kept => live ≠ 0 ∧ Lives rest (live - 1) closing kept
  | .keep :: rest, live, closing, kept => live ≠ 0 ∧ Lives rest live closing kept
  | .use :: rest, live, closing, kept => live ≠ 0 ∧ Lives rest live closing kept
  | .closeOnExec :: rest, live, closing, kept =>
    if live = 0 then Lives rest 0 closing kept else Lives rest (live - 1) (closing + 1) kept
  | .keepOnExec :: rest, live, closing, kept =>
    if live = 0 then Lives rest 0 closing kept else Lives rest live closing (kept + 1)
  | .execFails :: rest, live, closing, _ => Lives rest (live + closing) 0 0
  | .misuse :: _, _, _, _ => False
  | .inherit :: _, _, _, _ => False

instance decidableLives : ∀ (word : List Deed) (live closing kept : ℕ), Decidable (Lives word live closing kept)
  | [], live, _, kept => inferInstanceAs (Decidable (live = 0 ∧ kept = 0))
  | .acquire :: rest, live, closing, kept =>
    have := decidableLives rest 1 closing kept
    inferInstanceAs (Decidable (live = 0 ∧ _))
  | .adopt :: rest, live, closing, kept => decidableLives rest (live + 1) closing kept
  | .release :: rest, live, closing, kept =>
    have := decidableLives rest (live - 1) closing kept
    inferInstanceAs (Decidable (live ≠ 0 ∧ _))
  | .move :: rest, live, closing, kept =>
    have := decidableLives rest (live - 1) closing kept
    inferInstanceAs (Decidable (live ≠ 0 ∧ _))
  | .keep :: rest, live, closing, kept =>
    have := decidableLives rest live closing kept
    inferInstanceAs (Decidable (live ≠ 0 ∧ _))
  | .use :: rest, live, closing, kept =>
    have := decidableLives rest live closing kept
    inferInstanceAs (Decidable (live ≠ 0 ∧ _))
  | .closeOnExec :: rest, live, closing, kept =>
    have := decidableLives rest 0 closing kept
    have := decidableLives rest (live - 1) (closing + 1) kept
    inferInstanceAs (Decidable (if live = 0 then _ else _))
  | .keepOnExec :: rest, live, closing, kept =>
    have := decidableLives rest 0 closing kept
    have := decidableLives rest live closing (kept + 1)
    inferInstanceAs (Decidable (if live = 0 then _ else _))
  | .execFails :: rest, live, closing, _ => decidableLives rest (live + closing) 0 0
  | .misuse :: _, _, _, _ => inferInstanceAs (Decidable False)
  | .inherit :: _, _, _, _ => inferInstanceAs (Decidable False)

namespace Account

def IsClean (account : Account) : Prop := account.live = 0 ∧ account.reports = []

/-- Something is reported that no failure of exec takes back. -/
def IsFaulty (account : Account) : Prop := ∃ report ∈ account.reports, report.1 ≠ .execInherit

variable {account : Account} {view : KeyView} {sequence : ℕ}

theorem reports_release : view.reports <+: (view.release sequence).reports := by
  unfold KeyView.release
  split
  · exact List.prefix_append _ _
  · exact List.prefix_rfl

theorem reports_needLive {kind : FindingKind} {f : KeyView → KeyView} (hf : view.reports <+: (f view).reports) :
    view.reports <+: (view.needLive kind sequence f).reports := by
  unfold KeyView.needLive
  split
  · exact List.prefix_append _ _
  · exact hf

/-- A fault stays, whatever the resource goes through, but for a fork. -/
theorem IsFaulty.after {deed : Deed × ℕ} (h : account.IsFaulty) (hdeed : deed.1 ≠ .inherit) :
    (account.after deed).IsFaulty := by
  obtain ⟨report, hreport, hkind⟩ := h
  obtain ⟨deed, sequence⟩ := deed
  have hkept : ∀ {next : Account}, account.reports <+: next.reports → next.IsFaulty :=
    fun hnext => ⟨report, hnext.subset hreport, hkind⟩
  cases deed with
  | acquire => exact hkept (List.prefix_append _ _)
  | adopt => exact hkept List.prefix_rfl
  | release => exact hkept reports_release
  | move => exact hkept (reports_needLive reports_release)
  | keep => exact hkept (reports_needLive List.prefix_rfl)
  | use => exact hkept (reports_needLive List.prefix_rfl)
  | misuse => exact hkept (List.prefix_append _ _)
  | closeOnExec =>
    rw [Account.after]
    split
    · exact hkept List.prefix_rfl
    · exact hkept reports_release
  | keepOnExec =>
    rw [Account.after]
    split
    · exact hkept List.prefix_rfl
    · exact hkept (List.prefix_append _ _)
  | execFails => exact ⟨report, List.mem_filter.mpr ⟨hreport, decide_eq_true hkind⟩, hkind⟩
  | inherit => exact absurd rfl hdeed

theorem IsFaulty.foldl {word : List (Deed × ℕ)} (h : account.IsFaulty) (hword : ∀ deed ∈ word, deed.1 ≠ .inherit) :
    (word.foldl Account.after account).IsFaulty := by
  induction word generalizing account with
  | nil => exact h
  | cons deed word ih =>
    exact ih (h.after (hword deed List.mem_cons_self)) fun d hd => hword d (List.mem_cons_of_mem _ hd)

theorem not_isClean_of_isFaulty (h : account.IsFaulty) : ¬ account.IsClean := by
  intro hclean
  obtain ⟨report, hreport, -⟩ := h
  rw [hclean.2] at hreport
  cases hreport

theorem isFaulty_report {kind : FindingKind} (hkind : kind ≠ .execInherit) :
    (account.onView (KeyView.report kind sequence)).IsFaulty :=
  ⟨(kind, sequence), List.mem_append_right _ List.mem_cons_self, hkind⟩

/-- Without a fault, what failures of exec take back is all that is reported. -/
theorem filter_reports (hfault : ¬ account.IsFaulty) : (account.reports.filter fun report => report.1 ≠ .execInherit) = [] := by
  apply List.filter_eq_nil_iff.mpr
  intro report hreport hkind
  exact hfault ⟨report, hreport, of_decide_eq_true hkind⟩

/-- The deed leads to an account without a fault from which the rest of the life goes on, or it is a fault. -/
inductive Goes (account : Account) (deed : Deed × ℕ) : Prop
  | on (next : Account) (hnext : account.after deed = next) (hfault : ¬ next.IsFaulty)
      (hlife : ∀ rest, Lives (deed.1 :: rest) account.live account.closing account.reports.length ↔
        Lives rest next.live next.closing next.reports.length)
  | wrong (hfault : (account.after deed).IsFaulty)
      (hlife : ∀ rest, ¬ Lives (deed.1 :: rest) account.live account.closing account.reports.length)

theorem goes_needLive {deed : Deed} {kind : FindingKind} {f : KeyView → KeyView} (hkind : kind ≠ .execInherit)
    (hfault : ¬ account.IsFaulty) (hf : account.live ≠ 0 → (f account.toKeyView).reports = account.reports)
    (hafter : account.after (deed, sequence) = account.onView (KeyView.needLive kind sequence f))
    (hlife : ∀ rest, Lives (deed :: rest) account.live account.closing account.reports.length ↔
      account.live ≠ 0 ∧ Lives rest (f account.toKeyView).live account.closing account.reports.length) :
    Goes account (deed, sequence) := by
  by_cases hlive : account.live = 0
  · have hneed : account.toKeyView.needLive kind sequence f = account.toKeyView.report kind sequence := if_pos hlive
    apply Goes.wrong
    · rw [hafter, onView, hneed]
      exact isFaulty_report hkind
    · exact fun rest h => ((hlife rest).mp h).1 hlive
  · have hneed : account.toKeyView.needLive kind sequence f = f account.toKeyView := if_neg hlive
    have hreports := hf hlive
    apply Goes.on (account.onView f)
    · rw [hafter, onView, hneed]
      rfl
    · rintro ⟨report, hreport, hkind'⟩
      exact hfault ⟨report, hreports ▸ hreport, hkind'⟩
    · intro rest
      change _ ↔ Lives rest (f account.toKeyView).live account.closing (f account.toKeyView).reports.length
      rw [hlife, hreports, and_iff_right hlive]

theorem reports_release_of_live (hlive : view.live ≠ 0) : (view.release sequence).reports = view.reports := by
  rw [KeyView.release, if_neg hlive]

theorem live_release : (view.release sequence).live = view.live - 1 := by
  unfold KeyView.release
  split
  · next hzero => exact hzero ▸ rfl
  · rfl

theorem goes (hfault : ¬ account.IsFaulty) (deed : Deed × ℕ) (hdeed : deed.1 ≠ .inherit) : Goes account deed := by
  obtain ⟨deed, sequence⟩ := deed
  cases deed with
  | acquire =>
    by_cases hlive : account.live = 0
    · have hnext : account.after (.acquire, sequence) = ⟨⟨1, true, account.reports⟩, account.closing⟩ := by
        simp [Account.after, onView, KeyView.acquire, hlive]
      exact .on _ hnext hfault fun rest => and_iff_right hlive
    · apply Goes.wrong
      · refine ⟨(.duplicateAcquire, sequence), ?_, fun h => by cases h⟩
        simp [Account.after, onView, KeyView.acquire, hlive]
      · exact fun rest h => hlive h.1
  | adopt => exact .on _ rfl hfault fun rest => Iff.rfl
  | release =>
    have hafter : account.after (.release, sequence) = account.onView
        (KeyView.needLive (if account.seen then .doubleRelease else .strayRelease) sequence (KeyView.release sequence)) := by
      rw [Account.after, onView, onView, KeyView.needLive, KeyView.release, KeyView.report]
      split <;> rfl
    apply goes_needLive (by split <;> decide) hfault reports_release_of_live hafter
    intro rest
    rw [live_release, Lives]
  | move =>
    apply goes_needLive (by decide) hfault reports_release_of_live rfl
    intro rest
    rw [live_release, Lives]
  | keep => exact goes_needLive (by decide) hfault (fun _ => rfl) rfl fun rest => Iff.rfl
  | use => exact goes_needLive (by decide) hfault (fun _ => rfl) rfl fun rest => Iff.rfl
  | misuse => exact .wrong (isFaulty_report (by decide)) fun rest h => h
  | closeOnExec =>
    by_cases hlive : account.live = 0
    · apply Goes.on account (by rw [Account.after, if_pos hlive]) hfault
      intro rest
      rw [Lives, if_pos hlive, hlive]
    · apply Goes.on ⟨account.toKeyView.release sequence, account.closing + 1⟩ (by rw [Account.after, if_neg hlive])
      · rintro ⟨report, hreport, hkind⟩
        exact hfault ⟨report, reports_release_of_live hlive ▸ hreport, hkind⟩
      · intro rest
        rw [Lives, if_neg hlive, reports_release_of_live hlive, live_release]
  | keepOnExec =>
    by_cases hlive : account.live = 0
    · apply Goes.on account (by rw [Account.after, if_pos hlive]) hfault
      intro rest
      rw [Lives, if_pos hlive, hlive]
    · apply Goes.on (account.onView (KeyView.report .execInherit sequence)) (by rw [Account.after, if_neg hlive])
      · rintro ⟨report, hreport, hkind⟩
        rcases List.mem_append.mp hreport with hold | hlast
        · exact hfault ⟨report, hold, hkind⟩
        · exact hkind (congrArg Prod.fst (List.mem_singleton.mp hlast))
      · intro rest
        have hlength : (account.onView (KeyView.report .execInherit sequence)).reports.length = account.reports.length + 1 :=
          List.length_append
        rw [Lives, if_neg hlive, hlength]
        rfl
  | execFails =>
    have hnext : account.after (.execFails, sequence) = ⟨⟨account.live + account.closing, account.seen, []⟩, 0⟩ := by
      simp only [Account.after, execFails, filter_reports hfault]
    apply Goes.on _ hnext
    · rintro ⟨report, hreport, -⟩
      cases hreport
    · exact fun rest => Iff.rfl
  | inherit => exact absurd rfl hdeed

/-- An account without a fault stays clean to its end exactly if the resource lives on from it without one. -/
theorem isClean_foldl_iff {word : List (Deed × ℕ)} (hword : ∀ deed ∈ word, deed.1 ≠ .inherit)
    (hfault : ¬ account.IsFaulty) :
    (word.foldl Account.after account).IsClean ↔
      Lives (word.map Prod.fst) account.live account.closing account.reports.length := by
  induction word generalizing account with
  | nil =>
    rw [List.foldl_nil, List.map_nil, IsClean, Lives, List.length_eq_zero_iff]
  | cons deed word ih =>
    have hrest : ∀ d ∈ word, d.1 ≠ .inherit := fun d hd => hword d (List.mem_cons_of_mem _ hd)
    rw [List.foldl_cons, List.map_cons]
    cases goes hfault deed (hword deed List.mem_cons_self) with
    | on next hnext hfault' hlife =>
      rw [hnext, ih hrest hfault']
      exact (hlife _).symm
    | wrong hfault' hlife => exact iff_of_false (not_isClean_of_isFaulty (hfault'.foldl hrest)) (hlife _)

end Account

section Inherited

variable {key : Key}

theorem Key.inherit_not_mem_does {own : Key} {deed : Deed × ℕ} (hdeed : deed.1 ≠ .inherit) :
    ∀ d ∈ own.does deed key, d.1 ≠ .inherit := by
  unfold Key.does
  split
  · intro d hd
    rwa [List.mem_singleton.mp hd]
  · exact List.forall_mem_nil _

theorem inherit_not_mem_resourceDeeds (record : EventRecord) : ∀ deed ∈ resourceDeeds record key, deed.1 ≠ .inherit := by
  have hmoves : ∀ deed ∈ (if isAbsent record.relatedId then (recordKey record).does (.misuse, record.sequence) key
      else (recordKey record).does (.release, record.sequence) key ++
        Key.does ⟨record.pid, recordClass record, record.relatedId.getD .empty⟩ (.adopt, record.sequence) key),
      deed.1 ≠ .inherit := by
    split
    · exact Key.inherit_not_mem_does (by simp)
    · exact List.forall_mem_append.mpr ⟨Key.inherit_not_mem_does (by simp), Key.inherit_not_mem_does (by simp)⟩
  unfold resourceDeeds
  dsimp only
  split
  · exact List.forall_mem_nil _
  · cases record.resourceKind with
    | acquire => exact Key.inherit_not_mem_does (by simp)
    | release => exact Key.inherit_not_mem_does (by simp)
    | replace => exact hmoves
    | transfer => exact hmoves
    | use => exact Key.inherit_not_mem_does (by simp)

theorem inherit_not_mem_allocationDeeds (lib : RecordLibrary) (record : EventRecord) :
    ∀ deed ∈ allocationDeeds lib record key, deed.1 ≠ .inherit := by
  have hpointer : ∀ pointer deed, deed ≠ .inherit →
      ∀ d ∈ pointerDeeds lib record pointer deed key, d.1 ≠ .inherit := by
    intro pointer deed hdeed
    unfold pointerDeeds
    split
    · exact List.forall_mem_nil _
    · exact Key.inherit_not_mem_does hdeed
  unfold allocationDeeds
  cases record.allocKind with
  | alloc => exact hpointer _ _ (by simp)
  | free => exact hpointer _ _ (by simp)
  | realloc => exact List.forall_mem_append.mpr ⟨hpointer _ _ (by split <;> simp), hpointer _ _ (by simp)⟩

theorem inherit_not_mem_ownDeeds (lib : RecordLibrary) (record : EventRecord) :
    ∀ deed ∈ ownDeeds lib record key, deed.1 ≠ .inherit := by
  unfold ownDeeds
  cases record.recordKind with
  | resource => exact inherit_not_mem_resourceDeeds record
  | fd => exact inherit_not_mem_resourceDeeds (normalizedFd record)
  | alloc => exact inherit_not_mem_allocationDeeds lib record
  | exec => exact Key.inherit_not_mem_does (by split <;> simp)
  | execFail =>
    dsimp only
    split
    · exact List.forall_mem_singleton.mpr (by simp)
    · exact List.forall_mem_nil _
  | fork => exact List.forall_mem_nil _
  | spawn => exact List.forall_mem_nil _
  | call => exact List.forall_mem_nil _
  | complete => exact List.forall_mem_nil _

theorem inherit_not_mem_history (lib : RecordLibrary) (records : List EventRecord) :
    ∀ deed ∈ history lib records key, deed.1 ≠ .inherit := by
  intro deed hdeed
  obtain ⟨record, -, hrecord⟩ := List.mem_flatMap.mp hdeed
  exact inherit_not_mem_ownDeeds lib record deed hrecord

end Inherited

/-- What is reported at the end is nothing if it is nothing about any resource. -/
theorem findings_finished_eq_nil_iff {store : Store} :
    store.finished.findings = [] ↔ ∀ key, (store.account key).IsClean := by
  rw [Store.finished, List.map_eq_nil_iff, List.append_eq_nil_iff, List.map_eq_nil_iff, List.filter_eq_nil_iff]
  constructor
  · rintro ⟨hfindings, hlive⟩ key
    constructor
    · by_contra hne
      obtain ⟨entry, hentry, -, hentryLive⟩ := Store.live_ne_zero_iff.mp hne
      exact hlive entry hentry hentryLive
    · change reportsOf key store.findings = []
      rw [hfindings]
      rfl
  · intro hclean
    constructor
    · apply List.eq_nil_iff_forall_not_mem.mpr
      intro finding hfinding
      have hreports : reportsOf finding.key store.findings = [] := (hclean finding.key).2
      rw [reportsOf, List.map_eq_nil_iff, List.filter_eq_nil_iff] at hreports
      exact hreports finding hfinding (decide_eq_true rfl)
    · intro entry hentry hlive
      exact Store.live_ne_zero_iff.mpr ⟨entry, hentry, rfl, hlive⟩ (hclean entry.key).1

/-- A replay without forks reports nothing exactly if every resource lives without a fault by what its own
records do to it. -/
theorem findings_eq_nil_iff_lives (lib : RecordLibrary) (records : List EventRecord) (store : Store)
    (hforks : ∀ record ∈ records, record.recordKind ≠ .fork) (h : ReplaysTo lib records store) :
    store.findings = [] ↔ ∀ key, Lives ((history lib records key).map Prod.fst) 0 0 0 := by
  obtain ⟨-, before, hrun, rfl, -⟩ := replaysTo_iff.mp h
  rw [findings_finished_eq_nil_iff, Store.account_ingestAll hrun]
  apply forall_congr'
  intro key
  have hown : ∀ record ∈ records, ∀ books, deeds lib books record = ownDeeds lib record := by
    intro record hrecord books
    funext key
    rw [deeds, if_neg (hforks record hrecord)]
  have hfault : ¬ Account.IsFaulty .empty := fun ⟨_, hreport, _⟩ => List.not_mem_nil hreport
  rw [books, foldl_enter_eq_history hown]
  exact Account.isClean_foldl_iff (inherit_not_mem_history lib records) hfault

/-- A descriptor is closed by an exec that fails, and closed again. A block is reallocated and freed. -/
def failedExec : List EventRecord :=
  let run := some (.ofString "run")
  [{ recordKind := .fd, runId := run, pid := 1, fd := 3, sequence := 1 },
    { recordKind := .exec, runId := run, pid := 1, fd := 3, cloexec := 1, sequence := 2 },
    { recordKind := .execFail, runId := run, pid := 1, sequence := 3 },
    { recordKind := .alloc, runId := run, pid := 1, ptr := some (.ofString "0x7"), sequence := 4 },
    { recordKind := .fd, runId := run, pid := 1, fd := 3, fdKind := .closed, sequence := 5 },
    { recordKind := .alloc, runId := run, pid := 1, allocKind := .realloc, ptr := some (.ofString "0x7"),
      newPtr := some (.ofString "0x8"), sequence := 6 },
    { recordKind := .alloc, runId := run, pid := 1, allocKind := .free, ptr := some (.ofString "0x8"), sequence := 7 }]

theorem findings_eq_nil_iff_lives_failedExec :
    (replayedStore failedExec).findings = [] ↔
      ∀ key, Lives ((history .standard failedExec key).map Prod.fst) 0 0 0 :=
  findings_eq_nil_iff_lives .standard failedExec _ (by decide) (replaysTo_replayedStore (by decide +kernel))

example : (replayedStore failedExec).findings = [] := by decide +kernel

end ToolEvent.Lifecycle
