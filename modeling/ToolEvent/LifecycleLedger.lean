import ToolEvent.LifecycleRefinement

/-!
# The ledger of acquisitions and releases

What a sequence of records asks for is written down independently of the replay,
as acquisitions and releases of keys. The replay keeps every line of this ledger:
an acquisition as an entry, a release as a closed entry or as a finding.
-/

namespace ToolEvent.Lifecycle

open Fallible World LatestMatch

/-- A process, a resource class and a resource id. -/
structure Key where
  pid : ℤ
  resourceClass : Text
  resourceId : Text
  deriving DecidableEq

/-- An acquisition or a release of a key, as a record asks for it. -/
structure Request where
  key : Key
  contextId : ℕ
  sequence : ℕ
  lineNumber : ℤ
  functionName : Option Text
  fileName : Option Text
  deriving DecidableEq

def Request.of (record : EventRecord) (pid : ℤ) (resourceClass resourceId : Text) : Request where
  key := ⟨pid, resourceClass, resourceId⟩
  contextId := record.contextId
  sequence := record.sequence
  lineNumber := record.lineNumber
  functionName := some (orUnknown record.functionName)
  fileName := some (orUnknown record.fileName)

structure Ledger where
  acquired : List Request := []
  released : List Request := []

def Ledger.append (a b : Ledger) : Ledger := ⟨a.acquired ++ b.acquired, a.released ++ b.released⟩

/-- The descriptors a fork gives to the child: those live in the parent that the
child does not have yet, each one once. -/
def forkClones (record : EventRecord) (entries : List Entry) : List Text :=
  if isForkReplayed record then
    (((entries.filter (Entry.isInheritable record.pid)).map Entry.resourceId).filter
      (fun id => (findLatest entries record.childPid fdResourceClass id false).isNone)).eraseDups
  else []

/-- What a resource record asks for. -/
def resourceRequests (record : EventRecord) : Ledger :=
  let request := Request.of record record.pid (recordClass record)
  match record.resourceKind with
  | .acquire => { acquired := [request (recordId record)] }
  | .release => { released := [request (recordId record)] }
  | .replace | .transfer =>
    if isAbsent record.relatedId then {}
    else
      { acquired := [request (record.relatedId.getD .empty)]
        released := [request (recordId record)] }
  | .use => {}

/-- What a fork asks for the child, one acquisition for each cloned descriptor. -/
def cloneRequests (record : EventRecord) (ids : List Text) : List Request :=
  ids.map (Request.of record record.childPid fdResourceClass)

/-- What a descriptor record asks for. -/
def fdRequests (record : EventRecord) : Ledger :=
  let request := Request.of record record.pid fdResourceClass (formatFdIdentifier record.fd)
  match record.fdKind with
  | .opened => { acquired := [request] }
  | .closed => { released := [request] }

def pointerRequest (record : EventRecord) (pointer : Option Text) : Request :=
  Request.of record record.pid allocationResourceClass (pointer.getD .empty)

def pointerRequests (lib : RecordLibrary) (record : EventRecord) (pointer : Option Text) :
    List Request :=
  if lib.pointerIsNull pointer then [] else [pointerRequest record pointer]

/-- What an allocation record asks for. The source of a reallocation is released
when it is live and the result is not null. -/
def allocationRequests (lib : RecordLibrary) (entries : List Entry) (record : EventRecord) :
    Ledger :=
  match record.allocKind with
  | .alloc => { acquired := pointerRequests lib record record.ptr }
  | .free => { released := pointerRequests lib record record.ptr }
  | .realloc =>
    let isLive := (findLatest entries record.pid allocationResourceClass
      (record.ptr.getD .empty) true).isSome
    { acquired := pointerRequests lib record record.newPtr
      released :=
        if isLive ∧ ¬ lib.pointerIsNull record.newPtr then pointerRequests lib record record.ptr
        else [] }

/-- What a record asks for when it meets these entries. -/
def requests (lib : RecordLibrary) (entries : List Entry) (record : EventRecord) : Ledger :=
  match record.recordKind with
  | .resource => resourceRequests record
  | .fd => fdRequests record
  | .alloc => allocationRequests lib entries record
  | .fork =>
    { acquired := cloneRequests record (forkClones record entries) }
  | .spawn | .exec | .execFail | .call | .complete => {}

/-- The ledger of a sequence of records that are ingested one after the other. -/
def ledger (lib : RecordLibrary) (model : Model) : List EventRecord → Ledger
  | [] => {}
  | record :: records =>
    (requests lib model.entries record).append
      (ledger lib (ingest lib record ⟨model, []⟩).2.state records)

def Entry.key (entry : Entry) : Key := ⟨entry.pid, entry.resourceClass, entry.resourceId⟩

def Entry.acquisition (entry : Entry) : Request where
  key := entry.key
  contextId := entry.acquiredContextId
  sequence := entry.acquiredSequence
  lineNumber := entry.acquiredLineNumber
  functionName := some entry.acquiredFunctionName
  fileName := some entry.acquiredFileName

/-- The release in the release fields of an entry. -/
def Entry.closure (entry : Entry) : Request where
  key := entry.key
  contextId := entry.releasedContextId
  sequence := entry.releasedSequence
  lineNumber := entry.releasedLineNumber
  functionName := entry.releasedFunctionName
  fileName := entry.releasedFileName

def Finding.isUnmatchedRelease (finding : Finding) : Bool :=
  finding.kind = .strayRelease ∨ finding.kind = .doubleRelease

def Finding.release (finding : Finding) : Request where
  key := ⟨finding.pid, finding.resourceClass, finding.resourceId⟩
  contextId := finding.contextId
  sequence := finding.sequence
  lineNumber := finding.lineNumber
  functionName := some finding.functionName
  fileName := some finding.fileName

def closures (entries : List Entry) : List Request :=
  (entries.filter (fun entry => ¬ entry.live)).map Entry.closure

def unmatched (findings : List Finding) : List Request :=
  (findings.filter Finding.isUnmatchedRelease).map Finding.release

/-- The store keeps the ledger: entries are the acquisitions in order, and closed
entries and findings together are the releases. -/
structure Keeps (acquired released : List Request) (store : Store) : Prop where
  acquired_eq : store.entries.map Entry.acquisition = acquired
  released_perm : released.Perm (closures store.entries ++ unmatched store.findings)

def Request.isRecorded (request : Request) : Bool := ¬ isIgnoredClass request.key.resourceClass

theorem allocation_recorded : isIgnoredClass allocationResourceClass = false := by decide

theorem fd_recorded : isIgnoredClass fdResourceClass = false := by decide

namespace Keeps

variable {acquired released : List Request} {store store' : Store} {record : EventRecord}

theorem of_perm {released' : List Request} (h : Keeps acquired released store)
    (hperm : released'.Perm released) : Keeps acquired released' store :=
  ⟨h.acquired_eq, hperm.trans h.released_perm⟩

theorem addEntry {resourceId : Text} (h : Keeps acquired released store)
    (hadd : store.addEntry record resourceId = some store') :
    Keeps (acquired ++ [Request.of record record.pid (recordClass record) resourceId]) released
      store' := by
  obtain ⟨_, rfl⟩ := Store.addEntry_eq_some.mp hadd
  refine ⟨?_, ?_⟩
  · rw [List.map_append, h.acquired_eq]
    rfl
  · simpa [closures, newEntry] using h.released_perm

theorem addFinding {kind : FindingKind} {previous : Option Entry}
    (h : Keeps acquired released store) (hkind : kind ≠ .strayRelease) (hkind' : kind ≠ .doubleRelease)
    (hadd : store.addFinding kind record previous = some store') :
    Keeps acquired released store' := by
  obtain ⟨_, rfl⟩ := Store.addFinding_eq_some.mp hadd
  have hnone : unmatched [newFinding kind record previous] = [] := by
    have hfinding : (newFinding kind record previous).kind = kind := by
      unfold newFinding
      cases previous <;> rfl
    simp [unmatched, Finding.isUnmatchedRelease, hfinding, hkind, hkind']
  refine ⟨h.acquired_eq, ?_⟩
  have happend : unmatched (store.findings ++ [newFinding kind record previous]) =
      unmatched store.findings := by
    simpa [unmatched] using hnone
  rw [happend]
  exact h.released_perm

theorem releaseEntry (h : Keeps acquired released store)
    (hrelease : store.releaseEntry record = some store') :
    Keeps acquired (released ++ [Request.of record record.pid (recordClass record) (recordId record)])
      store' := by
  rcases Store.releaseEntry_cases hrelease with
    ⟨pre, entry, post, hs, rfl⟩ | ⟨_, _, previous, hprevious, rfl⟩
  · have hkey := hs.holds
    simp only [Entry.matches, decide_eq_true_eq, forall_const] at hkey
    obtain ⟨hpid, hclass, hid, hlive⟩ := hkey
    have hclosure : (entry.closedBy record).closure =
        Request.of record record.pid (recordClass record) (recordId record) := by
      simp [Entry.closure, Entry.closedBy, Entry.key, Request.of, hpid, hclass, hid]
    refine ⟨?_, ?_⟩
    · rw [← h.acquired_eq, hs.eq, List.map_append, List.map_append]
      rfl
    · have hbefore : closures store.entries = closures pre ++ closures post := by
        simp [closures, hs.eq, hlive]
      have hafter : closures (pre ++ entry.closedBy record :: post) =
          closures pre ++ Request.of record record.pid (recordClass record) (recordId record) ::
            closures post := by
        have hclosed : (entry.closedBy record).live = false := rfl
        simp [closures, hclosed, hclosure]
      have hperm := h.released_perm
      rw [hbefore] at hperm
      rw [hafter, List.append_assoc, List.cons_append]
      refine (List.perm_append_singleton _ _).trans (((hperm.cons _)).trans ?_)
      rw [List.append_assoc]
      exact List.perm_middle.symm
  · have hfinding : unmatched [newFinding
        (if previous.isNone then .strayRelease else .doubleRelease) record previous] =
          [Request.of record record.pid (recordClass record) (recordId record)] := by
      cases previous with
      | none => rfl
      | some entry =>
        obtain ⟨index, hindex, hentry⟩ := Option.bind_eq_some_iff.mp hprevious.symm
        obtain ⟨pre, entry', post, hs, rfl⟩ := exists_split_of_latestIndex hindex
        obtain rfl : entry' = entry := by simpa [hs.getElem?] using hentry
        have hkey := hs.holds
        simp only [Entry.matches, decide_eq_true_eq] at hkey
        simp [unmatched, newFinding, Finding.isUnmatchedRelease, Finding.release, Request.of, hkey]
    refine ⟨h.acquired_eq, ?_⟩
    have happend : ∀ extra, unmatched (store.findings ++ extra) =
        unmatched store.findings ++ unmatched extra := by simp [unmatched]
    rw [happend, hfinding, ← List.append_assoc]
    exact h.released_perm.append_right _

theorem foldlM_releaseEntry {findings : List Finding} (h : Keeps acquired released store)
    (hfold : findings.foldlM (fun s f => s.releaseEntry f.toRelease) store = some store') :
    Keeps acquired (released ++ findings.map Finding.release) store' := by
  induction findings generalizing released store with
  | nil =>
    obtain rfl : store = store' := by simpa using hfold
    simpa using h
  | cons finding findings ih =>
    rw [List.foldlM_cons] at hfold
    obtain ⟨middle, hfirst, hrest⟩ := Option.bind_eq_some_iff.mp hfold
    have hnext := ih (h.releaseEntry hfirst) hrest
    rw [List.append_assoc] at hnext
    exact hnext

/-- Replaying stray releases moves lines of the ledger, and loses none. -/
theorem reconcile {pid : ℤ} {resourceClass resourceId : Text} (h : Keeps acquired released store)
    (hreconcile : store.reconcile pid resourceClass resourceId = some store') :
    Keeps acquired released store' := by
  let isStray := Finding.isStray pid resourceClass resourceId
  have hstray : ∀ f ∈ store.findings.filter isStray, f.isUnmatchedRelease = true := by
    intro f hf
    have hf := (List.mem_filter.mp hf).2
    simp only [isStray, Finding.isStray, decide_eq_true_eq] at hf
    simp [Finding.isUnmatchedRelease, hf.1]
  have hsplit : (unmatched store.findings).Perm
      (unmatched (store.findings.filter (fun f => ¬ isStray f)) ++
        (store.findings.filter isStray).map Finding.release) := by
    have hall : unmatched (store.findings.filter isStray) =
        (store.findings.filter isStray).map Finding.release := by
      rw [unmatched, List.filter_eq_self.mpr hstray]
    rw [← hall]
    simp only [unmatched, ← List.map_append, ← List.filter_append]
    refine List.Perm.map _ (List.Perm.filter _ ?_)
    refine List.perm_append_comm.trans ?_ |>.symm
    simpa using List.filter_append_perm isStray store.findings
  have hstart : Keeps acquired
      (closures store.entries ++ unmatched (store.findings.filter (fun f => ¬ isStray f)))
      { store with findings := store.findings.filter (fun f => ¬ isStray f) } :=
    ⟨h.acquired_eq, List.Perm.refl _⟩
  refine (hstart.foldlM_releaseEntry hreconcile).of_perm ?_
  refine h.released_perm.trans ?_
  rw [List.append_assoc]
  exact hsplit.append_left _

theorem replaceEntry (h : Keeps acquired released store)
    (hreplace : store.replaceEntry record = some store') :
    let request := Request.of record record.pid (recordClass record)
    let asked : Ledger :=
      if isAbsent record.relatedId then {}
      else
        { acquired := [request (record.relatedId.getD .empty)]
          released := [request (recordId record)] }
    Keeps (acquired ++ asked.acquired) (released ++ asked.released) store' := by
  unfold Store.replaceEntry at hreplace
  split at hreplace
  · next habsent => simpa [habsent] using h.addFinding (by simp) (by simp) hreplace
  · next hpresent =>
    obtain ⟨middle, hrelease, hadd⟩ := Option.bind_eq_some_iff.mp hreplace
    simpa [hpresent] using (h.releaseEntry hrelease).addEntry hadd

theorem ingestResource (h : Keeps acquired released store)
    (hingest : store.ingestResource record = some store')
    (hrecorded : isIgnoredClass (recordClass record) = false) :
    Keeps (acquired ++ (resourceRequests record).acquired)
      (released ++ (resourceRequests record).released) store' := by
  unfold Store.ingestResource at hingest
  split at hingest
  · simp at hingest
  unfold resourceRequests
  cases hkind : record.resourceKind with
  | acquire =>
    simp only [hrecorded, hkind, Bool.false_eq_true, if_false] at hingest
    obtain ⟨middle, hduplicate, hadd⟩ := Option.bind_eq_some_iff.mp hingest
    split at hduplicate
    · simpa using (h.addFinding (by simp) (by simp) hduplicate).addEntry hadd
    · obtain rfl : store = middle := by simpa using hduplicate
      simpa using h.addEntry hadd
  | release =>
    simp only [hrecorded, hkind, Bool.false_eq_true, if_false] at hingest
    simpa using h.releaseEntry hingest
  | replace =>
    simp only [hrecorded, hkind, Bool.false_eq_true, if_false] at hingest
    exact h.replaceEntry hingest
  | transfer =>
    simp only [hrecorded, hkind, Bool.false_eq_true, if_false] at hingest
    exact h.replaceEntry hingest
  | use =>
    simp only [hrecorded, hkind, Bool.false_eq_true, if_false] at hingest
    unfold Store.useEntry at hingest
    split at hingest
    · simpa using h.addFinding (by simp) (by simp) hingest
    · obtain rfl : store = store' := by simpa using hingest
      simpa using h

end Keeps

section Keys

variable {store store' : Store} {record : EventRecord}

theorem keys_addEntry {resourceId : Text} (h : store.addEntry record resourceId = some store') :
    store'.entries.map Entry.key =
      store.entries.map Entry.key ++ [⟨record.pid, recordClass record, resourceId⟩] := by
  obtain ⟨_, rfl⟩ := Store.addEntry_eq_some.mp h
  rw [List.map_append]
  rfl

theorem keys_releaseEntry (h : store.releaseEntry record = some store') :
    store'.entries.map Entry.key = store.entries.map Entry.key := by
  rcases Store.releaseEntry_cases h with ⟨pre, entry, post, hs, rfl⟩ | ⟨_, _, previous, _, rfl⟩
  · rw [hs.eq, List.map_append, List.map_append]
    rfl
  · rfl

theorem keys_reconcile {pid : ℤ} {resourceClass resourceId : Text}
    (h : store.reconcile pid resourceClass resourceId = some store') :
    store'.entries.map Entry.key = store.entries.map Entry.key := by
  refine foldlM_invariant (fun s => s.entries.map Entry.key = store.entries.map Entry.key) h ?_ rfl
  exact fun finding _ s s' hs hrelease => (keys_releaseEntry hrelease).trans hs

theorem findLatest_isNone_iff {entries : List Entry} {pid : ℤ} {resourceClass resourceId : Text} :
    (findLatest entries pid resourceClass resourceId false).isNone =
      decide ((⟨pid, resourceClass, resourceId⟩ : Key) ∉ entries.map Entry.key) := by
  rw [Bool.eq_iff_iff, Option.isNone_iff_eq_none, findLatest, latestIndex_eq_none_iff]
  simp [Entry.matches, Entry.key]

end Keys

namespace Keeps

variable {acquired released : List Request} {store store' : Store} {record : EventRecord}

/-- Visiting the descriptors of the parent clones each one that the child lacks, once. -/
theorem foldlM_forkEntry {parents : List Entry} (h : Keeps acquired released store)
    (hfold : parents.foldlM (fun s entry => s.forkEntry record entry) store = some store') :
    Keeps (acquired ++ cloneRequests record ((parents.map Entry.resourceId).filter
      (fun id => (findLatest store.entries record.childPid fdResourceClass id false).isNone)).eraseDups)
      released store' := by
  induction parents generalizing acquired store with
  | nil =>
    obtain rfl : store = store' := by simpa using hfold
    simpa [cloneRequests] using h
  | cons parent parents ih =>
    rw [List.foldlM_cons] at hfold
    obtain ⟨middle, hfork, hrest⟩ := Option.bind_eq_some_iff.mp hfold
    unfold Store.forkEntry at hfork
    rw [List.map_cons, List.filter_cons]
    cases hknown : findLatest store.entries record.childPid fdResourceClass parent.resourceId
      false with
    | some index =>
      simp only [hknown, Option.isSome_some, if_true] at hfork
      obtain rfl : store = middle := by simpa using hfork
      simpa using ih h hrest
    | none =>
      simp only [hknown, Option.isSome_none, Bool.false_eq_true, if_false] at hfork
      split at hfork
      · simp at hfork
      obtain ⟨added, hadd, hreconcile⟩ := Option.bind_eq_some_iff.mp hfork
      have hkeys := (keys_reconcile hreconcile).trans (keys_addEntry hadd)
      have hnext := ih ((h.addEntry hadd).reconcile hreconcile) hrest
      have hfresh : ∀ id, (findLatest middle.entries record.childPid fdResourceClass id
            false).isNone =
          (!(id == parent.resourceId) &&
            (findLatest store.entries record.childPid fdResourceClass id false).isNone) := by
        intro id
        rw [findLatest_isNone_iff, findLatest_isNone_iff, hkeys]
        have hnew : (⟨record.childPid, fdResourceClass, id⟩ : Key) =
            ⟨(inheritedRecord record parent).pid, recordClass (inheritedRecord record parent),
              parent.resourceId⟩ ↔ id = parent.resourceId := by
          simp [inheritedRecord, recordClass]
        simp only [List.mem_append, List.mem_singleton, hnew, not_or, Bool.decide_and]
        by_cases hid : id = parent.resourceId <;> simp [hid]
      simp only [hfresh] at hnext
      rw [List.append_assoc] at hnext
      simp only [Option.isNone_none, if_true, List.eraseDups_cons, List.filter_filter]
      exact hnext

theorem ingestFork (h : Keeps acquired released store)
    (hingest : store.ingestFork record = some store') :
    Keeps (acquired ++ cloneRequests record (forkClones record store.entries)) released store' := by
  unfold Store.ingestFork at hingest
  unfold forkClones
  split at hingest
  · next hreplayed =>
    rw [if_pos hreplayed]
    exact h.foldlM_forkEntry hingest
  · next hskipped =>
    obtain rfl : store = store' := by simpa using hingest
    simpa [hskipped, cloneRequests] using h

theorem resourceRequests_acquire (record : EventRecord) (pointer : Option Text) :
    resourceRequests (normalizedAllocation record .acquire pointer) =
      { acquired := [pointerRequest record pointer] } := rfl

theorem resourceRequests_release (record : EventRecord) (pointer : Option Text) :
    resourceRequests (normalizedAllocation record .release pointer) =
      { released := [pointerRequest record pointer] } := rfl

theorem acquire_allocation {pointer : Option Text} (lib : RecordLibrary)
    (h : Keeps acquired released store)
    (hingest : (if lib.pointerIsNull pointer then some
      else Store.ingestResource (normalizedAllocation record .acquire pointer)) store = some store') :
    Keeps (acquired ++ pointerRequests lib record pointer) released store' := by
  unfold pointerRequests
  split at hingest
  · next hnull =>
    obtain rfl : store = store' := by simpa using hingest
    simpa [hnull] using h
  · next hpointer =>
    have hacquired := h.ingestResource hingest allocation_recorded
    rw [resourceRequests_acquire] at hacquired
    simpa [hpointer] using hacquired

theorem release_allocation {pointer : Option Text} (h : Keeps acquired released store)
    (hingest : store.ingestResource (normalizedAllocation record .release pointer) = some store') :
    Keeps acquired (released ++ [pointerRequest record pointer]) store' := by
  have hreleased := h.ingestResource hingest allocation_recorded
  rw [resourceRequests_release] at hreleased
  simpa using hreleased

theorem ingestAllocation (lib : RecordLibrary) (h : Keeps acquired released store)
    (hingest : store.ingestAllocation lib record = some store') :
    Keeps (acquired ++ (allocationRequests lib store.entries record).acquired)
      (released ++ (allocationRequests lib store.entries record).released) store' := by
  unfold Store.ingestAllocation at hingest
  unfold allocationRequests
  cases hkind : record.allocKind with
  | alloc =>
    simp only [hkind] at hingest
    simpa using h.acquire_allocation lib hingest
  | free =>
    simp only [hkind] at hingest
    by_cases hnull : lib.pointerIsNull record.ptr = true
    · simp only [hnull, if_true] at hingest
      obtain rfl : store = store' := by simpa using hingest
      simpa [pointerRequests, hnull] using h
    · simp only [hnull, Bool.false_eq_true, if_false] at hingest
      simpa [pointerRequests, hnull] using h.release_allocation hingest
  | realloc =>
    simp only [hkind] at hingest
    by_cases hnull : lib.pointerIsNull record.ptr = true
    · simp only [hnull, if_true] at hingest
      simpa [pointerRequests, hnull] using h.acquire_allocation lib hingest
    simp only [hnull, Bool.false_eq_true, if_false] at hingest
    cases hlive : findLatest store.entries record.pid allocationResourceClass
      (record.ptr.getD .empty) true with
    | none =>
      simp only [hlive, Option.isNone_none, if_true] at hingest
      obtain ⟨middle, hfinding, hacquire⟩ := Option.bind_eq_some_iff.mp hingest
      simpa [hlive] using (h.addFinding (by simp) (by simp) hfinding).acquire_allocation lib hacquire
    | some index =>
      simp only [hlive, Option.isNone_some, Bool.false_eq_true, if_false] at hingest
      by_cases hnew : lib.pointerIsNull record.newPtr = true
      · simp only [hnew, if_true] at hingest
        obtain rfl : store = store' := by simpa using hingest
        simpa [pointerRequests, hlive, hnew] using h
      · simp only [hnew, Bool.false_eq_true, if_false] at hingest
        obtain ⟨middle, hrelease, hacquire⟩ := Option.bind_eq_some_iff.mp hingest
        have hmiddle := h.release_allocation hrelease
        have hacquired := hmiddle.ingestResource hacquire allocation_recorded
        rw [resourceRequests_acquire] at hacquired
        simpa [pointerRequests, hlive, hnew, hnull] using hacquired

end Keeps

/-- The part of a ledger that is about classes the replay does not ignore. -/
def Ledger.recorded (a : Ledger) : Ledger :=
  ⟨a.acquired.filter Request.isRecorded, a.released.filter Request.isRecorded⟩

def Ledger.OfClass (resourceClass : Text) (a : Ledger) : Prop :=
  ∀ request ∈ a.acquired ++ a.released, request.key.resourceClass = resourceClass

theorem Ledger.OfClass.recorded {resourceClass : Text} {a : Ledger} (h : a.OfClass resourceClass) :
    a.recorded = if isIgnoredClass resourceClass then {} else a := by
  have hrequests : ∀ requests : List Request, requests ⊆ a.acquired ++ a.released →
      requests.filter Request.isRecorded =
        if isIgnoredClass resourceClass then [] else requests := by
    intro requests hsub
    split
    · next hignored =>
      refine List.filter_eq_nil_iff.mpr fun request hrequest => ?_
      simp [Request.isRecorded, h request (hsub hrequest), hignored]
    · next hrecorded =>
      refine List.filter_eq_self.mpr fun request hrequest => ?_
      simp [Request.isRecorded, h request (hsub hrequest), hrecorded]
  rw [Ledger.recorded, hrequests _ (List.subset_append_left _ _),
    hrequests _ (List.subset_append_right _ _)]
  split <;> rfl

theorem resourceRequests_ofClass (record : EventRecord) :
    (resourceRequests record).OfClass (recordClass record) := by
  unfold Ledger.OfClass resourceRequests
  by_cases habsent : isAbsent record.relatedId = true <;>
    cases record.resourceKind <;> simp [habsent, Request.of]

theorem fdRequests_ofClass (record : EventRecord) :
    (fdRequests record).OfClass fdResourceClass := by
  unfold Ledger.OfClass fdRequests
  cases record.fdKind <;> simp [Request.of]

theorem pointerRequests_ofClass (lib : RecordLibrary) (record : EventRecord)
    (pointer : Option Text) :
    ∀ request ∈ pointerRequests lib record pointer,
      request.key.resourceClass = allocationResourceClass := by
  unfold pointerRequests
  split <;> simp [pointerRequest, Request.of]

theorem allocationRequests_ofClass (lib : RecordLibrary) (entries : List Entry)
    (record : EventRecord) :
    (allocationRequests lib entries record).OfClass allocationResourceClass := by
  unfold Ledger.OfClass allocationRequests
  have hpointer := pointerRequests_ofClass lib record
  cases record.allocKind with
  | alloc => simpa using hpointer record.ptr
  | free => simpa using hpointer record.ptr
  | realloc =>
    intro request hrequest
    rcases List.mem_append.mp hrequest with hacquired | hreleased
    · exact hpointer _ _ hacquired
    · dsimp only at hreleased
      split at hreleased
      · exact hpointer _ _ hreleased
      · simp at hreleased

theorem cloneRequests_ofClass (record : EventRecord) (ids : List Text) :
    Ledger.OfClass fdResourceClass { acquired := cloneRequests record ids } := by
  simp [Ledger.OfClass, cloneRequests, Request.of]

def RecordKind.isLedger : RecordKind → Bool
  | .resource | .fd | .alloc | .fork => true
  | .spawn | .exec | .execFail | .call | .complete => false

/-- One record: the store goes on keeping the ledger. -/
theorem Keeps.ingest {acquired released : List Request} {store store' : Store}
    {record : EventRecord} (lib : RecordLibrary) (h : Keeps acquired released store)
    (hkind : RecordKind.isLedger record.recordKind = true)
    (hingest : store.ingest lib record = some store') :
    Keeps (acquired ++ (requests lib store.entries record).recorded.acquired)
      (released ++ (requests lib store.entries record).recorded.released) store' := by
  unfold Store.ingest at hingest
  unfold requests
  cases hrecord : record.recordKind with
  | resource =>
    simp only [hrecord] at hingest ⊢
    rw [(resourceRequests_ofClass record).recorded]
    by_cases hignored : isIgnoredClass (recordClass record) = true
    · unfold Store.ingestResource at hingest
      simp only [hignored, if_true] at hingest ⊢
      split at hingest
      · simp at hingest
      · obtain rfl : store = store' := by simpa using hingest
        simpa using h
    · rw [if_neg hignored]
      exact h.ingestResource hingest (by simpa using hignored)
  | fd =>
    simp only [hrecord] at hingest ⊢
    have hsame : resourceRequests (normalizedFd record) = fdRequests record := by
      unfold resourceRequests fdRequests normalizedFd
      cases record.fdKind <;> rfl
    rw [(fdRequests_ofClass record).recorded, fd_recorded, ← hsame]
    exact h.ingestResource hingest fd_recorded
  | alloc =>
    simp only [hrecord] at hingest ⊢
    rw [(allocationRequests_ofClass lib store.entries record).recorded, allocation_recorded]
    exact h.ingestAllocation lib hingest
  | fork =>
    simp only [hrecord] at hingest ⊢
    rw [(cloneRequests_ofClass record _).recorded, fd_recorded]
    simpa using h.ingestFork hingest
  | spawn => simp [hrecord, RecordKind.isLedger] at hkind
  | exec => simp [hrecord, RecordKind.isLedger] at hkind
  | execFail => simp [hrecord, RecordKind.isLedger] at hkind
  | call => simp [hrecord, RecordKind.isLedger] at hkind
  | complete => simp [hrecord, RecordKind.isLedger] at hkind

/-- A run of accepted records: the model goes on keeping the ledger. -/
theorem Keeps.ingestAll {lib : RecordLibrary} {records : List EventRecord} {m m' : Model}
    {acquired released : List Request} (h : Keeps acquired released m.store)
    (hbounded : m.findings.length ≤ maxLifecycleFindings)
    (hkinds : ∀ record ∈ records, RecordKind.isLedger record.recordKind = true)
    (hingest : ingestAll lib m records = some m') :
    Keeps (acquired ++ (ledger lib m records).recorded.acquired)
      (released ++ (ledger lib m records).recorded.released) m'.store := by
  induction records generalizing m acquired released with
  | nil =>
    obtain rfl : m = m' := by simpa [Lifecycle.ingestAll] using hingest
    simpa [ledger, Ledger.recorded] using h
  | cons record records ih =>
    unfold Lifecycle.ingestAll at hingest
    rcases hrun : Lifecycle.ingest lib record ⟨m, []⟩ with ⟨⟨e⟩ | ⟨⟩, w⟩
    · simp [hrun] at hingest
    simp only [hrun] at hingest
    obtain ⟨s, hs, ⟨_, hstore, hb⟩, _⟩ :=
      (ingest_produces lib record hbounded (isAdmitted_of_ingest hrun)).of_ok hrun
    have hentries : m.store.entries = m.entries := rfl
    have hstep := h.ingest lib (hkinds record List.mem_cons_self) hs
    rw [← hstore, hentries] at hstep
    rw [← hstore] at hb
    have hrest := ih hstep hb (fun r hr => hkinds r (List.mem_cons_of_mem _ hr)) hingest
    simpa only [ledger, hrun, Ledger.append, Ledger.recorded, List.filter_append,
      List.append_assoc] using hrest

def Model.entriesOf (m : Model) (key : Key) : List Entry := m.entries.filter (fun e => e.key = key)

/-- The stray and double releases reported for a key. -/
def Model.unmatchedOf (m : Model) (key : Key) : List Finding :=
  m.findings.filter (fun f => f.isUnmatchedRelease ∧ f.release.key = key)

def requestsOf (key : Key) (requests : List Request) : List Request :=
  requests.filter (fun request => request.key = key)

theorem requestsOf_recorded {key : Key} (hclass : isIgnoredClass key.resourceClass = false)
    (requests : List Request) :
    requestsOf key (requests.filter Request.isRecorded) = requestsOf key requests := by
  rw [requestsOf, requestsOf, List.filter_filter]
  refine List.filter_congr fun request _ => ?_
  by_cases hkey : request.key = key <;> simp [hkey, Request.isRecorded, hclass]

theorem requestsOf_acquisitions (key : Key) (entries : List Entry) :
    requestsOf key (entries.map Entry.acquisition) =
      (entries.filter (fun e => e.key = key)).map Entry.acquisition := List.filter_map

theorem requestsOf_closures (key : Key) (entries : List Entry) :
    requestsOf key (closures entries) = closures (entries.filter (fun e => e.key = key)) := by
  rw [requestsOf, closures, List.filter_map, closures, List.filter_filter, List.filter_filter]
  congr 1
  exact List.filter_congr fun entry _ => Bool.and_comm _ _

theorem requestsOf_unmatched (key : Key) (findings : List Finding) :
    requestsOf key (unmatched findings) =
      (findings.filter (fun f => f.isUnmatchedRelease ∧ f.release.key = key)).map
        Finding.release := by
  rw [requestsOf, unmatched, List.filter_map, List.filter_filter]
  congr 1
  refine List.filter_congr fun finding _ => ?_
  simp [Bool.and_comm]

/-- For every key: its entries are its acquisitions, in order; its releases are
those of its closed entries and of its stray and double release findings, each
exactly once; and its live entries are its acquisitions less the releases
recorded on its entries. -/
theorem ledger_kept (lib : RecordLibrary) (records : List EventRecord) (m : Model)
    (hkinds : ∀ record ∈ records, RecordKind.isLedger record.recordKind = true)
    (hingest : ingestAll lib {} records = some m) (key : Key)
    (hclass : isIgnoredClass key.resourceClass = false) :
    (m.entriesOf key).map Entry.acquisition = requestsOf key (ledger lib {} records).acquired ∧
      (requestsOf key (ledger lib {} records).released).Perm
        (closures (m.entriesOf key) ++ (m.unmatchedOf key).map Finding.release) ∧
      ((m.entriesOf key).filter (·.live)).length + (closures (m.entriesOf key)).length =
        (requestsOf key (ledger lib {} records).acquired).length := by
  have hempty : Keeps [] [] (Model.store {}) := ⟨rfl, List.Perm.refl _⟩
  obtain ⟨hacquired, hreleased⟩ := hempty.ingestAll (by simp) hkinds hingest
  have hentries : (m.entriesOf key).map Entry.acquisition =
      requestsOf key (ledger lib {} records).acquired := by
    rw [← requestsOf_recorded hclass, Model.entriesOf, ← requestsOf_acquisitions]
    exact congrArg (requestsOf key) hacquired
  refine ⟨hentries, ?_, ?_⟩
  · have hperm := hreleased.filter (fun request => request.key = key)
    rw [List.nil_append, List.filter_append] at hperm
    rw [← requestsOf_recorded hclass, Model.entriesOf, Model.unmatchedOf, ← requestsOf_closures,
      ← requestsOf_unmatched]
    exact hperm
  · rw [← hentries, closures, List.length_map, List.length_map,
      List.length_eq_length_filter_add (l := m.entriesOf key) (·.live)]
    simp

/-- The child closes an inherited descriptor before the marker of the fork. -/
def earlyClose : List EventRecord :=
  let run := some (.ofString "run")
  [{ recordKind := .fd, runId := run, pid := 1, fd := 3, sequence := 1 },
    { recordKind := .fd, runId := run, pid := 2, fd := 3, sequence := 1, fdKind := .closed },
    { recordKind := .fork, runId := run, pid := 1, childPid := 2, sequence := 2 }]

def earlyCloseModel : Model := (ingestAll .standard {} earlyClose).getD {}

theorem ledger_kept_earlyClose :
    requestsOf ⟨2, fdResourceClass, .ofString "3"⟩ (ledger .standard {} earlyClose).released ≠ [] ∧
      (requestsOf ⟨2, fdResourceClass, .ofString "3"⟩
        (ledger .standard {} earlyClose).released).Perm
        (closures (earlyCloseModel.entriesOf ⟨2, fdResourceClass, .ofString "3"⟩) ++
          (earlyCloseModel.unmatchedOf ⟨2, fdResourceClass, .ofString "3"⟩).map Finding.release) :=
  ⟨by decide, (ledger_kept .standard earlyClose earlyCloseModel (by decide) (by decide)
    ⟨2, fdResourceClass, .ofString "3"⟩ (by decide)).2.1⟩

end ToolEvent.Lifecycle
