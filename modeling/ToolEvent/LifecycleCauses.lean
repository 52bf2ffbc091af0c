import ToolEvent.LifecycleInvariant
import ToolEvent.LifecycleLedger
import ToolEvent.LifecycleLines

/-!
# Where entries and findings come from

A finding of the replay carries the place of the record that it is about, also when a fork has
replayed a release again. The acquisitions of the entries are those that the records ask for, one
record after the other.
-/

namespace ToolEvent.Lifecycle

open Fallible LatestMatch

theorem place_newFinding (kind : FindingKind) (record : EventRecord) (previous : Option Entry) :
    (newFinding kind record previous).place = placeOf record := by
  cases previous <;> rfl

namespace Store

def Placed (P : Place → Prop) (store : Store) : Prop := ∀ finding ∈ store.findings, P finding.place

variable {P : Place → Prop}

theorem stable_placed : Stable P (Placed P) where
  place _ finding h hfinding := h finding hfinding
  acquires _ _ _ h := h
  reports store kind record previous h hrecord _ := by
    intro finding hfinding
    rcases List.mem_append.mp hfinding with hold | hnew
    · exact h finding hold
    · obtain rfl := List.mem_singleton.mp hnew
      rw [place_newFinding]
      exact hrecord
  closes _ _ _ h := h
  marks _ _ h := h
  rollsBack _ _ h := h
  takes _ _ h := fun finding hfinding => h finding (List.mem_of_mem_filter hfinding)

end Store

variable {lib : RecordLibrary} {record : EventRecord} {entries : List Entry} {store store' : Store} {id : Text}

theorem acquisition_rolledBack (pid : ℤ) (entry : Entry) : (entry.rolledBack pid).acquisition = entry.acquisition := by
  unfold Entry.rolledBack
  split <;> rfl

theorem acquisitions_modify {f : Entry → Entry} (hf : ∀ entry, (f entry).acquisition = entry.acquisition)
    (entries : List Entry) (index : ℕ) :
    (entries.modify index f).map Entry.acquisition = entries.map Entry.acquisition := by
  induction entries generalizing index with
  | nil => cases index <;> rfl
  | cons entry entries ih =>
    cases index with
    | zero => exact congrArg (· :: entries.map Entry.acquisition) (hf entry)
    | succ index => exact congrArg (entry.acquisition :: ·) (ih index)

/-- The replay of a record acquires what the record asks for. -/
theorem acquisitions_ingest (h : store.ingest lib record = some store') :
    store'.entries.map Entry.acquisition =
      store.entries.map Entry.acquisition ++ (requests lib store.entries record).recorded.acquired := by
  have hledger : RecordKind.isLedger record.recordKind = true → _ := fun hkind =>
    ((Keeps.mk rfl (List.Perm.refl _)).ingest lib hkind h).acquired_eq
  have hnone : requests lib store.entries record = {} → store'.entries.map Entry.acquisition =
      store.entries.map Entry.acquisition → store'.entries.map Entry.acquisition =
        store.entries.map Entry.acquisition ++ (requests lib store.entries record).recorded.acquired := by
    intro hrequests hsame
    rw [hrequests, hsame]
    exact (List.append_nil _).symm
  cases hkind : record.recordKind with
  | resource | fd | alloc | fork => exact hledger (by rw [hkind]; rfl)
  | exec =>
    apply hnone (by simp only [requests, hkind])
    simp only [Store.ingest, hkind, Store.ingestExec] at h
    split at h
    · obtain rfl := Option.some.inj h
      rfl
    · split at h
      · obtain ⟨-, rfl⟩ := Store.addFinding_eq_some.mp h
        rfl
      · next index _ _ =>
        obtain rfl := Option.some.inj h
        have hclosed := acquisitions_modify (f := Entry.closedBy (normalizedExec record)) (fun _ => rfl) store.entries index
        exact (acquisitions_modify (f := Entry.markExecPending) (fun _ => rfl) _ index).trans hclosed
  | execFail =>
    apply hnone (by simp only [requests, hkind])
    simp only [Store.ingest, hkind] at h
    obtain rfl := Option.some.inj h
    exact (List.map_map ..).trans (List.map_congr_left fun entry _ => acquisition_rolledBack record.pid entry)
  | spawn | call | complete =>
    simp only [Store.ingest, hkind] at h
    cases h

/-- A descriptor is cloned for a child that has no entry of it. -/
theorem fresh_of_mem_forkClones (h : id ∈ forkClones record entries) :
    isForkReplayed record = true ∧ (⟨record.childPid, fdResourceClass, id⟩ : Key) ∉ entries.map Entry.key := by
  unfold forkClones at h
  split at h
  · next hreplayed =>
    rw [List.mem_eraseDups, List.mem_filter, findLatest_isNone_iff] at h
    exact ⟨hreplayed, of_decide_eq_true h.2⟩
  · cases h

/-- The process and the position in the order of its context that an acquisition carries. -/
def Request.place (request : Request) : Place :=
  ⟨request.key.pid, request.contextId, request.sequence, request.lineNumber⟩

/-- A record asks for resources of its own process. -/
theorem place_of_mem_requests (hkind : record.recordKind ≠ .fork) {request : Request}
    (h : request ∈ (requests lib entries record).acquired) : request.place = placeOf record := by
  have hpointer : ∀ pointer, request ∈ pointerRequests lib record pointer → request.place = placeOf record := by
    intro pointer h
    unfold pointerRequests at h
    split at h
    · cases h
    · obtain rfl := List.mem_singleton.mp h
      rfl
  unfold requests at h
  cases hrecord : record.recordKind with
  | resource =>
    simp only [hrecord, resourceRequests] at h
    cases hresource : record.resourceKind with
    | acquire =>
      simp only [hresource] at h
      obtain rfl := List.mem_singleton.mp h
      rfl
    | release | use =>
      simp only [hresource] at h
      cases h
    | replace | transfer =>
      simp only [hresource] at h
      split at h
      · cases h
      · obtain rfl := List.mem_singleton.mp h
        rfl
  | fd =>
    simp only [hrecord, fdRequests] at h
    cases hfd : record.fdKind with
    | opened =>
      simp only [hfd] at h
      obtain rfl := List.mem_singleton.mp h
      rfl
    | closed =>
      simp only [hfd] at h
      cases h
  | alloc =>
    simp only [hrecord, allocationRequests] at h
    cases halloc : record.allocKind with
    | alloc | realloc =>
      simp only [halloc] at h
      exact hpointer _ h
    | free =>
      simp only [halloc] at h
      cases h
  | fork => exact absurd hrecord hkind
  | spawn | exec | execFail | call | complete =>
    simp only [hrecord] at h
    cases h

/-- A fork asks for descriptors of the child. -/
theorem clone_of_mem_requests (hkind : record.recordKind = .fork) {request : Request}
    (h : request ∈ (requests lib entries record).acquired) :
    ∃ id ∈ forkClones record entries, request = Request.of record record.childPid fdResourceClass id := by
  simp only [requests, hkind, cloneRequests] at h
  obtain ⟨id, hid, rfl⟩ := List.mem_map.mp h
  exact ⟨id, hid, rfl⟩

theorem keys_subset_ingest (h : store.ingest lib record = some store') :
    store.entries.map Entry.key ⊆ store'.entries.map Entry.key := by
  have hkeys : ∀ entries : List Entry, (entries.map Entry.acquisition).map Request.key = entries.map Entry.key :=
    fun entries => List.map_map ..
  rw [← hkeys, ← hkeys, acquisitions_ingest h, List.map_append]
  exact List.subset_append_left _ _

end ToolEvent.Lifecycle
