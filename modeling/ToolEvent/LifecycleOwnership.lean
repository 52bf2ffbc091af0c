import ToolEvent.LifecycleRetry
import ToolEvent.Ownership

/-!
# The replay against the shared ownership tables

The replay searches its entries where the shared tables ask for the state of a key. Releases,
replacements of pointers and executions are classified as the tables classify them; a
replacement of a resource is not.
-/

namespace ToolEvent.Lifecycle

open Fallible World LatestMatch

/-- The ownership state of a key with these entries. -/
def ownershipState (entries : List Entry) (key : Key) : OwnershipState :=
  if ∃ entry ∈ entries, entry.key = key ∧ entry.live = true then .live
  else if ∃ entry ∈ entries, entry.key = key then .released
  else .never

/-- The step closes an entry of the key and adds no finding. -/
def Closes (key : Key) (m m' : Model) : Prop :=
  m'.findings = m.findings ∧
    ∃ pre entry post entry', m.entries = pre ++ entry :: post ∧ m'.entries = pre ++ entry' :: post ∧
      entry.key = key ∧ entry.live = true ∧ entry'.key = key ∧ entry'.live = false

def Adds (m m' : Model) (kind : FindingKind) : Prop := ∃ finding, Raised m m' finding ∧ finding.kind = kind

/-- The record is a release of the key: a RELEASE of a class that is not ignored, a CLOSE of a
descriptor, or a FREE of a pointer that is not null. -/
inductive Releases (lib : RecordLibrary) (record : EventRecord) : Key → Prop
  | resource {resourceClass resourceId : Text} (kind : record.recordKind = .resource)
      (operation : record.resourceKind = .release) (hclass : record.resourceClass = some resourceClass)
      (hid : record.resourceId = some resourceId) (recorded : isIgnoredClass resourceClass = false) :
      Releases lib record ⟨record.pid, resourceClass, resourceId⟩
  | fd (kind : record.recordKind = .fd) (operation : record.fdKind = .closed) : Releases lib record (fdKey record)
  | free {pointer : Text} (kind : record.recordKind = .alloc) (operation : record.allocKind = .free)
      (hptr : record.ptr = some pointer) (nonnull : lib.pointerIsNull record.ptr = false) :
      Releases lib record ⟨record.pid, allocationResourceClass, pointer⟩

/-- The limits leave room for what one record adds. -/
structure HasRoom (m : Model) : Prop where
  entries : m.entries.length < maxLifecycleEntries
  findings : m.findings.length + 1 < maxLifecycleFindings

theorem ownershipState_eq_live_iff {entries : List Entry} {key : Key} :
    ownershipState entries key = .live ↔
      findLatest entries key.pid key.resourceClass key.resourceId true ≠ none := by
  rw [Ne, findLatest_live_eq_none_iff, liveOf, List.countP_eq_zero]
  unfold ownershipState
  split
  · next hlive =>
    obtain ⟨entry, hmem, hkey⟩ := hlive
    refine iff_of_true rfl fun hnone => hnone entry hmem ?_
    simpa using hkey
  · next hlive =>
    refine iff_of_false (by split <;> simp) fun hsome => hsome fun entry hmem hkey => hlive ⟨entry, hmem, ?_⟩
    simpa using hkey

theorem ownershipState_eq_never_iff {entries : List Entry} {key : Key} :
    ownershipState entries key = .never ↔
      findLatest entries key.pid key.resourceClass key.resourceId false = none := by
  rw [findLatest_eq_none_iff, List.mem_map]
  unfold ownershipState
  split
  · next hlive =>
    obtain ⟨entry, hmem, hkey, -⟩ := hlive
    exact iff_of_false (by simp) fun hnone => hnone ⟨entry, hmem, hkey⟩
  · split
    · next hknown => exact iff_of_false (by simp) fun hnone => hnone hknown
    · next hunknown => exact iff_of_true rfl hunknown

/-- What a release of the key with the given classification does. -/
inductive IsRelease (key : Key) (store : Store) : Store → ReleaseResult → Prop
  | closed (record : EventRecord) {pre : List Entry} {entry : Entry} {post : List Entry}
      (eq : store.entries = pre ++ entry :: post) (hkey : entry.key = key) (live : entry.live = true) :
      IsRelease key store ⟨pre ++ entry.closedBy record :: post, store.findings⟩ .ok
  | stray (finding : Finding) (kind : finding.kind = .strayRelease) :
      IsRelease key store ⟨store.entries, store.findings ++ [finding]⟩ .stray
  | duplicate (finding : Finding) (kind : finding.kind = .doubleRelease) :
      IsRelease key store ⟨store.entries, store.findings ++ [finding]⟩ .duplicate

theorem newFinding_kind (kind : FindingKind) (record : EventRecord) (previous : Option Entry) :
    (newFinding kind record previous).kind = kind := by
  cases previous <;> rfl

section Steps

variable (tables : TransitionLibrary)

/-- A release does what the table says for the state of its key. -/
theorem releaseEntry_classified (record : EventRecord) {store : Store}
    (hroom : store.findings.length < maxLifecycleFindings) :
    ∃ store', store.releaseEntry record = some store' ∧
      IsRelease (recordKey record) store store'
        (tables.classifyRelease (ownershipState store.entries (recordKey record))) := by
  have hlive : ownershipState store.entries (recordKey record) = .live ↔
      findLatest store.entries record.pid (recordClass record) (recordId record) true ≠ none :=
    ownershipState_eq_live_iff
  have hnever : ownershipState store.entries (recordKey record) = .never ↔
      findLatest store.entries record.pid (recordClass record) (recordId record) false = none :=
    ownershipState_eq_never_iff
  cases hfind : findLatest store.entries record.pid (recordClass record) (recordId record) true with
  | some index =>
    obtain ⟨pre, entry, post, hs, rfl⟩ := exists_split_of_latestIndex hfind
    obtain ⟨hkey, hentry⟩ := matches_iff_key.mp hs.holds
    rw [hlive.mpr (by simp [hfind]), tables.classifyRelease_live]
    refine ⟨_, ?_, .closed record hs.eq hkey (hentry rfl)⟩
    simp only [Store.releaseEntry, hfind, Store.closeAt, hs.modify]
  | none =>
    have hreport : ∀ kind previous, store.addFinding kind record previous =
        some ⟨store.entries, store.findings ++ [newFinding kind record previous]⟩ :=
      fun kind previous => Store.addFinding_eq_some.mpr ⟨hroom, rfl⟩
    have hnot : ownershipState store.entries (recordKey record) ≠ .live := fun h => hlive.mp h hfind
    simp only [Store.releaseEntry, hfind, hreport]
    refine ⟨_, rfl, ?_⟩
    cases hstate : ownershipState store.entries (recordKey record) with
    | live => exact absurd hstate hnot
    | never =>
      rw [tables.classifyRelease_never, Store.latest_isNone_iff.mpr (hnever.mp hstate)]
      exact .stray _ (newFinding_kind _ _ _)
    | released =>
      have hknown : (store.latest record.pid (recordClass record) (recordId record) false).isNone = false := by
        rw [← Bool.not_eq_true, Store.latest_isNone_iff, ← hnever, hstate]
        simp
      rw [tables.classifyRelease_released, hknown]
      exact .duplicate _ (newFinding_kind _ _ _)

/-- A record with a class that is not ignored and an id is replayed by its operation. -/
theorem ingestResource_recorded {record : EventRecord} {resourceClass resourceId : Text}
    (hclass : record.resourceClass = some resourceClass) (hid : record.resourceId = some resourceId)
    (recorded : isIgnoredClass resourceClass = false) (store : Store) :
    store.ingestResource record =
      match record.resourceKind with
      | .acquire => store.acquireEntry record
      | .release => store.releaseEntry record
      | .replace | .transfer => store.replaceEntry record
      | .use => store.useEntry record := by
  have hrecorded : ¬ isIgnoredClass (recordClass record) = true := by simp [recordClass, hclass, recorded]
  have hpresent : ¬ (record.resourceClass.isNone ∨ record.resourceId.isNone) := by simp [hclass, hid]
  apply (if_neg hpresent).trans
  apply (if_neg hrecorded).trans
  cases record.resourceKind <;> rfl

theorem ingestResource_pointer (record : EventRecord) (resourceKind : ResourceKind) (pointer : Text) (store : Store) :
    store.ingestResource (normalizedAllocation record resourceKind (some pointer)) =
      match resourceKind with
      | .acquire => store.acquireEntry (normalizedAllocation record resourceKind (some pointer))
      | .release => store.releaseEntry (normalizedAllocation record resourceKind (some pointer))
      | .replace | .transfer => store.replaceEntry (normalizedAllocation record resourceKind (some pointer))
      | .use => store.useEntry (normalizedAllocation record resourceKind (some pointer)) :=
  ingestResource_recorded rfl rfl (by decide) store

/-- A release record is replayed as a release of its key. -/
theorem Releases.ingest_eq {lib : RecordLibrary} {record : EventRecord} {key : Key} (h : Releases lib record key)
    (store : Store) :
    ∃ released, recordKey released = key ∧ store.ingest lib record = store.releaseEntry released := by
  cases h with
  | resource kind operation hclass hid recorded =>
    refine ⟨record, by simp [recordKey, recordClass, recordId, hclass, hid], ?_⟩
    simp only [Store.ingest, kind, ingestResource_recorded hclass hid recorded, operation]
  | fd kind operation =>
    refine ⟨normalizedFd record, rfl, ?_⟩
    simp only [Store.ingest, kind, ingestFd_eq, operation]
  | @free pointer kind operation hptr nonnull =>
    refine ⟨normalizedAllocation record .release (some pointer), rfl, ?_⟩
    rw [hptr] at nonnull
    simp only [Store.ingest, kind, Store.ingestAllocation, operation, hptr, nonnull, Bool.false_eq_true, if_false]
    exact ingestResource_pointer record .release pointer store

/-- The step adds findings, all of the kind. -/
def AddsOnly (kind : FindingKind) (store store' : Store) : Prop :=
  ∃ added, store'.findings = store.findings ++ added ∧ ∀ finding ∈ added, finding.kind = kind

theorem acquireEntry_adds (record : EventRecord) {store : Store} (hentries : store.entries.length < maxLifecycleEntries)
    (hfindings : store.findings.length < maxLifecycleFindings) :
    ∃ store', store.acquireEntry record = some store' ∧ AddsOnly .duplicateAcquire store store' := by
  unfold Store.acquireEntry
  dsimp only
  split
  · rw [Store.addFinding_eq_some.mpr ⟨hfindings, rfl⟩]
    refine ⟨_, Store.addEntry_eq_some.mpr ⟨hentries, rfl⟩, _, rfl, ?_⟩
    intro finding hfinding
    obtain rfl := List.mem_singleton.mp hfinding
    exact newFinding_kind _ _ _
  · exact ⟨_, Store.addEntry_eq_some.mpr ⟨hentries, rfl⟩, [], (List.append_nil _).symm, by simp⟩

/-- A pointer is acquired unless it is null. -/
theorem acquirePointer_adds (lib : RecordLibrary) (record : EventRecord) (pointer : Option Text) {store : Store}
    (hentries : store.entries.length < maxLifecycleEntries)
    (hfindings : store.findings.length < maxLifecycleFindings) :
    ∃ store', (if lib.pointerIsNull pointer then some
        else Store.ingestResource (normalizedAllocation record .acquire pointer)) store = some store' ∧
      AddsOnly .duplicateAcquire store store' := by
  by_cases hnull : lib.pointerIsNull pointer = true
  · rw [if_pos hnull]
    exact ⟨store, rfl, [], (List.append_nil _).symm, by simp⟩
  · rw [if_neg hnull]
    obtain ⟨text, rfl⟩ := exists_pointer (Bool.not_eq_true _ ▸ hnull)
    rw [ingestResource_pointer]
    exact acquireEntry_adds _ hentries hfindings

/-- A reallocation reports a bad replacement before it acquires, or only acquires. -/
theorem ingestAllocation_classified (lib : RecordLibrary) {record : EventRecord} (operation : record.allocKind = .realloc)
    {store : Store} (hentries : store.entries.length < maxLifecycleEntries)
    (hfindings : store.findings.length + 1 < maxLifecycleFindings) :
    ∃ store', store.ingestAllocation lib record = some store' ∧
      if tables.classifyReplace (lib.pointerIsNull record.ptr) (ownershipState store.entries (pointerKey record record.ptr)) = .bad
      then ∃ finding middle, finding.kind = .badReplace ∧ middle = ⟨store.entries, store.findings ++ [finding]⟩ ∧
        AddsOnly .duplicateAcquire middle store'
      else AddsOnly .duplicateAcquire store store' := by
  have hlive : ownershipState store.entries (pointerKey record record.ptr) = .live ↔
      findLatest store.entries record.pid allocationResourceClass (record.ptr.getD .empty) true ≠ none :=
    ownershipState_eq_live_iff
  have hroom : store.findings.length < maxLifecycleFindings := by omega
  unfold Store.ingestAllocation
  simp only [operation, tables.classifyReplace_eq_bad_iff]
  by_cases hnull : lib.pointerIsNull record.ptr = true
  · obtain ⟨store', hacquire, hadds⟩ := acquirePointer_adds lib record record.newPtr hentries hroom
    refine ⟨store', by simpa only [hnull, if_true] using hacquire, ?_⟩
    rw [if_neg (fun hbad => by simp [hnull] at hbad)]
    exact hadds
  · rw [Bool.not_eq_true] at hnull
    simp only [hnull, Bool.false_eq_true, if_false, true_and]
    cases hfind : findLatest store.entries record.pid allocationResourceClass (record.ptr.getD .empty) true with
    | none =>
      have hdead : ownershipState store.entries (pointerKey record record.ptr) ≠ .live := fun h => hlive.mp h hfind
      simp only [Option.isNone_none, if_true, if_pos hdead]
      rw [Store.addFinding_eq_some.mpr ⟨hroom, rfl⟩]
      obtain ⟨store', hacquire, hadds⟩ := acquirePointer_adds lib record record.newPtr
        (show (⟨store.entries, store.findings ++ [newFinding .badReplace (normalizedAllocation record .replace record.ptr)
          (store.latest record.pid allocationResourceClass (record.ptr.getD .empty) false)]⟩ : Store).entries.length <
            maxLifecycleEntries from hentries) (by simpa using hfindings)
      exact ⟨store', hacquire, _, _, newFinding_kind _ _ _, rfl, hadds⟩
    | some index =>
      have hsource : ownershipState store.entries (pointerKey record record.ptr) = .live := hlive.mpr (by simp [hfind])
      simp only [Option.isNone_some, Bool.false_eq_true, if_false, hsource, ne_eq, not_true]
      by_cases hnew : lib.pointerIsNull record.newPtr = true
      · rw [if_pos hnew]
        exact ⟨store, rfl, [], (List.append_nil _).symm, by simp⟩
      · obtain ⟨source, hptr⟩ := exists_pointer hnull
        obtain ⟨closed, hrelease, hclosed⟩ :=
          releaseEntry_classified tables (normalizedAllocation record .release (some source)) hroom
        have hkey : recordKey (normalizedAllocation record .release (some source)) = pointerKey record record.ptr := by
          simp [recordKey, pointerKey, normalizedAllocation, recordClass, recordId, hptr]
        rw [hkey, hsource, tables.classifyRelease_live] at hclosed
        have hlength : closed.entries.length = store.entries.length ∧ closed.findings = store.findings := by
          cases hclosed with
          | closed closing eq hkey live => exact ⟨by simp [eq], rfl⟩
        obtain ⟨store', hacquire, added, hadded, hkinds⟩ := acquirePointer_adds lib record record.newPtr
          (by rw [hlength.1]; exact hentries) (by rw [hlength.2]; exact hroom)
        rw [if_neg hnew, hptr, ingestResource_pointer]
        refine ⟨store', ?_, added, by rw [hadded, hlength.2], hkinds⟩
        rw [hrelease]
        exact hacquire

/-- An exec record reports the descriptor that the table lets the new image inherit. -/
theorem ingestExec_classified (record : EventRecord) {store : Store}
    (hroom : store.findings.length < maxLifecycleFindings) :
    ∃ store', store.ingestExec record = some store' ∧
      if tables.execInherits (ownershipState store.entries (fdKey record)) (record.cloexec ≠ 0) = true
      then ∃ finding, finding.kind = .execInherit ∧ store'.findings = store.findings ++ [finding]
      else store'.findings = store.findings := by
  have hlive : ownershipState store.entries (fdKey record) = .live ↔
      findLatest store.entries record.pid fdResourceClass (formatFdIdentifier record.fd) true ≠ none :=
    ownershipState_eq_live_iff
  simp only [tables.execInherits_iff]
  cases hfind : findLatest store.entries record.pid fdResourceClass (formatFdIdentifier record.fd) true with
  | none =>
    have hnot : ¬ ownershipState store.entries (fdKey record) = .live := fun h => hlive.mp h hfind
    refine ⟨store, by simp only [Store.ingestExec, hfind], ?_⟩
    rw [if_neg (fun h => hnot h.1)]
  | some index =>
    obtain ⟨pre, entry, post, hs, rfl⟩ := exists_split_of_latestIndex hfind
    have hsource : ownershipState store.entries (fdKey record) = .live := hlive.mpr (by simp [hfind])
    rw [Store.ingestExec_of_split hs]
    by_cases hkeep : record.cloexec = 0
    · rw [if_pos hkeep, Store.addFinding_eq_some.mpr ⟨hroom, rfl⟩]
      refine ⟨_, rfl, ?_⟩
      rw [if_pos ⟨hsource, by simp [hkeep]⟩]
      exact ⟨_, newFinding_kind _ _ _, rfl⟩
    · rw [if_neg hkeep]
      refine ⟨_, rfl, ?_⟩
      rw [if_neg (fun h => by simp [hkeep] at h)]

end Steps

theorem adds_iff_of_append {m m' : Model} {added : List Finding} (h : m'.findings = m.findings ++ added)
    (kind : FindingKind) : Adds m m' kind ↔ ∃ finding ∈ added, finding.kind = kind := by
  unfold Adds Raised
  rw [h, List.drop_left]

theorem adds_nothing {m m' : Model} (h : m'.findings = m.findings) (kind : FindingKind) : ¬ Adds m m' kind := by
  rw [adds_iff_of_append (h.trans (List.append_nil _).symm)]
  simp

/-- The classification of a release can be read off its effect. -/
theorem IsRelease.iff {key : Key} {m m' : Model} {result : ReleaseResult} (h : IsRelease key m.store m'.store result) :
    (Closes key m m' ↔ result = .ok) ∧ (Adds m m' .strayRelease ↔ result = .stray) ∧
      (Adds m m' .doubleRelease ↔ result = .duplicate) := by
  generalize hstore : m'.store = store' at h
  cases h with
  | @closed record pre entry post eq hkey live =>
    obtain ⟨hentries, hfindings⟩ := Store.mk.inj hstore
    have hcloses : Closes key m m' := ⟨hfindings, pre, entry, post, _, eq, hentries, hkey, live, hkey, rfl⟩
    have hquiet : ∀ kind, ¬ Adds m m' kind := adds_nothing hfindings
    simp [hcloses, hquiet]
  | stray finding kind | duplicate finding kind =>
    obtain ⟨hentries, hfindings⟩ := Store.mk.inj hstore
    have hopen : ¬ Closes key m m' := by
      rintro ⟨hsame, -⟩
      have hlength := congrArg List.length (hfindings.symm.trans hsame)
      simp [Model.store] at hlength
    simp [hopen, adds_iff_of_append hfindings, kind]

theorem ingest_of_store {lib : RecordLibrary} {record : EventRecord} {m : Model}
    (bounded : m.findings.length ≤ maxLifecycleFindings) (admitted : isAdmitted lib m record = true)
    {store' : Store} (h : m.store.ingest lib record = some store') :
    ∃ m', ingest lib record ⟨m, []⟩ = (.ok (), ⟨m', []⟩) ∧ m'.store = store' := by
  have hproduces := ingest_produces lib record bounded admitted
  rw [h] at hproduces
  obtain ⟨⟨m', outcomes⟩, hrun, ⟨houtcomes, hstored, -⟩, -⟩ := hproduces
  dsimp only at houtcomes hstored
  rw [houtcomes] at hrun
  exact ⟨m', hrun, hstored⟩

/-- With room and granted requests the replay classifies releases, replacements of pointers and
executions as the shared tables do. -/
theorem replay_classifies (lib : RecordLibrary) (tables : TransitionLibrary) {m : Model} (hm : Reachable lib m)
    (hroom : HasRoom m) {record : EventRecord} (admitted : isAdmitted lib m record = true) :
    (∀ key, Releases lib record key → ∃ m', ingest lib record ⟨m, []⟩ = (.ok (), ⟨m', []⟩) ∧
        (Closes key m m' ↔ tables.classifyRelease (ownershipState m.entries key) = .ok) ∧
        (Adds m m' .strayRelease ↔ tables.classifyRelease (ownershipState m.entries key) = .stray) ∧
        (Adds m m' .doubleRelease ↔ tables.classifyRelease (ownershipState m.entries key) = .duplicate)) ∧
      (record.recordKind = .alloc → record.allocKind = .realloc →
        ∃ m', ingest lib record ⟨m, []⟩ = (.ok (), ⟨m', []⟩) ∧
          (Adds m m' .badReplace ↔ tables.classifyReplace (lib.pointerIsNull record.ptr)
            (ownershipState m.entries (pointerKey record record.ptr)) = .bad)) ∧
      (record.recordKind = .exec →
        ∃ m', ingest lib record ⟨m, []⟩ = (.ok (), ⟨m', []⟩) ∧
          (Adds m m' .execInherit ↔
            tables.execInherits (ownershipState m.entries (fdKey record)) (record.cloexec ≠ 0) = true)) := by
  have hbounded := hm.sound.bounded
  have hfindings : m.store.findings.length < maxLifecycleFindings := Nat.lt_of_succ_lt hroom.findings
  refine ⟨fun key hrelease => ?_, fun hkind hoperation => ?_, fun hkind => ?_⟩
  · obtain ⟨released, rfl, heq⟩ := hrelease.ingest_eq m.store
    obtain ⟨store', hstep, hclassified⟩ := releaseEntry_classified tables released hfindings
    obtain ⟨m', hrun, rfl⟩ := ingest_of_store hbounded admitted (heq.trans hstep)
    exact ⟨m', hrun, hclassified.iff⟩
  · have hentriesRoom : m.store.entries.length < maxLifecycleEntries := hroom.entries
    obtain ⟨store', hstep, hclassified⟩ := ingestAllocation_classified tables lib hoperation hentriesRoom hroom.findings
    obtain ⟨m', hrun, rfl⟩ := ingest_of_store hbounded admitted
      (show m.store.ingest lib record = some store' by simpa only [Store.ingest, hkind] using hstep)
    refine ⟨m', hrun, ?_⟩
    have hentries : m.store.entries = m.entries := rfl
    rw [hentries] at hclassified
    split at hclassified
    · next hbad =>
      obtain ⟨finding, middle, hfinding, rfl, added, hadded, -⟩ := hclassified
      have hall : m'.findings = m.findings ++ (finding :: added) := by
        change m'.store.findings = m.store.findings ++ (finding :: added)
        rw [hadded, List.append_assoc, List.singleton_append]
      exact iff_of_true ((adds_iff_of_append hall _).mpr ⟨finding, List.mem_cons_self, hfinding⟩) hbad
    · next hgood =>
      obtain ⟨added, hadded, hkinds⟩ := hclassified
      refine iff_of_false (fun hadds => ?_) hgood
      obtain ⟨finding, hmem, hfinding⟩ := (adds_iff_of_append hadded _).mp hadds
      rw [hkinds finding hmem] at hfinding
      cases hfinding
  · obtain ⟨store', hstep, hclassified⟩ := ingestExec_classified tables record hfindings
    obtain ⟨m', hrun, rfl⟩ := ingest_of_store hbounded admitted
      (show m.store.ingest lib record = some store' by simpa only [Store.ingest, hkind] using hstep)
    refine ⟨m', hrun, ?_⟩
    have hentries : m.store.entries = m.entries := rfl
    rw [hentries] at hclassified
    split at hclassified
    · next hinherits =>
      obtain ⟨finding, hfinding, hadded⟩ := hclassified
      exact iff_of_true ((adds_iff_of_append hadded _).mpr ⟨finding, by simp, hfinding⟩) hinherits
    · next hcloses => exact iff_of_false (adds_nothing hclassified _) hcloses

/-- A descriptor that is closed twice, is passed to a reallocation, and is open at an exec. -/
def openDescriptor : EventRecord :=
  { recordKind := .fd, runId := some (.ofString "run"), pid := 1, fd := 3, sequence := 1 }

def descriptorOpen : Model := (ingest .standard openDescriptor ⟨{}, []⟩).2.state

def closedDescriptor : EventRecord := { openDescriptor with fdKind := .closed }

theorem replay_classifies_descriptor :
    ∃ m', ingest .standard closedDescriptor ⟨descriptorOpen, []⟩ = (.ok (), ⟨m', []⟩) ∧
      (Closes (fdKey closedDescriptor) descriptorOpen m' ↔
        TransitionLibrary.standard.classifyRelease
          (ownershipState descriptorOpen.entries (fdKey closedDescriptor)) = .ok) ∧
      (Adds descriptorOpen m' .strayRelease ↔
        TransitionLibrary.standard.classifyRelease
          (ownershipState descriptorOpen.entries (fdKey closedDescriptor)) = .stray) ∧
      (Adds descriptorOpen m' .doubleRelease ↔
        TransitionLibrary.standard.classifyRelease
          (ownershipState descriptorOpen.entries (fdKey closedDescriptor)) = .duplicate) :=
  (replay_classifies .standard .standard (.ingest .create openDescriptor []) ⟨by decide, by decide⟩ (by decide)).1 _
    (.fd rfl rfl)

/-- The record replaces or transfers the key of a recorded class and names a related id. -/
structure ReplacesResource (record : EventRecord) (key : Key) : Prop where
  kind : record.recordKind = .resource
  operation : record.resourceKind = .replace ∨ record.resourceKind = .transfer
  pid : record.pid = key.pid
  hclass : record.resourceClass = some key.resourceClass
  hid : record.resourceId = some key.resourceId
  recorded : isIgnoredClass key.resourceClass = false
  related : isAbsent record.relatedId = false

/-- The step reports a bad replacement as the shared table says, and no bad release. -/
structure FollowsReplacePolicy (tables : TransitionLibrary) (key : Key) (m m' : Model) : Prop where
  badReplace : Adds m m' .badReplace ↔ tables.classifyReplace false (ownershipState m.entries key) = .bad
  noStray : ¬ Adds m m' .strayRelease
  noDouble : ¬ Adds m m' .doubleRelease

section Replacements

variable {lib : RecordLibrary} {record : EventRecord} {m : Model}

theorem recordKey_of_replaces {key : Key} (h : ReplacesResource record key) : recordKey record = key := by
  simp [recordKey, recordClass, recordId, h.pid, h.hclass, h.hid]

/-- The findings are kept, or a release of a key that is not live was reported. -/
def ReportsRelease (record : EventRecord) (m m' : Model) : Prop :=
  m'.findings = m.findings ∨ (ownershipState m.entries (recordKey record) ≠ .live ∧
    ∃ finding, (finding.kind = .strayRelease ∨ finding.kind = .doubleRelease) ∧
      m'.findings = m.findings ++ [finding])

theorem releaseEntry_reports (bounded : m.findings.length ≤ maxLifecycleFindings) (outcomes : List Bool) :
    ReportsRelease record m (releaseEntry record ⟨m, outcomes⟩).2.state := by
  rcases hrun : releaseEntry record ⟨m, outcomes⟩ with ⟨⟨e⟩ | ⟨⟨⟩⟩, w⟩
  · exact Or.inl (congrArg Store.findings (atomic_releaseEntry record _ e w hrun))
  · have hstep := store_of_ok (settled_releaseEntry record) (releaseEntry_implements record) bounded hrun
    rcases Store.releaseEntry_cases hstep with ⟨pre, entry, post, hs, heq⟩ | ⟨hdead, -, previous, -, heq⟩
    · exact Or.inl (congrArg Store.findings heq)
    · refine Or.inr ⟨fun hlive => ownershipState_eq_live_iff.mp hlive hdead, _, ?_, congrArg Store.findings heq⟩
      rw [newFinding_kind]
      split
      · exact Or.inl rfl
      · exact Or.inr rfl

theorem addEntry_findings (resourceId : Text) (w : World Model) :
    (addEntry record resourceId w).2.state.findings = w.state.findings := by
  have hkeeps : Preserves (fun m : Model => m.findings) (addEntry record resourceId) := by
    refine preserves_readState.bind fun model => (preserves_fail _).ite ?_
    refine (preserves_reserve _ _).bind fun _ => Preserves.bind (preserves_updateState (fun _ => rfl)) fun _ => ?_
    exact (preserves_copyTexts 4).bind fun _ => preserves_updateState fun _ => rfl
  exact hkeeps w

/-- A replacement of a resource reports what its release reports. -/
theorem ingest_replacement_reports {key : Key} (h : ReplacesResource record key)
    (bounded : m.findings.length ≤ maxLifecycleFindings) (outcomes : List Bool) :
    ReportsRelease record m (ingest lib record ⟨m, outcomes⟩).2.state := by
  have hrecorded : ¬ isIgnoredClass (recordClass record) = true := by simp [recordClass, h.hclass, h.recorded]
  have hreplay : ingestKind lib record =
      (releaseEntry record >>= fun _ => addEntry record (record.relatedId.getD .empty)) := by
    unfold ingestKind ingestResource
    simp only [h.kind]
    rw [if_neg (by simp [h.hclass, h.hid]), if_neg hrecorded]
    rcases h.operation with hoperation | hoperation <;> simp [hoperation, h.related]
  have hopen : ReportsRelease record m (ingestKind lib record ⟨{ m with finished := false }, outcomes⟩).2.state := by
    have hreleased : ReportsRelease record { m with finished := false }
        (releaseEntry record ⟨{ m with finished := false }, outcomes⟩).2.state :=
      releaseEntry_reports (m := { m with finished := false }) bounded outcomes
    rw [hreplay, run_bind]
    rcases hrun : releaseEntry record ⟨{ m with finished := false }, outcomes⟩ with ⟨⟨e⟩ | ⟨⟨⟩⟩, w⟩ <;>
      rw [hrun] at hreleased
    · exact hreleased
    · unfold ReportsRelease at hreleased ⊢
      rw [addEntry_findings]
      exact hreleased
  rcases ingest_cases lib record ⟨m, outcomes⟩ with ⟨-, hrefused⟩ | ⟨-, r, w', hkind, -, hcases⟩
  · rw [hrefused]
    exact Or.inl rfl
  · rw [hkind] at hopen
    rcases hcases with ⟨e, -, hingest⟩ | ⟨-, hingest⟩
    · rw [hingest]
      exact hopen
    · rw [hingest]
      unfold ReportsRelease at hopen ⊢
      rw [Model.adoptRunId_findings]
      exact hopen

/-- A replacement of a resource follows the shared table exactly if its source is live. -/
theorem replacement_follows_iff (lib : RecordLibrary) (tables : TransitionLibrary) {m : Model} (hm : Reachable lib m)
    {record : EventRecord} {key : Key} (h : ReplacesResource record key) (outcomes : List Bool) :
    FollowsReplacePolicy tables key m (ingest lib record ⟨m, outcomes⟩).2.state ↔
      ownershipState m.entries key = .live := by
  have hreports : ReportsRelease record m (ingest lib record ⟨m, outcomes⟩).2.state :=
    ingest_replacement_reports h hm.sound.bounded outcomes
  generalize (ingest lib record ⟨m, outcomes⟩).2.state = m' at hreports
  unfold ReportsRelease at hreports
  rw [recordKey_of_replaces h] at hreports
  have hnoBad : ¬ Adds m m' .badReplace := by
    rcases hreports with hsame | ⟨-, finding, hkind, hadded⟩
    · exact adds_nothing hsame _
    · rw [adds_iff_of_append hadded]
      rcases hkind with hkind | hkind <;> simp [hkind]
  constructor
  · intro hfollows
    by_contra hdead
    exact hnoBad (hfollows.badReplace.mpr ((tables.classifyReplace_eq_bad_iff _ _).mpr ⟨rfl, hdead⟩))
  · intro hlive
    have hsame : m'.findings = m.findings := hreports.resolve_right fun hreported => hreported.1 hlive
    refine ⟨iff_of_false hnoBad fun hbad => ?_, adds_nothing hsame _, adds_nothing hsame _⟩
    exact ((tables.classifyReplace_eq_bad_iff _ _).mp hbad).2 hlive

/-- A transfer of a stream that was never acquired. -/
def strayTransfer : EventRecord :=
  { recordKind := .resource, runId := some (.ofString "run"), pid := 1, sequence := 1, resourceKind := .transfer,
    resourceClass := some (.ofString "stream"), resourceId := some (.ofString "a"), relatedId := some (.ofString "b") }

theorem strayTransfer_replaces : ReplacesResource strayTransfer ⟨1, .ofString "stream", .ofString "a"⟩ :=
  ⟨rfl, Or.inr rfl, rfl, rfl, rfl, by decide, by decide⟩

theorem replacement_follows_iff_strayTransfer :
    FollowsReplacePolicy .standard ⟨1, .ofString "stream", .ofString "a"⟩ {}
        (ingest .standard strayTransfer ⟨{}, []⟩).2.state ↔
      ownershipState (Model.entries {}) ⟨1, .ofString "stream", .ofString "a"⟩ = .live :=
  replacement_follows_iff .standard .standard .create strayTransfer_replaces []

theorem strayTransfer_reports_release :
    ¬ ∀ (lib : RecordLibrary) (tables : TransitionLibrary) (m : Model), Reachable lib m →
      ∀ (record : EventRecord) (key : Key), ReplacesResource record key →
        FollowsReplacePolicy tables key m (ingest lib record ⟨m, []⟩).2.state := by
  intro hall
  have hfollows := hall .standard .standard {} .create strayTransfer _ strayTransfer_replaces
  refine hfollows.noStray ?_
  have hadded : (ingest .standard strayTransfer ⟨{}, []⟩).2.state.findings =
      (Model.findings {}) ++ [newFinding .strayRelease strayTransfer none] := by decide +kernel
  exact (adds_iff_of_append hadded _).mpr ⟨_, List.mem_singleton_self _, rfl⟩

end Replacements

end ToolEvent.Lifecycle
