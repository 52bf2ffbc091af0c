import ToolEvent.LifecycleRefinement

/-!
# Reconciliation of stray releases

An entry of a key may be added after releases of the key were reported as strays. They are taken
out of the findings and released again, in order: the first ones close the live entries of the
key, and each of the others becomes a double release.
-/

namespace ToolEvent.Lifecycle

open Fallible World LatestMatch

/-- The entries of a key that are live, the latest first. -/
def liveEntries (entries : List Entry) (pid : ℤ) (resourceClass resourceId : Text) : List ℕ :=
  latestFirst (Entry.matches pid resourceClass resourceId true) entries

/-- The report of a release of the key that found no live entry. -/
structure IsDoubleOf (pid : ℤ) (resourceClass resourceId : Text) (stray double : Finding) : Prop where
  kind : double.kind = .doubleRelease
  key : double.pid = pid ∧ double.resourceClass = resourceClass ∧ double.resourceId = resourceId
  context : double.contextId = stray.contextId
  sequence : double.sequence = stray.sequence
  line : double.lineNumber = stray.lineNumber
  place : double.functionName = stray.functionName ∧ double.fileName = stray.fileName

/-- Each listed entry was closed by the release it is listed with, and no other entry changed. -/
structure ClosedBy (closed : List (ℕ × Finding)) (entries entries' : List Entry) : Prop where
  length : entries'.length = entries.length
  listed : ∀ i stray, (i, stray) ∈ closed → entries'[i]? = entries[i]?.map (Entry.closedBy stray.toRelease)
  others : ∀ i, (∀ stray, (i, stray) ∉ closed) → entries'[i]? = entries[i]?

theorem ClosedBy.refl (entries : List Entry) : ClosedBy [] entries entries :=
  ⟨rfl, by simp, fun _ _ => rfl⟩

/-- One more entry closed before the listed ones. -/
theorem ClosedBy.cons {i : ℕ} {stray : Finding} {closed : List (ℕ × Finding)} {entries entries' : List Entry}
    (h : ClosedBy closed (entries.modify i (Entry.closedBy stray.toRelease)) entries')
    (hfresh : ∀ stray, (i, stray) ∉ closed) : ClosedBy ((i, stray) :: closed) entries entries' := by
  have hother : ∀ j, j ≠ i → (entries.modify i (Entry.closedBy stray.toRelease))[j]? = entries[j]? := by
    intro j hj
    exact List.getElem?_modify_ne _ _ (Ne.symm hj)
  refine ⟨by rw [h.length, List.length_modify], ?_, ?_⟩
  · intro j stray' hlisted
    rcases List.mem_cons.mp hlisted with hfirst | hmem
    · obtain ⟨rfl, rfl⟩ := Prod.mk.inj hfirst
      rw [h.others j hfresh, List.getElem?_modify_eq]
      rfl
    · have hne : j ≠ i := by
        rintro rfl
        exact hfresh stray' hmem
      rw [h.listed j stray' hmem, hother j hne]
  · intro j hj
    have hne : j ≠ i := by
      rintro rfl
      exact hj stray List.mem_cons_self
    rw [h.others j (fun stray' hmem => hj stray' (List.mem_cons_of_mem _ hmem)), hother j hne]

/-- What reconciliation leaves of a store. -/
structure Reconciled (pid : ℤ) (resourceClass resourceId : Text) (before after : Store) : Prop where
  noStray : ∀ finding ∈ after.findings, finding.isStray pid resourceClass resourceId = false
  entries : ClosedBy ((liveEntries before.entries pid resourceClass resourceId).zip
    (before.findings.filter (Finding.isStray pid resourceClass resourceId))) before.entries after.entries
  findings : ∃ doubles,
    after.findings =
      before.findings.filter (fun finding => ¬ finding.isStray pid resourceClass resourceId) ++ doubles ∧
    List.Forall₂ (IsDoubleOf pid resourceClass resourceId)
      ((before.findings.filter (Finding.isStray pid resourceClass resourceId)).drop
        (liveEntries before.entries pid resourceClass resourceId).length) doubles

namespace Store

variable {pid : ℤ} {resourceClass resourceId : Text}

theorem Knows.modify {entries : List Entry} (h : Knows entries pid resourceClass resourceId) (i : ℕ)
    (record : EventRecord) : Knows (entries.modify i (Entry.closedBy record)) pid resourceClass resourceId := by
  obtain ⟨entry, hentry, hkey⟩ := h
  obtain ⟨j, hj⟩ := List.mem_iff_getElem?.mp hentry
  by_cases hi : i = j
  · refine ⟨entry.closedBy record, List.mem_iff_getElem?.mpr ⟨j, ?_⟩, hkey⟩
    rw [hi, List.getElem?_modify_eq, hj]
    rfl
  · refine ⟨entry, List.mem_iff_getElem?.mpr ⟨j, ?_⟩, hkey⟩
    rw [List.getElem?_modify_ne _ _ hi, hj]

/-- The latest entry of a known key is an entry of the key. -/
theorem latest_of_knows {entries : List Entry} (h : Knows entries pid resourceClass resourceId) :
    ∃ entry, latestEntry entries pid resourceClass resourceId false = some entry ∧
      entry.resourceClass = resourceClass ∧ entry.resourceId = resourceId := by
  obtain ⟨i, hi⟩ := Option.ne_none_iff_exists'.mp (knows_iff.mp h)
  obtain ⟨pre, entry, post, hsplit, rfl⟩ := exists_split_of_latestIndex hi
  have hkey := hsplit.holds
  simp only [Entry.matches, decide_eq_true_eq] at hkey
  refine ⟨entry, ?_, hkey.2.1, hkey.2.2.1⟩
  rw [latestEntry, hi, Option.bind_some, hsplit.getElem?]

/-- A stray release of a known key without a live entry becomes a double release. -/
theorem releaseEntry_doubles {entries : List Entry} (findings : List Finding) {stray : Finding}
    (known : Knows entries pid resourceClass resourceId) (hstray : stray.isStray pid resourceClass resourceId = true)
    (hlive : liveEntries entries pid resourceClass resourceId = []) (room : findings.length < maxLifecycleFindings) :
    ∃ double, releaseEntry stray.toRelease ⟨entries, findings⟩ = some ⟨entries, findings ++ [double]⟩ ∧
      IsDoubleOf pid resourceClass resourceId stray double := by
  obtain ⟨hpid, hclass, hid⟩ := toRelease_key_of_isStray hstray
  have hnone : findLatest entries pid resourceClass resourceId true = none := by
    rw [findLatest, latestIndex_eq_head?_latestFirst]
    exact congrArg List.head? hlive
  obtain ⟨entry, hentry, hentryClass, hentryId⟩ := latest_of_knows known
  refine ⟨newFinding .doubleRelease stray.toRelease (some entry), ?_, ?_⟩
  · simp only [releaseEntry, hpid, hclass, hid, hnone, latest, hentry, addFinding, Nat.not_le.mpr room, if_false]
    rfl
  · exact ⟨rfl, ⟨hpid, hentryClass, hentryId⟩, rfl, rfl, rfl, ⟨rfl, rfl⟩⟩

/-- A stray release of a key with a live entry closes the latest of them. -/
theorem releaseEntry_closes {entries : List Entry} {findings : List Finding} {stray : Finding} {i : ℕ} {rest : List ℕ}
    (hstray : stray.isStray pid resourceClass resourceId = true)
    (hlive : liveEntries entries pid resourceClass resourceId = i :: rest) :
    releaseEntry stray.toRelease ⟨entries, findings⟩ =
      some ⟨entries.modify i (Entry.closedBy stray.toRelease), findings⟩ := by
  obtain ⟨hpid, hclass, hid⟩ := toRelease_key_of_isStray hstray
  have hfound : findLatest entries pid resourceClass resourceId true = some i := by
    rw [findLatest, latestIndex_eq_head?_latestFirst]
    exact congrArg List.head? hlive
  simp only [releaseEntry, hpid, hclass, hid, hfound, closeAt]

/-- Releasing the stray releases of a key in order. -/
theorem foldlM_releaseEntry (strays : List Finding) {entries : List Entry} (findings : List Finding)
    (known : Knows entries pid resourceClass resourceId)
    (hstrays : ∀ stray ∈ strays, stray.isStray pid resourceClass resourceId = true)
    (room : findings.length + strays.length ≤ maxLifecycleFindings) :
    ∃ entries' doubles,
      strays.foldlM (fun store stray => releaseEntry stray.toRelease store) (⟨entries, findings⟩ : Store) =
        some ⟨entries', findings ++ doubles⟩ ∧
      ClosedBy ((liveEntries entries pid resourceClass resourceId).zip strays) entries entries' ∧
      List.Forall₂ (IsDoubleOf pid resourceClass resourceId)
        (strays.drop (liveEntries entries pid resourceClass resourceId).length) doubles := by
  induction strays generalizing entries findings with
  | nil =>
    refine ⟨entries, [], by simp, ?_, by simp⟩
    rw [List.zip_nil_right]
    exact ClosedBy.refl entries
  | cons stray strays ih =>
    have hstray := hstrays stray List.mem_cons_self
    have hrest : ∀ stray ∈ strays, stray.isStray pid resourceClass resourceId = true :=
      fun stray hmem => hstrays stray (List.mem_cons_of_mem _ hmem)
    rw [List.length_cons] at room
    rw [List.foldlM_cons]
    cases hlive : liveEntries entries pid resourceClass resourceId with
    | nil =>
      obtain ⟨double, hrelease, hdouble⟩ := releaseEntry_doubles findings known hstray hlive (by omega)
      obtain ⟨entries', doubles, hfold, hclosed, hdoubles⟩ :=
        ih (findings ++ [double]) known hrest (by rw [List.length_append, List.length_singleton]; omega)
      rw [hlive] at hclosed hdoubles
      refine ⟨entries', double :: doubles, ?_, hclosed, .cons hdouble hdoubles⟩
      rw [hrelease]
      simpa using hfold
    | cons i rest =>
      have hnext : liveEntries (entries.modify i (Entry.closedBy stray.toRelease)) pid resourceClass resourceId =
          rest := by
        apply latestFirst_modify hlive
        exact fun entry => by simp [Entry.matches, Entry.closedBy]
      obtain ⟨entries', doubles, hfold, hclosed, hdoubles⟩ :=
        ih findings (known.modify i stray.toRelease) hrest (by omega)
      rw [hnext] at hclosed hdoubles
      refine ⟨entries', doubles, ?_, hclosed.cons ?_, hdoubles⟩
      · rw [releaseEntry_closes hstray hlive]
        exact hfold
      · intro stray' hmem
        have hsorted := pairwise_latestFirst (Entry.matches pid resourceClass resourceId true) entries
        rw [← liveEntries, hlive] at hsorted
        exact Nat.lt_irrefl i (List.rel_of_pairwise_cons hsorted (List.of_mem_zip hmem).1)

theorem reconcile_spec {store : Store} (known : Knows store.entries pid resourceClass resourceId)
    (bounded : store.findings.length ≤ maxLifecycleFindings) :
    ∃ store', store.reconcile pid resourceClass resourceId = some store' ∧
      Reconciled pid resourceClass resourceId store store' := by
  let isStray := Finding.isStray pid resourceClass resourceId
  have hlength : (store.findings.filter (fun finding => ¬ isStray finding)).length +
      (store.findings.filter isStray).length = store.findings.length := by
    rw [Nat.add_comm]
    simpa using (List.length_eq_length_filter_add isStray (l := store.findings)).symm
  obtain ⟨entries', doubles, hfold, hclosed, hdoubles⟩ :=
    foldlM_releaseEntry (store.findings.filter isStray) (store.findings.filter (fun finding => ¬ isStray finding))
      known (fun stray hmem => (List.mem_filter.mp hmem).2) (by omega)
  refine ⟨_, hfold, ?_, hclosed, doubles, rfl, hdoubles⟩
  intro finding hfinding
  rcases List.mem_append.mp hfinding with hother | hdouble
  · simpa using (List.mem_filter.mp hother).2
  · obtain ⟨stray, -, hreport⟩ := exists_of_forall₂_left hdoubles.flip hdouble
    simp [Finding.isStray, hreport.kind]

end Store

/-- With allocations that succeed, reconciliation of a key that has an entry ends, and has turned
its stray releases into closed entries and double releases. -/
theorem reconcileStrayReleases_spec {pid : ℤ} {resourceClass resourceId : Text} {m : Model}
    (known : Store.Knows m.entries pid resourceClass resourceId)
    (bounded : m.findings.length ≤ maxLifecycleFindings) :
    ∃ m', reconcileStrayReleases pid resourceClass resourceId ⟨m, []⟩ = (.ok (), ⟨m', []⟩) ∧
      Reconciled pid resourceClass resourceId m.store m'.store := by
  have hrecorded : Recorded ⟨m, []⟩ m.store := ⟨rfl, rfl, bounded⟩
  obtain ⟨store', hstore, hreconciled⟩ := @Store.reconcile_spec pid resourceClass resourceId m.store known bounded
  have hproduces := reconcileStrayReleases_produces hrecorded known
  rw [hstore] at hproduces
  obtain ⟨⟨m', outcomes⟩, hrun, houtcomes, rfl, -⟩ := hproduces
  obtain rfl : outcomes = [] := houtcomes
  exact ⟨m', hrun, hreconciled⟩

/-- A release or an opening of descriptor 3 in process 7. -/
def descriptorRecord (resourceKind : ResourceKind) (sequence : ℕ) : EventRecord :=
  { version := logVersion, recordKind := .fd, pid := 7, sequence := sequence, resourceKind := resourceKind,
    resourceClass := some fdResourceClass, resourceId := some (.ofString "3") }

/-- Three releases were reported before the descriptor was opened twice. -/
def releasedEarly : Model where
  entries := [newEntry (descriptorRecord .acquire 4) (.ofString "3"), newEntry (descriptorRecord .acquire 5) (.ofString "3")]
  findings := [1, 2, 3].map (fun sequence => newFinding .strayRelease (descriptorRecord .release sequence) none)

theorem reconciled_releasedEarly : ∃ m',
    reconcileStrayReleases 7 fdResourceClass (.ofString "3") ⟨releasedEarly, []⟩ = (.ok (), ⟨m', []⟩) ∧
      Reconciled 7 fdResourceClass (.ofString "3") releasedEarly.store m'.store :=
  reconcileStrayReleases_spec ⟨_, List.mem_cons_self, rfl, rfl, rfl⟩ (by decide)

end ToolEvent.Lifecycle
