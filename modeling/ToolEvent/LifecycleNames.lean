import ToolEvent.LifecycleFinish
import ToolEvent.LifecycleInvariant
import ToolEvent.LifecycleRetry
import ToolEvent.RunModelFinish

/-!
# The locations of a lifecycle have names

The source remarks that locations never receive null names, since the replay records a
question mark for a missing one. The names of a release are there for every entry that is not
live, and the names of a previous place for every finding that has one.
-/

namespace ToolEvent.Lifecycle

open Fallible World LatestMatch

/-- The names of the release are there if anything reads them. -/
def Entry.Named (entry : Entry) : Prop :=
  (entry.live = true ∧ entry.releasedSequence = 0) ∨
    (entry.releasedFunctionName.isSome ∧ entry.releasedFileName.isSome)

/-- The names of the previous place are there if anything reads them. -/
def Finding.Named (finding : Finding) : Prop :=
  finding.previousSequence = 0 ∨ (finding.previousFunctionName.isSome ∧ finding.previousFileName.isSome)

theorem named_closedBy (record : EventRecord) (entry : Entry) : (entry.closedBy record).Named := .inr ⟨rfl, rfl⟩

theorem Entry.Named.rolledBack {entry : Entry} (h : entry.Named) (pid : ℤ) : (entry.rolledBack pid).Named := by
  unfold Entry.rolledBack
  split
  · exact .inl ⟨rfl, rfl⟩
  · exact h

theorem named_newFinding (kind : FindingKind) (record : EventRecord) {previous : Option Entry}
    (h : ∀ entry ∈ previous, entry.Named) : (newFinding kind record previous).Named := by
  cases previous with
  | none => exact .inl rfl
  | some entry =>
    by_cases hacquired : entry.releasedSequence = 0
    · exact .inr ⟨by simp [newFinding, hacquired], by simp [newFinding, hacquired]⟩
    · rcases h entry rfl with ⟨-, hzero⟩ | ⟨hfunction, hfile⟩
      · exact absurd hzero hacquired
      · exact .inr ⟨by simpa [newFinding, hacquired] using hfunction, by simpa [newFinding, hacquired] using hfile⟩

namespace Store

structure Named (store : Store) : Prop where
  entries : ∀ entry ∈ store.entries, entry.Named
  findings : ∀ finding ∈ store.findings, finding.Named

def KeepsNames (step : Store → Option Store) : Prop :=
  ∀ store store', store.Named → step store = some store' → store'.Named

variable {record : EventRecord} {store : Store}

theorem Named.modify (h : store.Named) (index : ℕ) {change : Entry → Entry}
    (hchange : ∀ entry, entry.Named → (change entry).Named) :
    Named { store with entries := store.entries.modify index change } where
  entries := by
    intro entry hentry
    obtain ⟨i, hi, rfl⟩ := List.getElem_of_mem hentry
    rw [List.getElem_modify]
    split
    · exact hchange _ (h.entries _ (List.getElem_mem _))
    · exact h.entries _ (List.getElem_mem _)
  findings := h.findings

theorem Named.reports (h : store.Named) (kind : FindingKind) {previous : Option Entry}
    (hprevious : ∀ entry ∈ previous, entry ∈ store.entries) :
    Named { store with findings := store.findings ++ [newFinding kind record previous] } where
  entries := h.entries
  findings := by
    intro finding hfinding
    rcases List.mem_append.mp hfinding with hold | hnew
    · exact h.findings finding hold
    · obtain rfl := List.mem_singleton.mp hnew
      exact named_newFinding kind record fun entry hentry => h.entries entry (hprevious entry hentry)

theorem Named.acquires (h : store.Named) (resourceId : Text) :
    Named { store with entries := store.entries ++ [newEntry record resourceId] } where
  entries := by
    intro entry hentry
    rcases List.mem_append.mp hentry with hold | hnew
    · exact h.entries entry hold
    · obtain rfl := List.mem_singleton.mp hnew
      exact .inl ⟨rfl, rfl⟩
  findings := h.findings

theorem Named.rollsBack (h : store.Named) (pid : ℤ) :
    Named { store with entries := store.entries.map (Entry.rolledBack pid) } where
  entries := by
    intro entry hentry
    obtain ⟨old, hold, rfl⟩ := List.mem_map.mp hentry
    exact (h.entries old hold).rolledBack pid
  findings := h.findings

theorem stable_named : Stable (fun _ => True) Named where
  place _ _ _ _ := trivial
  acquires _ _ resourceId h := h.acquires resourceId
  reports _ kind _ _ h _ hprevious := h.reports kind hprevious
  closes _ index record h := h.modify index fun entry _ => named_closedBy record entry
  marks _ index h := h.modify index fun _ hentry => hentry
  rollsBack _ pid h := h.rollsBack pid
  takes _ _ h := ⟨h.entries, fun finding hfinding => h.findings finding (List.mem_of_mem_filter hfinding)⟩

/-- The replay of a record leaves no name out. -/
theorem keepsNames_ingest (lib : RecordLibrary) (record : EventRecord) : KeepsNames (Store.ingest lib record) :=
  stable_named.ingest lib fun _ => trivial

end Store

theorem named_of_finishChange {m m' : Model} (h : FinishChange m m') (hm : m.store.Named) : m'.store.Named := by
  cases h with
  | clearEntry index => exact hm.modify index (fun entry hentry => hentry)
  | findingCapacity => exact hm
  | addLeak entry room =>
    refine ⟨hm.entries, fun finding hfinding => ?_⟩
    rcases List.mem_append.mp hfinding with hold | hnew
    · exact hm.findings finding hold
    · obtain rfl := List.mem_singleton.mp hnew
      exact .inl rfl

theorem named_finish {w w' : World Model} (hw : w.state.store.Named) (h : finish w = (.ok (), w')) :
    w'.state.store.Named := by
  rcases finish_cases w with ⟨_, hrun⟩ | ⟨_, r, w₁, _, hchanges, _, ⟨e, _, hrun⟩ | ⟨hr, hrun⟩⟩
  · obtain ⟨-, rfl⟩ := Prod.mk.inj (h.symm.trans hrun)
    exact hw
  · cases h.symm.trans hrun
  · obtain ⟨-, rfl⟩ := Prod.mk.inj (h.symm.trans hrun)
    have hnamed : w₁.state.store.Named :=
      invariant_of_reaches (fun m => m.store.Named) (fun _ _ hstep => named_of_finishChange hstep) hchanges hw
    refine ⟨hnamed.entries, fun finding hfinding => ?_⟩
    obtain ⟨old, hold, rfl⟩ := List.mem_map.mp hfinding
    exact hnamed.findings old hold

end ToolEvent.Lifecycle

namespace ToolEvent.RunModel

open Fallible World Lifecycle

variable {lib : RecordLibrary}

/-- Whatever the requests, a successful replay of nodes is that of the store. -/
theorem ingestNodes_store {nodes : List Node} {w w' : World Lifecycle.Model} (hsound : Lifecycle.Sound w.state)
    (h : forEach (fun node => Lifecycle.ingest lib (recordFromNode node)) nodes w = (.ok (), w')) :
    w.state.store.ingestAll lib (nodes.map recordFromNode) = some w'.state.store ∧
      (w.state.finished = false → w'.state.finished = false) := by
  induction nodes generalizing w with
  | nil =>
    obtain ⟨-, rfl⟩ := Prod.mk.inj h
    exact ⟨rfl, id⟩
  | cons node nodes ih =>
    obtain ⟨⟨⟩, middle, hfirst, hrest⟩ := run_bind_eq_ok.mp h
    have hingest : Lifecycle.ingest lib (recordFromNode node) ⟨w.state, w.outcomes⟩ = (.ok (), middle) := hfirst
    obtain ⟨-, hstep, -⟩ := ingest_ok_store hsound.bounded hingest
    have hsound' := hsound.ingest lib (recordFromNode node) w.outcomes
    have hfinished := ingest_finished lib (recordFromNode node) w
    rw [hingest] at hsound' hfinished
    obtain ⟨hstore, hopened⟩ := ih hsound' hrest
    refine ⟨?_, fun hopen => hopened (hfinished.elim (fun hsame => hsame ▸ hopen) id)⟩
    have hfold : w.state.store.ingestAll lib ((node :: nodes).map recordFromNode) = _ := List.foldlM_cons ..
    rw [hfold, hstep]
    exact hstore

/-- The lifecycle of a finished model has all names that anything reads. -/
theorem Finished.lifecycle_named {model : Model} (h : Finished lib model) :
    ∃ lifecycle, model.lifecycle = some lifecycle ∧ lifecycle.store.Named := by
  obtain ⟨outcomes, v, hreplay, hlifecycle⟩ := h.finishedFrom.lifecycle
  obtain ⟨⟨⟩, w, hingest, hfinish⟩ := run_bind_eq_ok.mp hreplay
  have hempty : ({} : Lifecycle.Model).store.Named :=
    ⟨fun _ h => absurd h List.not_mem_nil, fun _ h => absurd h List.not_mem_nil⟩
  have hsound : Lifecycle.Sound {} := (Lifecycle.Reachable.create : Lifecycle.Reachable lib {}).sound
  have hstore := (ingestNodes_store hsound hingest).1
  have hnamed : w.state.store.Named := Store.preserves_foldlM (fun record _ => Store.keepsNames_ingest lib record)
    _ _ hempty hstore
  exact ⟨v.state, hlifecycle, named_finish hnamed hfinish⟩

end ToolEvent.RunModel
