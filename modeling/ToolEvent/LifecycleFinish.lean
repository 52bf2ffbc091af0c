import ToolEvent.LifecycleChange

/-!
# Leak findings over all sequences of calls

When a finish call reports exactly the live entries as leaks, over every sequence
of ingest and finish calls and every behaviour of the allocator.
-/

namespace ToolEvent.Lifecycle

open Fallible World LatestMatch Relation

def Finding.isLeak (finding : Finding) : Bool := finding.kind = .leak

def Model.leaks (m : Model) : List Finding := m.findings.filter Finding.isLeak

def Model.liveEntries (m : Model) : List Entry := m.entries.filter (·.live)

/-- The leak findings correspond one to one to the live entries. -/
def LeaksMatch (m : Model) : Prop := m.leaks.Perm (m.liveEntries.map leakFinding)

/-- What a successful `addLeakFinding` does to entries and findings. -/
theorem addLeakFinding_ok {entry : Entry} {w w' : World Model}
    (h : addLeakFinding entry w = (.ok (), w')) :
    w'.state.entries = w.state.entries ∧
      w'.state.findings = w.state.findings ++ [leakFinding entry] := by
  obtain ⟨_, w₁, hroom, h⟩ := run_bind_eq_ok.mp h
  obtain ⟨_, w₂, hcopy, hupdate⟩ := run_bind_eq_ok.mp h
  obtain ⟨_, capacity, hw₁⟩ := ensureFindingCapacity_ok hroom
  have hw₂ : w₂.state = w₁.state := by
    rw [← state_eq_of_evolves (fun r => evolves_copyTexts 4) w₁, hcopy]
  rw [run_updateState, Prod.mk.injEq] at hupdate
  rw [← hupdate.2, hw₂, hw₁]
  exact ⟨rfl, rfl⟩

theorem finishEntry_ok {pre : List Entry} {entry : Entry} {post : List Entry} {w w' : World Model}
    (hentries : w.state.entries = pre ++ entry :: post)
    (h : finishEntry pre.length w = (.ok (), w')) :
    w'.state.entries = pre ++ entry.clearPending :: post ∧
      w'.state.findings =
        w.state.findings ++ ([entry].filter (·.live)).map leakFinding := by
  have hcleared : (pre ++ entry :: post).modify pre.length Entry.clearPending =
      pre ++ entry.clearPending :: post := modify_append_cons _ _ _ _
  have hlive : entry.clearPending.live = entry.live := rfl
  simp only [finishEntry, run_bind, run_updateState, run_readState, hentries, hcleared,
    List.getElem?_append_right (le_refl pre.length), Nat.sub_self, List.getElem?_cons_zero] at h
  rw [hlive] at h
  cases hentry : entry.live with
  | true =>
    simp only [hentry, if_true] at h
    obtain ⟨he, hf⟩ := addLeakFinding_ok h
    have hleak : leakFinding entry.clearPending = leakFinding entry := rfl
    exact ⟨he, by simpa [hentry, hleak] using hf⟩
  | false =>
    simp only [hentry, Bool.false_eq_true, if_false, run_pure, Prod.mk.injEq] at h
    rw [← h.2]
    simp [hentry]

/-- The loop over the entries adds one leak finding for each live one. -/
theorem forEach_finishEntry_ok {suffix pre : List Entry} {w w' : World Model}
    (hentries : w.state.entries = pre ++ suffix)
    (h : forEach finishEntry (List.range' pre.length suffix.length) w = (.ok (), w')) :
    w'.state.entries = pre ++ suffix.map Entry.clearPending ∧
      w'.state.findings =
        w.state.findings ++ (suffix.filter (·.live)).map leakFinding := by
  induction suffix generalizing pre w with
  | nil =>
    obtain rfl : w = w' := by simpa [forEach] using h
    exact ⟨by simpa using hentries, by simp⟩
  | cons entry suffix ih =>
    obtain ⟨_, w₁, hfirst, hrest⟩ := run_bind_eq_ok.mp h
    obtain ⟨he₁, hf₁⟩ := finishEntry_ok hentries hfirst
    have hnext := @ih (pre ++ [entry.clearPending]) w₁ (by simpa using he₁) (by simpa using hrest)
    refine ⟨by simpa using hnext.1, ?_⟩
    rw [hnext.2, hf₁, List.append_assoc, ← List.map_append, ← List.filter_append]
    rfl

theorem leaks_leakFinding (entries : List Entry) :
    (entries.map leakFinding).filter Finding.isLeak = entries.map leakFinding := by
  refine List.filter_eq_self.mpr fun finding hfinding => ?_
  obtain ⟨entry, _, rfl⟩ := List.mem_map.mp hfinding
  rfl

theorem leaks_clearPending (findings : List Finding) :
    (findings.map Finding.clearPending).filter Finding.isLeak =
      (findings.filter Finding.isLeak).map Finding.clearPending := List.filter_map

theorem clearPending_leakFinding (entries : List Entry) :
    (entries.map leakFinding).map Finding.clearPending = entries.map leakFinding := by
  rw [List.map_map]
  rfl

/-- A successful finish call on an open model adds one leak finding for each live
entry to those already there. -/
theorem finish_ok {w w' : World Model} (hopen : w.state.finished = false)
    (h : finish w = (.ok (), w')) :
    w'.state.finished = true ∧
      w'.state.liveEntries.map leakFinding = w.state.liveEntries.map leakFinding ∧
      w'.state.leaks = w.state.leaks.map Finding.clearPending ++
        w'.state.liveEntries.map leakFinding := by
  rcases finish_cases w with ⟨hfinished, _⟩ | ⟨_, r, w₁, hloop, _, _, ⟨e, _, hrun⟩ | ⟨hr, hrun⟩⟩
  · simp [hopen] at hfinished
  · simp [h] at hrun
  · obtain rfl := (Prod.mk.inj (h.symm.trans hrun)).2
    rw [hr, List.range_eq_range'] at hloop
    obtain ⟨hentries, hfindings⟩ := @forEach_finishEntry_ok w.state.entries [] w w₁ rfl hloop
    have hsame : ∀ entry : Entry, leakFinding entry.clearPending = leakFinding entry := fun _ => rfl
    have hlive : (w.state.entries.map Entry.clearPending).filter (·.live) =
        w.state.liveEntries.map Entry.clearPending := List.filter_map
    have hmap : (w.state.liveEntries.map Entry.clearPending).map leakFinding =
        w.state.liveEntries.map leakFinding := by
      rw [List.map_map]
      exact List.map_congr_left fun entry _ => hsame entry
    rw [List.nil_append] at hentries
    refine ⟨rfl, ?_, ?_⟩
    · simp only [Model.liveEntries, hentries, hlive]
      exact hmap
    · simp only [Model.leaks, Model.liveEntries, hentries, hfindings, hlive, leaks_clearPending,
        List.filter_append, leaks_leakFinding, List.map_append, clearPending_leakFinding]
      exact congrArg _ hmap.symm

/-- Finishing changes no more of the entries than the executions they wait for. -/
theorem finish_entries {w w' : World Model} (h : finish w = (.ok (), w')) :
    w'.state.entries = w.state.entries ∨ w'.state.entries = w.state.entries.map Entry.clearPending := by
  rcases finish_cases w with ⟨_, hrun⟩ | ⟨_, r, w₁, hloop, _, _, ⟨e, _, hrun⟩ | ⟨hr, hrun⟩⟩
  · obtain rfl := (Prod.mk.inj (h.symm.trans hrun)).2
    exact .inl rfl
  · simp [h] at hrun
  · obtain rfl := (Prod.mk.inj (h.symm.trans hrun)).2
    rw [hr, List.range_eq_range'] at hloop
    exact .inr (@forEach_finishEntry_ok w.state.entries [] w w₁ rfl hloop).1

/-- Exactly the calls that find no leak reported yet report the live entries. -/
theorem leaksMatch_finish_iff {w w' : World Model} (hopen : w.state.finished = false)
    (h : finish w = (.ok (), w')) : LeaksMatch w'.state ↔ w.state.leaks = [] := by
  obtain ⟨_, _, hleaks⟩ := finish_ok hopen h
  unfold LeaksMatch
  rw [hleaks]
  constructor
  · intro hperm
    have hlength := hperm.length_eq
    simp only [List.length_append, List.length_map] at hlength
    exact List.eq_nil_of_length_eq_zero (by omega)
  · intro hnone
    simp [hnone]

inductive Call
  | ingest (record : EventRecord)
  | finish
  deriving DecidableEq

def Call.perform (lib : RecordLibrary) (call : Call) : Routine Model Unit :=
  match call with
  | .ingest record => Lifecycle.ingest lib record
  | .finish => Lifecycle.finish

/-- The model after a sequence of calls on a new one, whatever they return. -/
def afterCalls (lib : RecordLibrary) (calls : List (Call × List Bool)) : Model :=
  calls.foldl (fun m call => (call.1.perform lib ⟨m, call.2⟩).2.state) {}

/-- The call at this position of the sequence is a finish call that returns 0,
taking the model `m` to `m'`. -/
def FinishesAt (lib : RecordLibrary) (calls : List (Call × List Bool)) (m m' : Model) : Prop :=
  ∃ before outcomes after, calls = before ++ (Call.finish, outcomes) :: after ∧
    m = afterCalls lib before ∧ ∃ w', finish ⟨m, outcomes⟩ = (.ok (), w') ∧ w'.state = m'

/-- Every finish call that returns 0 leaves the leak findings of the live entries. -/
def FinishReportsLeaks (lib : RecordLibrary) (calls : List (Call × List Bool)) : Prop :=
  ∀ m m', FinishesAt lib calls m m' → LeaksMatch m'

/-- No finish call completes an open model that already has a leak finding. -/
def NeverRefinished (lib : RecordLibrary) (calls : List (Call × List Bool)) : Prop :=
  ∀ m m', FinishesAt lib calls m m' → m.finished = false → m.leaks = []

theorem afterCalls_append (lib : RecordLibrary) (calls : List (Call × List Bool))
    (call : Call × List Bool) :
    afterCalls lib (calls ++ [call]) =
      (call.1.perform lib ⟨afterCalls lib calls, call.2⟩).2.state := by
  rw [afterCalls, List.foldl_append, List.foldl_cons, List.foldl_nil]
  rfl

/-- An ingest call leaves a finished model alone or opens it. -/
theorem ingest_finished (lib : RecordLibrary) (record : EventRecord) (w : World Model) :
    (ingest lib record w).2.state = w.state ∨ (ingest lib record w).2.state.finished = false := by
  rcases ingest_cases lib record w with
    ⟨_, hrun⟩ | ⟨_, r, w', _, hchanges, ⟨e, _, hrun⟩ | ⟨_, hrun⟩⟩
  · exact Or.inl (by rw [hrun])
  all_goals
    have hopen := invariant_of_reaches (fun m => m.finished = false)
      (fun _ _ hstep hm => hstep.header.2.trans hm) hchanges rfl
    refine Or.inr ?_
    rw [hrun]
  · exact hopen
  · simpa using hopen

/-- A finished model reports its live entries, as long as no model is finished
again: step by step along the sequence. -/
theorem leaksMatch_afterCalls (lib : RecordLibrary) (calls : List (Call × List Bool))
    (hnever : NeverRefinished lib calls) (hfinished : (afterCalls lib calls).finished = true) :
    LeaksMatch (afterCalls lib calls) := by
  induction calls using List.reverseRecOn with
  | nil => simp [afterCalls] at hfinished
  | append_singleton calls call ih =>
    have hbefore : NeverRefinished lib calls := by
      rintro m m' ⟨before, outcomes, after, hcalls, hrun⟩
      exact hnever m m' ⟨before, outcomes, after ++ [call], by simp [hcalls], hrun⟩
    obtain ⟨call, outcomes⟩ := call
    rw [afterCalls_append] at hfinished ⊢
    cases call with
    | ingest record =>
      rcases ingest_finished lib record ⟨afterCalls lib calls, outcomes⟩ with hsame | hopen
      · simp only [Call.perform, hsame] at hfinished ⊢
        exact ih hbefore hfinished
      · simp [Call.perform, hopen] at hfinished
    | finish =>
      simp only [Call.perform] at hfinished ⊢
      rcases hrun : finish ⟨afterCalls lib calls, outcomes⟩ with ⟨⟨e⟩ | ⟨⟩, w'⟩
      · rcases finish_cases ⟨afterCalls lib calls, outcomes⟩ with
          ⟨_, hok⟩ | ⟨_, r, w₁, _, _, hopen, ⟨_, _, hfail⟩ | ⟨_, hok⟩⟩
        · simp [hok] at hrun
        · obtain rfl := (Prod.mk.inj (hfail.symm.trans hrun)).2
          simp [hrun, hopen] at hfinished
        · simp [hok] at hrun
      · have hat : FinishesAt lib (calls ++ [(Call.finish, outcomes)]) (afterCalls lib calls)
            w'.state := ⟨calls, outcomes, [], rfl, rfl, w', hrun, rfl⟩
        cases hopen : (afterCalls lib calls).finished with
        | true =>
          have hsame : w'.state = afterCalls lib calls := by
            have hrun' := hrun
            simp only [finish, run_readState_bind, hopen, if_true, run_pure, Prod.mk.injEq] at hrun'
            rw [← hrun'.2]
          simpa only [hsame] using ih hbefore hopen
        | false => exact (leaksMatch_finish_iff hopen hrun).mpr (hnever _ _ hat hopen)

/-- Over every sequence of calls, the finish calls that return 0 report the live
entries if and only if none of them finishes an open model that already has a leak
finding. -/
theorem finishReportsLeaks_iff (lib : RecordLibrary) (calls : List (Call × List Bool)) :
    FinishReportsLeaks lib calls ↔ NeverRefinished lib calls := by
  constructor
  · rintro hreports m m' hat hopen
    have hmatch := hreports m m' hat
    obtain ⟨before, outcomes, after, _, rfl, w', hrun, rfl⟩ := hat
    exact (leaksMatch_finish_iff hopen hrun).mp hmatch
  · rintro hnever m m' hat
    have hfound := hnever m m' hat
    obtain ⟨before, outcomes, after, rfl, rfl, w', hrun, rfl⟩ := hat
    cases hopen : (afterCalls lib before).finished with
    | false => exact (leaksMatch_finish_iff hopen hrun).mpr (hfound hopen)
    | true =>
      have hsame : w'.state = afterCalls lib before := by
        simp only [finish, run_readState_bind, hopen, if_true, run_pure, Prod.mk.injEq] at hrun
        rw [← hrun.2]
      rw [hsame]
      refine leaksMatch_afterCalls lib before ?_ hopen
      rintro m m' ⟨before', outcomes', after', rfl, hrun'⟩
      exact hnever m m' ⟨before', outcomes', after' ++ (Call.finish, outcomes) :: after,
        by simp, hrun'⟩

/-- A descriptor is opened and never closed; the model is finished, takes one more
record that the replay ignores, and is finished again. -/
def reopenedCalls : List (Call × List Bool) :=
  let opened : EventRecord :=
    { recordKind := .fd, runId := some (.ofString "run"), pid := 1, fd := 3, sequence := 1 }
  let ignored : EventRecord :=
    { recordKind := .resource, runId := some (.ofString "run"), pid := 1, sequence := 2,
      resourceClass := some (.ofString "blocking-operation"), resourceId := some (.ofString "read") }
  [(.ingest opened, []), (.finish, []), (.ingest ignored, []), (.finish, [])]

theorem reopenedCalls_duplicate_leak :
    ¬ ∀ calls, FinishReportsLeaks .standard calls := by
  intro h
  have hat : FinishesAt .standard reopenedCalls (afterCalls .standard (reopenedCalls.take 3))
      (afterCalls .standard reopenedCalls) :=
    ⟨reopenedCalls.take 3, [], [], rfl, rfl, _, rfl, rfl⟩
  have hlength := (h reopenedCalls _ _ hat).length_eq
  have hleaks : (afterCalls .standard reopenedCalls).leaks.length = 2 := by decide
  have hlive : (afterCalls .standard reopenedCalls).liveEntries.length = 1 := by decide
  rw [List.length_map, hleaks, hlive] at hlength
  simp at hlength

end ToolEvent.Lifecycle
