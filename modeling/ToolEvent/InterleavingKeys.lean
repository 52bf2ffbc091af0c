import ToolEvent.Library.Triple
import ToolEvent.AnalysisRun
import ToolEvent.Interleaving

/-!
# The keys of a schedule

`collect_prefix_sync_keys` runs the synchronization pass on every prefix of an order and
keeps one key for each name that a finding has. What a call of the pass reports depends on
the requests that it is granted, so the keys are those of the calls that were made.
-/

namespace ToolEvent.ModelAnalysis

open Fallible World RunModel

/-- A call of `analyze_synchronization` on a prefix of an order, made while the outcomes of a
run are used up, that returned 0 and left the given findings. -/
def Reports (outcomes : List Bool) (order : List OrderedNode) (count : ℕ) (findings : List Finding) : Prop :=
  ∃ taken left, taken <:+ outcomes ∧
    analyzeSynchronization ⟨prefixAnalysis order count, taken⟩ = (.ok (), left) ∧
    left.state.findings = findings

/-- The keys have the names of what was reported on the prefixes of the order. -/
def Collected (outcomes : List Bool) (order : List OrderedNode) (keys : List SyncKey) : Prop :=
  ∃ reports, List.Forall₂ (Reports outcomes order) (List.range' 1 order.length) reports ∧
    ∀ name, name ∈ keys.map SyncKey.name ↔ name ∈ reports.flatten.map Finding.name

/-- A finding with the name is reported on a prefix of the order when every request is granted. -/
def ReportedOn (order : List OrderedNode) (name : Text × Text × Text) : Prop :=
  ∃ count ≤ order.length,
    name ∈ (analyzeSynchronization ⟨prefixAnalysis order count, []⟩).2.state.findings.map Finding.name

theorem syncKeyPresent_iff {keys : List SyncKey} {name : Text × Text × Text} :
    syncKeyPresent keys name = true ↔ name ∈ keys.map SyncKey.name := by
  simp [syncKeyPresent]

variable {τ : Type}

/-- The state of the caller is kept, and outcomes are taken from the front. -/
structure Kept (w w' : World τ) : Prop where
  state : w'.state = w.state
  outcomes : w'.outcomes <:+ w.outcomes

theorem Kept.trans {w w' w'' : World τ} (h : Kept w w') (h' : Kept w' w'') : Kept w w'' :=
  ⟨h'.state.trans h.state, h'.outcomes.trans h.outcomes⟩

theorem ends_allocate (w : World τ) :
    Ends (allocate : Routine τ Bool) w (fun _ => Kept w) (Kept w) := by
  have h := (obeys_allocate (r := Eq) : Obeys Eq (allocate : Routine τ Bool)).ends w
  exact h.imp (fun _ w' hw => ⟨hw.1.symm, hw.2.1⟩) (fun w' hw => ⟨hw.1.symm, hw.2⟩)

theorem ends_synchronizePrefix (order : List OrderedNode) (count : ℕ) (w : World τ) :
    Ends (synchronizePrefix order count) w
      (fun findings w' => Kept w w' ∧ Reports w.outcomes order count findings) (Kept w) := by
  have hpass : Obeys PassChange analyzeSynchronization := obeys_analyzeSynchronization
  have hcall := (obeys_call (r := Eq) hpass (prefixAnalysis order count) :
    Obeys Eq (call (prefixAnalysis order count) analyzeSynchronization : Routine τ Analysis)).ends w
  refine (hcall.imp (fun a w' h => h) (fun w' h => ⟨h.1.symm, h.2⟩)).bind fun a w' ⟨hstate, hsuffix, hrun⟩ => ?_
  obtain ⟨left, hleft, rfl, -⟩ := call_eq_ok.mp hrun
  exact ends_pure ⟨⟨hstate.symm, hsuffix⟩, w.outcomes, left, List.suffix_rfl, hleft, rfl⟩

theorem ends_appendSyncKey (keys : List SyncKey) (finding : Finding) (w : World τ) :
    Ends (appendSyncKey keys finding) w
      (fun keys' w' => Kept w w' ∧ keys' = keys ++ [.ofFinding finding]) (Kept w) := by
  refine (ends_allocate w).bind fun grown w' hw' => Ends.ite (fun _ => Ends.ite (fun _ => ?_) fun _ => ?_) fun _ => ?_
  · exact ends_pure ⟨hw', rfl⟩
  · exact ends_fail hw'
  · exact ends_fail hw'

theorem ends_collectKeys (findings : List Finding) (keys : List SyncKey) (w : World τ) :
    Ends (collectKeys findings keys) w (fun keys' w' => Kept w w' ∧ ∀ name,
      name ∈ keys'.map SyncKey.name ↔ name ∈ keys.map SyncKey.name ∨ name ∈ findings.map Finding.name)
      (Kept w) := by
  induction findings generalizing keys w with
  | nil => exact ends_pure ⟨⟨rfl, List.suffix_rfl⟩, by simp⟩
  | cons finding findings ih =>
    refine Ends.ite (fun hpresent => ?_) fun _ => ?_
    · refine (ih keys w).imp (fun keys' w' h => ⟨h.1, fun name => ?_⟩) fun _ => id
      have hmem := syncKeyPresent_iff.mp hpresent
      rw [h.2 name, List.map_cons, List.mem_cons]
      constructor
      · exact Or.imp_right Or.inr
      · rintro (hold | rfl | hnew)
        · exact .inl hold
        · exact .inl hmem
        · exact .inr hnew
    · refine (ends_appendSyncKey keys finding w).bind fun keys₁ w₁ ⟨hw₁, hkeys₁⟩ => ?_
      refine (ih keys₁ w₁).imp (fun keys' w' h => ⟨hw₁.trans h.1, fun name => ?_⟩) fun w' h => hw₁.trans h
      have hname : (SyncKey.ofFinding finding).name = finding.name := rfl
      rw [h.2 name, hkeys₁]
      simp only [List.map_append, List.map_cons, List.map_nil, List.mem_append, List.mem_cons, List.not_mem_nil,
        hname, or_false, or_assoc]

theorem ends_collectPrefixes (order : List OrderedNode) (counts : List ℕ) (keys : List SyncKey) (w : World τ) :
    Ends (collectPrefixes order counts keys) w (fun keys' w' => Kept w w' ∧
      ∃ reports, List.Forall₂ (Reports w.outcomes order) counts reports ∧ ∀ name,
        name ∈ keys'.map SyncKey.name ↔
          name ∈ keys.map SyncKey.name ∨ name ∈ reports.flatten.map Finding.name) (Kept w) := by
  induction counts generalizing keys w with
  | nil => exact ends_pure ⟨⟨rfl, List.suffix_rfl⟩, [], .nil, by simp⟩
  | cons count counts ih =>
    refine (ends_synchronizePrefix order count w).bind fun findings w₁ ⟨hw₁, hreport⟩ => ?_
    refine ((ends_collectKeys findings keys w₁).imp (fun _ _ => id) fun w' h => hw₁.trans h).bind
      fun keys₂ w₂ ⟨hw₂, hkeys₂⟩ => ?_
    have hw := hw₁.trans hw₂
    refine (ih keys₂ w₂).imp (fun keys' w' ⟨hw', reports, hreports, hkeys'⟩ => ?_) fun w' h => hw.trans h
    have hlater : ∀ count findings, Reports w₂.outcomes order count findings →
        Reports w.outcomes order count findings :=
      fun _ _ ⟨taken, left, htaken, hrun⟩ => ⟨taken, left, htaken.trans hw.outcomes, hrun⟩
    refine ⟨hw.trans hw', findings :: reports, .cons hreport (hreports.imp hlater), fun name => ?_⟩
    rw [hkeys' name, hkeys₂ name, List.flatten_cons, List.map_append, List.mem_append, or_assoc]

theorem ends_collectPrefixSyncKeys (order : List OrderedNode) (w : World τ) :
    Ends (collectPrefixSyncKeys order) w (fun keys w' => Kept w w' ∧ Collected w.outcomes order keys) (Kept w) := by
  refine (ends_collectPrefixes order _ [] w).imp (fun keys w' ⟨hw', reports, hreports, hkeys⟩ => ?_) fun _ => id
  exact ⟨hw', reports, hreports, fun name => by simpa using hkeys name⟩

/-- The pass reports nothing on the empty prefix. -/
theorem findings_prefix_zero (order : List OrderedNode) :
    (analyzeSynchronization ⟨prefixAnalysis order 0, []⟩).2.state.findings = [] := rfl

theorem Reports.eq {order : List OrderedNode} {count : ℕ} {findings : List Finding}
    (h : Reports [] order count findings) :
    findings = (analyzeSynchronization ⟨prefixAnalysis order count, []⟩).2.state.findings := by
  obtain ⟨taken, left, htaken, hrun, rfl⟩ := h
  obtain rfl := List.suffix_nil.mp htaken
  rw [hrun]

theorem map_eq_of_reports {order : List OrderedNode} {counts : List ℕ} {reports : List (List Finding)}
    (h : List.Forall₂ (Reports [] order) counts reports) :
    reports = counts.map (fun count =>
      (analyzeSynchronization ⟨prefixAnalysis order count, []⟩).2.state.findings) := by
  induction h with
  | nil => rfl
  | cons hreport _ ih => rw [List.map_cons, hreport.eq, ih]

/-- When every request is granted the keys are those of the prefixes of the order. -/
theorem Collected.reportedOn {order : List OrderedNode} {keys : List SyncKey} (h : Collected [] order keys)
    (name : Text × Text × Text) : name ∈ keys.map SyncKey.name ↔ ReportedOn order name := by
  obtain ⟨reports, hreports, hkeys⟩ := h
  rw [hkeys name, map_eq_of_reports hreports, ReportedOn, List.map_flatten, List.mem_flatten]
  simp only [List.map_map, List.mem_map, List.mem_range', Function.comp_apply]
  constructor
  · rintro ⟨_, ⟨_, ⟨i, hi, rfl⟩, rfl⟩, hname⟩
    exact ⟨1 + 1 * i, by omega, List.mem_map.mp hname⟩
  · rintro ⟨count, hcount, hname⟩
    cases count with
    | zero => simp [findings_prefix_zero] at hname
    | succ count => exact ⟨_, ⟨count + 1, ⟨count, by omega, by omega⟩, rfl⟩, List.mem_map.mpr hname⟩

end ToolEvent.ModelAnalysis
