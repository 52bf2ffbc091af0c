import ToolEvent.AnalysisTexts
import ToolEvent.LifecycleChange
import ToolEvent.RunModelFinish

/-!
# Runs on a causal graph with a cycle

With a cycle `build_causal_order` emits only some of the nodes. It notes the trouble and raises an
error, but what it returns is the 0 of the last arc it added. The other passes then go through no
node at all, and the run returns 0 unless a lifecycle finding does not fit its buffers.
-/

namespace ToolEvent.ModelAnalysis

open Fallible World RunModel

/-- The order that the passes go through has every node of the model exactly once. -/
structure Analysis.Covers (model : Model) (analysis : Analysis) : Prop where
  once : (((analysis.ordered.getD []).take analysis.orderedCount).map OrderedNode.originalIndex).Perm
    (List.range model.nodes.length)
  nodes : ∀ x ∈ (analysis.ordered.getD []).take analysis.orderedCount,
    model.nodes[x.originalIndex]? = some x.node

/-- A run that returns 0 has gone through every node, and a run on a cycle does not return 0. -/
structure RefusesCycles (model : Model) : Prop where
  covers : ∀ (file : Option SanitizerFile) (outcomes : List Bool) (w : World Analysis),
    runAnalysis file ⟨{ model := model }, outcomes⟩ = (.ok (), w) → w.state.Covers model
  fails : ¬ IsAcyclic model → ∀ (file : Option SanitizerFile) (outcomes : List Bool),
    (runAnalysis file ⟨{ model := model }, outcomes⟩).1 ≠ .ok ()

def LifecycleFits (model : Model) : Prop :=
  ∀ finding ∈ lifecycleFindings model, ShortText finding.resourceClass ∧ ShortText finding.resourceId

variable {lib : RecordLibrary} {model : Model} {analysis : Analysis}

theorem isAcyclic_of_nodes_eq_nil (hsound : Sound model) (h : model.nodes = []) : IsAcyclic model := by
  apply isAcyclic_of_edges_eq_nil
  refine List.eq_nil_iff_forall_not_mem.mpr fun edge hedge => ?_
  have hsource := (hsound.edges_mem edge hedge).1
  rw [h] at hsource
  exact Nat.not_lt_zero _ hsource

theorem Ran.covers_iff (hsound : Sound model) (h : Ran model analysis) : analysis.Covers model ↔ IsAcyclic model := by
  rcases h.order with ⟨horder, hcount⟩ | ⟨hcyclic, hcount⟩
  · have hall : (analysis.ordered.getD []).take analysis.orderedCount = analysis.ordered.getD [] := by
      rw [hcount, ← length_ordered_of_isCausalOrder horder, List.take_length]
    refine iff_of_true ⟨?_, ?_⟩ horder.isAcyclic
    · rw [hall]
      exact horder.perm
    · rw [hall]
      exact h.ordered
  · refine iff_of_false (fun hcovers => hcyclic ?_) hcyclic
    have honce := hcovers.once.length_eq
    rw [hcount, List.take_zero, List.map_nil, List.length_nil, List.length_range] at honce
    exact isAcyclic_of_nodes_eq_nil hsound (List.length_eq_zero_iff.mp honce.symm)

/-- The storage of the findings is not much larger than what they need. -/
def Analysis.Sparse (analysis : Analysis) : Prop :=
  analysis.findingCapacity ≤ initialFindingCapacity + 2 * analysis.findings.length

/-- The capacity that `reserve_findings` asks for. -/
def Analysis.grownCapacity (analysis : Analysis) : ℕ :=
  if analysis.findingCapacity = 0 then initialFindingCapacity else analysis.findingCapacity * 2

theorem Analysis.grownCapacity_le (hfull : ¬ analysis.findings.length < analysis.findingCapacity) :
    analysis.grownCapacity ≤ initialFindingCapacity + 2 * analysis.findings.length := by
  unfold Analysis.grownCapacity
  split <;> omega

theorem ends_reserveFindings_sparse {w : World Analysis} (h : w.state.Sparse) :
    Ends reserveFindings w (fun _ w' => w'.outcomes <:+ w.outcomes ∧ ∃ capacity,
      w'.state = { w.state with findingCapacity := capacity } ∧
        capacity ≤ initialFindingCapacity + 2 * w.state.findings.length)
      fun w' => w'.outcomes <:+ w.outcomes ∧ w'.state = w.state := by
  refine ends_readState_bind (Ends.ite (fun _ => ?_) fun hfull => Ends.ite (fun _ => ?_) fun _ => ?_)
  · exact ends_pure ⟨List.suffix_rfl, _, rfl, h⟩
  · exact ends_fail ⟨List.suffix_rfl, rfl⟩
  · have hallocate := (obeys_allocate (r := Eq) : Obeys Eq (allocate : Routine Analysis Bool)).ends w
    refine (hallocate.imp (fun _ _ h => h) fun w' h => ⟨h.2, h.1.symm⟩).bind fun grown w' ⟨hstate, hsuffix, _⟩ => ?_
    refine Ends.ite (fun _ => ends_updateState ⟨hsuffix, _, ?_, w.state.grownCapacity_le hfull⟩)
      fun _ => ends_fail ⟨hsuffix, hstate.symm⟩
    rw [← hstate]
    rfl

structure Analysis.Roomy (analysis : Analysis) : Prop where
  sparse : analysis.Sparse
  few : analysis.findings.length ≤ Lifecycle.maxLifecycleFindings

theorem ends_reserveFindings_roomy (h : analysis.Roomy) :
    Ends reserveFindings ⟨analysis, []⟩ (fun _ w => w.outcomes = [] ∧ ∃ capacity,
      w.state = { analysis with findingCapacity := capacity } ∧
        capacity ≤ initialFindingCapacity + 2 * analysis.findings.length) fun _ => False := by
  have hfew := h.few
  have hsize : 32 + 4 * Lifecycle.maxLifecycleFindings < sizeMax / findingSize := by decide
  refine ends_readState_bind (Ends.ite (fun hroom => ?_) fun hfull => Ends.ite (fun hlarge => ?_) fun _ => ?_)
  · exact ends_pure ⟨rfl, analysis.findingCapacity, rfl, h.sparse⟩
  · have hgrown := analysis.grownCapacity_le hfull
    have hlarge : sizeMax / findingSize < analysis.grownCapacity := hlarge
    simp only [initialFindingCapacity] at hgrown
    omega
  · exact ⟨rfl, analysis.grownCapacity, rfl, analysis.grownCapacity_le hfull⟩

theorem ends_addFinding_roomy (h : analysis.Roomy) {source target : Text} (hsource : ShortText source)
    (htarget : ShortText target) (identifier : Text) (policy : Policy) (message : Text) (node : Option Node) :
    Ends (addFinding identifier policy message node (some source) (some target) none) ⟨analysis, []⟩
      (fun _ w => w.outcomes = [] ∧ w.state.Sparse ∧ w.state.findings.length = analysis.findings.length + 1)
      fun _ => False := by
  have hfits : fitsEvidence (some source) ∧ fitsEvidence (some target) ∧ fitsEvidence none :=
    ⟨fitsEvidence_some.mpr hsource, fitsEvidence_some.mpr htarget, rfl⟩
  refine (ends_reserveFindings_roomy h).bind fun _ w hw => ?_
  obtain ⟨hgranted, capacity, hstate, hcapacity⟩ := hw
  rw [if_pos hfits]
  apply ends_updateState
  simp only [hstate, Analysis.Sparse, Analysis.withFinding, List.length_append, List.length_singleton]
  exact ⟨hgranted, hcapacity.trans (by omega), trivial⟩

/-- Lifecycle findings whose texts fit are all reported. -/
theorem ends_analyzeLifecycleFindings_roomy {findings : List Lifecycle.Finding}
    (hbounded : findings.length ≤ Lifecycle.maxLifecycleFindings)
    (hfits : ∀ finding ∈ findings, ShortText finding.resourceClass ∧ ShortText finding.resourceId)
    (hempty : analysis.findings = []) (hcapacity : analysis.findingCapacity = 0) :
    Ends (forEach analyzeLifecycleFinding findings) ⟨analysis, []⟩ (fun _ w => w.outcomes = []) fun _ => False := by
  have hrun : Ends (forEach analyzeLifecycleFinding findings) ⟨analysis, []⟩ (fun _ w => w.outcomes = [] ∧
      w.state.Sparse ∧ w.state.findings.length = findings.length) fun _ => False := by
    refine ends_forEach (fun before (w : World Analysis) => w.outcomes = [] ∧ w.state.Sparse ∧
      w.state.findings.length = before.length) ?_ ⟨rfl, ?_, ?_⟩
    · rintro before finding after ⟨current, outcomes⟩ hsplit ⟨rfl, hsparse, hcount⟩
      have hmem : finding ∈ findings := hsplit ▸ List.mem_append_right _ List.mem_cons_self
      have hfew : current.findings.length ≤ Lifecycle.maxLifecycleFindings := by
        rw [hsplit, List.length_append] at hbounded
        dsimp only at hcount
        omega
      apply ends_readState_bind
      refine (ends_addFinding_roomy ⟨hsparse, hfew⟩ (hfits finding hmem).1 (hfits finding hmem).2 _ _ _ _).imp
        (fun _ w hw => ⟨hw.1, hw.2.1, ?_⟩) fun _ h => h
      rw [hw.2.2, hcount, List.length_append, List.length_singleton]
    · rw [Analysis.Sparse, hcapacity]
      exact Nat.zero_le _
    · rw [hempty]
      rfl
  exact hrun.imp (fun _ _ hw => hw.1) fun _ h => h

theorem ends_analyzeSynchronization_of_no_node (hnodes : analysis.orderedNodes = []) :
    Ends analyzeSynchronization ⟨analysis, []⟩ (fun _ w => w.outcomes = []) fun _ => False := by
  have hbody : synchronizationBody ⟨(analysis, {}), []⟩ = (.ok (), ⟨({ analysis with lockOrderEdges := 0 }, {}), []⟩) := by
    rw [synchronizationBody, run_bind_of_ok (run_allocateAll_nil 6 _), if_pos rfl, run_readState_bind]
    dsimp only
    rw [hnodes]
    rfl
  rw [Ends, analyzeSynchronization, withLocals, hbody]

theorem ends_analyzeTrace_of_no_node (hnodes : analysis.orderedNodes = []) (htable : analysis.traceContexts = []) :
    Ends analyzeTrace ⟨analysis, []⟩ (fun _ w => w.outcomes = []) fun _ => False := by
  have hbody : traceBody ⟨(analysis, []), []⟩ = (.ok (), ⟨(analysis, []), []⟩) := by
    rw [traceBody, run_bind_of_ok (run_allocateAll_nil 2 _), if_pos rfl, run_readState_bind]
    dsimp only
    rw [hnodes, List.zipIdx_nil, forEach, run_bind_of_ok (run_pure _ _), run_readState_bind]
    dsimp only
    rw [htable]
    rfl
  rw [Ends, analyzeTrace, withLocals, hbody]

/-- The passes succeed on an empty order when the lifecycle findings fit. -/
theorem passes_of_no_node (hnodes : analysis.orderedNodes = []) (htable : analysis.traceContexts = [])
    (hempty : analysis.findings = []) (hcapacity : analysis.findingCapacity = 0)
    (hbounded : (lifecycleFindings analysis.model).length ≤ Lifecycle.maxLifecycleFindings)
    (hfits : LifecycleFits analysis.model) : ∃ w, passes none ⟨analysis, []⟩ = (.ok (), w) := by
  have hresources : Ends analyzeResources ⟨analysis, []⟩ (fun _ w => w.outcomes = []) fun _ => False := by
    refine ends_updateState_bind (ends_readState_bind ?_)
    have hnone : Analysis.orderedNodes { analysis with resourceRecords := 0 } = [] := hnodes
    rw [hnone]
    exact ends_pure_bind (ends_analyzeLifecycleFindings_roomy hbounded hfits hempty hcapacity)
  obtain ⟨⟨⟩, ⟨first, outcomes⟩, hfirst, rfl⟩ := hresources.succeeds
  have hchange := (obeys_analyzeResources (r := PassChange) ⟨analysis, []⟩).1
  have huntraced := (obeys_analyzeResources (r := Untraced) ⟨analysis, []⟩).1
  rw [hfirst] at hchange huntraced
  obtain ⟨⟨⟩, ⟨second, outcomes⟩, hsecond, rfl⟩ :=
    (ends_analyzeSynchronization_of_no_node (hchange.orderedNodes_eq.trans hnodes)).succeeds
  have hchange' := (obeys_analyzeSynchronization (r := PassChange) ⟨first, []⟩).1
  have huntraced' := (obeys_analyzeSynchronization (r := Untraced) ⟨first, []⟩).1
  rw [hsecond] at hchange' huntraced'
  obtain ⟨⟨⟩, w, hthird, -⟩ := (ends_analyzeTrace_of_no_node
    (hchange'.orderedNodes_eq.trans (hchange.orderedNodes_eq.trans hnodes))
    (huntraced'.1.trans (huntraced.1.trans htable))).succeeds
  refine ⟨w, ?_⟩
  rw [passes, run_bind_of_ok hfirst, run_bind_of_ok hsecond, run_bind_of_ok hthird]
  rfl

theorem reachable_replayNodes (lib : RecordLibrary) (nodes : List Node) (outcomes : List Bool) :
    Lifecycle.Reachable lib (replayNodes lib nodes ⟨{}, outcomes⟩).2.state := by
  refine Ends.final (P := fun w => Lifecycle.Reachable lib w.state) (Ends.bind (R := fun _ w =>
    Lifecycle.Reachable lib w.state) (ends_forEach (fun _ w => Lifecycle.Reachable lib w.state) ?_ .create) ?_)
  · intro _ node _ w _ hreachable
    exact ends_of (fun _ w' hrun => by simpa only [hrun] using hreachable.ingest (recordFromNode node) w.outcomes)
      fun e w' hrun => by simpa only [hrun] using hreachable.ingest (recordFromNode node) w.outcomes
  · intro _ w hreachable
    exact ends_of (fun _ w' hrun => by simpa only [hrun] using hreachable.finish w.outcomes)
      fun e w' hrun => by simpa only [hrun] using hreachable.finish w.outcomes

theorem length_lifecycleFindings_le (hmodel : Finished lib model) :
    (lifecycleFindings model).length ≤ Lifecycle.maxLifecycleFindings := by
  obtain ⟨outcomes, v, hreplay, hlifecycle⟩ := hmodel.finishedFrom.lifecycle
  have hreachable := reachable_replayNodes lib model.nodes outcomes
  rw [hreplay] at hreachable
  rw [lifecycleFindings, hlifecycle]
  exact hreachable.sound.bounded

/-- On a cycle the run returns 0 when the lifecycle findings fit. -/
theorem runAnalysis_of_cycle (hmodel : Finished lib model) (hcyclic : ¬ IsAcyclic model) (hfits : LifecycleFits model) :
    ∃ w, runAnalysis none ⟨{ model := model }, []⟩ = (.ok (), w) := by
  have hsound := hmodel.reachable.sound
  obtain ⟨order, hemitted, hbuild⟩ := buildCausalOrder_granted { model := model } [] hsound List.not_mem_nil
  have hconcluded : Analysis.concluded { model := model } order =
      { ({ model := model } : Analysis).withOrder order with trouble := true } :=
    if_neg fun hlength => hcyclic ((hemitted.length_eq_iff hsound).mp hlength)
  rw [hconcluded] at hbuild
  have hempty : Analysis.orderedNodes { ({ model := model } : Analysis).withOrder order with trouble := true } = [] := rfl
  obtain ⟨w, hpasses⟩ := passes_of_no_node hempty rfl rfl rfl (length_lifecycleFindings_le hmodel) hfits
  exact ⟨w, (run_bind_of_ok hbuild).trans hpasses⟩

/-- A run that returns 0 has copied the texts of the lifecycle findings. -/
theorem runAnalysis_lifecycleFits (hmodel : Finished lib model) {file : Option SanitizerFile} {outcomes : List Bool}
    {w : World Analysis} (h : runAnalysis file ⟨{ model := model }, outcomes⟩ = (.ok (), w)) : LifecycleFits model := by
  change (buildCausalOrder >>= fun _ => passes file) ⟨{ model := model }, outcomes⟩ = (.ok (), w) at h
  obtain ⟨⟨⟩, w₁, hbuild, hpasses⟩ := run_bind_eq_ok.mp h
  obtain ⟨⟨⟩, w₂, hresources, -⟩ := run_bind_eq_ok.mp hpasses
  have hcopied := (Ends.ok (copies_analyzeResources w₁) hresources).1.lifecycle
  rwa [(buildCausalOrder_ok hmodel.reachable.sound hbuild).ofModel] at hcopied

/-- A return of 0 says that every node was analysed, and a cycle is refused, exactly when there is
no cycle, or a lifecycle finding that does not fit makes every run fail. -/
theorem refusesCycles_iff (hmodel : Finished lib model) :
    RefusesCycles model ↔ IsAcyclic model ∨ ¬ LifecycleFits model := by
  have hsound := hmodel.reachable.sound
  constructor
  · intro h
    by_contra hneither
    obtain ⟨hcyclic, hfits⟩ := not_or.mp hneither
    obtain ⟨w, hrun⟩ := runAnalysis_of_cycle hmodel hcyclic (not_not.mp hfits)
    exact h.fails hcyclic none [] (by rw [hrun])
  · rintro (hacyclic | hlong)
    · exact ⟨fun file outcomes w hrun => ((runAnalysis_ok hmodel hrun).covers_iff hsound).mpr hacyclic,
        fun hcyclic => absurd hacyclic hcyclic⟩
    · have hfails : ∀ file outcomes w, runAnalysis file ⟨{ model := model }, outcomes⟩ ≠ (.ok (), w) :=
        fun file outcomes w hrun => hlong (runAnalysis_lifecycleFits hmodel hrun)
      refine ⟨fun file outcomes w hrun => absurd hrun (hfails file outcomes w), fun _ file outcomes hok => ?_⟩
      exact hfails file outcomes _ (Prod.ext hok rfl)

theorem refusesCycles_forkingCall :
    RefusesCycles (modelOf .standard forkingCall) ↔
      IsAcyclic (modelOf .standard forkingCall) ∨ ¬ LifecycleFits (modelOf .standard forkingCall) :=
  refusesCycles_iff (finished_modelOf _ (by decide))

def forkOf (pid childPid : ℤ) : EventRecord :=
  { recordKind := .fork, runId := some (.ofString "run"), pid := pid, childPid := childPid, contextId := 1
    sequence := 1 }

/-- Two processes of which each has forked the other: a process id is in use again. -/
def mutualForks : List EventRecord := [forkOf 1 2, forkOf 2 1]

/-- The run on the cycle of the two forks returns 0, and no node was analysed. -/
theorem mutualForks_not_refused :
    Finished .standard (modelOf .standard mutualForks) ∧ ¬ IsAcyclic (modelOf .standard mutualForks) ∧
      (observedRun mutualForks).1 = .ok () ∧ (observedRun mutualForks).2.state.orderedCount = 0 ∧
      ¬ RefusesCycles (modelOf .standard mutualForks) := by
  have hfinished : Finished .standard (modelOf .standard mutualForks) := finished_modelOf _ (by decide)
  have hok : (observedRun mutualForks).1 = .ok () := by decide +kernel
  have hcyclic : ¬ IsAcyclic (modelOf .standard mutualForks) := by
    intro hacyclic
    have hforth : CausalArc (modelOf .standard mutualForks) 0 1 :=
      .inl ⟨by decide, ⟨.processChildEvent, 0, 1⟩, by decide, rfl, rfl⟩
    have hback : CausalArc (modelOf .standard mutualForks) 1 0 :=
      .inl ⟨by decide, ⟨.processChildEvent, 1, 0⟩, by decide, rfl, rfl⟩
    exact hacyclic 0 (.tail (.single hforth) hback)
  exact ⟨hfinished, hcyclic, hok, by decide +kernel, fun h => h.fails hcyclic none [] hok⟩

end ToolEvent.ModelAnalysis
