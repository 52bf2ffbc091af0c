import ToolEvent.SynchronizationDemands
import ToolEvent.TraceTable

/-!
# What a run demands

The demands of the passes up to that over the sanitizer file depend on the nodes in their order and the
findings of the lifecycle, and those of the last pass on the lines of the file that announce a report.
-/

namespace ToolEvent.ModelAnalysis

open Fallible World RunModel

variable {w : World Analysis}

theorem demands_analyzeResourceNode (node : Node) (w : World Analysis) :
    Demands Supply.meet supplyOf (analyzeResourceNode node) w
      (∀ finding ∈ (if isZeroAllocation node then [emptyAllocationReport node] else []), finding.Fits)
      ((if isZeroAllocation node then [emptyAllocationReport node] else []).map .finding) := by
  have hcount : ∀ w, Demands Supply.meet supplyOf (if node.domain = .resource then
      updateState (fun a => { a with resourceRecords := a.resourceRecords + 1 }) else pure () : Routine Analysis Unit)
      w True [] := by
    intro w
    split
    · exact demands_updateState rfl
    · exact demands_pure () trivial
  by_cases hzero : isZeroAllocation node = true
  · rw [if_pos hzero]
    refine (hcount w).before fun _ v _ => ?_
    rw [if_pos (of_decide_eq_true hzero)]
    exact (demands_addFinding _ _ _ _ _ _ _ v).congr List.forall_mem_singleton
  · rw [if_neg hzero]
    refine (hcount w).before fun _ v _ => ?_
    rw [if_neg fun hzero' => hzero (decide_eq_true hzero')]
    exact demands_pure () fun finding hmem => absurd hmem List.not_mem_nil

/-- The order, which the passes keep, in which the nodes of the lifecycle findings are looked up. -/
def SameOrder (a b : Analysis) : Prop := b.ordered = a.ordered ∧ b.orderedCount = a.orderedCount

theorem sameOrder_of_ok {x : Routine Analysis Unit} (hobeys : Obeys PassChange x) {a : Analysis} {v v' : World Analysis}
    {u : Unit} (h : SameOrder a v.state) (hrun : x v = (.ok u, v')) : SameOrder a v'.state := by
  have hchange := (hobeys v).1
  rw [hrun] at hchange
  exact ⟨hchange.ordered.trans h.1, hchange.orderedCount.trans h.2⟩

theorem demands_analyzeLifecycleFindings {a : Analysis} (findings : List Lifecycle.Finding) (hw : SameOrder a w.state) :
    Demands Supply.meet supplyOf (forEach analyzeLifecycleFinding findings) w
      (∀ finding ∈ findings, (lifecycleReport a finding).Fits)
      ((findings.map (lifecycleReport a)).map .finding) := by
  rw [List.map_map, List.map_eq_flatMap]
  refine demands_forEach (I := fun w => SameOrder a w.state) (fun finding _ v hv => demands_readState_bind ?_)
    (fun finding v v' hv hrun => sameOrder_of_ok (obeys_analyzeLifecycleFinding finding) hv hrun) hw
  rw [← lifecycleReport_congr hv.1 hv.2]
  exact demands_addFinding _ _ _ _ _ _ _ v

theorem demands_analyzeResources (w : World Analysis) :
    Demands Supply.meet supplyOf analyzeResources w (∀ finding ∈ resourceFindings w.state, finding.Fits)
      ((resourceFindings w.state).map .finding) := by
  refine Demands.before (demands_updateState rfl) fun _ v hfirst => demands_readState_bind ?_
  obtain ⟨-, rfl⟩ := Prod.mk.inj hfirst
  have hnodes := demands_forEach (I := fun _ => True) (fun node (_ : node ∈ w.state.orderedNodes) v _ =>
    demands_analyzeResourceNode node v) (fun _ _ _ _ _ => trivial) (w := ⟨{ w.state with resourceRecords := 0 }, w.outcomes⟩)
    trivial
  have hsame : SameOrder w.state { w.state with resourceRecords := 0 } := ⟨rfl, rfl⟩
  have hall := hnodes.bind fun _ v hrun => demands_analyzeLifecycleFindings (w := v) (lifecycleFindings w.state.model)
    (sameOrder_of_ok (v := ⟨{ w.state with resourceRecords := 0 }, w.outcomes⟩) (obeys_forEach obeys_analyzeResourceNode _)
      hsame hrun)
  have hfindings : (w.state.orderedNodes.flatMap fun node => (if isZeroAllocation node then [emptyAllocationReport node] else [])) =
      (w.state.orderedNodes.filter isZeroAllocation).map emptyAllocationReport := flatMap_emptyAllocationReport _
  rw [← List.map_flatMap, hfindings] at hall
  rw [resourceFindings, List.map_append]
  refine hall.congr ?_
  rw [List.forall_mem_append, ← hfindings, List.forall_mem_flatMap, List.forall_mem_map]

def lineReport (x : Text × ℕ) : Option Finding :=
  (findReport x.1).map fun report => newFinding (.ofString report.2.1.2.1) .sanitizer (.ofString report.2.1.2.2)
    (some (syntheticNode (x.2 + 1))) none none (some report.2.2)

def sanitizerFindings (file : Option SanitizerFile) : List Finding :=
  (file.map SanitizerFile.lines).getD [] |>.zipIdx.filterMap lineReport

theorem demands_sanitizeLine (x : Text × ℕ) (w : World Analysis) :
    Demands Supply.meet supplyOf (sanitizeLine x) w (∀ finding ∈ (lineReport x).toList, finding.Fits)
      ((lineReport x).toList.map .finding) := by
  refine Demands.before (demands_updateState rfl) fun _ v _ => ?_
  rw [lineReport]
  cases findReport x.1 with
  | none => exact demands_pure () fun finding hmem => absurd hmem List.not_mem_nil
  | some report =>
    have hadd := demands_addFinding (.ofString report.2.1.2.1) .sanitizer (.ofString report.2.1.2.2)
      (some (syntheticNode (x.2 + 1))) none none (some report.2.2) v
    refine (hadd.bind fun _ u _ => demands_updateState rfl).congr ?_
    exact List.forall_mem_singleton.trans (and_iff_left trivial).symm

theorem demands_sanitizeLines (lines : List (Text × ℕ)) (w : World Analysis) :
    Demands Supply.meet supplyOf (forEach sanitizeLine lines) w (∀ finding ∈ lines.filterMap lineReport, finding.Fits)
      ((lines.filterMap lineReport).map .finding) := by
  rw [List.filterMap_eq_flatMap_toList, List.map_flatMap]
  exact (demands_forEach (I := fun _ => True) (fun x _ v _ => demands_sanitizeLine x v) (fun _ _ _ _ _ => trivial)
    trivial).congr List.forall_mem_flatMap

/-- The passes between `build_causal_order` and `analyze_sanitizer`. -/
def middlePasses : Routine Analysis Unit := do
  analyzeResources
  analyzeSynchronization
  analyzeTrace

/-- The texts that the passes up to the sanitizer file write fit, and the table of the contexts has a slot for each. -/
structure PassesFit (a : Analysis) : Prop where
  resources : ∀ finding ∈ resourceFindings a, finding.Fits
  contexts : (askedContexts a.orderedNodes).length ≤ a.orderedCount
  trace : TraceFits a.orderedNodes

def passDemands (a : Analysis) : List Demand :=
  (resourceFindings a).map .finding ++ synchronizationDemands a.orderedNodes ++ tracePassDemands a.orderedNodes

/-- What a pass over the resources or the synchronization leaves to the trace pass. -/
theorem traceable_of_ok {x : Routine Analysis Unit} (hchange : Obeys PassChange x) (huntraced : Obeys Untraced x)
    {v v' : World Analysis} {u : Unit} (hrun : x v = (.ok u, v')) :
    v'.state.orderedNodes = v.state.orderedNodes ∧ v'.state.orderedCount = v.state.orderedCount ∧
      v'.state.traceContexts = v.state.traceContexts := by
  have hkept := (hchange v).1
  have htable := (huntraced v).1
  rw [hrun] at hkept htable
  exact ⟨hkept.orderedNodes_eq, hkept.orderedCount, htable.1⟩

theorem demands_middlePasses (hempty : w.state.traceContexts = []) :
    Demands Supply.meet supplyOf middlePasses w (PassesFit w.state) (passDemands w.state) := by
  have hfits : PassesFit w.state ↔ (∀ finding ∈ resourceFindings w.state, finding.Fits) ∧ True ∧
      (traceRows w.state.orderedNodes).length ≤ w.state.orderedCount ∧ TraceFits w.state.orderedNodes := by
    rw [length_traceRows]
    exact ⟨fun h => ⟨h.resources, trivial, h.contexts, h.trace⟩, fun ⟨h, _, h', h''⟩ => ⟨h, h', h''⟩⟩
  rw [passDemands, List.append_assoc]
  refine ((demands_analyzeResources w).bind fun _ v hfirst => ?_).congr hfits
  obtain ⟨hnodes, hcount, htable⟩ := traceable_of_ok obeys_analyzeResources obeys_analyzeResources hfirst
  rw [← hnodes, ← hcount]
  refine (demands_analyzeSynchronization v).bind fun _ u hsecond => ?_
  obtain ⟨hnodes', hcount', htable'⟩ := traceable_of_ok obeys_analyzeSynchronization obeys_analyzeSynchronization hsecond
  rw [← hnodes', ← hcount']
  exact demands_analyzeTrace (htable'.trans (htable.trans hempty))

end ToolEvent.ModelAnalysis
