import ToolEvent.CausalOrderEmission
import ToolEvent.RunModelEdges

/-!
# The causal order is the least one

Without a cycle `build_causal_order` emits every node, in the least order that respects
the causal graph. With a cycle it stops short and still reports success.
-/

namespace ToolEvent.ModelAnalysis

open Fallible World RunModel LinearExtension

variable (analysis : Analysis) (outcomes : List Bool)

theorem after_successorsOf (model : Model) :
    After (successorsOf model.nodes model.edges) = CausalArc model := by
  funext i j
  exact propext mem_successorsOf

/-- The state in which the loop that empties the heap ends. -/
structure Emitted (model : Model) (order : List ℕ) : Prop where
  grows : Grows (CausalArc model) (List.range model.nodes.length)
    (IsLeastReady (CausalArc model) (List.range model.nodes.length)) order
  done : ∀ x, ¬ IsReady (CausalArc model) (List.range model.nodes.length) order x

theorem Emitted.lt_length {model : Model} {order : List ℕ} (h : Emitted model order) :
    ∀ i ∈ order, i < model.nodes.length := fun i hi => List.mem_range.mp (h.grows.mem i hi)

/-- As many nodes as there are, are all of them. -/
theorem Emitted.mem_of_length {model : Model} {order : List ℕ} (h : Emitted model order)
    (hlength : order.length = model.nodes.length) : ∀ x < model.nodes.length, x ∈ order := by
  have hsubperm := List.subperm_of_subset h.grows.nodup h.grows.mem
  have hperm := hsubperm.perm_of_length_le (by rw [hlength, List.length_range])
  exact fun x hx => hperm.mem_iff.mpr (List.mem_range.mpr hx)

theorem CausalArc.lt_length {model : Model} (hsound : Sound model) {i j : ℕ}
    (h : CausalArc model i j) : i < model.nodes.length ∧ j < model.nodes.length := by
  rcases h with ⟨-, edge, hedge, rfl, rfl⟩ | h
  · exact hsound.edges_mem edge hedge
  · exact h.1.lt_length

theorem Emitted.isCausalOrder {model : Model} (hsound : Sound model) {order : List ℕ}
    (h : Emitted model order) (hall : ∀ x < model.nodes.length, x ∈ order) :
    IsCausalOrder model order ∧ ∀ other, IsCausalOrder model other → order ≤ other := by
  have hall' : ∀ x ∈ List.range model.nodes.length, x ∈ order :=
    fun x hx => hall x (List.mem_range.mp hx)
  constructor
  · exact isCausalOrder_iff.mpr (h.grows.isLinearExtension List.nodup_range
      (fun a b hab => List.mem_range.mpr (hab.lt_length hsound).2) hall')
  · exact fun other hother => h.grows.le_of_isLinearExtension List.nodup_range hall'
      (isCausalOrder_iff.mp hother)

theorem IsCausalOrder.isAcyclic {model : Model} {order : List ℕ} (h : IsCausalOrder model order) :
    IsAcyclic model := (isCausalOrder_iff.mp h).acyclic

/-- Every node is emitted exactly when the graph has no cycle. -/
theorem Emitted.length_eq_iff {model : Model} (hsound : Sound model) {order : List ℕ}
    (h : Emitted model order) : order.length = model.nodes.length ↔ IsAcyclic model := by
  constructor
  · intro hlength
    exact (h.isCausalOrder hsound (h.mem_of_length hlength)).1.isAcyclic
  · intro hacyclic
    have hall : ∀ x < model.nodes.length, x ∈ order := by
      intro x hx
      by_contra hxo
      have hfield : ∀ a b, CausalArc model a b → a ∈ List.range model.nodes.length :=
        fun a b hab => List.mem_range.mpr (hab.lt_length hsound).1
      obtain ⟨y, hy⟩ := exists_ready hacyclic hfield (List.mem_range.mpr hx) hxo
      exact h.done y hy
    have hperm := (h.isCausalOrder hsound hall).1.perm.length_eq
    simpa using hperm

/-- The object that `build_causal_order` leaves after its loops. -/
def Analysis.concluded (analysis : Analysis) (order : List ℕ) : Analysis :=
  if order.length = analysis.model.nodes.length then
    { analysis.withOrder order with orderedCount := analysis.model.nodes.length }
  else { analysis.withOrder order with trouble := true }

theorem orderNodes_run (hsound : Sound analysis.model) :
    ∃ order locals, Emitted analysis.model order ∧
      orderNodes analysis.model.nodes analysis.model.edges
          ⟨(analysis.withOrder [], {}), outcomes⟩ =
        (if order.length = analysis.model.nodes.length then .ok () else .error (.errno .einval),
          ⟨(analysis.concluded order, locals), outcomes⟩) ∧
      ((order.length = analysis.model.nodes.length ∨ analysis.model.edges ≠ []) →
        locals.operationStatus = 0) := by
  have hbuilt := built_empty analysis.model.nodes {} rfl rfl
  obtain ⟨locals₁, hrun₁, hbuilt₁, hstatus₁⟩ := addEdges_run (analysis.withOrder []) outcomes
    hsound.edges_mem hbuilt
    (Nat.le_add_right analysis.model.edges.length analysis.model.nodes.length)
  have hneighbours : ∀ p ∈ (sortedByContext analysis.model.nodes).zip
      (sortedByContext analysis.model.nodes).tail,
      p.1.originalIndex < analysis.model.nodes.length ∧
        p.2.originalIndex < analysis.model.nodes.length := by
    intro p hp
    obtain ⟨hleft, hright⟩ := List.of_mem_zip hp
    exact ⟨(List.getElem?_eq_some_iff.mp (mem_sortedByContext.mp hleft)).1,
      (List.getElem?_eq_some_iff.mp (mem_sortedByContext.mp (List.mem_of_mem_tail hright))).1⟩
  have hlength : ((sortedByContext analysis.model.nodes).zip
      (sortedByContext analysis.model.nodes).tail).length ≤ analysis.model.nodes.length := by
    rw [List.length_zip, sortedByContext, List.length_insertionSort, indexedNodes, List.length_map,
      List.length_zipIdx]
    exact Nat.min_le_left _ _
  obtain ⟨locals₂, hrun₂, hbuilt₂, hstatus₂⟩ := addChains_run (analysis.withOrder []) outcomes
    hneighbours hbuilt₁ hstatus₁ (Nat.add_le_add_left hlength _)
  obtain ⟨locals₃, hrun₃, hemitting, hstatus₃⟩ :=
    pushRoots_run (analysis.withOrder []) outcomes hbuilt₂ hstatus₂
  obtain ⟨order, locals₄, hrun₄, hgrows, hdone, hstatus₄⟩ := emitLoop_run analysis outcomes
    (Grows.nil) hemitting (Nat.lt_succ_self analysis.model.nodes.length)
  have hemitted : Emitted analysis.model order := by
    have hrel := after_successorsOf analysis.model
    unfold successorsOf at hrel
    unfold GrowsLeast at hgrows
    rw [hrel] at hgrows hdone
    exact ⟨hgrows, hdone⟩
  have hstart : updateLocals (fun l =>
      { l with heads := analysis.model.nodes.map (fun _ => none)
               indegree := analysis.model.nodes.map (fun _ => 0) })
      ⟨(analysis.withOrder [], {}), outcomes⟩ = (.ok (), ⟨(analysis.withOrder [],
        { heads := analysis.model.nodes.map (fun _ => none)
          indegree := analysis.model.nodes.map (fun _ => 0) }), outcomes⟩) := rfl
  have hend := emitted_withOrder analysis hemitted.lt_length
  by_cases hlength : order.length = analysis.model.nodes.length
  · refine ⟨order, locals₄.withStatus 0, hemitted, ?_, fun _ => rfl⟩
    unfold orderNodes
    rw [run_bind_of_ok hstart, run_bind_of_ok hrun₁, run_bind_of_ok hrun₂, run_bind_of_ok hrun₃,
      run_bind_of_ok hrun₄, run_readState_bind]
    dsimp only
    rw [hend, if_neg (not_not_intro hlength), if_pos hlength, Analysis.concluded, if_pos hlength]
    rfl
  · refine ⟨order, locals₄, hemitted, ?_, fun h => ?_⟩
    · unfold orderNodes
      rw [run_bind_of_ok hstart, run_bind_of_ok hrun₁, run_bind_of_ok hrun₂, run_bind_of_ok hrun₃,
        run_bind_of_ok hrun₄, run_readState_bind]
      dsimp only
      rw [hend, if_pos hlength, if_neg hlength, Analysis.concluded, if_neg hlength]
      rfl
    · exact hstatus₄ (hstatus₃ (h.resolve_left hlength))

theorem size_ok (hsound : Sound analysis.model) :
    ¬ sizeMax - analysis.model.nodes.length < analysis.model.edges.length := by
  have hnodes := hsound.nodes_le.trans hsound.nodeCapacity_le
  have hedges := hsound.edges_le.trans hsound.edgeCapacity_le
  simp only [sizeMax, modelLimit] at *
  omega

/-- The six requests of `build_causal_order`, made before any of them is checked. The first is
the one for the order. -/
theorem causalOrderBody_allocated (hsound : Sound analysis.model) :
    causalOrderBody ⟨(analysis, {}), outcomes⟩ =
      if false ∈ outcomes.take 6 then
        (.error (.errno .enomem), ⟨({ analysis with
          ordered := if outcomes.headD true then some [] else none }, {}), outcomes.drop 6⟩)
      else orderNodes analysis.model.nodes analysis.model.edges
        ⟨(analysis.withOrder [], {}), outcomes.drop 6⟩ := by
  unfold causalOrderBody
  rw [run_readState_bind]
  dsimp only
  rw [if_neg (size_ok analysis hsound), run_bind_of_ok (run_allocate _ _),
    run_bind_of_ok (run_updateState _ _), run_bind_of_ok (run_allocateAll _ _ _)]
  cases outcomes with
  | nil => rfl
  | cons granted outcomes =>
    cases granted with
    | false => simp
    | true =>
      by_cases hothers : false ∈ outcomes.take 5
      · simp [hothers]
      · simp [hothers]
        rfl

/-- With its requests granted, the body of `build_causal_order` emits every node exactly
when the causal graph has no cycle. -/
theorem causalOrderBody_granted (hsound : Sound analysis.model) (h : false ∉ outcomes.take 6) :
    ∃ order locals, Emitted analysis.model order ∧
      causalOrderBody ⟨(analysis, {}), outcomes⟩ =
        (if order.length = analysis.model.nodes.length then .ok () else .error (.errno .einval),
          ⟨(analysis.concluded order, locals), outcomes.drop 6⟩) ∧
      ((order.length = analysis.model.nodes.length ∨ analysis.model.edges ≠ []) →
        locals.operationStatus = 0) := by
  have hbody := causalOrderBody_allocated analysis outcomes hsound
  rw [if_neg h] at hbody
  obtain ⟨order, locals, hemitted, hrun, hstatus⟩ :=
    orderNodes_run analysis (outcomes.drop 6) hsound
  exact ⟨order, locals, hemitted, hbody.trans hrun, hstatus⟩

/-- A refused request makes `build_causal_order` fail. -/
theorem buildCausalOrder_refused (hsound : Sound analysis.model) (h : false ∈ outcomes.take 6) :
    buildCausalOrder ⟨analysis, outcomes⟩ = (.error (.errno .enomem), ⟨{ analysis with
      ordered := if outcomes.headD true then some [] else none }, outcomes.drop 6⟩) := by
  have hbody := causalOrderBody_allocated analysis outcomes hsound
  rw [if_pos h] at hbody
  unfold buildCausalOrder withLocals
  dsimp only
  rw [hbody]
  rfl

/-- A graph without edges between nodes has no cycle. -/
theorem isAcyclic_of_edges_eq_nil {model : Model} (h : model.edges = []) : IsAcyclic model := by
  have hle : ∀ i j, Relation.TransGen (CausalArc model) i j → InContextOrder model.nodes i j := by
    have hstep : ∀ i j, CausalArc model i j → InContextOrder model.nodes i j := by
      rintro i j (⟨-, edge, hedge, -⟩ | hcovers)
      · simp [h] at hedge
      · exact hcovers.1
    intro i j hij
    induction hij with
    | single hab => exact hstep _ _ hab
    | tail _ hbc ih => exact IsTrans.trans _ _ _ ih (hstep _ _ hbc)
  exact fun i hcycle => irrefl i (hle i i hcycle)

/-- With its requests granted, `build_causal_order` returns 0, also when the causal graph
has a cycle: then the status is the 0 of the last arc added. -/
theorem buildCausalOrder_granted (hsound : Sound analysis.model) (h : false ∉ outcomes.take 6) :
    ∃ order, Emitted analysis.model order ∧ buildCausalOrder ⟨analysis, outcomes⟩ =
      (.ok (), ⟨analysis.concluded order, outcomes.drop 6⟩) := by
  obtain ⟨order, locals, hemitted, hbody, hstatus⟩ :=
    causalOrderBody_granted analysis outcomes hsound h
  refine ⟨order, hemitted, ?_⟩
  unfold buildCausalOrder withLocals
  dsimp only
  rw [hbody]
  split
  · rfl
  · next hshort =>
    have hedges : analysis.model.edges ≠ [] := fun hnil =>
      hshort ((hemitted.length_eq_iff hsound).mpr (isAcyclic_of_edges_eq_nil hnil))
    simp only [returnStatus, hstatus (.inr hedges), if_true]

variable {lib : RecordLibrary}

def Analysis.order (analysis : Analysis) : List ℕ :=
  (analysis.ordered.getD []).map OrderedNode.originalIndex

/-- For a finished model without a cycle, `build_causal_order` leaves the lexicographically
least order of all nodes that respects the edges and the contexts. That its body succeeds
says that on the way no guard of `add_arc`, of the heap or of an in-degree was hit, and no
array left. -/
theorem buildCausalOrder_least {model : Model} (hmodel : Finished lib model)
    (hacyclic : IsAcyclic model) {outcomes : List Bool} (granted : false ∉ outcomes) :
    (causalOrderBody ⟨({ model := model }, {}), outcomes⟩).1 = .ok () ∧
      ∃ analysis outcomes', buildCausalOrder ⟨{ model := model }, outcomes⟩ =
          (.ok (), ⟨analysis, outcomes'⟩) ∧
        analysis.orderedCount = model.nodes.length ∧
        (∀ x ∈ analysis.ordered.getD [], model.nodes[x.originalIndex]? = some x.node) ∧
        IsCausalOrder model analysis.order ∧
        ∀ order, IsCausalOrder model order → analysis.order ≤ order := by
  have hsound := hmodel.reachable.sound
  have htake : false ∉ outcomes.take 6 := fun hmem => granted (List.mem_of_mem_take hmem)
  constructor
  · obtain ⟨order, locals, hemitted, hbody, -⟩ :=
      causalOrderBody_granted { model := model } outcomes hsound htake
    rw [hbody]
    exact if_pos ((hemitted.length_eq_iff hsound).mpr hacyclic)
  · obtain ⟨order, hemitted, hrun⟩ := buildCausalOrder_granted { model := model } outcomes hsound htake
    have hlength := (hemitted.length_eq_iff hsound).mpr hacyclic
    refine ⟨_, _, hrun, ?_⟩
    rw [Analysis.concluded, if_pos hlength]
    refine ⟨rfl, fun x hx => mem_orderedOf hx, ?_⟩
    have horder : Analysis.order { ({ model := model } : Analysis).withOrder order with
        orderedCount := model.nodes.length } = order := map_originalIndex_orderedOf hemitted.lt_length
    dsimp only
    rw [horder]
    exact hemitted.isCausalOrder hsound (hemitted.mem_of_length hlength)

def forkingCall : List EventRecord :=
  let run := some (Text.ofString "run")
  [{ recordKind := .fd, runId := run, pid := 2, contextId := 1, sequence := 1, fd := 3 },
    { recordKind := .call, runId := run, pid := 1, contextId := 1, sequence := 1 },
    { recordKind := .fork, runId := run, pid := 1, childPid := 2, contextId := 1, sequence := 2 },
    { recordKind := .call, runId := run, pid := 1, contextId := 1, sequence := 3, callKind := .exit }]

theorem buildCausalOrder_least_forkingCall :
    (causalOrderBody ⟨({ model := modelOf .standard forkingCall }, {}), []⟩).1 = .ok () ∧
      ∃ analysis outcomes', buildCausalOrder ⟨{ model := modelOf .standard forkingCall }, []⟩ =
          (.ok (), ⟨analysis, outcomes'⟩) ∧
        analysis.orderedCount = (modelOf .standard forkingCall).nodes.length ∧
        (∀ x ∈ analysis.ordered.getD [],
          (modelOf .standard forkingCall).nodes[x.originalIndex]? = some x.node) ∧
        IsCausalOrder (modelOf .standard forkingCall) analysis.order ∧
        ∀ order, IsCausalOrder (modelOf .standard forkingCall) order → analysis.order ≤ order := by
  have hmodel : Finished .standard (modelOf .standard forkingCall) := finished_modelOf _ (by decide)
  have horder : IsCausalOrder (modelOf .standard forkingCall) [1, 2, 0, 3] := by decide
  exact buildCausalOrder_least hmodel horder.isAcyclic List.not_mem_nil

end ToolEvent.ModelAnalysis
