import ToolEvent.TraceSimulation

/-!
# The words of the contexts

Without forks the findings of the trace pass come from the words that the contexts make of their
calls: one finding for each exit that is not matched, and one for each call that is left open. How
the contexts interleave does not matter.
-/

namespace ToolEvent.ModelAnalysis

open Fallible World RunModel Brackets

def isCallOf (key : ℤ × ℕ) (node : Node) : Bool := isCallRecord node ∧ contextKey node = key

def callsOf (nodes : List Node) (key : ℤ × ℕ) : List Node := nodes.filter (isCallOf key)

def readCalls (calls : List Node) : Tally Node := Brackets.read opensCall leavesCall calls

def callStep (node : Node) (row : ContextReplay) : ContextReplay :=
  row.withCalls (fun calls => Brackets.step opensCall leavesCall calls node)

@[simp] theorem key_callStep (node : Node) (row : ContextReplay) : (callStep node row).key = row.key := rfl

variable {nodes : List Node}

/-- Without forks, the calls are folded into the table of the contexts. -/
theorem traceRows_eq_fold (hforks : ∀ node ∈ nodes, isForkRecord node = false) : traceRows nodes =
    KeyedTable.fold ContextReplay.key .fresh contextKey callStep [] (nodes.filter isCallRecord) := by
  induction nodes using List.reverseRecOn with
  | nil => rfl
  | append_singleton nodes node ih =>
    have hnode := hforks node (List.mem_append_right _ List.mem_cons_self)
    have hnodes := ih fun n hn => hforks n (List.mem_append_left _ hn)
    rw [traceRows_concat, hnodes, traceEffect, if_neg (ne_true_of_eq_false hnode), List.filter_append]
    cases hcall : isCallRecord node with
    | true =>
      rw [if_pos rfl, List.filter_cons_of_pos hcall, List.filter_nil, KeyedTable.fold_concat]
      rfl
    | false =>
      rw [if_neg Bool.false_ne_true, List.filter_cons_of_neg (ne_true_of_eq_false hcall), List.filter_nil,
        List.append_nil]

/-- The calls of one context are read as a word. -/
theorem foldRow_eq_readCalls (nodes : List Node) (key : ℤ × ℕ) :
    KeyedTable.foldRow .fresh contextKey callStep key (nodes.filter isCallRecord) =
      { pid := key.1, context := key.2, calls := readCalls (callsOf nodes key) } := by
  have hfold : ∀ (calls : List Node) (row : ContextReplay), calls.foldl (fun row node => callStep node row) row =
      { row with calls := readFrom opensCall leavesCall row.calls calls } := by
    intro calls
    induction calls with
    | nil => exact fun row => rfl
    | cons node calls ih => exact fun row => ih (callStep node row)
  have hcalls : (nodes.filter isCallRecord).filter (fun node => contextKey node = key) = callsOf nodes key := by
    rw [List.filter_filter, callsOf]
    exact List.filter_congr fun node _ => by
      rw [isCallOf, Bool.decide_and, Bool.and_comm, Bool.decide_eq_true]
  rw [KeyedTable.foldRow, hcalls, hfold]
  rfl

/-- The rows of the table: for every context that has a call, the reader of its word. -/
theorem mem_traceRows_iff (hforks : ∀ node ∈ nodes, isForkRecord node = false) (row : ContextReplay) :
    row ∈ traceRows nodes ↔ ∃ key ∈ (nodes.filter isCallRecord).map contextKey,
      row = { pid := key.1, context := key.2, calls := readCalls (callsOf nodes key) } := by
  rw [traceRows_eq_fold hforks, KeyedTable.mem_fold_iff key_fresh key_callStep]
  simp only [foldRow_eq_readCalls]

theorem nodup_key_traceRows (hforks : ∀ node ∈ nodes, isForkRecord node = false) :
    ((traceRows nodes).map ContextReplay.key).Nodup := by
  rw [traceRows_eq_fold hforks]
  exact KeyedTable.nodup_map_key_fold key_fresh key_callStep _

def faultFindings (calls : Tally Node) : List Finding :=
  calls.unmatched.map unmatchedFinding ++ calls.mismatched.map mismatchedFinding

/-- An exit adds the finding of its fault. -/
theorem faultFindings_step (calls : Tally Node) {node : Node} (hcloses : opensCall node = false) :
    (faultFindings (Brackets.step opensCall leavesCall calls node)).Perm
      (faultFindings calls ++ exitFindings calls node) := by
  rw [step_of_closes hcloses]
  rcases close_cases leavesCall calls node with ⟨hpending, h⟩ | ⟨active, rest, hpending, hpairs, h⟩ |
      ⟨active, rest, hpending, hpairs, h⟩ <;>
    rw [h, exitFindings, hpending, faultFindings, faultFindings]
  · rw [List.map_append, List.map_singleton]
    exact (perm_concat_swap _ _ _).symm
  · have hmatches : identityMismatch active node = false := by simpa [leavesCall] using hpairs
    dsimp only
    rw [hmatches, if_neg Bool.false_ne_true, List.append_nil]
  · have hmismatch : identityMismatch active node = true := by simpa [leavesCall] using hpairs
    dsimp only
    rw [hmismatch, if_pos rfl, List.map_append, List.map_singleton, ← List.append_assoc]

theorem faultFindings_opens (calls : Tally Node) {node : Node} (hopens : opensCall node = true) :
    faultFindings (Brackets.step opensCall leavesCall calls node) = faultFindings calls := by
  rw [step_of_opens hopens]
  rfl

/-- The findings of the nodes are those of the faults in the words of the contexts. -/
theorem findingsFrom_perm (hforks : ∀ node ∈ nodes, isForkRecord node = false) :
    (findingsFrom [] nodes).Perm ((traceRows nodes).flatMap (fun row => faultFindings row.calls)) := by
  induction nodes using List.reverseRecOn with
  | nil => exact .refl _
  | append_singleton nodes node ih =>
    have hnode := hforks node (List.mem_append_right _ List.mem_cons_self)
    have hnodes := ih fun n hn => hforks n (List.mem_append_left _ hn)
    have hrows : nodes.foldl (fun rows node => traceEffect node rows) [] = traceRows nodes := rfl
    rw [findingsFrom_concat, hrows, traceRows_concat, traceEffect, if_neg (ne_true_of_eq_false hnode), nodeFindings,
      if_neg (ne_true_of_eq_false hnode)]
    cases hcall : isCallRecord node with
    | false =>
      rw [if_neg Bool.false_ne_true, if_neg fun h => Bool.false_ne_true h.1, List.append_nil]
      exact hnodes
    | true =>
      rw [if_pos rfl]
      have hstep : (faultFindings (Brackets.step opensCall leavesCall
          (replayOf (traceRows nodes) (contextKey node)).calls node)).Perm
          (faultFindings (replayOf (traceRows nodes) (contextKey node)).calls ++
            if true = true ∧ ¬ opensCall node then exitFindings (replayOf (traceRows nodes) (contextKey node)).calls node
            else []) := by
        cases hopens : opensCall node with
        | true => rw [faultFindings_opens _ hopens, if_neg fun h => h.2 rfl, List.append_nil]
        | false =>
          rw [if_pos ⟨rfl, Bool.false_ne_true⟩]
          exact faultFindings_step _ hopens
      refine (hnodes.append_right _).trans (List.Perm.symm ?_)
      exact KeyedTable.flatMap_update_perm (fun row : ContextReplay => faultFindings row.calls) rfl hstep

/-- The calls that were entered, as far as they are left or still open. -/
def enteredCount (row : ContextReplay) : ℕ := row.calls.matched.length + row.calls.pending.length

theorem enteredCount_callStep (node : Node) (row : ContextReplay) :
    enteredCount (callStep node row) = enteredCount row + if opensCall node then 1 else 0 :=
  length_step opensCall leavesCall row.calls node

/-- Every entry of a call is counted in the row of its context. -/
theorem sum_enteredCount (hforks : ∀ node ∈ nodes, isForkRecord node = false) :
    ((traceRows nodes).map enteredCount).sum = (nodes.filter fun node => isCallRecord node && opensCall node).length := by
  induction nodes using List.reverseRecOn with
  | nil => rfl
  | append_singleton nodes node ih =>
    have hnode := hforks node (List.mem_append_right _ List.mem_cons_self)
    have hnodes := ih fun n hn => hforks n (List.mem_append_left _ hn)
    rw [traceRows_concat, traceEffect, if_neg (ne_true_of_eq_false hnode), List.filter_append, List.length_append,
      ← hnodes]
    cases hcall : isCallRecord node with
    | false => simp [hcall]
    | true =>
      have hsum := KeyedTable.sum_map_update ContextReplay.key ContextReplay.fresh (contextKey node) (callStep node)
        enteredCount (traceRows nodes) rfl
      rw [enteredCount_callStep] at hsum
      have hlast : ([node].filter fun node => isCallRecord node && opensCall node).length =
          if opensCall node then 1 else 0 := by
        cases hopens : opensCall node <;> simp [hcall, hopens]
      rw [if_pos rfl, hlast]
      change ((KeyedTable.update _ _ _ (callStep node) _).map enteredCount).sum = _
      omega

def contextCalls (model : Model) (key : ℤ × ℕ) : List Node :=
  callsOf ((sortedByContext model.nodes).map OrderedNode.node) key

section Order

variable {model : Model} {analysis : Analysis}

/-- An analysis in the order of a causal graph without a cycle goes through all nodes. -/
theorem Ran.orderedNodes_eq (h : Ran model analysis) (hacyclic : IsAcyclic model) :
    IsCausalOrder model analysis.order ∧
      analysis.orderedNodes = (analysis.ordered.getD []).map OrderedNode.node := by
  obtain ⟨horder, hcount⟩ := h.order.resolve_right fun hcycle => hcycle.1 hacyclic
  refine ⟨horder, ?_⟩
  rw [Analysis.orderedNodes, hcount, ← length_ordered_of_isCausalOrder horder, List.take_length]

theorem eq_of_originalIndex_eq {x y : OrderedNode} (hx : model.nodes[x.originalIndex]? = some x.node)
    (hy : model.nodes[y.originalIndex]? = some y.node) (h : x.originalIndex = y.originalIndex) : x = y := by
  rw [h, hy] at hx
  cases x
  cases y
  cases Option.some.inj hx
  cases h
  rfl

theorem Ran.ordered_perm (h : Ran model analysis) (horder : IsCausalOrder model analysis.order) :
    (analysis.ordered.getD []).Perm (sortedByContext model.nodes) := by
  have hnodup : (analysis.order).Nodup := horder.perm.nodup_iff.mpr List.nodup_range
  refine (List.perm_ext_iff_of_nodup hnodup.of_map (nodup_sortedByContext model.nodes).of_map).mpr fun x => ?_
  rw [mem_sortedByContext]
  constructor
  · exact h.ordered x
  · intro hx
    have hindex : x.originalIndex ∈ analysis.order :=
      horder.perm.mem_iff.mpr (List.mem_range.mpr (List.getElem?_eq_some_iff.mp hx).1)
    obtain ⟨y, hy, heq⟩ := List.mem_map.mp hindex
    rw [← eq_of_originalIndex_eq (h.ordered y hy) hx heq]
    exact hy

theorem map_node_sortedByContext_perm (nodes : List Node) :
    ((sortedByContext nodes).map OrderedNode.node).Perm nodes := by
  have hperm := (List.perm_insertionSort orderedNodeLe (indexedNodes nodes)).map OrderedNode.node
  have hindexed : (indexedNodes nodes).map OrderedNode.node = nodes := by
    rw [indexedNodes, List.map_map]
    exact List.zipIdx_map_fst 0 nodes
  rwa [hindexed] at hperm

theorem Ran.orderedNodes_perm (h : Ran model analysis) (hacyclic : IsAcyclic model) :
    analysis.orderedNodes.Perm model.nodes := by
  obtain ⟨horder, hnodes⟩ := h.orderedNodes_eq hacyclic
  rw [hnodes]
  exact ((h.ordered_perm horder).map OrderedNode.node).trans (map_node_sortedByContext_perm model.nodes)

/-- Nodes of one context stand in sequence order. -/
theorem Ran.pairwise_ordered (h : Ran model analysis) (horder : IsCausalOrder model analysis.order) :
    (analysis.ordered.getD []).Pairwise fun x y => sameContext x.node y.node = true → orderedNodeLe x y := by
  refine List.pairwise_iff_getElem.mpr fun i j hi hj hij hsame => ?_
  have hnot : ¬ InContextOrder model.nodes ((analysis.ordered.getD [])[j]).originalIndex
      ((analysis.ordered.getD [])[i]).originalIndex := by
    intro hreversed
    have hlt := horder.contexts _ _ hreversed
    rw [idxOf_originalIndex horder hi, idxOf_originalIndex horder hj] at hlt
    omega
  have hcontexts := sameContext_iff.mp hsame
  have hseq : ¬ (((analysis.ordered.getD [])[j]).node.sequence < ((analysis.ordered.getD [])[i]).node.sequence ∨
      ((analysis.ordered.getD [])[j]).node.sequence = ((analysis.ordered.getD [])[i]).node.sequence ∧
        ((analysis.ordered.getD [])[j]).originalIndex < ((analysis.ordered.getD [])[i]).originalIndex) := by
    intro hless
    refine hnot ⟨_, _, h.ordered _ (List.getElem_mem hj), h.ordered _ (List.getElem_mem hi), ?_, hless⟩
    exact sameContext_iff.mpr ⟨hcontexts.1.symm, hcontexts.2.symm⟩
  rw [orderedNodeLe, if_neg (not_not_intro hcontexts.1), if_neg (not_not_intro hcontexts.2)]
  split
  · omega
  · omega

theorem orderedNodeLe_antisymm {x y : OrderedNode} (h : orderedNodeLe x y) (h' : orderedNodeLe y x) :
    x.originalIndex = y.originalIndex := by
  unfold orderedNodeLe at h h'
  grind

/-- The calls of a context come in sequence order, however the contexts interleave. -/
theorem Ran.callsOf_orderedNodes (h : Ran model analysis) (hacyclic : IsAcyclic model) (key : ℤ × ℕ) :
    callsOf analysis.orderedNodes key = contextCalls model key := by
  obtain ⟨horder, hnodes⟩ := h.orderedNodes_eq hacyclic
  have hsame : ∀ x y : OrderedNode, isCallOf key x.node = true → isCallOf key y.node = true →
      sameContext x.node y.node = true := by
    intro x y hx hy
    have hkeys : contextKey x.node = contextKey y.node :=
      (of_decide_eq_true hx).2.trans (of_decide_eq_true hy).2.symm
    exact sameContext_iff.mpr (Prod.mk.inj hkeys)
  have hsorted : ((analysis.ordered.getD []).filter (isCallOf key ∘ OrderedNode.node)).Pairwise orderedNodeLe :=
    List.pairwise_filter.mpr ((h.pairwise_ordered horder).imp fun hxy hx hy => hxy (hsame _ _ hx hy))
  have hcontext := (pairwise_sortedByContext model.nodes).filter (isCallOf key ∘ OrderedNode.node)
  have hfiltered := List.Perm.eq_of_pairwise (fun x y hx hy hxy hyx =>
    eq_of_originalIndex_eq (h.ordered x (List.mem_of_mem_filter hx))
      (mem_sortedByContext.mp (List.mem_of_mem_filter hy)) (orderedNodeLe_antisymm hxy hyx))
    hsorted hcontext ((h.ordered_perm horder).filter _)
  rw [contextCalls, callsOf, callsOf, hnodes, List.filter_map, List.filter_map, hfiltered]

end Order

end ToolEvent.ModelAnalysis
