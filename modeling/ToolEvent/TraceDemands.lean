import ToolEvent.PassDemands
import ToolEvent.TraceChains

/-!
# What the trace pass demands

The trace pass asks for its two arrays, for the storage of a line for every call, and for the storage of
its findings. It succeeds exactly when these demands are met, the texts fit and the table of the
contexts has a slot for every context.
-/

namespace ToolEvent.ModelAnalysis

open Fallible World RunModel Brackets LatestMatch

/-- The contexts are asked for one after the other. -/
def askAll (keys : List (ℤ × ℕ)) (rows : List ContextReplay) : List ContextReplay :=
  keys.foldl (fun rows key => ask key rows) rows

theorem map_key_ask (key : ℤ × ℕ) (rows : List ContextReplay) :
    (ask key rows).map ContextReplay.key =
      if key ∈ rows.map ContextReplay.key then rows.map ContextReplay.key else rows.map ContextReplay.key ++ [key] := by
  convert KeyedTable.map_key_update (f := id) (key_fresh key) (fun _ => rfl) rows
  rfl

/-- A context that is asked for gets a row when it has none. -/
theorem length_ask (key : ℤ × ℕ) (rows : List ContextReplay) :
    (ask key rows).length = if key ∈ rows.map ContextReplay.key then rows.length else rows.length + 1 := by
  rw [← List.length_map ContextReplay.key, map_key_ask]
  split
  · rw [List.length_map]
  · rw [List.length_append, List.length_map, List.length_singleton]

theorem length_le_ask (key : ℤ × ℕ) (rows : List ContextReplay) : rows.length ≤ (ask key rows).length := by
  rw [length_ask]
  split <;> omega

theorem length_le_askAll (keys : List (ℤ × ℕ)) (rows : List ContextReplay) :
    rows.length ≤ (askAll keys rows).length := by
  induction keys generalizing rows with
  | nil => exact Nat.le_refl _
  | cons key keys ih => exact (length_le_ask key rows).trans (ih (ask key rows))

theorem map_key_changeCalls (key : ℤ × ℕ) (f : Brackets.Tally Node → Brackets.Tally Node) (rows : List ContextReplay) :
    (changeCalls key f rows).map ContextReplay.key = (ask key rows).map ContextReplay.key := by
  rw [map_key_ask]
  convert KeyedTable.map_key_update (f := ContextReplay.withCalls f) (key_fresh key) (fun _ => rfl) rows
  rfl

theorem ask_of_mem {key : ℤ × ℕ} {rows : List ContextReplay} (h : key ∈ rows.map ContextReplay.key) :
    (ask key rows).map ContextReplay.key = rows.map ContextReplay.key := by
  rw [map_key_ask, if_pos h]

theorem mem_map_key_ask (key : ℤ × ℕ) (rows : List ContextReplay) : key ∈ (ask key rows).map ContextReplay.key := by
  rw [map_key_ask]
  split
  · assumption
  · exact List.mem_append_right _ List.mem_cons_self

/-- A node adds the contexts that it asks for. -/
theorem map_key_traceEffect (node : Node) (rows : List ContextReplay) :
    (traceEffect node rows).map ContextReplay.key = (askAll (askedKeys node) rows).map ContextReplay.key := by
  rw [traceEffect, askedKeys]
  split
  · rw [forkEffect, map_key_changeCalls, ask_of_mem (mem_map_key_ask _ _)]
    rfl
  · split
    · exact map_key_changeCalls _ _ _
    · rfl

theorem length_traceEffect (node : Node) (rows : List ContextReplay) :
    (traceEffect node rows).length = (askAll (askedKeys node) rows).length := by
  rw [← List.length_map ContextReplay.key, map_key_traceEffect, List.length_map]

/-- The table has a slot for every context that a node asks for. -/
def ContextsHeld (node : Node) (rows : List ContextReplay) (slots : ℕ) : Prop :=
  (askAll (askedKeys node) rows).length ≤ slots

/-- What a node demands: the storage of its line and of its finding. -/
def nodeDemands (node : Node) (rows : List ContextReplay) : List Demand :=
  if isForkRecord node then []
  else if isCallRecord node then .line (nodeLine node rows).length :: (nodeFindings node rows).map .finding
  else []

variable {nodes : List Node} {rows : List ContextReplay} {w : World TraceState} {node : Node}

theorem refuses_iff_of_represents (h : Represents nodes rows w.state) (key : ℤ × ℕ) :
    w.state.1.Refuses key ↔ key ∉ rows.map ContextReplay.key ∧ w.state.1.orderedCount ≤ rows.length := by
  rw [h.refuses_iff, List.findIdx?_eq_none_iff]
  simp

theorem demands_traceContext (h : Represents nodes rows w.state) (hrows : rows.length ≤ w.state.1.orderedCount)
    (key : ℤ × ℕ) : Demands Supply.meet passSupply (traceContext key.1 key.2) w
      ((ask key rows).length ≤ w.state.1.orderedCount) [] := by
  have hlength := length_ask key rows
  have hrefuses := refuses_iff_of_represents h key
  refine (ends_traceContext h key).imp (fun index w' hw' => ?_) fun w' hw' hroom => ?_
  · obtain ⟨hnot, houtcomes, -, -, contexts, hstate⟩ := hw'
    constructor
    · rw [hrefuses, not_and_or, not_not, Nat.not_le] at hnot
      split at hlength
      · omega
      · next hnew =>
        have hfree := hnot.resolve_left hnew
        omega
    · rw [List.foldlM_nil, passSupply, passSupply, houtcomes, hstate]
      rfl
  · rw [hrefuses] at hw'
    rw [if_neg hw'.1.1] at hlength
    omega

theorem demands_callLine (node : Node) (depth : ℕ) (entering : Bool) (w : World TraceState) :
    Demands Supply.meet passSupply (appendTraceLine node depth entering) w
      ((traceLine node depth entering).length < traceLineSize) [.line (traceLine node depth entering).length] := by
  rw [appendTraceLine]
  split
  · next hfits => exact (demands_onFirst (demands_appendTrace _ _)).congr (iff_true_intro hfits)
  · next hlong => exact demands_fail hlong

theorem demands_addTraceFinding (identifier message : String) (node : Node) (w : World TraceState) :
    Demands Supply.meet passSupply (addTraceFinding identifier message node) w
      (node.callName.length < evidenceTextSize) [.finding (traceFinding identifier message node)] := by
  refine (demands_onFirst (demands_addFinding _ _ _ _ _ _ _ _)).congr ⟨fun hfits => ⟨?_, ?_, hfits⟩, fun hfits => hfits.2.2⟩ <;>
    exact (by decide : (Text.empty).length < evidenceTextSize)

theorem demands_updateContext (index : ℕ) (f : TraceContext → TraceContext) (w : World TraceState) :
    Demands Supply.meet passSupply (updateContext index f) w True [] := demands_updateState rfl

theorem demands_traceEnter (index : ℕ) (node : Node) (context : ℕ) (c : TraceContext) (w : World TraceState) :
    Demands Supply.meet passSupply (traceEnter index node context c) w
      ((traceLine node c.depth true).length < traceLineSize) [.line (traceLine node c.depth true).length] := by
  refine ((demands_callLine node c.depth true w).bind fun _ w' _ => demands_readState_bind
    (Demands.before (demands_updateState rfl) fun _ v _ => demands_updateContext _ _ v)).congr ?_
  exact (and_iff_left trivial).symm

theorem demands_settleExit (h : Represents nodes rows w.state) {context : ℕ} {c : TraceContext}
    (hrep : RepresentsContext nodes w.state.2 c (replayOf rows (contextKey node))) :
    Demands Supply.meet passSupply (settleExit node context c.top) w
      (exitFindings (replayOf rows (contextKey node)).calls node ≠ [] → node.callName.length < evidenceTextSize)
      ((exitFindings (replayOf rows (contextKey node)).calls node).map .finding) := by
  apply demands_readState_bind
  cases htop : c.top with
  | none =>
    have hpending := LinkedStacks.Holds.eq_nil (htop ▸ hrep.calls)
    have hfindings : exitFindings (replayOf rows (contextKey node)).calls node = [unmatchedFinding node] := by
      rw [exitFindings, hpending]
    rw [hfindings]
    exact ((demands_updateContext _ _ w).before fun _ w' _ => demands_addTraceFinding _ _ node w').congr
      (forall_prop_of_true (List.cons_ne_nil _ _))
  | some top =>
    obtain ⟨active, below, rest, hread, hpending, -⟩ := LinkedStacks.Holds.exists_cons (htop ▸ hrep.calls)
    obtain ⟨entry, hentry, rfl⟩ := stackedNode_eq h.ordered hread
    dsimp only
    rw [hentry, exitFindings, hpending]
    dsimp only
    cases hmismatch : identityMismatch active node with
    | true =>
      exact ((demands_updateContext _ _ w).before fun _ w' _ => demands_addTraceFinding _ _ node w').congr
        (forall_prop_of_true (List.cons_ne_nil _ _))
    | false => exact (demands_updateContext _ _ w).congr (iff_true_intro fun hne => absurd rfl hne)

theorem demands_traceExit (h : Represents nodes rows w.state) {context : ℕ} {c : TraceContext}
    (hrep : RepresentsContext nodes w.state.2 c (replayOf rows (contextKey node))) :
    Demands Supply.meet passSupply (traceExit node context c) w
      ((traceLine node (c.depth - 1) false).length < traceLineSize ∧
        (exitFindings (replayOf rows (contextKey node)).calls node ≠ [] → node.callName.length < evidenceTextSize))
      (.line (traceLine node (c.depth - 1) false).length ::
        (exitFindings (replayOf rows (contextKey node)).calls node).map .finding) := by
  rw [traceExit_eq]
  refine (demands_callLine node (c.depth - 1) false w).bind fun _ w' hrun => ?_
  obtain ⟨-, -, hadvance, hstack, -⟩ := (ends_callLine h node (c.depth - 1) false).ok hrun
  exact demands_settleExit hadvance.represents (hstack ▸ hrep)

/-- A fork demands nothing but the contexts of the parent and of the child. -/
theorem demands_traceFork (h : Represents nodes rows w.state) (hrows : rows.length ≤ w.state.1.orderedCount)
    (hfork : isForkRecord node = true) : Demands Supply.meet passSupply (traceFork node) w
      (ContextsHeld node rows w.state.1.orderedCount) [] := by
  have hasks : askedKeys node = [contextKey node, childKey node] := if_pos hfork
  have hheld : ContextsHeld node rows w.state.1.orderedCount ↔ (ask (contextKey node) rows).length ≤ w.state.1.orderedCount ∧
      (ask (childKey node) (ask (contextKey node) rows)).length ≤ w.state.1.orderedCount := by
    rw [ContextsHeld, hasks]
    exact ⟨fun hlast => ⟨(length_le_ask _ _).trans hlast, hlast⟩, And.right⟩
  refine ((demands_traceContext h hrows (contextKey node)).bind fun parent w₁ hfirst => ?_).congr hheld
  obtain ⟨hfits, -⟩ := Ends.ok (demands_traceContext h hrows (contextKey node)) hfirst
  obtain ⟨-, -, hparent, hrep₁, contexts₁, hstate₁⟩ := (ends_traceContext h (contextKey node)).ok hfirst
  have hcount₁ : w₁.state.1.orderedCount = w.state.1.orderedCount := by rw [hstate₁]
  rw [← hcount₁] at hfits ⊢
  refine ((demands_traceContext hrep₁ hfits (childKey node)).bind fun child w₂ hsecond => ?_).congr (and_iff_left trivial).symm
  obtain ⟨-, -, hchild, hrep₂, -⟩ := (ends_traceContext hrep₁ (childKey node)).ok hsecond
  obtain ⟨p, hp, hparentRep⟩ := hrep₂.exists_context (hparent.ask (childKey node))
  apply demands_readState_bind
  rw [hp]
  refine (demands_updateContext _ _ w₂).before fun _ w₃ _ => ?_
  cases htop : p.top with
  | none => exact demands_pure () trivial
  | some top =>
    obtain ⟨active, below, rest, hread, -, -⟩ := LinkedStacks.Holds.exists_cons (htop ▸ hparentRep.calls)
    obtain ⟨entry, hentry, -⟩ := stackedNode_eq hrep₂.ordered hread
    dsimp only
    rw [hentry]
    dsimp only
    split
    · exact demands_updateContext _ _ w₃
    · exact demands_pure () trivial

theorem demands_call (h : Represents nodes rows w.state) (index context : ℕ) {c : TraceContext}
    (hfork : isForkRecord node = false) (hcall : isCallRecord node = true)
    (hrep : RepresentsContext nodes w.state.2 c (replayOf rows (contextKey node))) :
    Demands Supply.meet passSupply
      (if node.callKind = .enter then traceEnter index node context c else traceExit node context c) w
      (NodeFits node rows) (nodeDemands node rows) := by
  have hdemands : nodeDemands node rows =
      .line (nodeLine node rows).length :: (nodeFindings node rows).map .finding := by
    rw [nodeDemands, if_neg (ne_true_of_eq_false hfork), if_pos hcall]
  have hline : nodeLine node rows =
      traceLine node (lineDepth node (replayOf rows (contextKey node)).calls) (opensCall node) := by
    rw [nodeLine, if_neg (ne_true_of_eq_false hfork), if_pos hcall]
  cases hopens : opensCall node with
  | true =>
    have hfindings : nodeFindings node rows = [] := by
      rw [nodeFindings, if_neg (ne_true_of_eq_false hfork), if_neg fun hexit => hexit.2 hopens]
    have hdepth : lineDepth node (replayOf rows (contextKey node)).calls = c.depth := by
      rw [lineDepth, if_pos hopens, hrep.depth]
    rw [if_pos (of_decide_eq_true hopens), NodeFits, hdemands, hline, hfindings, hopens, hdepth]
    exact (demands_traceEnter index node context c w).congr (and_iff_left fun hne => absurd rfl hne)
  | false =>
    have hfindings : nodeFindings node rows = exitFindings (replayOf rows (contextKey node)).calls node := by
      rw [nodeFindings, if_neg (ne_true_of_eq_false hfork), if_pos ⟨hcall, ne_true_of_eq_false hopens⟩]
    have hdepth : lineDepth node (replayOf rows (contextKey node)).calls = c.depth - 1 := by
      rw [lineDepth, if_neg (ne_true_of_eq_false hopens), hrep.depth]
    rw [if_neg (of_decide_eq_false hopens), NodeFits, hdemands, hline, hfindings, hopens, hdepth]
    exact demands_traceExit h hrep

/-- One iteration of the loop of the pass. -/
theorem demands_traceNode (h : Represents nodes rows w.state) (hrows : rows.length ≤ w.state.1.orderedCount) (node : Node)
    (index : ℕ) :
    Demands Supply.meet passSupply (traceNode (node, index)) w
      (ContextsHeld node rows w.state.1.orderedCount ∧ NodeFits node rows) (nodeDemands node rows) := by
  have hempty : Text.empty.length < traceLineSize := by decide
  unfold traceNode
  dsimp only
  cases hfork : isForkRecord node with
  | true =>
    have hfits : NodeFits node rows := by
      rw [NodeFits, nodeLine, nodeFindings, if_pos hfork, if_pos hfork]
      exact ⟨hempty, fun hne => absurd rfl hne⟩
    rw [if_pos (of_decide_eq_true hfork), nodeDemands, if_pos hfork]
    exact (demands_traceFork h hrows hfork).congr (and_iff_left hfits)
  | false =>
    have hasks : askedKeys node = if isCallRecord node then [contextKey node] else [] := if_neg (ne_true_of_eq_false hfork)
    rw [if_neg (of_decide_eq_false hfork), nodeDemands, if_neg (ne_true_of_eq_false hfork)]
    cases hcall : isCallRecord node with
    | false =>
      have hfits : NodeFits node rows := by
        rw [NodeFits, nodeLine, nodeFindings, if_neg (ne_true_of_eq_false hfork), if_neg (ne_true_of_eq_false hcall),
          if_neg (ne_true_of_eq_false hfork), if_neg fun hexit => ne_true_of_eq_false hcall hexit.1]
        exact ⟨hempty, fun hne => absurd rfl hne⟩
      have hheld : ContextsHeld node rows w.state.1.orderedCount := by
        rw [ContextsHeld, hasks, if_neg (ne_true_of_eq_false hcall)]
        exact hrows
      rw [if_pos (of_decide_eq_false hcall), if_neg Bool.false_ne_true]
      exact demands_pure () ⟨hheld, hfits⟩
    | true =>
      have hheld : ContextsHeld node rows w.state.1.orderedCount ↔
          (ask (contextKey node) rows).length ≤ w.state.1.orderedCount := by
        rw [ContextsHeld, hasks, if_pos hcall]
        rfl
      have hcounted : Represents nodes rows ({ w.state.1 with callRecords := w.state.1.callRecords + 1 }, w.state.2) :=
        h.congr rfl rfl rfl
      rw [if_neg (not_not_intro (of_decide_eq_true hcall)), if_pos rfl]
      refine Demands.before (demands_updateState rfl) fun _ w₁ hfirst => ?_
      obtain ⟨-, rfl⟩ := Prod.mk.inj hfirst
      have hcontext := demands_traceContext (w := ⟨_, w.outcomes⟩) hcounted hrows (contextKey node)
      refine (hcontext.bind fun context w' hask => ?_).congr (and_congr_left' hheld)
      obtain ⟨-, -, hrow, hrep, -⟩ := (ends_traceContext (w := ⟨_, w.outcomes⟩) hcounted (contextKey node)).ok hask
      obtain ⟨c, hc, hrepc⟩ := hrep.exists_context hrow
      apply demands_readState_bind
      rw [hc]
      have hasked : NodeFits node (ask (contextKey node) rows) = NodeFits node rows ∧
          nodeDemands node (ask (contextKey node) rows) = nodeDemands node rows := by
        refine ⟨?_, ?_⟩
        · rw [NodeFits, NodeFits, nodeLine, nodeLine, nodeFindings, nodeFindings, replayOf_ask]
        · rw [nodeDemands, nodeDemands, nodeLine, nodeLine, nodeFindings, nodeFindings, replayOf_ask]
      have hleaves := demands_call hrep index context hfork hcall hrepc
      rw [hasked.1, hasked.2, nodeDemands, if_neg (ne_true_of_eq_false hfork), if_pos hcall] at hleaves
      exact hleaves

def demandsFrom : List ContextReplay → List Node → List Demand
  | _, [] => []
  | rows, node :: nodes => nodeDemands node rows ++ demandsFrom (traceEffect node rows) nodes

theorem demandsFrom_concat (rows : List ContextReplay) (before : List Node) (node : Node) :
    demandsFrom rows (before ++ [node]) = demandsFrom rows before ++
      nodeDemands node (before.foldl (fun rows node => traceEffect node rows) rows) := by
  induction before generalizing rows with
  | nil => exact List.append_nil _
  | cons first before ih =>
    rw [List.cons_append, demandsFrom, demandsFrom, ih, List.append_assoc]
    rfl

def traceDemands (before : List Node) : List Demand := demandsFrom [] before

theorem nodesFit_nil : NodesFit [] := fun before node after hnil =>
  absurd hnil.symm (List.append_ne_nil_of_right_ne_nil before (List.cons_ne_nil node after))

theorem demands_traceNodes (h : Represents nodes [] w.state) {first : List Node} (hfirst : first <+: nodes) :
    Demands Supply.meet passSupply (forEach traceNode first.zipIdx) w
      ((traceRows first).length ≤ w.state.1.orderedCount ∧ NodesFit first) (traceDemands first) := by
  induction first using List.reverseRecOn with
  | nil => exact demands_pure () ⟨Nat.zero_le _, nodesFit_nil⟩
  | append_singleton first node ih =>
    have hprefix : first <+: nodes := (List.prefix_append first [node]).trans hfirst
    have hsplit : ∀ v, forEach traceNode (first ++ [node]).zipIdx v =
        (forEach traceNode first.zipIdx >>= fun _ => forEach traceNode [(node, first.length)]) v := by
      intro v
      rw [List.zipIdx_append, Nat.zero_add]
      exact run_forEach_append _ _ _ v
    have hrows : (traceRows (first ++ [node])).length = (askAll (askedKeys node) (traceRows first)).length := by
      rw [traceRows_concat, length_traceEffect]
    have hlength := length_le_askAll (askedKeys node) (traceRows first)
    have hdemands : traceDemands (first ++ [node]) = traceDemands first ++ (nodeDemands node (traceRows first) ++ []) := by
      rw [List.append_nil]
      exact demandsFrom_concat [] first node
    rw [hdemands, hrows, nodesFit_concat]
    have hnode : ∀ (u : Unit) w', forEach traceNode first.zipIdx w = (.ok u, w') →
        Demands Supply.meet passSupply (forEach traceNode [(node, first.length)]) w'
          (ContextsHeld node (traceRows first) w.state.1.orderedCount ∧ NodeFits node (traceRows first))
          (nodeDemands node (traceRows first) ++ []) := by
      intro u w' hrun
      obtain ⟨-, -, hadvance⟩ := Ends.ok (follows_traceNodes h hprefix) hrun
      obtain ⟨⟨hroom, -⟩, -⟩ := Ends.ok (ih hprefix) hrun
      rw [← hadvance.orderedCount] at hroom ⊢
      have hlast := demands_traceNode hadvance.represents hroom node first.length
      exact (hlast.bind fun _ _ _ => demands_pure () trivial).congr (and_iff_left trivial).symm
    refine Ends.congr (hsplit w) (((ih hprefix).bind hnode).congr ⟨?_, ?_⟩)
    · rintro ⟨hroom, hfits, hlast⟩
      exact ⟨⟨hlength.trans hroom, hfits⟩, hroom, hlast⟩
    · rintro ⟨⟨-, hfits⟩, hroom, hlast⟩
      exact ⟨hroom, hfits, hlast⟩

theorem demands_reportOpenCalls (calls : List Node) (w : World TraceState) :
    Demands Supply.meet passSupply (forEach reportOpenCall calls) w
      (∀ node ∈ calls, node.callName.length < evidenceTextSize) (calls.map fun node => .finding (openFinding node)) := by
  rw [List.map_eq_flatMap]
  exact demands_forEach (I := fun _ => True) (fun node _ w _ => demands_addTraceFinding _ _ node w)
    (fun _ _ _ _ _ => trivial) trivial

/-- The demands of `analyze_trace`. -/
def tracePassDemands (nodes : List Node) : List Demand :=
  .arrays 2 :: (traceDemands nodes ++ (openCalls (traceRows nodes)).map fun node => .finding (openFinding node))

/-- The pass succeeds exactly when its demands are met, its texts fit, and the contexts have slots. -/
theorem demands_analyzeTrace {w : World Analysis} (hempty : w.state.traceContexts = []) :
    Demands Supply.meet supplyOf analyzeTrace w
      ((traceRows w.state.orderedNodes).length ≤ w.state.orderedCount ∧ TraceFits w.state.orderedNodes)
      (tracePassDemands w.state.orderedNodes) := by
  have hstart : Represents w.state.orderedNodes [] (w.state, ([] : List TraceStackEntry)) :=
    ⟨rfl, by rw [hempty]; exact .nil⟩
  refine demands_withLocals (demands_arrays (fun s : TraceState => s.1.room) 2 (demands_readState_bind ?_))
  have hloop := demands_traceNodes (w := ⟨(w.state, []), w.outcomes.drop 2⟩) hstart List.prefix_rfl
  refine (hloop.bind fun u v hrun => ?_).congr and_assoc.symm
  obtain ⟨-, -, hadvance⟩ :=
    Ends.ok (follows_traceNodes (w := ⟨(w.state, []), w.outcomes.drop 2⟩) hstart List.prefix_rfl) hrun
  have hrep := hadvance.represents
  apply demands_readState_bind
  exact Ends.congr (reportContexts_eq hrep.ordered hrep.contexts (Nat.le_succ _)) (demands_reportOpenCalls _ v)

end ToolEvent.ModelAnalysis
