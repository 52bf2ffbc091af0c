import ToolEvent.AnalysisRun
import ToolEvent.TraceSimulation

/-!
# The chains of open calls

The contexts of the trace pass share one stack, whose entries are linked downward. After
every node the depth of a context is the length of its chain, also where a fork has let two
contexts share one, so that the loop over the calls left open ends and reports each of them.
-/

namespace ToolEvent.ModelAnalysis

open Fallible World RunModel LatestMatch

def Backward (stack : List TraceStackEntry) : Prop :=
  ∀ i (entry : TraceStackEntry), stack[i]? = some entry → ∀ j ∈ entry.previous, j < i

theorem backward_nil : Backward [] := by
  intro i entry h
  cases h

theorem Backward.push {stack : List TraceStackEntry} (h : Backward stack) {entry : TraceStackEntry}
    (hentry : ∀ j ∈ entry.previous, j < stack.length) : Backward (stack ++ [entry]) := by
  intro i other hother j hj
  rcases lt_or_ge i stack.length with hlt | hge
  · rw [List.getElem?_append_left hlt] at hother
    exact h i other hother j hj
  · rw [List.getElem?_append_right hge, List.getElem?_singleton] at hother
    split at hother
    · cases hother
      have hbound := hentry j hj
      omega
    · cases hother

abbrev SameStack (s t : TraceState) : Prop := t.2 = s.2

instance : AdmitsObject SameStack where
  refl := fun _ => rfl
  trans := fun _ _ _ h h' => h'.trans h
  object := fun _ _ _ h => h

variable {nodes : List Node} {rows : List ContextReplay} {w : World TraceState}

theorem ends_sameStack {α : Type} {x : Routine TraceState α} (hx : Obeys SameStack x) (hback : Backward w.state.2) :
    Ends x w (fun _ w' => Backward w'.state.2) (fun _ => True) := by
  refine (hx.ends w).imp (fun _ w' hw' => ?_) fun _ _ => trivial
  rw [hw'.1]
  exact hback

/-- An entered call is linked to the top of its context. -/
theorem ends_traceEnter_backward (hback : Backward w.state.2) {node : Node} {index context : ℕ} {c : TraceContext}
    (htop : ∀ j ∈ c.top, j < w.state.2.length) :
    Ends (traceEnter index node context c) w (fun _ w' => Backward w'.state.2) (fun _ => True) := by
  have hline : Obeys SameStack (appendTraceLine node c.depth true) := obeys_appendTraceLine node c.depth true
  refine ((hline.ends w).imp (fun _ _ h => h) fun _ _ => trivial).bind fun _ w' hw' => ?_
  refine ends_readState_bind (ends_updateState_bind (ends_updateState ?_))
  have hstack : w'.state.2 = w.state.2 := hw'.1
  change Backward (w'.state.2 ++ [⟨index, c.top⟩])
  rw [hstack]
  exact hback.push htop

/-- One iteration of the loop of the pass keeps the links of the stack. -/
theorem ends_traceNode_backward (h : Represents nodes rows w.state) (hback : Backward w.state.2) (x : Node × ℕ) :
    Ends (traceNode x) w (fun _ w' => Backward w'.state.2) (fun _ => True) := by
  obtain ⟨node, index⟩ := x
  unfold traceNode
  dsimp only
  refine Ends.ite (fun _ => ends_sameStack (obeys_traceFork node) hback) fun _ => ?_
  refine Ends.ite (fun _ => ends_pure hback) fun _ => ?_
  apply ends_updateState_bind
  have hcounted : Represents nodes rows ({ w.state.1 with callRecords := w.state.1.callRecords + 1 }, w.state.2) :=
    h.congr rfl rfl rfl
  refine ((ends_traceContext (w := ⟨_, w.outcomes⟩) hcounted (contextKey node)).imp (fun _ _ h => h)
    fun _ _ => trivial).bind fun context w' hw' => ?_
  obtain ⟨-, -, hrow, hrep, contexts, hstate⟩ := hw'
  obtain ⟨c, hc, hrepc⟩ := hrep.exists_context hrow
  have hback' : Backward w'.state.2 := by
    rw [hstate]
    exact hback
  apply ends_readState_bind
  rw [hc]
  refine Ends.ite (fun _ => ends_traceEnter_backward hback' ?_) fun _ => ends_sameStack (obeys_traceExit _ _ _) hback'
  exact hrepc.calls.lt_of_read fun i x => lt_length_of_readEntry i x

/-- The links of the stack after the loop over the first nodes. -/
theorem ends_traceNodes_backward (h : Represents nodes [] w.state) (hback : Backward w.state.2) {first : List Node}
    (hfirst : first <+: nodes) :
    Ends (forEach traceNode first.zipIdx) w (fun _ w' => Backward w'.state.2) (fun _ => True) := by
  induction first using List.reverseRecOn with
  | nil => exact ends_pure hback
  | append_singleton first node ih =>
    have hprefix : first <+: nodes := (List.prefix_append first [node]).trans hfirst
    have hsplit : ∀ v, forEach traceNode (first ++ [node]).zipIdx v =
        (forEach traceNode first.zipIdx >>= fun _ => forEach traceNode [(node, first.length)]) v := by
      intro v
      rw [List.zipIdx_append, Nat.zero_add]
      exact run_forEach_append _ _ _ v
    refine Ends.congr (hsplit w) ?_
    refine ((Ends.and (follows_traceNodes h hprefix) (ih hprefix)).imp (fun _ _ h => h) fun _ _ => trivial).bind
      fun _ w' hw' => ?_
    obtain ⟨⟨-, -, hadvance⟩, hback'⟩ := hw'
    exact (ends_traceNode_backward hadvance.represents hback' (node, first.length)).bind fun _ _ h => ends_pure h

/-- The last loop of `analyze_trace`. -/
def closeContexts : Routine TraceState Unit := do
  let (analysis, stack) ← readState
  forEach (fun c : TraceContext => reportOpenCalls (stack.length + 1) c.top) analysis.traceContexts

def reportOpenCall (node : Node) : Routine TraceState Unit :=
  addTraceFinding "P101-TRACE-003" "call remained open at the end of the event stream" node

theorem reportOpenCall_keeps {node : Node} {w w' : World TraceState} (hrun : reportOpenCall node w = (.ok (), w')) :
    w'.state.2 = w.state.2 ∧ w'.state.1.orderedNodes = w.state.1.orderedNodes := by
  obtain ⟨-, -, hstate⟩ := (ends_addTraceFinding _ _ node w).ok hrun
  rw [hstate]
  exact ⟨rfl, rfl⟩

/-- The loop along a chain reports its calls one after the other. -/
theorem reportOpenCalls_eq {calls : List Node} {top : Option ℕ} {fuel : ℕ} {w : World TraceState}
    (hordered : w.state.1.orderedNodes = nodes) (hcalls : LinkedStacks.Holds (readEntry nodes w.state.2) top calls)
    (hfuel : calls.length ≤ fuel) : reportOpenCalls fuel top w = forEach reportOpenCall calls w := by
  induction calls generalizing top fuel w with
  | nil =>
    cases hcalls
    cases fuel <;> rfl
  | cons node calls ih =>
    cases hcalls with
    | @cons top _ below _ hread _ hrest =>
      obtain ⟨fuel, rfl⟩ : ∃ n, fuel = n + 1 := Nat.exists_eq_succ_of_ne_zero (by simp at hfuel; omega)
      obtain ⟨entry, hentry, rfl⟩ := stackedNode_eq hordered hread
      rw [reportOpenCalls, run_readState_bind, hentry, forEach]
      dsimp only
      change (reportOpenCall node >>= fun _ => reportOpenCalls fuel entry.previous) w = _
      rw [run_bind, run_bind]
      rcases hrun : reportOpenCall node w with ⟨⟨e⟩ | ⟨⟨⟩⟩, w'⟩
      · rfl
      · obtain ⟨hstack, hnodes⟩ := reportOpenCall_keeps hrun
        exact ih (hnodes.trans hordered) (hstack ▸ hrest) (Nat.le_of_succ_le_succ hfuel)

theorem forEach_reportOpenCall_keeps {calls : List Node} {w w' : World TraceState}
    (hrun : forEach reportOpenCall calls w = (.ok (), w')) :
    w'.state.2 = w.state.2 ∧ w'.state.1.orderedNodes = w.state.1.orderedNodes := by
  induction calls generalizing w with
  | nil =>
    cases hrun
    exact ⟨rfl, rfl⟩
  | cons node calls ih =>
    obtain ⟨⟨⟩, v, hfirst, hrest⟩ := run_bind_eq_ok.mp hrun
    obtain ⟨hstack, hnodes⟩ := reportOpenCall_keeps hfirst
    obtain ⟨hstack', hnodes'⟩ := ih hrest
    exact ⟨hstack'.trans hstack, hnodes'.trans hnodes⟩

/-- The loop over the contexts reports the calls of all chains. -/
theorem reportContexts_eq {contexts : List TraceContext} {fuel : ℕ} {w : World TraceState}
    (hordered : w.state.1.orderedNodes = nodes)
    (hcontexts : List.Forall₂ (RepresentsContext nodes w.state.2) contexts rows) (hfuel : w.state.2.length ≤ fuel) :
    forEach (fun c : TraceContext => reportOpenCalls fuel c.top) contexts w =
      forEach reportOpenCall (openCalls rows) w := by
  induction contexts generalizing rows w with
  | nil =>
    cases hcontexts
    rfl
  | cons c contexts ih =>
    cases hcontexts with
    | @cons _ row _ rows hrow hrows =>
      have hlength : row.calls.pending.length ≤ fuel := by
        refine (hrow.calls.length_le ?_).trans hfuel
        exact hrow.calls.lt_of_read fun i x => lt_length_of_readEntry i x
      have hopen : openCalls (row :: rows) = row.calls.pending ++ openCalls rows := List.flatMap_cons
      rw [hopen, run_forEach_append, forEach, run_bind, run_bind, reportOpenCalls_eq hordered hrow.calls hlength]
      rcases hrun : forEach reportOpenCall row.calls.pending w with ⟨⟨e⟩ | ⟨⟨⟩⟩, w'⟩
      · rfl
      · obtain ⟨hstack, hnodes⟩ := forEach_reportOpenCall_keeps hrun
        exact ih (hnodes.trans hordered) (hstack ▸ hrows) (hstack ▸ hfuel)

theorem length_openCalls {stack : List TraceStackEntry} {contexts : List TraceContext}
    (h : List.Forall₂ (RepresentsContext nodes stack) contexts rows) :
    (openCalls rows).length = (contexts.map TraceContext.depth).sum := by
  induction h with
  | nil => rfl
  | @cons c row _ rows hrow _ ih =>
    have hopen : openCalls (row :: rows) = row.calls.pending ++ openCalls rows := List.flatMap_cons
    rw [hopen, List.length_append, ih, List.map_cons, List.sum_cons, hrow.depth]

/-- What the contexts and the stack are like after every node. -/
structure Chained (nodes : List Node) (s : TraceState) : Prop where
  backward : Backward s.2
  /-- The depth of a context is the length of the chain from its top. -/
  depth : ∀ c ∈ s.1.traceContexts,
    ∃ calls, LinkedStacks.Holds (readEntry nodes s.2) c.top calls ∧ c.depth = calls.length
  maxDepth : ∀ c ∈ s.1.traceContexts, c.depth ≤ c.maxDepth

theorem Represents.chained {s : TraceState} (h : Represents nodes rows s) (hback : Backward s.2) :
    Chained nodes s where
  backward := hback
  depth := fun c hc => by
    obtain ⟨row, -, hrow⟩ := exists_of_forall₂_left h.contexts hc
    exact ⟨row.calls.pending, hrow.calls, hrow.depth⟩
  maxDepth := fun c hc => by
    obtain ⟨row, -, hrow⟩ := exists_of_forall₂_left h.contexts hc
    exact hrow.maxDepth

/-- After every node of the pass the contexts are chained, and the last loop reports as many
calls as the depths of the contexts add up to, once each. -/
theorem traceNodes_chained {analysis : Analysis} (hempty : analysis.traceContexts = []) {first : List Node}
    (hfirst : first <+: analysis.orderedNodes) {outcomes : List Bool} {w : World TraceState}
    (hrun : forEach traceNode first.zipIdx ⟨(analysis, []), outcomes⟩ = (.ok (), w)) :
    Chained analysis.orderedNodes w.state ∧
      ∃ opened : List Node, opened.length = (w.state.1.traceContexts.map TraceContext.depth).sum ∧
        closeContexts w = forEach reportOpenCall opened w ∧
        (∀ w', closeContexts w = (.ok (), w') →
          w'.state.1.findings = w.state.1.findings ++ opened.map openFinding) ∧
        (w.outcomes = [] → (∀ node ∈ opened, node.callName.length < evidenceTextSize) →
          (closeContexts w).1 = .ok () ∨ (closeContexts w).2.state.1.Exhausted) := by
  have hstart : Represents analysis.orderedNodes [] (analysis, ([] : List TraceStackEntry)) :=
    ⟨rfl, by rw [hempty]; exact .nil⟩
  obtain ⟨-, -, hadvance⟩ := (follows_traceNodes (w := ⟨(analysis, []), outcomes⟩) hstart hfirst).ok hrun
  have hback := (ends_traceNodes_backward (w := ⟨(analysis, []), outcomes⟩) hstart backward_nil hfirst).ok hrun
  have hrep := hadvance.represents
  have hclose := ends_reportContexts hrep.ordered hrep.contexts (Nat.le_succ w.state.2.length)
  refine ⟨hrep.chained hback, openCalls (traceRows first), length_openCalls hrep.contexts,
    reportContexts_eq hrep.ordered hrep.contexts (Nat.le_succ _), fun w' hw' => (hclose.ok hw').2.2, ?_⟩
  intro hgranted hfits
  rcases hend : closeContexts w with ⟨⟨e⟩ | ⟨⟨⟩⟩, w'⟩
  · exact .inr ((hclose.error hend hgranted).resolve_left (not_not_intro hfits))
  · exact .inl rfl

/-- A call is entered, the process forks, and the child enters another call. -/
def sharedCalls : List Node :=
  [{ domain := .call, recordKind := .call, pid := 1, sequence := 1, callName := .ofString "f" },
    { domain := .resource, recordKind := .fork, pid := 1, childPid := 2, sequence := 2 },
    { domain := .call, recordKind := .call, pid := 2, sequence := 3, callName := .ofString "g" }]

def sharedTrace : Analysis where
  model := {}
  ordered := some (sharedCalls.zipIdx.map (fun x => ⟨x.1, x.2⟩))
  orderedCount := 3

/-- The chain of the child ends in that of the parent. -/
theorem chained_sharedTrace :
    Chained sharedTrace.orderedNodes
      (forEach traceNode sharedTrace.orderedNodes.zipIdx ⟨(sharedTrace, []), []⟩).2.state :=
  (traceNodes_chained rfl List.prefix_rfl (Prod.ext (by decide +kernel) rfl)).1

end ToolEvent.ModelAnalysis
