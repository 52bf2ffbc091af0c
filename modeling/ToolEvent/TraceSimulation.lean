import ToolEvent.TraceReplay

/-!
# The trace pass follows the replay

Every iteration of the pass does to the table and to the stack what the replay does to its
readers, and adds the findings of the replay. The pass stops only when a text does not fit its
buffer, or when something is used up.
-/

namespace ToolEvent.ModelAnalysis

open Fallible World RunModel Brackets LatestMatch

/-- An entry of the stack: the call that was entered, and the entry below. -/
def readEntry (nodes : List Node) (stack : List TraceStackEntry) (top : ℕ) : Option (Node × Option ℕ) :=
  stack[top]?.bind (fun entry => nodes[entry.nodeIndex]?.map (fun node => (node, entry.previous)))

/-- A context of the table stands for a reader. -/
structure RepresentsContext (nodes : List Node) (stack : List TraceStackEntry) (c : TraceContext)
    (row : ContextReplay) : Prop where
  pid : c.pid = row.pid
  context : c.context = row.context
  calls : LinkedStacks.Holds (readEntry nodes stack) c.top row.calls.pending
  depth : c.depth = row.calls.pending.length
  maxDepth : c.depth ≤ c.maxDepth
  unmatched : c.unmatched = row.calls.unmatched.length
  mismatched : c.mismatched = row.calls.mismatched.length

/-- The state of the pass stands for the readers. -/
structure Represents (nodes : List Node) (rows : List ContextReplay) (s : TraceState) : Prop where
  ordered : s.1.orderedNodes = nodes
  contexts : List.Forall₂ (RepresentsContext nodes s.2) s.1.traceContexts rows

variable {nodes : List Node} {rows : List ContextReplay} {s t : TraceState} {w : World TraceState}

theorem stackedNode_eq (hordered : s.1.orderedNodes = nodes) {top : ℕ} {node : Node} {below : Option ℕ}
    (h : readEntry nodes s.2 top = some (node, below)) :
    ∃ entry, stackedNode s top = some (entry, node) ∧ entry.previous = below := by
  obtain ⟨entry, hentry, hnode⟩ := Option.bind_eq_some_iff.mp h
  obtain ⟨found, hfound, hpair⟩ := Option.map_eq_some_iff.mp hnode
  obtain ⟨rfl, rfl⟩ := Prod.mk.inj hpair
  refine ⟨entry, ?_, rfl⟩
  rw [stackedNode, hentry, Option.bind_some, hordered, hfound]
  rfl

theorem readEntry_append (nodes : List Node) (stack : List TraceStackEntry) (entry : TraceStackEntry) (i : ℕ)
    (x : Node × Option ℕ) (h : readEntry nodes stack i = some x) :
    readEntry nodes (stack ++ [entry]) i = some x := by
  obtain ⟨e, hentry, hnode⟩ := Option.bind_eq_some_iff.mp h
  rw [readEntry, List.getElem?_append_left (List.getElem?_eq_some_iff.mp hentry).1, hentry]
  exact hnode

theorem readEntry_last {nodes : List Node} {index : ℕ} {node : Node} (hnode : nodes[index]? = some node)
    (stack : List TraceStackEntry) (below : Option ℕ) :
    readEntry nodes (stack ++ [⟨index, below⟩]) stack.length = some (node, below) := by
  rw [readEntry, List.getElem?_concat_length, Option.bind_some, hnode]
  rfl

theorem lt_length_of_readEntry {nodes : List Node} {stack : List TraceStackEntry} (i : ℕ) (x : Node × Option ℕ)
    (h : readEntry nodes stack i = some x) : i < stack.length := by
  obtain ⟨e, hentry, -⟩ := Option.bind_eq_some_iff.mp h
  exact (List.getElem?_eq_some_iff.mp hentry).1

/-- What the state stands for does not depend on the other fields. -/
theorem Represents.congr (h : Represents nodes rows s) (hordered : t.1.orderedNodes = s.1.orderedNodes)
    (hcontexts : t.1.traceContexts = s.1.traceContexts) (hstack : t.2 = s.2) : Represents nodes rows t :=
  ⟨hordered.trans h.ordered, by rw [hcontexts, hstack]; exact h.contexts⟩

theorem findIdx?_eq_of_represents {stack : List TraceStackEntry} {contexts : List TraceContext}
    (h : List.Forall₂ (RepresentsContext nodes stack) contexts rows) (key : ℤ × ℕ) :
    contexts.findIdx? (fun c => c.pid = key.1 ∧ c.context = key.2) = rows.findIdx? (fun row => row.key = key) := by
  induction h with
  | nil => rfl
  | @cons c row _ _ hrow _ ih =>
    have hkey : (c.pid = key.1 ∧ c.context = key.2) ↔ row.key = key := by
      rw [hrow.pid, hrow.context, ContextReplay.key, Prod.ext_iff]
    rw [List.findIdx?_cons, List.findIdx?_cons, ih, decide_eq_decide.mpr hkey]

theorem Represents.exists_context (h : Represents nodes rows s) {key : ℤ × ℕ} {index : ℕ}
    (hrow : IsRowOf rows key index) : ∃ c, s.1.traceContexts[index]? = some c ∧
      RepresentsContext nodes s.2 c (replayOf rows key) :=
  exists_getElem?_of_forall₂ h.contexts hrow.getElem?

theorem Represents.updateContext (h : Represents nodes rows s) {key : ℤ × ℕ} {index : ℕ}
    (hrow : IsRowOf rows key index) {f : TraceContext → TraceContext} {g : Tally Node → Tally Node}
    (hfg : ∀ c, RepresentsContext nodes s.2 c (replayOf rows key) →
      s.1.traceContexts[index]? = some c →
      RepresentsContext nodes s.2 (f c) ((replayOf rows key).withCalls g)) :
    Represents nodes (changeCalls key g rows)
      ({ s.1 with traceContexts := s.1.traceContexts.modify index f }, s.2) := by
  refine ⟨h.ordered, ?_⟩
  rw [hrow.changeCalls_eq]
  refine forall₂_modify_at h.contexts fun c row hc hr hrep => ?_
  rw [hrow.getElem?] at hr
  obtain rfl := Option.some.inj hr
  exact hfg c hrep hc

def TraceContext.setCalls (top : Option ℕ) (depth maxDepth : ℕ) (c : TraceContext) : TraceContext :=
  { c with top := top, depth := depth, maxDepth := maxDepth }

theorem Represents.setCalls (h : Represents nodes rows s) {key : ℤ × ℕ} {index : ℕ} (hrow : IsRowOf rows key index)
    {top : Option ℕ} {depth maxDepth : ℕ} {calls : List Node}
    (hcalls : LinkedStacks.Holds (readEntry nodes s.2) top calls) (hdepth : depth = calls.length)
    (hmax : depth ≤ maxDepth) :
    Represents nodes (changeCalls key (fun t => { t with pending := calls }) rows)
      ({ s.1 with traceContexts := s.1.traceContexts.modify index (.setCalls top depth maxDepth) }, s.2) :=
  h.updateContext hrow fun _ hc _ => ⟨hc.pid, hc.context, hcalls, hdepth, hmax, hc.unmatched, hc.mismatched⟩

/-- An entry behind the others leaves what the contexts stand for. -/
theorem Represents.push (h : Represents nodes rows s) (entry : TraceStackEntry) :
    Represents nodes rows (s.1, s.2 ++ [entry]) := by
  refine ⟨h.ordered, h.contexts.imp fun c row hrow => ?_⟩
  exact { hrow with calls := hrow.calls.mono (readEntry_append nodes s.2 entry) }

theorem RepresentsContext.fresh (nodes : List Node) (stack : List TraceStackEntry) (key : ℤ × ℕ) :
    RepresentsContext nodes stack { pid := key.1, context := key.2 } (.fresh key) :=
  ⟨rfl, rfl, .nil, rfl, Nat.le_refl 0, rfl, rfl⟩

def Analysis.TreeFull (analysis : Analysis) : Prop :=
  sizeMax / 2 < analysis.traceTree.length + traceLineSize

/-- A context is refused: it is not in the table, and the table is full. -/
def Analysis.Refuses (analysis : Analysis) (key : ℤ × ℕ) : Prop :=
  (∀ c ∈ analysis.traceContexts, (c.pid, c.context) ≠ key) ∧
    analysis.orderedCount ≤ analysis.traceContexts.length

/-- Some context that the pass asks for is refused. -/
def Analysis.TableFull (analysis : Analysis) : Prop :=
  ∃ node ∈ analysis.orderedNodes, ∃ key ∈ askedKeys node, analysis.Refuses key

/-- Something other than the size of a text stops the pass. -/
def Stuck (analysis : Analysis) : Prop :=
  analysis.Exhausted ∨ analysis.TreeFull ∨ analysis.TableFull

theorem Represents.refuses_iff (h : Represents nodes rows s) (key : ℤ × ℕ) :
    s.1.Refuses key ↔ rows.findIdx? (fun row => row.key = key) = none ∧ s.1.orderedCount ≤ rows.length := by
  rw [← findIdx?_eq_of_represents h.contexts, List.findIdx?_eq_none_iff, ← h.contexts.length_eq]
  simp only [Analysis.Refuses, Prod.ext_iff, decide_eq_false_iff_not, ne_eq]

/-- Asking for a context either finds it or adds it, or refuses it. -/
theorem ends_traceContext (h : Represents nodes rows w.state) (key : ℤ × ℕ) :
    Ends (traceContext key.1 key.2) w
      (fun index w' => ¬ w.state.1.Refuses key ∧ w'.outcomes = w.outcomes ∧ IsRowOf (ask key rows) key index ∧
        Represents nodes (ask key rows) w'.state ∧
        ∃ contexts, w'.state = ({ w.state.1 with traceContexts := contexts }, w.state.2))
      (fun w' => w.state.1.Refuses key ∧ w' = w) := by
  have hfind := findIdx?_eq_of_represents h.contexts key
  refine ends_readState_bind ?_
  dsimp only
  rw [hfind]
  cases hkey : rows.findIdx? (fun row => row.key = key) with
  | some index =>
    have hrow : IsRowOf rows key index := hkey
    have hnot : ¬ w.state.1.Refuses key := by
      rw [h.refuses_iff, hkey]
      exact fun hrefuses => Option.some_ne_none index hrefuses.1
    rw [hrow.ask_eq]
    exact ends_pure ⟨hnot, rfl, hrow, h, w.state.1.traceContexts, rfl⟩
  | none =>
    refine Ends.ite (fun hfull => ends_fail ⟨?_, rfl⟩) fun hroom => ?_
    · rw [h.refuses_iff, ← h.contexts.length_eq]
      exact ⟨hkey, hfull⟩
    · have hnot : ¬ w.state.1.Refuses key := by
        rw [h.refuses_iff, ← h.contexts.length_eq]
        exact fun hrefuses => hroom hrefuses.2
      refine ends_updateState_bind (ends_pure ⟨hnot, rfl, ?_, ?_, _, rfl⟩)
      · rw [ask_eq_append hkey, IsRowOf, List.findIdx?_append, hkey, h.contexts.length_eq]
        simp
      · rw [ask_eq_append hkey]
        exact ⟨h.ordered, List.rel_append h.contexts (.cons (.fresh nodes _ key) .nil)⟩

theorem growTrace_cases (required fuel capacity : ℕ) :
    required ≤ growTrace required fuel capacity ∨ sizeMax / 2 < growTrace required fuel capacity ∨
      capacity * 2 ^ fuel ≤ growTrace required fuel capacity := by
  induction fuel generalizing capacity with
  | zero => exact .inr (.inr (by rw [pow_zero, Nat.mul_one, growTrace]))
  | succ fuel ih =>
    rw [growTrace]
    split
    · have hpow : capacity * 2 ^ (fuel + 1) = capacity * 2 * 2 ^ fuel := by rw [pow_succ', Nat.mul_assoc]
      rw [hpow]
      exact ih (capacity * 2)
    · next hstop =>
      rw [not_and_or, Nat.not_lt, Nat.not_le] at hstop
      rcases hstop with henough | hlarge
      · exact .inl henough
      · exact .inr (.inl hlarge)

/-- A capacity that cannot be doubled to what is required is past half of `SIZE_MAX`. -/
theorem half_lt_of_growTrace_lt {required capacity : ℕ} (hpos : 0 < capacity) (hrequired : required ≤ sizeMax)
    (hshort : growTrace required 64 capacity < required) : sizeMax / 2 < required := by
  rcases growTrace_cases required 64 capacity with henough | hlarge | hdoubled
  · omega
  · omega
  · have hmax : sizeMax < 1 * 2 ^ 64 := by decide
    have hgrown : 1 * 2 ^ 64 ≤ capacity * 2 ^ 64 := Nat.mul_le_mul_right _ hpos
    omega

/-- Text is added to the trace tree, which grows. -/
theorem ends_appendTrace (text : Text) (w : World Analysis) :
    Ends (appendTrace text) w
      (fun _ w' => w'.outcomes <:+ w.outcomes ∧ w'.state =
        { w.state with traceTree := w'.state.traceTree, traceTreeCapacity := w'.state.traceTreeCapacity })
      (fun w' => w.outcomes = [] → sizeMax / 2 < w'.state.traceTree.length + text.length + 1) := by
  refine ends_readState_bind (Ends.ite (fun hlarge => ends_fail fun _ => ?_) fun hsmall => ?_)
  · omega
  · refine Ends.bind (R := fun _ w' => w'.outcomes <:+ w.outcomes ∧
      w'.state = { w.state with traceTreeCapacity := w'.state.traceTreeCapacity }) ?_ fun _ w' hgrown => ?_
    · refine Ends.ite (fun hfull => Ends.ite (fun hshort => ends_fail fun _ => ?_) fun _ => ?_) fun _ => ?_
      · refine half_lt_of_growTrace_lt ?_ (Nat.le_of_not_lt hsmall) hshort
        split
        · decide
        · omega
      · refine ends_request (fun w' hstate hsuffix => ends_updateState ⟨hsuffix, ?_⟩) fun w' hrefused _ => ?_
        · rw [hstate]
        · exact fun hgranted => absurd hgranted hrefused
      · exact ends_pure ⟨List.suffix_rfl, rfl⟩
    · refine ends_updateState ⟨hgrown.1, ?_⟩
      rw [hgrown.2]

/-- A line fits its buffer and is added to the tree. -/
theorem ends_appendTraceLine (node : Node) (depth : ℕ) (entering : Bool) (w : World TraceState) :
    Ends (appendTraceLine node depth entering) w
      (fun _ w' => (traceLine node depth entering).length < traceLineSize ∧ w'.outcomes <:+ w.outcomes ∧
        w'.state = ({ w.state.1 with
          traceTree := w'.state.1.traceTree, traceTreeCapacity := w'.state.1.traceTreeCapacity }, w.state.2))
      (fun w' => w.outcomes = [] →
        ¬ (traceLine node depth entering).length < traceLineSize ∨ w'.state.1.TreeFull) := by
  refine Ends.ite (fun hfits => ?_) fun hlong => ends_fail fun _ => .inl hlong
  have hfirst := ends_appendTrace (traceLine node depth entering) ⟨w.state.1, w.outcomes⟩
  refine ends_of (fun _ w' hrun => ?_) fun e w' hrun => ?_
  · obtain ⟨hok, rfl⟩ := Prod.mk.inj hrun
    obtain ⟨hsuffix, hstate⟩ := hfirst.ok (Prod.ext hok rfl)
    exact ⟨hfits, hsuffix, Prod.ext hstate rfl⟩
  · obtain ⟨herror, rfl⟩ := Prod.mk.inj hrun
    intro hgranted
    have hfull := hfirst.error (Prod.ext herror rfl) hgranted
    refine .inr (lt_of_lt_of_le hfull ?_)
    rw [Nat.add_assoc]
    exact Nat.add_le_add_left hfits _

/-- A finding is added, and its texts fit their buffers. -/
theorem ends_addFinding (identifier : Text) (policy : Policy) (message : Text) (node : Option Node)
    (source target detail : Option Text) (w : World Analysis) :
    Ends (addFinding identifier policy message node source target detail) w
      (fun _ w' => (fitsEvidence source ∧ fitsEvidence target ∧ fitsEvidence detail) ∧ w'.outcomes <:+ w.outcomes ∧
        w'.state = { w.state with
          findings := w.state.findings ++ [newFinding identifier policy message node source target detail]
          findingCapacity := w'.state.findingCapacity, policyCounts := w'.state.policyCounts })
      (fun w' => w.outcomes = [] →
        ¬ (fitsEvidence source ∧ fitsEvidence target ∧ fitsEvidence detail) ∨ w'.state.Exhausted) := by
  refine Ends.bind (R := fun _ w' => w'.outcomes <:+ w.outcomes ∧
    w'.state = { w.state with findingCapacity := w'.state.findingCapacity }) ?_ fun _ w' hreserved => ?_
  · refine ends_readState_bind (Ends.ite (fun _ => ends_pure ⟨List.suffix_rfl, rfl⟩) fun hfull =>
      Ends.ite (fun hsize => ends_fail fun _ => .inr ?_) fun _ => ?_)
    · unfold Analysis.Exhausted
      split at hsize
      · exact absurd hsize (by decide)
      · exact hsize
    · refine ends_request (fun w' hstate hsuffix => ends_updateState ⟨hsuffix, ?_⟩) fun w' hrefused _ => ?_
      · rw [hstate]
      · exact fun hgranted => absurd hgranted hrefused
  · refine Ends.ite (fun hfits => ends_updateState ⟨hfits, hreserved.1, ?_⟩) fun hlong => ?_
    · rw [hreserved.2]
      rfl
    · exact ends_fail fun _ => .inl hlong

theorem ends_addTraceFinding (identifier message : String) (node : Node) (w : World TraceState) :
    Ends (addTraceFinding identifier message node) w
      (fun _ w' => node.callName.length < evidenceTextSize ∧ w'.outcomes <:+ w.outcomes ∧
        w'.state = ({ w.state.1 with
          findings := w.state.1.findings ++ [traceFinding identifier message node]
          findingCapacity := w'.state.1.findingCapacity, policyCounts := w'.state.1.policyCounts }, w.state.2))
      (fun w' => w.outcomes = [] →
        ¬ node.callName.length < evidenceTextSize ∨ w'.state.1.Exhausted) := by
  have hfirst := ends_addFinding (.ofString identifier) .trace (.ofString message) (some node) none none
    (some node.callName) ⟨w.state.1, w.outcomes⟩
  refine ends_of (fun _ w' hrun => ?_) fun e w' hrun => ?_
  · obtain ⟨hok, rfl⟩ := Prod.mk.inj hrun
    obtain ⟨hfits, hsuffix, hstate⟩ := hfirst.ok (Prod.ext hok rfl)
    exact ⟨of_decide_eq_true hfits.2.2, hsuffix, Prod.ext hstate rfl⟩
  · obtain ⟨herror, rfl⟩ := Prod.mk.inj hrun
    intro hgranted
    refine (hfirst.error (Prod.ext herror rfl) hgranted).imp (fun hlong hfits => hlong ?_) id
    exact ⟨rfl, rfl, decide_eq_true hfits⟩

/-- The state stands for the readers, and the findings were added. -/
structure Advances (nodes : List Node) (rows : List ContextReplay) (added : List Finding) (s t : TraceState) :
    Prop where
  represents : Represents nodes rows t
  findings : t.1.findings = s.1.findings ++ added
  orderedCount : t.1.orderedCount = s.1.orderedCount

/-- Run in a world that stands for the readers, the routine goes on to the given readers with the
given findings, provided that the texts fit. -/
def Follows (x : Routine TraceState Unit) (nodes : List Node) (w : World TraceState) (fits : Prop)
    (rows : List ContextReplay) (added : List Finding) : Prop :=
  Ends x w (fun _ w' => fits ∧ w'.outcomes <:+ w.outcomes ∧ Advances nodes rows added w.state w'.state)
    (fun w' => w.outcomes = [] → ¬ fits ∨ Stuck w'.state.1)

/-- A run that follows the replay after a part that added nothing. -/
theorem Follows.after {x : Routine TraceState Unit} {w w' : World TraceState} {fits fits' : Prop}
    {added : List Finding} (h : Follows x nodes w' fits' rows added)
    (hsuffix : w'.outcomes <:+ w.outcomes) (hfindings : w'.state.1.findings = w.state.1.findings)
    (hcount : w'.state.1.orderedCount = w.state.1.orderedCount) (hfits : fits ↔ fits') :
    Ends x w' (fun _ v => fits ∧ v.outcomes <:+ w.outcomes ∧ Advances nodes rows added w.state v.state)
      (fun v => w.outcomes = [] → ¬ fits ∨ Stuck v.state.1) := by
  refine Ends.imp h (fun _ v hv => ?_) fun v hv hgranted => ?_
  · obtain ⟨hf, houtcomes, hadvance⟩ := hv
    refine ⟨hfits.mpr hf, houtcomes.trans hsuffix, hadvance.represents, ?_, ?_⟩
    · rw [hadvance.findings, hfindings]
    · rw [hadvance.orderedCount, hcount]
  · rw [hfits]
    exact hv (List.suffix_nil.mp (hgranted ▸ hsuffix))

theorem ends_callLine (h : Represents nodes rows w.state) (node : Node) (depth : ℕ) (entering : Bool) :
    Ends (appendTraceLine node depth entering) w
      (fun _ w' => (traceLine node depth entering).length < traceLineSize ∧ w'.outcomes <:+ w.outcomes ∧
        Advances nodes rows [] w.state w'.state ∧ w'.state.2 = w.state.2 ∧
        w'.state.1.traceContexts = w.state.1.traceContexts)
      (fun w' => w.outcomes = [] →
        ¬ (traceLine node depth entering).length < traceLineSize ∨ Stuck w'.state.1) := by
  refine (ends_appendTraceLine node depth entering w).imp (fun _ w' hw' => ?_) fun w' hw' hgranted =>
    (hw' hgranted).imp id fun hfull => .inr (.inl hfull)
  obtain ⟨hfits, hsuffix, hstate⟩ := hw'
  refine ⟨hfits, hsuffix, ⟨h.congr ?_ ?_ ?_, ?_, ?_⟩, ?_, ?_⟩ <;> rw [hstate]
  · rfl
  · simp

theorem follows_addTraceFinding (h : Represents nodes rows w.state) (identifier message : String) (node : Node) :
    Follows (addTraceFinding identifier message node) nodes w (node.callName.length < evidenceTextSize) rows
      [traceFinding identifier message node] := by
  refine (ends_addTraceFinding identifier message node w).imp (fun _ w' hw' => ?_) fun w' hw' hgranted =>
    (hw' hgranted).imp id .inl
  obtain ⟨hfits, hsuffix, hstate⟩ := hw'
  refine ⟨hfits, hsuffix, h.congr ?_ ?_ ?_, ?_, ?_⟩ <;> rw [hstate]
  rfl

theorem follows_traceEnter (h : Represents nodes rows w.state) {node : Node} {index context : ℕ} {c : TraceContext}
    (hnode : nodes[index]? = some node) (hrow : IsRowOf rows (contextKey node) context)
    (hc : w.state.1.traceContexts[context]? = some c)
    (hrep : RepresentsContext nodes w.state.2 c (replayOf rows (contextKey node))) (hopens : opensCall node = true) :
    Follows (traceEnter index node context c) nodes w
      ((traceLine node (lineDepth node (replayOf rows (contextKey node)).calls) true).length < traceLineSize)
      (changeCalls (contextKey node) (fun calls => Brackets.step opensCall leavesCall calls node) rows) [] := by
  have hdepth : lineDepth node (replayOf rows (contextKey node)).calls = c.depth := by
    rw [lineDepth, if_pos hopens, hrep.depth]
  rw [hdepth]
  unfold Follows
  have hline := ends_callLine h node c.depth true
  refine Ends.bind hline fun _ w' hw' => ?_
  obtain ⟨hfits, hsuffix, hadvance, hstack, hcontexts⟩ := hw'
  refine ends_readState_bind (ends_updateState_bind (ends_updateState ⟨hfits, hsuffix, ?_, ?_, ?_⟩))
  · have hpushed := hadvance.represents.push ⟨index, c.top⟩
    refine hpushed.updateContext hrow fun d hd hat => ?_
    have hd' : d = c := by
      rw [hcontexts, hc] at hat
      exact (Option.some.inj hat).symm
    have hstep : Brackets.step opensCall leavesCall (replayOf rows (contextKey node)).calls node = _ :=
      step_of_opens hopens
    rw [ContextReplay.withCalls, hstep]
    have hlast := readEntry_last hnode w'.state.2 c.top
    refine ⟨hd.pid, hd.context, .cons hlast ?_ (hd' ▸ hd.calls), ?_, Nat.le_max_right _ _, hd.unmatched,
      hd.mismatched⟩
    · exact hrep.calls.lt_of_read (hstack ▸ fun i x => lt_length_of_readEntry i x)
    · rw [List.length_cons, hd.depth]
  · exact hadvance.findings
  · exact hadvance.orderedCount

theorem leavesCall_eq_true {enter exit : Node} (h : identityMismatch enter exit = false) :
    leavesCall enter exit = true := by rw [leavesCall, h, Bool.not_false]

theorem leavesCall_eq_false {enter exit : Node} (h : identityMismatch enter exit = true) :
    leavesCall enter exit = false := by rw [leavesCall, h, Bool.not_true]

/-- A fault of an exit is counted, and a finding about it is added. -/
theorem follows_fault (h : Represents nodes rows w.state) {node : Node} {context : ℕ}
    (hrow : IsRowOf rows (contextKey node) context) {f : TraceContext → TraceContext} {g : Tally Node → Tally Node}
    (hfg : ∀ c, RepresentsContext nodes w.state.2 c (replayOf rows (contextKey node)) →
      RepresentsContext nodes w.state.2 (f c) ((replayOf rows (contextKey node)).withCalls g))
    (identifier message : String) :
    Follows (do updateContext context f; addTraceFinding identifier message node) nodes w
      (node.callName.length < evidenceTextSize) (changeCalls (contextKey node) g rows)
      [traceFinding identifier message node] := by
  have hchanged := h.updateContext hrow (f := f) (g := g) fun c hc _ => hfg c hc
  have hadded := follows_addTraceFinding (w := ⟨_, w.outcomes⟩) hchanged identifier message node
  exact ends_updateState_bind (hadded.after List.suffix_rfl rfl rfl Iff.rfl)

/-- What the exit of a call does after its line is added. -/
def settleExit (node : Node) (context : ℕ) (top : Option ℕ) : Routine TraceState Unit := do
  let s ← readState
  match top with
  | none =>
    updateContext context (fun c => { c with unmatched := c.unmatched + 1 })
    addTraceFinding "P101-TRACE-001" "call exit has no matching active call" node
  | some top =>
    match stackedNode s top with
    | none => fail .outside
    | some (entry, active) =>
      if identityMismatch active node then
        updateContext context (fun c => { c with mismatched := c.mismatched + 1 })
        addTraceFinding "P101-TRACE-002" "call exit does not match the active call" node
      else updateContext context (fun c => { c with top := entry.previous, depth := c.depth - 1 })

theorem traceExit_eq (node : Node) (context : ℕ) (c : TraceContext) : traceExit node context c =
    (appendTraceLine node (c.depth - 1) false >>= fun _ => settleExit node context c.top) := rfl

theorem follows_settleExit (h : Represents nodes rows w.state) {node : Node} {context : ℕ} {c : TraceContext}
    (hrow : IsRowOf rows (contextKey node) context)
    (hrep : RepresentsContext nodes w.state.2 c (replayOf rows (contextKey node))) :
    Follows (settleExit node context c.top) nodes w
      (exitFindings (replayOf rows (contextKey node)).calls node ≠ [] → node.callName.length < evidenceTextSize)
      (changeCalls (contextKey node) (fun calls => Brackets.close leavesCall calls node) rows)
      (exitFindings (replayOf rows (contextKey node)).calls node) := by
  apply ends_readState_bind
  cases htop : c.top with
  | none =>
    have hpending := LinkedStacks.Holds.eq_nil (htop ▸ hrep.calls)
    have hfindings : exitFindings (replayOf rows (contextKey node)).calls node = [unmatchedFinding node] := by
      rw [exitFindings, hpending]
    simp only [hfindings, ne_eq, List.cons_ne_nil, not_false_eq_true, true_imp_iff]
    refine follows_fault h hrow (fun d hd => ?_) _ _
    rw [ContextReplay.withCalls, close_of_nil hpending]
    exact { hd with unmatched := by rw [List.length_append, hd.unmatched]; rfl }
  | some top =>
    obtain ⟨active, below, rest, hread, hpending, hrest⟩ := LinkedStacks.Holds.exists_cons (htop ▸ hrep.calls)
    obtain ⟨entry, hentry, rfl⟩ := stackedNode_eq h.ordered hread
    dsimp only
    rw [hentry]
    dsimp only
    cases hmismatch : identityMismatch active node with
    | true =>
      have hfindings : exitFindings (replayOf rows (contextKey node)).calls node = [mismatchedFinding node] := by
        rw [exitFindings, hpending]
        exact if_pos hmismatch
      rw [if_pos rfl]
      simp only [hfindings, ne_eq, List.cons_ne_nil, not_false_eq_true, true_imp_iff]
      refine follows_fault h hrow (fun d hd => ?_) _ _
      rw [ContextReplay.withCalls, close_of_not_pairs hpending (leavesCall_eq_false hmismatch)]
      exact { hd with mismatched := by rw [List.length_append, hd.mismatched]; rfl }
    | false =>
      have hfindings : exitFindings (replayOf rows (contextKey node)).calls node = [] := by
        rw [exitFindings, hpending]
        exact if_neg (ne_true_of_eq_false hmismatch)
      rw [if_neg Bool.false_ne_true, hfindings]
      refine ends_updateState ⟨fun hne => absurd rfl hne, List.suffix_rfl, ?_, (List.append_nil _).symm, rfl⟩
      refine h.updateContext hrow fun d hd hat => ?_
      have hdepth := hd.depth
      have hmax := hd.maxDepth
      rw [hpending, List.length_cons] at hdepth
      rw [ContextReplay.withCalls, close_of_pairs hpending (leavesCall_eq_true hmismatch)]
      exact ⟨hd.pid, hd.context, hrest, Nat.sub_eq_of_eq_add hdepth, (Nat.sub_le _ _).trans hmax, hd.unmatched,
        hd.mismatched⟩

theorem follows_traceExit (h : Represents nodes rows w.state) {node : Node} {context : ℕ} {c : TraceContext}
    (hrow : IsRowOf rows (contextKey node) context)
    (hrep : RepresentsContext nodes w.state.2 c (replayOf rows (contextKey node))) (hcloses : opensCall node = false) :
    Follows (traceExit node context c) nodes w
      ((traceLine node (lineDepth node (replayOf rows (contextKey node)).calls) false).length < traceLineSize ∧
        (exitFindings (replayOf rows (contextKey node)).calls node ≠ [] → node.callName.length < evidenceTextSize))
      (changeCalls (contextKey node) (fun calls => Brackets.step opensCall leavesCall calls node) rows)
      (exitFindings (replayOf rows (contextKey node)).calls node) := by
  have hdepth : lineDepth node (replayOf rows (contextKey node)).calls = c.depth - 1 := by
    rw [lineDepth, if_neg (ne_true_of_eq_false hcloses), hrep.depth]
  have hstep : (fun calls => Brackets.step opensCall leavesCall calls node) =
      fun calls => Brackets.close leavesCall calls node := funext fun calls => step_of_closes hcloses
  rw [hdepth, hstep, traceExit_eq]
  refine ((ends_callLine h node (c.depth - 1) false).imp (fun _ _ h => h) fun w' hw' hgranted =>
    (hw' hgranted).imp (fun hlong hfits => hlong hfits.1) id).bind fun _ w' hw' => ?_
  obtain ⟨hfits, hsuffix, hadvance, hstack, -⟩ := hw'
  have hsettled := follows_settleExit hadvance.represents hrow (hstack ▸ hrep)
  refine hsettled.after hsuffix ?_ hadvance.orderedCount (and_iff_right hfits)
  rw [hadvance.findings, List.append_nil]

/-- The calls of a child after a fork, as the context of the child gets them. -/
theorem follows_traceFork (h : Represents nodes rows w.state) {node : Node} (hmem : node ∈ nodes)
    (hfork : isForkRecord node = true) :
    Follows (traceFork node) nodes w True (forkEffect node rows) [] := by
  have hasks : askedKeys node = [contextKey node, childKey node] := if_pos hfork
  refine ((ends_traceContext h (contextKey node)).imp (fun _ _ h => h) fun w' hw' _ => ?_).bind
    fun parent w₁ hw₁ => ?_
  · refine .inr (.inr (.inr ⟨node, ?_, contextKey node, ?_, ?_⟩))
    · rw [hw'.2, h.ordered]
      exact hmem
    · rw [hasks]
      exact List.mem_cons_self
    · rw [hw'.2]
      exact hw'.1
  obtain ⟨-, houtcomes₁, hparent, hrep₁, contexts₁, hstate₁⟩ := hw₁
  refine ((ends_traceContext hrep₁ (childKey node)).imp (fun _ _ h => h) fun w' hw' _ => ?_).bind
    fun child w₂ hw₂ => ?_
  · refine .inr (.inr (.inr ⟨node, ?_, childKey node, ?_, ?_⟩))
    · rw [hw'.2, hrep₁.ordered]
      exact hmem
    · rw [hasks]
      exact List.mem_cons_of_mem _ List.mem_cons_self
    · rw [hw'.2]
      exact hw'.1
  obtain ⟨-, houtcomes₂, hchild, hrep₂, contexts₂, hstate₂⟩ := hw₂
  obtain ⟨p, hp, hparentRep⟩ := hrep₂.exists_context (hparent.ask (childKey node))
  have hfindings : w₂.state.1.findings = w.state.1.findings := by rw [hstate₂, hstate₁]
  have hcount : w₂.state.1.orderedCount = w.state.1.orderedCount := by rw [hstate₂, hstate₁]
  have hsuffix : w₂.outcomes <:+ w.outcomes := by rw [houtcomes₂, houtcomes₁]
  apply ends_readState_bind
  rw [hp]
  refine ends_updateState_bind ?_
  have hadvance : ∀ {top : Option ℕ} {depth : ℕ} {calls : List Node},
      LinkedStacks.Holds (readEntry nodes w₂.state.2) top calls → depth = calls.length → depth ≤ p.depth →
      forkedCalls node (replayOf (ask (childKey node) (ask (contextKey node) rows)) (contextKey node)).calls.pending =
        calls →
      Advances nodes (forkEffect node rows) [] w.state
        ({ w₂.state.1 with
          traceContexts := w₂.state.1.traceContexts.modify child (.setCalls top depth p.depth) }, w₂.state.2) := by
    intro top depth calls hcalls hdepth hmax hforked
    refine ⟨?_, hfindings.trans (List.append_nil _).symm, hcount⟩
    rw [← hforked] at hcalls hdepth
    exact hrep₂.setCalls hchild hcalls hdepth hmax
  cases htop : p.top with
  | none =>
    have hpending := LinkedStacks.Holds.eq_nil (htop ▸ hparentRep.calls)
    have hdepth := hparentRep.depth
    rw [hpending] at hdepth
    refine ends_pure ⟨trivial, hsuffix, hadvance .nil hdepth (Nat.le_refl _) ?_⟩
    rw [hpending, forkedCalls]
  | some top =>
    obtain ⟨active, below, rest, hread, hpending, hrest⟩ := LinkedStacks.Holds.exists_cons (htop ▸ hparentRep.calls)
    obtain ⟨entry, hentry, rfl⟩ := stackedNode_eq hrep₂.ordered hread
    have hdepth := hparentRep.depth
    have hcalls := htop ▸ hparentRep.calls
    rw [hpending] at hdepth hcalls
    dsimp only
    rw [hentry]
    dsimp only
    refine Ends.ite (fun hname => ?_) fun hname => ?_
    · refine ends_updateState ⟨trivial, hsuffix, ?_⟩
      rw [List.modify_modify_eq]
      refine hadvance hrest (Nat.sub_eq_of_eq_add hdepth) (Nat.sub_le _ _) ?_
      rw [hpending, forkedCalls, if_pos hname]
    · refine ends_pure ⟨trivial, hsuffix, hadvance hcalls hdepth (Nat.le_refl _) ?_⟩
      rw [hpending, forkedCalls, if_neg hname]

theorem follows_call (h : Represents nodes rows w.state) {node : Node} {index context : ℕ} {c : TraceContext}
    (hnode : nodes[index]? = some node) (hfork : isForkRecord node = false) (hcall : isCallRecord node = true)
    (hrow : IsRowOf rows (contextKey node) context) (hc : w.state.1.traceContexts[context]? = some c)
    (hrep : RepresentsContext nodes w.state.2 c (replayOf rows (contextKey node))) :
    Follows (if node.callKind = .enter then traceEnter index node context c else traceExit node context c) nodes w
      (NodeFits node rows) (traceEffect node rows) (nodeFindings node rows) := by
  have heffect : traceEffect node rows =
      changeCalls (contextKey node) (fun calls => Brackets.step opensCall leavesCall calls node) rows := by
    rw [traceEffect, if_neg (ne_true_of_eq_false hfork), if_pos hcall]
  have hline : nodeLine node rows =
      traceLine node (lineDepth node (replayOf rows (contextKey node)).calls) (opensCall node) := by
    rw [nodeLine, if_neg (ne_true_of_eq_false hfork), if_pos hcall]
  rw [heffect]
  cases hopens : opensCall node with
  | true =>
    have hfindings : nodeFindings node rows = [] := by
      rw [nodeFindings, if_neg (ne_true_of_eq_false hfork), if_neg fun hexit => hexit.2 hopens]
    have hfits : NodeFits node rows =
        ((traceLine node (lineDepth node (replayOf rows (contextKey node)).calls) true).length < traceLineSize) := by
      rw [NodeFits, hline, hfindings, hopens]
      exact propext (and_iff_left fun hne => absurd rfl hne)
    rw [if_pos (of_decide_eq_true hopens), hfindings, hfits]
    exact follows_traceEnter h hnode hrow hc hrep hopens
  | false =>
    have hfindings : nodeFindings node rows = exitFindings (replayOf rows (contextKey node)).calls node := by
      rw [nodeFindings, if_neg (ne_true_of_eq_false hfork), if_pos ⟨hcall, ne_true_of_eq_false hopens⟩]
    rw [if_neg (of_decide_eq_false hopens), NodeFits, hline, hfindings, hopens]
    exact follows_traceExit h hrow hrep hopens

/-- One iteration of the loop of the pass. -/
theorem follows_traceNode (h : Represents nodes rows w.state) {node : Node} {index : ℕ}
    (hnode : nodes[index]? = some node) :
    Follows (traceNode (node, index)) nodes w (NodeFits node rows) (traceEffect node rows) (nodeFindings node rows) := by
  have hempty : Text.empty.length < traceLineSize := by decide
  unfold traceNode
  dsimp only
  cases hfork : isForkRecord node with
  | true =>
    have hfits : NodeFits node rows ↔ True := by
      rw [NodeFits, nodeLine, nodeFindings, if_pos hfork, if_pos hfork]
      exact iff_true_intro ⟨hempty, fun hne => absurd rfl hne⟩
    rw [if_pos (of_decide_eq_true hfork), traceEffect, nodeFindings, if_pos hfork, if_pos hfork, propext hfits]
    exact follows_traceFork h (List.mem_of_getElem? hnode) hfork
  | false =>
    rw [if_neg (of_decide_eq_false hfork)]
    cases hcall : isCallRecord node with
    | false =>
      have hdomain := of_decide_eq_false hcall
      have hfindings : nodeFindings node rows = [] := by
        rw [nodeFindings, if_neg (ne_true_of_eq_false hfork), if_neg fun hexit => ne_true_of_eq_false hcall hexit.1]
      have hfits : NodeFits node rows := by
        rw [NodeFits, nodeLine, hfindings, if_neg (ne_true_of_eq_false hfork), if_neg (ne_true_of_eq_false hcall)]
        exact ⟨hempty, fun hne => absurd rfl hne⟩
      have heffect : traceEffect node rows = rows := by
        rw [traceEffect, if_neg (ne_true_of_eq_false hfork), if_neg (ne_true_of_eq_false hcall)]
      rw [if_pos hdomain, hfindings, heffect]
      exact ends_pure ⟨hfits, List.suffix_rfl, h, (List.append_nil _).symm, rfl⟩
    | true =>
      rw [if_neg (not_not_intro (of_decide_eq_true hcall))]
      apply ends_updateState_bind
      have hcounted : Represents nodes rows ({ w.state.1 with callRecords := w.state.1.callRecords + 1 }, w.state.2) :=
        h.congr rfl rfl rfl
      refine ((ends_traceContext (w := ⟨_, w.outcomes⟩) hcounted (contextKey node)).imp (fun _ _ h => h)
        fun w' hw' _ => ?_).bind fun context w' hw' => ?_
      · refine .inr (.inr (.inr ⟨node, ?_, contextKey node, ?_, ?_⟩))
        · rw [hw'.2]
          exact h.ordered.symm ▸ List.mem_of_getElem? hnode
        · rw [askedKeys, if_neg (ne_true_of_eq_false hfork), if_pos hcall]
          exact List.mem_cons_self
        · rw [hw'.2]
          exact hw'.1
      · obtain ⟨-, houtcomes, hrow, hrep, contexts, hstate⟩ := hw'
        obtain ⟨c, hc, hrepc⟩ := hrep.exists_context hrow
        apply ends_readState_bind
        rw [hc]
        have hfollows := follows_call hrep hnode hfork hcall hrow hc hrepc
        have hasked : NodeFits node (ask (contextKey node) rows) = NodeFits node rows ∧
            nodeFindings node (ask (contextKey node) rows) = nodeFindings node rows ∧
            traceEffect node (ask (contextKey node) rows) = traceEffect node rows := by
          refine ⟨?_, ?_, ?_⟩
          · rw [NodeFits, NodeFits, nodeLine, nodeLine, nodeFindings, nodeFindings, replayOf_ask]
          · rw [nodeFindings, nodeFindings, replayOf_ask]
          · rw [traceEffect, traceEffect, if_neg (ne_true_of_eq_false hfork), if_neg (ne_true_of_eq_false hfork),
              if_pos hcall, if_pos hcall, changeCalls_ask]
        rw [hasked.1, hasked.2.1, hasked.2.2] at hfollows
        refine hfollows.after ?_ ?_ ?_ Iff.rfl
        · rw [houtcomes]
        · rw [hstate]
        · rw [hstate]

theorem traceRows_concat (before : List Node) (node : Node) :
    traceRows (before ++ [node]) = traceEffect node (traceRows before) := by
  rw [traceRows, List.foldl_append]
  rfl

def findingsFrom : List ContextReplay → List Node → List Finding
  | _, [] => []
  | rows, node :: nodes => nodeFindings node rows ++ findingsFrom (traceEffect node rows) nodes

theorem findingsFrom_concat (rows : List ContextReplay) (before : List Node) (node : Node) :
    findingsFrom rows (before ++ [node]) = findingsFrom rows before ++
      nodeFindings node (before.foldl (fun rows node => traceEffect node rows) rows) := by
  induction before generalizing rows with
  | nil => exact List.append_nil _
  | cons first before ih =>
    rw [List.cons_append, findingsFrom, findingsFrom, ih, List.append_assoc]
    rfl

def NodesFit (nodes : List Node) : Prop :=
  ∀ before node after, nodes = before ++ node :: after → NodeFits node (traceRows before)

theorem nodesFit_concat (before : List Node) (node : Node) :
    NodesFit (before ++ [node]) ↔ NodesFit before ∧ NodeFits node (traceRows before) := by
  constructor
  · intro h
    refine ⟨fun before' node' after heq => h before' node' (after ++ [node]) ?_, h before node [] rfl⟩
    rw [heq, List.append_assoc]
    rfl
  · rintro ⟨hbefore, hnode⟩ before' node' after heq
    rcases List.eq_nil_or_concat' after with rfl | ⟨after, last, rfl⟩
    · obtain ⟨rfl, hlast⟩ := List.append_inj' heq rfl
      rw [← (List.cons.inj hlast).1]
      exact hnode
    · rw [← List.cons_append, ← List.append_assoc] at heq
      exact hbefore before' node' after (List.append_inj' heq rfl).1

/-- The loop has led from one world to another through the first nodes. -/
def PassesNodes (nodes : List Node) (w : World TraceState) (before : List Node) (w' : World TraceState) : Prop :=
  NodesFit before ∧ w'.outcomes <:+ w.outcomes ∧
    Advances nodes (traceRows before) (findingsFrom [] before) w.state w'.state

theorem follows_traceNodes (h : Represents nodes [] w.state) {first : List Node} (hfirst : first <+: nodes) :
    Follows (forEach traceNode first.zipIdx) nodes w (NodesFit first) (traceRows first) (findingsFrom [] first) := by
  suffices hloop : Ends (forEach traceNode first.zipIdx) w
      (fun _ => PassesNodes nodes w (first.zipIdx.map Prod.fst))
      (fun w' => w.outcomes = [] → ¬ NodesFit first ∨ Stuck w'.state.1) by
    rwa [List.zipIdx_map_fst] at hloop
  refine ends_forEach (fun before => PassesNodes nodes w (before.map Prod.fst)) ?_ ?_
  · rintro before ⟨node, index⟩ after w' hsplit ⟨hfits, hsuffix, hadvance⟩
    have hnodes : first = before.map Prod.fst ++ node :: after.map Prod.fst := by
      have hmap := congrArg (List.map Prod.fst) hsplit
      rwa [List.zipIdx_map_fst, List.map_append, List.map_cons] at hmap
    have hnode : nodes[index]? = some node := by
      obtain ⟨rest, rfl⟩ := hfirst
      have hat : first[index]? = some node :=
        List.mem_zipIdx_iff_getElem?.mp (hsplit ▸ List.mem_append_right _ List.mem_cons_self)
      rw [List.getElem?_append_left (List.getElem?_eq_some_iff.mp hat).1]
      exact hat
    unfold PassesNodes
    rw [List.map_append, List.map_singleton, traceRows_concat, findingsFrom_concat, nodesFit_concat]
    refine Ends.imp (follows_traceNode hadvance.represents hnode) (fun _ v hv => ?_) fun v hv hgranted => ?_
    · obtain ⟨hnodeFits, houtcomes, hnext⟩ := hv
      refine ⟨⟨hfits, hnodeFits⟩, houtcomes.trans hsuffix, hnext.represents, ?_, ?_⟩
      · rw [hnext.findings, hadvance.findings, List.append_assoc]
        rfl
      · rw [hnext.orderedCount, hadvance.orderedCount]
    · refine (hv (List.suffix_nil.mp (hgranted ▸ hsuffix))).imp (fun hlong hall => hlong ?_) id
      exact hall _ node _ hnodes
  · refine ⟨?_, List.suffix_rfl, h, (List.append_nil _).symm, rfl⟩
    rintro before node after hnil
    simp at hnil

/-- The findings of the calls that a context leaves open. -/
theorem ends_reportOpenCalls {top : Option ℕ} {calls : List Node} {fuel : ℕ} (hordered : w.state.1.orderedNodes = nodes)
    (hcalls : LinkedStacks.Holds (readEntry nodes w.state.2) top calls) (hfuel : calls.length ≤ fuel) :
    Ends (reportOpenCalls fuel top) w
      (fun _ w' => (∀ node ∈ calls, node.callName.length < evidenceTextSize) ∧ w'.outcomes <:+ w.outcomes ∧
        w'.state = ({ w.state.1 with
          findings := w.state.1.findings ++ calls.map openFinding
          findingCapacity := w'.state.1.findingCapacity, policyCounts := w'.state.1.policyCounts }, w.state.2))
      (fun w' => w.outcomes = [] →
        ¬ (∀ node ∈ calls, node.callName.length < evidenceTextSize) ∨ w'.state.1.Exhausted) := by
  induction calls generalizing top fuel w with
  | nil =>
    cases hcalls
    have hrun : reportOpenCalls fuel none = pure () := by cases fuel <;> rfl
    rw [hrun]
    refine ends_pure ⟨fun node hnode => absurd hnode List.not_mem_nil, List.suffix_rfl, ?_⟩
    rw [List.map_nil, List.append_nil]
  | cons node calls ih =>
    cases hcalls with
    | @cons top _ below _ hread hearlier hrest =>
      obtain ⟨fuel, rfl⟩ : ∃ n, fuel = n + 1 := Nat.exists_eq_succ_of_ne_zero (by simp at hfuel; omega)
      obtain ⟨entry, hentry, rfl⟩ := stackedNode_eq hordered hread
      rw [reportOpenCalls]
      apply ends_readState_bind
      rw [hentry]
      refine ((ends_addTraceFinding "P101-TRACE-003" "call remained open at the end of the event stream" node w).imp
        (fun _ _ h => h) fun w' hw' hgranted => (hw' hgranted).imp
          (fun hlong hall => hlong (hall node List.mem_cons_self)) id).bind fun _ w' hw' => ?_
      obtain ⟨hfits, hsuffix, hstate⟩ := hw'
      have hstack : w'.state.2 = w.state.2 := by rw [hstate]
      have hordered' : w'.state.1.orderedNodes = nodes := by rw [hstate]; exact hordered
      refine (ih hordered' (hstack ▸ hrest) (Nat.le_of_succ_le_succ hfuel)).imp (fun _ v hv => ?_) fun v hv hgranted =>
        (hv (List.suffix_nil.mp (hgranted ▸ hsuffix))).imp
          (fun hlong hall => hlong fun other hother => hall other (List.mem_cons_of_mem _ hother)) id
      obtain ⟨hothers, houtcomes, hfinal⟩ := hv
      refine ⟨List.forall_mem_cons.mpr ⟨hfits, hothers⟩, houtcomes.trans hsuffix, ?_⟩
      rw [hfinal, hstate, List.map_cons]
      simp [openFinding]

def openCalls (rows : List ContextReplay) : List Node := rows.flatMap (fun row => row.calls.pending)

/-- The findings of the calls that all contexts leave open. -/
theorem ends_reportContexts {contexts : List TraceContext} {fuel : ℕ} (hordered : w.state.1.orderedNodes = nodes)
    (hcontexts : List.Forall₂ (RepresentsContext nodes w.state.2) contexts rows) (hfuel : w.state.2.length ≤ fuel) :
    Ends (forEach (fun c : TraceContext => reportOpenCalls fuel c.top) contexts) w
      (fun _ w' => (∀ node ∈ openCalls rows, node.callName.length < evidenceTextSize) ∧
        w'.outcomes <:+ w.outcomes ∧ w'.state.1.findings = w.state.1.findings ++ (openCalls rows).map openFinding)
      (fun w' => w.outcomes = [] →
        ¬ (∀ node ∈ openCalls rows, node.callName.length < evidenceTextSize) ∨ w'.state.1.Exhausted) := by
  induction contexts generalizing rows w with
  | nil =>
    cases hcontexts
    refine ends_pure ⟨fun node hnode => absurd hnode List.not_mem_nil, List.suffix_rfl, ?_⟩
    exact (List.append_nil _).symm
  | cons c contexts ih =>
    cases hcontexts with
    | @cons _ row _ rows hrow hrows =>
      have hopen : openCalls (row :: rows) = row.calls.pending ++ openCalls rows := List.flatMap_cons
      have hlength : row.calls.pending.length ≤ fuel := by
        refine (hrow.calls.length_le ?_).trans hfuel
        exact hrow.calls.lt_of_read fun i x => lt_length_of_readEntry i x
      rw [hopen]
      refine ((ends_reportOpenCalls hordered hrow.calls hlength).imp (fun _ _ h => h) fun w' hw' hgranted =>
        (hw' hgranted).imp (fun hlong hall => hlong fun node hnode => hall node (List.mem_append_left _ hnode))
          id).bind fun _ w' hw' => ?_
      obtain ⟨hfits, hsuffix, hstate⟩ := hw'
      have hstack : w'.state.2 = w.state.2 := by rw [hstate]
      have hordered' : w'.state.1.orderedNodes = nodes := by rw [hstate]; exact hordered
      refine (ih hordered' (hstack ▸ hrows) (hstack ▸ hfuel)).imp (fun _ v hv => ?_) fun v hv hgranted =>
        (hv (List.suffix_nil.mp (hgranted ▸ hsuffix))).imp
          (fun hlong hall => hlong fun node hnode => hall node (List.mem_append_right _ hnode)) id
      obtain ⟨hothers, houtcomes, hfindings⟩ := hv
      refine ⟨fun node hnode => (List.mem_append.mp hnode).elim (hfits node) (hothers node),
        houtcomes.trans hsuffix, ?_⟩
      rw [hfindings, hstate, List.map_append, List.append_assoc]

def traceFindings (nodes : List Node) : List Finding :=
  findingsFrom [] nodes ++ (openCalls (traceRows nodes)).map openFinding

/-- The texts of the calls fit the buffers that the pass copies them to. -/
def TraceFits (nodes : List Node) : Prop :=
  NodesFit nodes ∧ ∀ node ∈ openCalls (traceRows nodes), node.callName.length < evidenceTextSize

/-- The pass adds the findings of the replay. Granted its requests, it fails only when a text does
not fit its buffer, or when something is used up. -/
theorem ends_analyzeTrace {analysis : Analysis} (hempty : analysis.traceContexts = []) (outcomes : List Bool) :
    Ends analyzeTrace ⟨analysis, outcomes⟩
      (fun _ w => TraceFits analysis.orderedNodes ∧
        w.state.findings = analysis.findings ++ traceFindings analysis.orderedNodes)
      (fun w => outcomes = [] → ¬ TraceFits analysis.orderedNodes ∨ Stuck w.state) := by
  have hbody : Ends traceBody ⟨(analysis, []), outcomes⟩
      (fun _ w => TraceFits analysis.orderedNodes ∧
        w.state.1.findings = analysis.findings ++ traceFindings analysis.orderedNodes)
      (fun w => outcomes = [] → ¬ TraceFits analysis.orderedNodes ∨ Stuck w.state.1) := by
    refine ends_requests 2 (fun w hstate hsuffix => ?_) fun w hrefused _ hgranted => absurd hgranted hrefused
    apply ends_readState_bind
    rw [hstate]
    have hstart : Represents analysis.orderedNodes [] w.state := by
      rw [hstate]
      exact ⟨rfl, by rw [hempty]; exact .nil⟩
    have hgranted : ∀ {w' : World TraceState}, w'.outcomes <:+ w.outcomes → outcomes = [] → w'.outcomes = [] :=
      fun h hnil => List.suffix_nil.mp (hnil ▸ h.trans hsuffix)
    refine (Ends.imp (follows_traceNodes hstart List.prefix_rfl) (fun _ _ h => h) fun w' hw' hnil =>
      (hw' (hgranted List.suffix_rfl hnil)).imp (fun hlong hall => hlong hall.1) id).bind fun _ w' hw' => ?_
    obtain ⟨hfits, houtcomes, hadvance⟩ := hw'
    apply ends_readState_bind
    refine (ends_reportContexts hadvance.represents.ordered hadvance.represents.contexts
      (Nat.le_succ _)).imp (fun _ v hv => ?_) fun v hv hnil => ?_
    · obtain ⟨hopen, -, hfindings⟩ := hv
      refine ⟨⟨hfits, hopen⟩, ?_⟩
      rw [hfindings, hadvance.findings, hstate, List.append_assoc]
      rfl
    · exact (hv (hgranted houtcomes hnil)).imp (fun hlong hall => hlong hall.2) .inl
  refine ends_of (fun _ w hrun => ?_) fun e w hrun => ?_
  · obtain ⟨v, hv, rfl⟩ := withLocals_eq_ok.mp hrun
    exact hbody.ok hv
  · obtain ⟨herror, rfl⟩ := Prod.mk.inj hrun
    exact hbody.error (Prod.ext herror rfl)

end ToolEvent.ModelAnalysis
