import ToolEvent.Library.Brackets
import ToolEvent.RunModelFinish

/-!
# The calls of a run model

The edges that `build_call_edges` and `build_resource_edges` of `src/model.c` add for the calls,
against a reader that goes through the calls of every context with a stack of its own.
-/

namespace ToolEvent.RunModel

open Fallible World LatestMatch Brackets

def Node.context (node : Node) : ℤ × ℕ := (node.pid, node.contextId)

def isCallIn (context : ℤ × ℕ) (node : Node) : Bool := node.recordKind = .call ∧ node.context = context

def entersCall (node : Node) : Bool := node.callKind = .enter

def namesAgree (enter exit : Node) : Bool := enter.callName = exit.callName

def callsIn (nodes : List Node) (context : ℤ × ℕ) : List Node := nodes.filter (isCallIn context)

/-- In every context the sequence numbers of the calls increase, and the calls begin a word of
matching calls. -/
structure NestedCalls (nodes : List Node) : Prop where
  increasing : ∀ context, (callsIn nodes context).Pairwise (fun earlier later => earlier.sequence < later.sequence)
  nested : ∀ context, ∃ rest, WellNested entersCall namesAgree (callsIn nodes context ++ rest)

def callWord (nodes : List Node) (context : ℤ × ℕ) : List (Node × ℕ) :=
  nodes.zipIdx.filter (fun call => isCallIn context call.1)

def entersAt (call : Node × ℕ) : Bool := entersCall call.1

def namesAgreeAt (enter exit : Node × ℕ) : Bool := namesAgree enter.1 exit.1

def readWord (word : List (Node × ℕ)) : Tally (Node × ℕ) := Brackets.read entersAt namesAgreeAt word

def callReplay (nodes : List Node) (context : ℤ × ℕ) : Tally (Node × ℕ) := readWord (callWord nodes context)

def innermost (calls : Tally (Node × ℕ)) : Option ℕ := (calls.pending.map Prod.snd).head?

/-- The call is read before the calls at the sequence number are: an EXIT with this number leaves its
call open, and an ENTER with it opens its call. -/
def comesBefore (sequence : ℕ) (call : Node × ℕ) : Bool :=
  if entersAt call then call.1.sequence ≤ sequence else call.1.sequence < sequence

/-- The calls of a context are read up to a sequence number. -/
def callReplayAt (nodes : List Node) (context : ℤ × ℕ) (sequence : ℕ) : Tally (Node × ℕ) :=
  readWord ((callWord nodes context).takeWhile (comesBefore sequence))

/-- The call is open at the sequence number: its ENTER has no larger one, and its EXIT, if there is
one, no smaller one. -/
structure OpenAt (nodes : List Node) (context : ℤ × ℕ) (sequence : ℕ) (call : Node × ℕ) : Prop where
  mem : call ∈ callWord nodes context
  enter : entersAt call = true
  opened : call.1.sequence ≤ sequence
  exit : ∀ exit, (call, exit) ∈ (callReplay nodes context).matched → sequence ≤ exit.1.sequence

def edgesOfKind (kind : EdgeKind) (edges : List Edge) : List Edge := edges.filter (fun edge => edge.kind = kind)

/-- The edges of the calls are those of the replay of each context, and no node is twice the target of
one kind of them. -/
structure FollowsReplay (nodes : List Node) (edges : List Edge) : Prop where
  returns : ∀ enter exit, ⟨.callReturn, enter, exit⟩ ∈ edges ↔
    ∃ context a b, ((a, enter), (b, exit)) ∈ (callReplay nodes context).matched
  parents : ∀ parent enter, ⟨.callParent, parent, enter⟩ ∈ edges ↔
    ∃ node, nodes[enter]? = some node ∧ isCallIn node.context node = true ∧ entersCall node = true ∧
      innermost (callReplay (nodes.take enter) node.context) = some parent
  caused : ∀ call event, ⟨.callCausedEvent, call, event⟩ ∈ edges ↔
    ∃ node, nodes[event]? = some node ∧ node.domain = .resource ∧
      innermost (callReplayAt nodes node.context node.sequence) = some call
  openAt : ∀ context sequence call, call ∈ (callReplayAt nodes context sequence).pending ↔
    OpenAt nodes context sequence call
  targets : ∀ kind ∈ [EdgeKind.callReturn, .callParent, .callCausedEvent], ((edgesOfKind kind edges).map Edge.target).Nodup

/-- Every call returns at most once, to an ENTER of its context and name that was ingested before. -/
structure ReturnsOnce (nodes : List Node) (edges : List Edge) : Prop where
  enters : ((edgesOfKind .callReturn edges).map Edge.source).Nodup
  exits : ((edgesOfKind .callReturn edges).map Edge.target).Nodup
  agree : ∀ enter exit, ⟨.callReturn, enter, exit⟩ ∈ edges → enter < exit ∧ ∃ a b,
    nodes[enter]? = some a ∧ nodes[exit]? = some b ∧ isCallIn b.context a = true ∧ isCallIn b.context b = true ∧
      entersCall a = true ∧ entersCall b = false ∧ namesAgree a b = true

variable {nodes : List Node} {context : ℤ × ℕ} {node : Node} {index : ℕ}

theorem isCallIn_iff : isCallIn context node = true ↔ node.recordKind = .call ∧ node.context = context := decide_eq_true_iff

theorem sameContext_iff (left right : Node) : sameContext left right = true ↔ left.context = right.context := by
  simp [sameContext, Node.context]

theorem mem_callWord {call : Node × ℕ} :
    call ∈ callWord nodes context ↔ nodes[call.2]? = some call.1 ∧ isCallIn context call.1 = true := by
  rw [callWord, List.mem_filter, List.mem_zipIdx_iff_getElem?]

theorem map_fst_callWord (nodes : List Node) (context : ℤ × ℕ) :
    (callWord nodes context).map Prod.fst = callsIn nodes context := by
  have hfilter := List.filter_map (f := Prod.fst) (p := isCallIn context) (l := nodes.zipIdx)
  rw [List.zipIdx_map_fst] at hfilter
  exact hfilter.symm

theorem pairwise_callWord (nodes : List Node) (context : ℤ × ℕ) :
    (callWord nodes context).Pairwise (fun earlier later => earlier.2 < later.2) := by
  apply List.Pairwise.filter
  have hindices : (nodes.zipIdx.map Prod.snd).Pairwise (· < ·) := by
    rw [List.zipIdx_map_snd]
    exact List.pairwise_lt_range'
  exact List.pairwise_map.mp hindices

theorem nodup_callWord (nodes : List Node) (context : ℤ × ℕ) : (callWord nodes context).Nodup :=
  (pairwise_callWord nodes context).imp fun hlt heq => Nat.ne_of_lt hlt (congrArg Prod.snd heq)

/-- One more node is one more call of its context. -/
theorem callWord_succ (hnode : nodes[index]? = some node) (context : ℤ × ℕ) :
    callWord (nodes.take (index + 1)) context =
      callWord (nodes.take index) context ++ if isCallIn context node then [(node, index)] else [] := by
  obtain ⟨hindex, rfl⟩ := List.getElem?_eq_some_iff.mp hnode
  rw [callWord, List.take_succ_eq_append_getElem hindex, List.zipIdx_append, List.filter_append, callWord,
    List.length_take_of_le (Nat.le_of_lt hindex), Nat.zero_add]
  congr 1
  rw [List.zipIdx_singleton, List.filter_singleton, Bool.cond_eq_ite]

theorem callReplay_succ (hnode : nodes[index]? = some node) (context : ℤ × ℕ) :
    callReplay (nodes.take (index + 1)) context =
      if isCallIn context node then
        step entersAt namesAgreeAt (callReplay (nodes.take index) context) (node, index)
      else callReplay (nodes.take index) context := by
  rw [callReplay, callWord_succ hnode]
  split
  · exact read_concat _ _
  · rw [List.append_nil]
    rfl

/-- The beginnings of nested calls are read without a fault. -/
theorem NestedCalls.faultless (h : NestedCalls nodes) (index : ℕ) (context : ℤ × ℕ) :
    (callReplay (nodes.take index) context).Faultless := by
  obtain ⟨rest, hnested⟩ := h.nested context
  have hsplit : callsIn nodes context =
      (callWord (nodes.take index) context).map Prod.fst ++ callsIn (nodes.drop index) context := by
    rw [map_fst_callWord, callsIn, callsIn, callsIn, ← List.filter_append, List.take_append_drop]
  rw [hsplit, List.append_assoc] at hnested
  have hread := faultless_of_prefix hnested
  rw [read_map] at hread
  exact ⟨List.map_eq_nil_iff.mp hread.1, List.map_eq_nil_iff.mp hread.2⟩

def matchedBefore (nodes : List Node) (index : ℕ) : MatchedExit :=
  (callEdges nodes (List.range index) (nodes.map fun _ => none)).1

def edgesBefore (nodes : List Node) (index : ℕ) : List Edge :=
  (callEdges nodes (List.range index) (nodes.map fun _ => none)).2

theorem callEdges_append (nodes : List Node) (first rest : List ℕ) (matchedExit : MatchedExit) :
    callEdges nodes (first ++ rest) matchedExit =
      ((callEdges nodes rest (callEdges nodes first matchedExit).1).1,
        (callEdges nodes first matchedExit).2 ++ (callEdges nodes rest (callEdges nodes first matchedExit).1).2) := by
  induction first generalizing matchedExit with
  | nil => rfl
  | cons index first ih =>
    rw [List.cons_append, callEdges, ih, callEdges]
    simp only [List.append_assoc]

theorem matchedBefore_succ (nodes : List Node) (index : ℕ) :
    matchedBefore nodes (index + 1) = (callEdge nodes (matchedBefore nodes index) index).1 := by
  rw [matchedBefore, List.range_succ, callEdges_append]
  rfl

theorem edgesBefore_succ (nodes : List Node) (index : ℕ) :
    edgesBefore nodes (index + 1) = edgesBefore nodes index ++ (callEdge nodes (matchedBefore nodes index) index).2 := by
  rw [edgesBefore, List.range_succ, callEdges_append]
  simp [callEdges, edgesBefore, matchedBefore]

theorem mem_edgesBefore {edge : Edge} :
    edge ∈ edgesBefore nodes index ↔ ∃ i < index, edge ∈ (callEdge nodes (matchedBefore nodes i) i).2 := by
  induction index with
  | zero => simp [edgesBefore, callEdges]
  | succ index ih =>
    rw [edgesBefore_succ, List.mem_append, ih]
    constructor
    · rintro (⟨i, hi, hedge⟩ | hedge)
      · exact ⟨i, Nat.lt_succ_of_lt hi, hedge⟩
      · exact ⟨index, Nat.lt_succ_self _, hedge⟩
    · rintro ⟨i, hi, hedge⟩
      rcases Nat.lt_succ_iff_lt_or_eq.mp hi with hi | rfl
      · exact Or.inl ⟨i, hi, hedge⟩
      · exact Or.inr hedge

inductive CallStep (nodes : List Node) (matchedExit : MatchedExit) (index : ℕ) (node : Node) :
    MatchedExit × List Edge → Prop
  | other (hcall : node.recordKind ≠ .call) : CallStep nodes matchedExit index node (matchedExit, [])
  | enter (hcall : node.recordKind = .call) (henter : entersCall node = true) :
      CallStep nodes matchedExit index node (matchedExit,
        (findActiveEnter nodes matchedExit index node false).toList.map fun parent => ⟨.callParent, parent, index⟩)
  | unmatched (hcall : node.recordKind = .call) (hexit : entersCall node = false)
      (hfound : findActiveEnter nodes matchedExit index node true = none) :
      CallStep nodes matchedExit index node (matchedExit, [])
  | returns (enter : ℕ) (hcall : node.recordKind = .call) (hexit : entersCall node = false)
      (hfound : findActiveEnter nodes matchedExit index node true = some enter) :
      CallStep nodes matchedExit index node (matchedExit.set enter (some index), [⟨.callReturn, enter, index⟩])

theorem callStep (hnode : nodes[index]? = some node) (matchedExit : MatchedExit) :
    CallStep nodes matchedExit index node (callEdge nodes matchedExit index) := by
  rw [callEdge, hnode]
  dsimp only
  split
  · next hcall => exact .other hcall
  · next hcall =>
    have hcall' : node.recordKind = .call := not_not.mp hcall
    split
    · next henter => exact .enter hcall' (decide_eq_true henter)
    · next henter =>
      have hexit : entersCall node = false := decide_eq_false henter
      rcases hfound : findActiveEnter nodes matchedExit index node true with _ | enter
      · exact .unmatched hcall' hexit hfound
      · exact .returns enter hcall' hexit hfound

/-- The ENTER of a call is open for a node of its context, as far as the exits are matched. -/
structure Active (nodes : List Node) (matchedExit : MatchedExit) (index : ℕ) (node : Node) (requireName : Bool)
    (enter : ℕ) (call : Node) : Prop where
  before : enter < index
  at_enter : nodes[enter]? = some call
  unmatched : matchedExit[enter]? = some none
  inContext : isCallIn node.context call = true
  enters : entersCall call = true
  name : requireName = true → namesAgree call node = true

variable {matchedExit : MatchedExit} {requireName : Bool} {enter exit : ℕ}

theorem getElem?_take_zip {i : ℕ} {candidate : Node × Option ℕ} :
    ((nodes.zip matchedExit).take index)[i]? = some candidate ↔
      i < index ∧ nodes[i]? = some candidate.1 ∧ matchedExit[i]? = some candidate.2 := by
  rw [List.getElem?_take]
  split
  · next hi => rw [List.getElem?_zip_eq_some, and_iff_right hi]
  · next hi => simp [hi]

/-- The test of `find_active_enter` on the candidate at an index. -/
theorem exists_active_iff {i : ℕ} :
    (∃ candidate, ((nodes.zip matchedExit).take index)[i]? = some candidate ∧
      (decide (candidate.1.recordKind = .call ∧ candidate.1.callKind = .enter ∧ candidate.2 = none ∧
        sameContext candidate.1 node ∧ (requireName = true → candidate.1.callName = node.callName))) = true) ↔
      ∃ call, Active nodes matchedExit index node requireName i call := by
  constructor
  · rintro ⟨⟨call, matched⟩, hat, htest⟩
    obtain ⟨hbefore, hnode, hmatched⟩ := getElem?_take_zip.mp hat
    obtain ⟨hcall, henter, hnone, hcontext, hname⟩ := of_decide_eq_true htest
    exact ⟨call, hbefore, hnode, hmatched.trans (congrArg some hnone),
      isCallIn_iff.mpr ⟨hcall, (sameContext_iff _ _).mp hcontext⟩, decide_eq_true henter,
      fun hrequire => decide_eq_true (hname hrequire)⟩
  · rintro ⟨call, hactive⟩
    obtain ⟨hcall, hcontext⟩ := isCallIn_iff.mp hactive.inContext
    refine ⟨(call, none), getElem?_take_zip.mpr ⟨hactive.before, hactive.at_enter, hactive.unmatched⟩, ?_⟩
    apply decide_eq_true
    exact ⟨hcall, of_decide_eq_true hactive.enters, rfl, (sameContext_iff _ _).mpr hcontext,
      fun hrequire => of_decide_eq_true (hactive.name hrequire)⟩

/-- The search finds the last of the open ENTERs. -/
theorem findActiveEnter_eq_some_iff :
    findActiveEnter nodes matchedExit index node requireName = some enter ↔
      (∃ call, Active nodes matchedExit index node requireName enter call) ∧
        ∀ i, enter < i → ¬ ∃ call, Active nodes matchedExit index node requireName i call := by
  rw [findActiveEnter, latestIndex_eq_some_iff, exists_active_iff]
  apply and_congr_right
  intro _
  constructor
  · rintro hlater i hi hactive
    obtain ⟨candidate, hat, htest⟩ := exists_active_iff.mpr hactive
    exact absurd htest (ne_true_of_eq_false (hlater i candidate hi hat))
  · intro hlater i candidate hi hat
    apply eq_false_of_ne_true
    exact fun htest => hlater i hi (exists_active_iff.mp ⟨candidate, hat, htest⟩)

/-- The matched exits and the edges before the node at an index. -/
structure Matching (nodes : List Node) (index : ℕ) (matchedExit : MatchedExit) (edges : List Edge) : Prop where
  length : matchedExit.length = nodes.length
  returns : ∀ enter exit, ⟨.callReturn, enter, exit⟩ ∈ edges ↔ matchedExit[enter]? = some (some exit)
  agree : ∀ enter exit, matchedExit[enter]? = some (some exit) → enter < exit ∧ exit < index ∧ ∃ a b,
    nodes[enter]? = some a ∧ nodes[exit]? = some b ∧ isCallIn b.context a = true ∧ isCallIn b.context b = true ∧
      entersCall a = true ∧ entersCall b = false ∧ namesAgree a b = true
  enters : ((edgesOfKind .callReturn edges).map Edge.source).Nodup

theorem edgesOfKind_append (kind : EdgeKind) (first rest : List Edge) :
    edgesOfKind kind (first ++ rest) = edgesOfKind kind first ++ edgesOfKind kind rest := List.filter_append ..

theorem mem_edgesOfKind {kind : EdgeKind} {edges : List Edge} {edge : Edge} :
    edge ∈ edgesOfKind kind edges ↔ edge ∈ edges ∧ edge.kind = kind := by
  rw [edgesOfKind, List.mem_filter, decide_eq_true_iff]

theorem edgesOfKind_eq_nil {kind : EdgeKind} {edges : List Edge} (h : ∀ edge ∈ edges, edge.kind ≠ kind) :
    edgesOfKind kind edges = [] := by
  rw [edgesOfKind, List.filter_eq_nil_iff]
  exact fun edge hedge hkind => h edge hedge (of_decide_eq_true hkind)

theorem Matching.succ {edges added : List Edge} (h : Matching nodes index matchedExit edges)
    (hadded : ∀ edge ∈ added, edge.kind ≠ .callReturn) : Matching nodes (index + 1) matchedExit (edges ++ added) := by
  have hsame : edgesOfKind .callReturn (edges ++ added) = edgesOfKind .callReturn edges := by
    rw [edgesOfKind_append, edgesOfKind_eq_nil hadded, List.append_nil]
  refine ⟨h.length, fun enter exit => ?_, fun enter exit hmatched => ?_, hsame ▸ h.enters⟩
  · rw [← h.returns, List.mem_append]
    exact or_iff_left fun hedge => hadded _ hedge rfl
  · obtain ⟨hlt, hbefore, hagree⟩ := h.agree enter exit hmatched
    exact ⟨hlt, Nat.lt_succ_of_lt hbefore, hagree⟩

/-- An exit is matched to an ENTER that had none. -/
theorem getElem?_set_unmatched (hunmatched : matchedExit[enter]? = some none) (index i exit : ℕ) :
    (matchedExit.set enter (some index))[i]? = some (some exit) ↔
      matchedExit[i]? = some (some exit) ∨ i = enter ∧ exit = index := by
  have henter : enter < matchedExit.length := (List.getElem?_eq_some_iff.mp hunmatched).1
  rw [List.getElem?_set]
  split
  · next heq =>
    subst heq
    simp [hunmatched, eq_comm]
  · next hne => exact (or_iff_left fun h => hne h.1.symm).symm

theorem Matching.returned {edges : List Edge} (h : Matching nodes index matchedExit edges)
    (hnode : nodes[index]? = some node) (hcall : node.recordKind = .call) (hexit : entersCall node = false)
    (hfound : findActiveEnter nodes matchedExit index node true = some enter) :
    Matching nodes (index + 1) (matchedExit.set enter (some index)) (edges ++ [⟨.callReturn, enter, index⟩]) := by
  obtain ⟨call, hactive⟩ := (findActiveEnter_eq_some_iff.mp hfound).1
  have hset := getElem?_set_unmatched hactive.unmatched index
  have hsource : enter ∉ (edgesOfKind .callReturn edges).map Edge.source := by
    intro hmem
    obtain ⟨⟨kind, _, exit⟩, hedge, rfl⟩ := List.mem_map.mp hmem
    obtain ⟨hedge, rfl⟩ := mem_edgesOfKind.mp hedge
    have hmatched := (h.returns _ _).mp hedge
    rw [hactive.unmatched] at hmatched
    cases hmatched
  refine ⟨by rw [List.length_set, h.length], fun i exit => ?_, fun i exit hmatched => ?_, ?_⟩
  · rw [hset, List.mem_append, h.returns, List.mem_singleton, Edge.mk.injEq]
    simp
  · rcases (hset i exit).mp hmatched with hmatched | ⟨rfl, rfl⟩
    · obtain ⟨hlt, hbefore, hagree⟩ := h.agree i exit hmatched
      exact ⟨hlt, Nat.lt_succ_of_lt hbefore, hagree⟩
    · exact ⟨hactive.before, Nat.lt_succ_self _, call, node, hactive.at_enter, hnode, hactive.inContext,
        isCallIn_iff.mpr ⟨hcall, rfl⟩, hactive.enters, hexit, hactive.name rfl⟩
  · rw [edgesOfKind_append, List.map_append]
    exact List.nodup_append_comm.mp (List.nodup_cons.mpr ⟨hsource, h.enters⟩)

/-- The exits are matched to the ENTERs as the edges say, at every node. -/
theorem matching (nodes : List Node) {index : ℕ} (hindex : index ≤ nodes.length) :
    Matching nodes index (matchedBefore nodes index) (edgesBefore nodes index) := by
  induction index with
  | zero =>
    have hnone : ∀ enter exit : ℕ, (matchedBefore nodes 0)[enter]? ≠ some (some exit) := by
      intro enter exit hmatched
      rw [matchedBefore, List.range_zero, callEdges, List.getElem?_map] at hmatched
      cases hnode : nodes[enter]? with
      | none => simp [hnode] at hmatched
      | some node => simp [hnode] at hmatched
    refine ⟨List.length_map _, fun enter exit => ?_, fun enter exit hmatched => ?_, List.nodup_nil⟩
    · exact iff_of_false List.not_mem_nil (hnone enter exit)
    · exact absurd hmatched (hnone enter exit)
  | succ index ih =>
    have hnode := List.getElem?_eq_getElem (Nat.lt_of_succ_le hindex)
    have hbefore := ih (Nat.le_of_succ_le hindex)
    have hstep := callStep hnode (matchedBefore nodes index)
    rw [matchedBefore_succ, edgesBefore_succ]
    generalize callEdge nodes (matchedBefore nodes index) index = result at hstep ⊢
    cases hstep with
    | other hcall => exact hbefore.succ fun edge hedge => absurd hedge List.not_mem_nil
    | enter hcall henter =>
      apply hbefore.succ
      intro edge hedge
      obtain ⟨parent, -, rfl⟩ := List.mem_map.mp hedge
      exact fun hkind => by cases hkind
    | unmatched hcall hexit hfound => exact hbefore.succ fun edge hedge => absurd hedge List.not_mem_nil
    | returns enter hcall hexit hfound => exact hbefore.returned hnode hcall hexit hfound

def MatchesReplay (nodes : List Node) (index : ℕ) (matchedExit : MatchedExit) : Prop :=
  ∀ enter exit, matchedExit[enter]? = some (some exit) ↔
    ∃ context a b, ((a, enter), (b, exit)) ∈ (callReplay (nodes.take index) context).matched

theorem mem_callWord_take {call : Node × ℕ} :
    call ∈ callWord (nodes.take index) context ↔
      call.2 < index ∧ nodes[call.2]? = some call.1 ∧ isCallIn context call.1 = true := by
  rw [mem_callWord, List.getElem?_take]
  split
  · next hi => rw [and_iff_right hi]
  · next hi => simp [hi]

theorem enter_of_mem_matched {a b : Node × ℕ} (h : (a, b) ∈ (callReplay (nodes.take index) context).matched) :
    a.2 < index ∧ nodes[a.2]? = some a.1 ∧ isCallIn context a.1 = true ∧ entersCall a.1 = true := by
  obtain ⟨hmem, henters, -⟩ := closing_of_mem_matched h
  obtain ⟨hbefore, hnode, hcall⟩ := mem_callWord_take.mp hmem
  exact ⟨hbefore, hnode, hcall, henters⟩

/-- The calls that are open in the replay are the active ones. -/
theorem mem_pending_iff_active (h : MatchesReplay nodes index matchedExit) (hlength : matchedExit.length = nodes.length)
    {call : Node} :
    (call, enter) ∈ (callReplay (nodes.take index) node.context).pending ↔
      Active nodes matchedExit index node false enter call := by
  have hnodup := nodup_callWord (nodes.take index) node.context
  constructor
  · intro hpending
    obtain ⟨hmem, henters, -⟩ := (mem_pending_iff (v := []) (by rwa [List.append_nil])).mp hpending
    obtain ⟨hbefore, hnode, hcall⟩ := mem_callWord_take.mp hmem
    refine ⟨hbefore, hnode, ?_, hcall, henters, fun hfalse => absurd hfalse Bool.false_ne_true⟩
    have hlt : enter < matchedExit.length := hlength ▸ (List.getElem?_eq_some_iff.mp hnode).1
    rcases hmatched : matchedExit[enter] with _ | exit
    · rw [List.getElem?_eq_getElem hlt, hmatched]
    · obtain ⟨context, a, b, hpair⟩ := (h enter exit).mp (List.getElem?_eq_some_iff.mpr ⟨hlt, hmatched⟩)
      obtain ⟨-, hnode', hcall', -⟩ := enter_of_mem_matched hpair
      obtain rfl : call = a := Option.some.inj (hnode.symm.trans hnode')
      obtain rfl : node.context = context := (isCallIn_iff.mp hcall).2.symm.trans (isCallIn_iff.mp hcall').2
      exact absurd hpending ((matched_or_pending hnodup henters hmem).mp ⟨_, hpair⟩)
  · intro hactive
    have hmem : (call, enter) ∈ callWord (nodes.take index) node.context :=
      mem_callWord_take.mpr ⟨hactive.before, hactive.at_enter, hactive.inContext⟩
    by_contra hpending
    obtain ⟨exit, hpair⟩ := (matched_or_pending hnodup hactive.enters hmem).mpr hpending
    have hmatched := (h enter exit.2).mpr ⟨_, call, exit.1, hpair⟩
    rw [hactive.unmatched] at hmatched
    cases hmatched

theorem sorted_pending (word : List (Node × ℕ)) (hsorted : word.Pairwise (fun earlier later => earlier.2 < later.2)) :
    ((readWord word).pending.map Prod.snd).Pairwise (fun i j => j < i) := by
  have hreverse := hsorted.sublist (pending_sublist entersAt namesAgreeAt word)
  rw [List.pairwise_reverse] at hreverse
  exact List.pairwise_map.mpr hreverse

/-- The parent of an ENTER is the innermost open call. -/
theorem findActiveEnter_eq_innermost (h : MatchesReplay nodes index matchedExit)
    (hlength : matchedExit.length = nodes.length) :
    findActiveEnter nodes matchedExit index node false = innermost (callReplay (nodes.take index) node.context) := by
  apply latestIndex_eq_head?
  · exact sorted_pending _ (pairwise_callWord _ _)
  · intro i
    rw [exists_active_iff, List.mem_map]
    constructor
    · rintro ⟨⟨call, _⟩, hpending, rfl⟩
      exact ⟨call, (mem_pending_iff_active h hlength).mp hpending⟩
    · rintro ⟨call, hactive⟩
      exact ⟨(call, i), (mem_pending_iff_active h hlength).mpr hactive, rfl⟩

/-- A node that is no EXIT of a context matches nothing. -/
theorem MatchesReplay.succ (h : MatchesReplay nodes index matchedExit) (hnode : nodes[index]? = some node)
    (hexit : ¬ (node.recordKind = .call ∧ entersCall node = false)) : MatchesReplay nodes (index + 1) matchedExit := by
  intro enter exit
  rw [h]
  apply exists_congr
  intro context
  rw [callReplay_succ hnode]
  split
  · next hcall =>
    have henters : entersAt (node, index) = true := by
      apply eq_true_of_ne_false
      exact fun hfalse => hexit ⟨(isCallIn_iff.mp hcall).1, hfalse⟩
    rw [step_of_opens henters]
  · rfl

/-- An EXIT that is read without a fault returns from the innermost open call. -/
theorem MatchesReplay.returned (h : MatchesReplay nodes index matchedExit) (hlength : matchedExit.length = nodes.length)
    (hnode : nodes[index]? = some node) (hcall : node.recordKind = .call) (hexit : entersCall node = false)
    (hfaultless : (callReplay (nodes.take (index + 1)) node.context).Faultless) :
    ∃ enter, findActiveEnter nodes matchedExit index node true = some enter ∧
      MatchesReplay nodes (index + 1) (matchedExit.set enter (some index)) := by
  have hin : isCallIn node.context node = true := isCallIn_iff.mpr ⟨hcall, rfl⟩
  have hcloses : entersAt (node, index) = false := hexit
  have hreplay := callReplay_succ hnode node.context
  rw [if_pos hin, step_of_closes hcloses] at hreplay
  rw [hreplay] at hfaultless
  rcases close_cases namesAgreeAt (callReplay (nodes.take index) node.context) (node, index) with
    ⟨-, hclose⟩ | ⟨⟨call, enter⟩, rest, hpending, hagree, hclose⟩ | ⟨_, _, -, -, hclose⟩
  · rw [hclose] at hfaultless
    simp [Tally.Faultless] at hfaultless
  · have hsorted := sorted_pending _ (pairwise_callWord (nodes.take index) node.context)
    have hactive : Active nodes matchedExit index node false enter call := by
      rw [← mem_pending_iff_active h hlength, hpending]
      exact List.mem_cons_self
    refine ⟨enter, findActiveEnter_eq_some_iff.mpr ⟨⟨call, ?_⟩, ?_⟩, ?_⟩
    · exact { hactive with name := fun _ => hagree }
    · rintro i hi ⟨later, hlater⟩
      have hmem : (later, i) ∈ (callReplay (nodes.take index) node.context).pending :=
        (mem_pending_iff_active h hlength).mpr { hlater with name := fun hfalse => absurd hfalse Bool.false_ne_true }
      change ((callReplay (nodes.take index) node.context).pending.map Prod.snd).Pairwise _ at hsorted
      rw [hpending, List.map_cons, List.pairwise_cons] at hsorted
      rw [hpending] at hmem
      rcases List.mem_cons.mp hmem with heq | hrest
      · exact Nat.ne_of_lt hi (congrArg Prod.snd heq).symm
      · exact Nat.lt_asymm hi (hsorted.1 i (List.mem_map_of_mem hrest))
    · have hmatched : ∀ context pair, pair ∈ (callReplay (nodes.take (index + 1)) context).matched ↔
          pair ∈ (callReplay (nodes.take index) context).matched ∨
            context = node.context ∧ pair = ((call, enter), (node, index)) := by
        intro context pair
        by_cases hcontext : node.context = context
        · subst hcontext
          rw [hreplay, hclose, List.mem_append, List.mem_singleton]
          simp
        · rw [callReplay_succ hnode, if_neg fun hother => hcontext (isCallIn_iff.mp hother).2]
          exact (or_iff_left fun hother => hcontext hother.1.symm).symm
      intro i exit
      rw [getElem?_set_unmatched hactive.unmatched, h i exit]
      simp only [hmatched, exists_or]
      simp
  · rw [hclose] at hfaultless
    simp [Tally.Faultless] at hfaultless

/-- The exits are matched as in the replays, at every node. -/
theorem NestedCalls.matchesReplay (h : NestedCalls nodes) {index : ℕ} (hindex : index ≤ nodes.length) :
    MatchesReplay nodes index (matchedBefore nodes index) := by
  induction index with
  | zero =>
    intro enter exit
    rw [← (matching nodes (Nat.zero_le _)).returns]
    simp [edgesBefore, callEdges, callReplay, callWord, readWord, Brackets.read]
  | succ index ih =>
    have hnode := List.getElem?_eq_getElem (Nat.lt_of_succ_le hindex)
    have hbefore := ih (Nat.le_of_succ_le hindex)
    have hlength := (matching nodes (Nat.le_of_succ_le hindex)).length
    have hstep := callStep hnode (matchedBefore nodes index)
    have hfaultless := h.faultless (index + 1)
    rw [matchedBefore_succ]
    generalize callEdge nodes (matchedBefore nodes index) index = result at hstep ⊢
    cases hstep with
    | other hcall => exact hbefore.succ hnode fun hexit => hcall hexit.1
    | enter hcall henter => exact hbefore.succ hnode fun hexit => by simp [henter] at hexit
    | unmatched hcall hexit hfound =>
      obtain ⟨enter, hfound', -⟩ := hbefore.returned hlength hnode hcall hexit (hfaultless _)
      rw [hfound] at hfound'
      cases hfound'
    | returns enter hcall hexit hfound =>
      obtain ⟨enter', hfound', hafter⟩ := hbefore.returned hlength hnode hcall hexit (hfaultless _)
      rw [hfound, Option.some.injEq] at hfound'
      subst hfound'
      exact hafter

/-- In a list whose elements have a property up to some point, taking them is selecting them. -/
theorem mem_takeWhile_iff {α : Type*} {p : α → Bool} {xs : List α} {x : α}
    (h : xs.Pairwise (fun earlier later => p later = true → p earlier = true)) :
    x ∈ xs.takeWhile p ↔ x ∈ xs ∧ p x = true := by
  induction xs with
  | nil => simp
  | cons y xs ih =>
    obtain ⟨hfirst, hrest⟩ := List.pairwise_cons.mp h
    cases hy : p y with
    | true =>
      rw [List.takeWhile_cons_of_pos hy, List.mem_cons, List.mem_cons, ih hrest, or_and_right]
      apply or_congr_left
      constructor
      · rintro rfl
        exact ⟨rfl, hy⟩
      · exact And.left
    | false =>
      rw [List.takeWhile_cons_of_neg (ne_true_of_eq_false hy)]
      refine iff_of_false List.not_mem_nil ?_
      rintro ⟨hmem, hx⟩
      rcases List.mem_cons.mp hmem with rfl | hmem
      · exact absurd hx (ne_true_of_eq_false hy)
      · exact absurd (hfirst x hmem hx) (ne_true_of_eq_false hy)

theorem NestedCalls.increasing_callWord (h : NestedCalls nodes) (context : ℤ × ℕ) :
    (callWord nodes context).Pairwise (fun earlier later => earlier.1.sequence < later.1.sequence) := by
  have hincreasing := h.increasing context
  rw [← map_fst_callWord, List.pairwise_map] at hincreasing
  exact hincreasing

/-- The calls before a sequence number are the first ones. -/
theorem NestedCalls.mem_takeWhile (h : NestedCalls nodes) (context : ℤ × ℕ) (sequence : ℕ) (call : Node × ℕ) :
    call ∈ (callWord nodes context).takeWhile (comesBefore sequence) ↔
      call ∈ callWord nodes context ∧ comesBefore sequence call = true := by
  apply mem_takeWhile_iff
  refine (h.increasing_callWord context).imp fun {earlier later} hlt hlater => ?_
  rw [comesBefore] at hlater ⊢
  split at hlater <;> split <;> simp only [decide_eq_true_eq] at hlater ⊢ <;> omega

/-- The calls that the replay leaves open at a sequence number. -/
theorem NestedCalls.mem_callReplayAt (h : NestedCalls nodes) (context : ℤ × ℕ) (sequence : ℕ) (call : Node × ℕ) :
    call ∈ (callReplayAt nodes context sequence).pending ↔ OpenAt nodes context sequence call := by
  have hsplit := List.takeWhile_append_dropWhile (p := comesBefore sequence) (l := callWord nodes context)
  have hnodup := nodup_callWord nodes context
  have hmem := h.mem_takeWhile context sequence
  rw [callReplayAt, readWord, mem_pending_iff (hsplit.symm ▸ hnodup), hsplit]
  constructor
  · rintro ⟨hcall, henter, hexits⟩
    obtain ⟨hword, hbefore⟩ := (hmem call).mp hcall
    rw [comesBefore, if_pos henter] at hbefore
    refine ⟨hword, henter, of_decide_eq_true hbefore, fun exit hpair => ?_⟩
    obtain ⟨-, -, hexit, hcloses⟩ := closing_of_mem_matched hpair
    by_contra hless
    apply hexits exit hpair
    rw [hmem, comesBefore, if_neg (ne_true_of_eq_false hcloses)]
    exact ⟨hexit, decide_eq_true (Nat.lt_of_not_le hless)⟩
  · rintro ⟨hword, henter, hopened, hexits⟩
    refine ⟨(hmem call).mpr ⟨hword, ?_⟩, henter, fun exit hpair hbefore => ?_⟩
    · rw [comesBefore, if_pos henter]
      exact decide_eq_true hopened
    · obtain ⟨-, -, -, hcloses⟩ := closing_of_mem_matched hpair
      have hless := ((hmem exit).mp hbefore).2
      rw [comesBefore, if_neg (ne_true_of_eq_false hcloses), decide_eq_true_iff] at hless
      exact absurd (hexits exit hpair) (Nat.not_le_of_lt hless)

theorem sequenceAt_eq (hnode : nodes[index]? = some node) : sequenceAt nodes index = node.sequence := by
  rw [sequenceAt, hnode]
  rfl

theorem enclosesResource_iff {resource call : Node} {matched : Option ℕ} :
    enclosesResource nodes resource call matched = true ↔
      isCallIn resource.context call = true ∧ entersCall call = true ∧ call.sequence ≤ resource.sequence ∧
        ∀ exit ∈ matched, resource.sequence ≤ sequenceAt nodes exit := by
  simp only [enclosesResource, isCallIn, entersCall, decide_eq_true_eq, sameContext_iff]
  tauto

/-- The exit of a call in its replay is the one that the pass has matched. -/
theorem NestedCalls.matched_iff (h : NestedCalls nodes) {call : Node × ℕ} (hcall : call ∈ callWord nodes context)
    (exit : ℕ) :
    (matchedBefore nodes nodes.length)[call.2]? = some (some exit) ↔
      ∃ b, (call, (b, exit)) ∈ (callReplay nodes context).matched := by
  have hmatches := h.matchesReplay (Nat.le_refl _) call.2 exit
  rw [List.take_length] at hmatches
  rw [hmatches]
  constructor
  · rintro ⟨context', a, b, hpair⟩
    obtain ⟨hnode, hin⟩ := mem_callWord.mp (closing_of_mem_matched hpair).1
    obtain ⟨hnode', hin'⟩ := mem_callWord.mp hcall
    obtain rfl : call.1 = a := Option.some.inj (hnode'.symm.trans hnode)
    obtain rfl : context = context' := (isCallIn_iff.mp hin').2.symm.trans (isCallIn_iff.mp hin).2
    exact ⟨b, hpair⟩
  · rintro ⟨b, hpair⟩
    exact ⟨context, call.1, b, hpair⟩

/-- The test of `find_enclosing_call` on the candidate at an index. -/
theorem NestedCalls.exists_encloses_iff (h : NestedCalls nodes) (resource : Node) {i : ℕ} :
    (∃ candidate, (nodes.zip (matchedBefore nodes nodes.length))[i]? = some candidate ∧
      enclosesResource nodes resource candidate.1 candidate.2 = true) ↔
      ∃ call, OpenAt nodes resource.context resource.sequence (call, i) := by
  constructor
  · rintro ⟨⟨call, matched⟩, hat, htest⟩
    obtain ⟨hnode, hmatched⟩ := List.getElem?_zip_eq_some.mp hat
    obtain ⟨hin, henter, hopened, hexits⟩ := enclosesResource_iff.mp htest
    have hcall : (call, i) ∈ callWord nodes resource.context := mem_callWord.mpr ⟨hnode, hin⟩
    refine ⟨call, hcall, henter, hopened, fun exit hpair => ?_⟩
    have hexit := (h.matched_iff hcall exit.2).mpr ⟨exit.1, hpair⟩
    rw [← sequenceAt_eq (mem_callWord.mp (closing_of_mem_matched hpair).2.2.1).1]
    apply hexits
    exact Option.some.inj (hmatched.symm.trans hexit)
  · rintro ⟨call, hcall, henter, hopened, hexits⟩
    obtain ⟨hnode, hin⟩ := mem_callWord.mp hcall
    have hi : i < (matchedBefore nodes nodes.length).length := by
      rw [(matching nodes (Nat.le_refl _)).length]
      exact (List.getElem?_eq_some_iff.mp hnode).1
    have hmatched := List.getElem?_eq_getElem hi
    refine ⟨(call, (matchedBefore nodes nodes.length)[i]), List.getElem?_zip_eq_some.mpr ⟨hnode, hmatched⟩, ?_⟩
    rw [enclosesResource_iff]
    refine ⟨hin, henter, hopened, fun exit hexit => ?_⟩
    obtain ⟨b, hpair⟩ := (h.matched_iff hcall exit).mp (hmatched.trans (congrArg some hexit))
    rw [sequenceAt_eq (mem_callWord.mp (closing_of_mem_matched hpair).2.2.1).1]
    exact hexits _ hpair

/-- The search finds the innermost call of the replay. -/
theorem NestedCalls.findEnclosingCall_eq (h : NestedCalls nodes) (resource : Node) :
    findEnclosingCall nodes (matchedBefore nodes nodes.length) resource =
      innermost (callReplayAt nodes resource.context resource.sequence) := by
  have hlength : nodes.length ≤ (matchedBefore nodes nodes.length).length :=
    Nat.le_of_eq (matching nodes (Nat.le_refl _)).length.symm
  have hat : ∀ i (candidate : Node × Option ℕ), (nodes.zip (matchedBefore nodes nodes.length))[i]? = some candidate →
      sequenceAt nodes i = candidate.1.sequence :=
    fun i candidate hcandidate => sequenceAt_eq (List.getElem?_zip_eq_some.mp hcandidate).1
  have hsorted : (nodes.zip (matchedBefore nodes nodes.length)).Pairwise fun earlier later =>
      enclosesResource nodes resource earlier.1 earlier.2 = true →
        enclosesResource nodes resource later.1 later.2 = true → earlier.1.sequence < later.1.sequence := by
    have hincreasing := h.increasing resource.context
    rw [callsIn, List.pairwise_filter, ← List.map_fst_zip hlength, List.pairwise_map] at hincreasing
    refine hincreasing.imp fun {earlier later} hlt hearlier hlater => ?_
    exact hlt (enclosesResource_iff.mp hearlier).1 (enclosesResource_iff.mp hlater).1
  have hlatest : findEnclosingCall nodes (matchedBefore nodes nodes.length) resource =
      latestIndex (fun candidate => enclosesResource nodes resource candidate.1 candidate.2)
        (nodes.zip (matchedBefore nodes nodes.length)) := foldl_largest _ hat hsorted
  rw [hlatest]
  apply latestIndex_eq_head?
  · apply sorted_pending
    exact (pairwise_callWord _ _).sublist (List.takeWhile_sublist _)
  · intro i
    rw [h.exists_encloses_iff, List.mem_map]
    constructor
    · rintro ⟨⟨call, _⟩, hpending, rfl⟩
      exact ⟨call, (h.mem_callReplayAt _ _ _).mp hpending⟩
    · rintro ⟨call, hopen⟩
      exact ⟨(call, i), (h.mem_callReplayAt _ _ _).mpr hopen, rfl⟩

/-- A node is the target of at most one edge that the pass adds. -/
theorem target_callEdge (nodes : List Node) (matchedExit : MatchedExit) (index : ℕ) :
    ((callEdge nodes matchedExit index).2.map Edge.target).Sublist [index] := by
  rcases hnode : nodes[index]? with _ | node
  · simp [callEdge, hnode]
  · have hstep := callStep hnode matchedExit
    generalize callEdge nodes matchedExit index = result at hstep ⊢
    cases hstep with
    | other hcall => exact List.nil_sublist _
    | enter hcall henter => cases findActiveEnter nodes matchedExit index node false <;> simp
    | unmatched hcall hexit hfound => exact List.nil_sublist _
    | returns enter hcall hexit hfound => exact .refl _

theorem target_edgesBefore (nodes : List Node) (index : ℕ) :
    ((edgesBefore nodes index).map Edge.target).Sublist (List.range index) := by
  induction index with
  | zero => exact List.nil_sublist _
  | succ index ih =>
    rw [edgesBefore_succ, List.map_append, List.range_succ]
    exact ih.append (target_callEdge _ _ _)

theorem kind_edgesBefore : ∀ edge ∈ edgesBefore nodes index, edge.kind = .callReturn ∨ edge.kind = .callParent := by
  intro edge hedge
  obtain ⟨i, -, hedge⟩ := mem_edgesBefore.mp hedge
  rcases hnode : nodes[i]? with _ | node
  · simp [callEdge, hnode] at hedge
  · have hstep := callStep hnode (matchedBefore nodes i)
    generalize callEdge nodes (matchedBefore nodes i) i = result at hstep hedge
    cases hstep with
    | other hcall => exact absurd hedge List.not_mem_nil
    | enter hcall henter =>
      obtain ⟨parent, -, rfl⟩ := List.mem_map.mp hedge
      exact Or.inr rfl
    | unmatched hcall hexit hfound => exact absurd hedge List.not_mem_nil
    | returns enter hcall hexit hfound =>
      rw [List.mem_singleton.mp hedge]
      exact Or.inl rfl

variable (lib : RecordLibrary)

def causingCall (nodes : List Node) (matchedExit : MatchedExit) (index : ℕ) : Option ℕ :=
  nodes[index]?.bind fun node => if node.domain = .resource then findEnclosingCall nodes matchedExit node else none

def causedEdges (nodes : List Node) (matchedExit : MatchedExit) (index : ℕ) : List Edge :=
  (causingCall nodes matchedExit index).toList.map fun call => ⟨.callCausedEvent, call, index⟩

/-- The edge of the call comes before the edges of lifetimes and children. -/
theorem resourceEdges_eq (nodes : List Node) (matchedExit : MatchedExit) (index : ℕ) :
    ∃ others, resourceEdges lib nodes matchedExit index = causedEdges nodes matchedExit index ++ others ∧
      ∀ edge ∈ others, edge.kind = .resourceLifetime ∨ edge.kind = .processChildEvent := by
  rcases hnode : nodes[index]? with _ | node
  · exact ⟨[], by simp [resourceEdges, causedEdges, causingCall, hnode], by simp⟩
  · by_cases hdomain : node.domain = .resource
    · have hcaused : causedEdges nodes matchedExit index =
          (findEnclosingCall nodes matchedExit node).toList.map fun call => ⟨.callCausedEvent, call, index⟩ := by
        simp [causedEdges, causingCall, hnode, hdomain]
      rw [hcaused, resourceEdges, hnode]
      dsimp only
      rw [if_neg (not_not.mpr hdomain)]
      refine ⟨_, rfl, fun edge hedge => ?_⟩
      rcases List.mem_append.mp hedge with hedge | hedge
      · obtain ⟨death, -, rfl⟩ := List.mem_map.mp hedge
        exact Or.inl rfl
      · split at hedge
        · obtain ⟨child, -, hedge⟩ := List.mem_flatMap.mp hedge
          obtain ⟨found, -, rfl⟩ := List.mem_map.mp hedge
          exact Or.inr rfl
        · exact absurd hedge List.not_mem_nil
    · exact ⟨[], by simp [resourceEdges, causedEdges, causingCall, hnode, hdomain], by simp⟩

theorem edgesOfKind_resourceEdges (nodes : List Node) (matchedExit : MatchedExit) (index : ℕ) {kind : EdgeKind}
    (hkind : kind ∈ [EdgeKind.callReturn, .callParent, .callCausedEvent]) :
    edgesOfKind kind (resourceEdges lib nodes matchedExit index) =
      edgesOfKind kind (causedEdges nodes matchedExit index) := by
  obtain ⟨others, heq, hothers⟩ := resourceEdges_eq lib nodes matchedExit index
  have hnone : edgesOfKind kind others = [] := by
    apply edgesOfKind_eq_nil
    rintro edge hedge rfl
    rcases hothers edge hedge with h | h <;> simp [h] at hkind
  rw [heq, edgesOfKind_append, hnone, List.append_nil]

theorem edgesOfKind_edgesOf (nodes : List Node) {kind : EdgeKind}
    (hkind : kind ∈ [EdgeKind.callReturn, .callParent, .callCausedEvent]) :
    edgesOfKind kind (edgesOf lib nodes) = edgesOfKind kind (edgesBefore nodes nodes.length) ++
      (List.range nodes.length).flatMap fun index =>
        edgesOfKind kind (causedEdges nodes (matchedBefore nodes nodes.length) index) := by
  change edgesOfKind kind (edgesBefore nodes nodes.length ++ (List.range nodes.length).flatMap _) = _
  rw [edgesOfKind_append]
  congr 1
  rw [edgesOfKind, List.filter_flatMap]
  exact List.flatMap_congr fun index _ => edgesOfKind_resourceEdges lib nodes _ index hkind

/-- The edges between calls are those of the pass over the calls. -/
theorem edgesOfKind_call (nodes : List Node) {kind : EdgeKind} (hkind : kind = .callReturn ∨ kind = .callParent) :
    edgesOfKind kind (edgesOf lib nodes) = edgesOfKind kind (edgesBefore nodes nodes.length) := by
  have hnone : ∀ index, edgesOfKind kind (causedEdges nodes (matchedBefore nodes nodes.length) index) = [] := by
    intro index
    apply edgesOfKind_eq_nil
    rintro edge hedge rfl
    obtain ⟨call, -, rfl⟩ := List.mem_map.mp hedge
    simp at hkind
  rw [edgesOfKind_edgesOf lib nodes (by rcases hkind with rfl | rfl <;> simp)]
  simp [hnone]

/-- The edges from calls to events are those of the calls found around the events. -/
theorem edgesOfKind_callCausedEvent (nodes : List Node) :
    edgesOfKind .callCausedEvent (edgesOf lib nodes) =
      (List.range nodes.length).flatMap (causedEdges nodes (matchedBefore nodes nodes.length)) := by
  have hnone : edgesOfKind .callCausedEvent (edgesBefore nodes nodes.length) = [] := by
    apply edgesOfKind_eq_nil
    intro edge hedge hkind
    rcases kind_edgesBefore edge hedge with h | h <;> rw [h] at hkind <;> cases hkind
  rw [edgesOfKind_edgesOf lib nodes (by simp), hnone, List.nil_append]
  apply List.flatMap_congr
  intro index _
  rw [edgesOfKind, List.filter_eq_self]
  intro edge hedge
  obtain ⟨call, -, rfl⟩ := List.mem_map.mp hedge
  rfl

theorem mem_edgesOf_call {edge : Edge} (hkind : edge.kind = .callReturn ∨ edge.kind = .callParent) :
    edge ∈ edgesOf lib nodes ↔ edge ∈ edgesBefore nodes nodes.length := by
  have hmem := congrArg (edge ∈ ·) (edgesOfKind_call lib nodes hkind)
  simpa only [mem_edgesOfKind, and_true, eq_iff_iff] using hmem

theorem callCausedEvent_mem_edgesOf {call event : ℕ} :
    ⟨.callCausedEvent, call, event⟩ ∈ edgesOf lib nodes ↔
      causingCall nodes (matchedBefore nodes nodes.length) event = some call := by
  have hmem := congrArg (⟨.callCausedEvent, call, event⟩ ∈ ·) (edgesOfKind_callCausedEvent lib nodes)
  rw [eq_iff_iff, mem_edgesOfKind, and_iff_left rfl, List.mem_flatMap] at hmem
  rw [hmem]
  constructor
  · rintro ⟨index, -, hedge⟩
    obtain ⟨found, hfound, heq⟩ := List.mem_map.mp hedge
    obtain ⟨-, rfl, rfl⟩ := (Edge.mk.injEq ..).mp heq
    exact Option.mem_toList.mp hfound
  · intro hfound
    have hevent : event < nodes.length := by
      obtain ⟨node, hnode, -⟩ := Option.bind_eq_some_iff.mp hfound
      exact (List.getElem?_eq_some_iff.mp hnode).1
    exact ⟨event, List.mem_range.mpr hevent, List.mem_map.mpr ⟨call, Option.mem_toList.mpr hfound, rfl⟩⟩

/-- No node is twice the target of one kind of edges. -/
theorem nodup_target (nodes : List Node) {kind : EdgeKind}
    (hkind : kind ∈ [EdgeKind.callReturn, .callParent, .callCausedEvent]) :
    ((edgesOfKind kind (edgesOf lib nodes)).map Edge.target).Nodup := by
  have hcall : ((edgesOfKind kind (edgesBefore nodes nodes.length)).map Edge.target).Nodup :=
    List.nodup_range.sublist ((List.filter_sublist.map _).trans (target_edgesBefore nodes nodes.length))
  simp only [List.mem_cons, List.not_mem_nil, or_false] at hkind
  rcases hkind with rfl | rfl | rfl
  · rwa [edgesOfKind_call lib nodes (.inl rfl)]
  · rwa [edgesOfKind_call lib nodes (.inr rfl)]
  · rw [edgesOfKind_callCausedEvent, List.map_flatMap]
    suffices h : ∀ indices : List ℕ, (indices.flatMap fun index =>
        (causedEdges nodes (matchedBefore nodes nodes.length) index).map Edge.target).Sublist indices from
      List.nodup_range.sublist (h _)
    intro indices
    induction indices with
    | nil => exact .refl _
    | cons index indices ih =>
      have hfirst : ((causedEdges nodes (matchedBefore nodes nodes.length) index).map Edge.target).Sublist [index] := by
        rw [causedEdges]
        cases causingCall nodes (matchedBefore nodes nodes.length) index <;> simp
      exact hfirst.append ih

variable {lib}

/-- The calls return once, however they are nested. -/
theorem returnsOnce (nodes : List Node) : ReturnsOnce nodes (edgesOf lib nodes) := by
  have hmatching := matching nodes (Nat.le_refl nodes.length)
  refine ⟨?_, nodup_target lib nodes (by simp), fun enter exit hedge => ?_⟩
  · rw [edgesOfKind_call lib nodes (.inl rfl)]
    exact hmatching.enters
  · rw [mem_edgesOf_call lib (.inl rfl), hmatching.returns] at hedge
    obtain ⟨hlt, -, hagree⟩ := hmatching.agree enter exit hedge
    exact ⟨hlt, hagree⟩

theorem callParent_mem_callEdge {parent : ℕ} (hnode : nodes[index]? = some node) :
    ⟨.callParent, parent, enter⟩ ∈ (callEdge nodes matchedExit index).2 ↔
      index = enter ∧ node.recordKind = .call ∧ entersCall node = true ∧
        findActiveEnter nodes matchedExit index node false = some parent := by
  have hstep := callStep hnode matchedExit
  generalize callEdge nodes matchedExit index = result at hstep ⊢
  cases hstep with
  | other hcall => exact iff_of_false List.not_mem_nil fun h => hcall h.2.1
  | enter hcall henter =>
    simp only [List.mem_map, Option.mem_toList, Edge.mk.injEq, true_and, hcall, henter]
    constructor
    · rintro ⟨found, hfound, rfl, rfl⟩
      exact ⟨rfl, hfound⟩
    · rintro ⟨rfl, hfound⟩
      exact ⟨parent, hfound, rfl, rfl⟩
  | unmatched hcall hexit hfound => exact iff_of_false List.not_mem_nil fun h => by simp [hexit] at h
  | returns enter' hcall hexit hfound => exact iff_of_false (by simp) fun h => by simp [hexit] at h

/-- The parent of a call is the innermost one that is open in its replay. -/
theorem NestedCalls.callParent_iff (h : NestedCalls nodes) {parent : ℕ} :
    ⟨.callParent, parent, enter⟩ ∈ edgesBefore nodes nodes.length ↔
      ∃ node, nodes[enter]? = some node ∧ isCallIn node.context node = true ∧ entersCall node = true ∧
        innermost (callReplay (nodes.take enter) node.context) = some parent := by
  have hfound : ∀ i (node : Node), i ≤ nodes.length → findActiveEnter nodes (matchedBefore nodes i) i node false =
      innermost (callReplay (nodes.take i) node.context) :=
    fun i node hi => findActiveEnter_eq_innermost (h.matchesReplay hi) (matching nodes hi).length
  rw [mem_edgesBefore]
  constructor
  · rintro ⟨index, hindex, hedge⟩
    have hnode := List.getElem?_eq_getElem hindex
    obtain ⟨rfl, hcall, henter, hparent⟩ := (callParent_mem_callEdge hnode).mp hedge
    rw [hfound _ _ (Nat.le_of_lt hindex)] at hparent
    exact ⟨_, hnode, isCallIn_iff.mpr ⟨hcall, rfl⟩, henter, hparent⟩
  · rintro ⟨node, hnode, hcall, henter, hparent⟩
    have hindex := (List.getElem?_eq_some_iff.mp hnode).1
    rw [← hfound _ _ (Nat.le_of_lt hindex)] at hparent
    exact ⟨enter, hindex, (callParent_mem_callEdge hnode).mpr ⟨rfl, (isCallIn_iff.mp hcall).1, henter, hparent⟩⟩

/-- Nested calls have the edges of their replays. -/
theorem NestedCalls.followsReplay (h : NestedCalls nodes) : FollowsReplay nodes (edgesOf lib nodes) where
  returns := by
    intro enter exit
    have hmatches := h.matchesReplay (Nat.le_refl _) enter exit
    rw [List.take_length] at hmatches
    rw [mem_edgesOf_call lib (.inl rfl), (matching nodes (Nat.le_refl _)).returns, hmatches]
  parents := by
    intro parent enter
    rw [mem_edgesOf_call lib (.inr rfl), h.callParent_iff]
  caused := by
    intro call event
    rw [callCausedEvent_mem_edgesOf, causingCall, Option.bind_eq_some_iff]
    apply exists_congr
    intro node
    apply and_congr_right
    intro _
    rw [h.findEnclosingCall_eq]
    split
    · next hdomain => rw [and_iff_right hdomain]
    · next hdomain => exact iff_of_false (fun hnone => by cases hnone) fun hresource => hdomain hresource.1
  openAt := h.mem_callReplayAt
  targets := fun kind hkind => nodup_target lib nodes hkind

/-- The calls of a finished model: nested calls have the edges of their replays, and all calls return
at most once. -/
theorem Finished.callEdges_followReplay {model : Model} (h : Finished lib model) :
    (NestedCalls model.nodes → FollowsReplay model.nodes model.edges) ∧ ReturnsOnce model.nodes model.edges := by
  rw [h.finishedFrom.edges]
  exact ⟨NestedCalls.followsReplay, returnsOnce _⟩

def nestedCall (contextId sequence : ℕ) (callKind : CallKind) (name : String) : EventRecord where
  recordKind := .call
  runId := some (.ofString "run")
  pid := 1
  contextId := contextId
  sequence := sequence
  callKind := callKind
  callName := some (.ofString name)

/-- The calls of two contexts in turn, with the descriptor that the inner call opens ahead of them. -/
def nestedRecords : List EventRecord :=
  [{ recordKind := .fd, fdKind := .opened, runId := some (.ofString "run"), pid := 1, contextId := 1, sequence := 3, fd := 5 },
    nestedCall 1 1 .enter "f", nestedCall 2 1 .enter "f", nestedCall 1 2 .enter "g", nestedCall 1 4 .exit "g",
    nestedCall 2 2 .exit "f"]

abbrev nestedNodes : List Node := (modelOf .standard nestedRecords).nodes

theorem nestedCalls_nestedRecords : NestedCalls nestedNodes where
  increasing := by
    intro context
    have hincreasing : nestedNodes.Pairwise fun earlier later => earlier.recordKind = .call →
        later.recordKind = .call → earlier.context = later.context → earlier.sequence < later.sequence := by
      decide +kernel
    rw [callsIn, List.pairwise_filter]
    refine hincreasing.imp fun {earlier later} hlt hearlier hlater => ?_
    obtain ⟨hcall, hcontext⟩ := isCallIn_iff.mp hearlier
    obtain ⟨hcall', hcontext'⟩ := isCallIn_iff.mp hlater
    exact hlt hcall hcall' (hcontext.trans hcontext'.symm)
  nested := by
    intro context
    have hcontexts : ∀ node ∈ nestedNodes, node.recordKind = .call → node.context = (1, 1) ∨ node.context = (1, 2) := by
      decide +kernel
    by_cases hfirst : context = (1, 1)
    · refine ⟨[.ofRecord (nestedCall 1 5 .exit "f")], wellNested_iff.mpr ?_⟩
      subst hfirst
      exact ⟨by decide +kernel, by decide +kernel, by decide +kernel⟩
    · by_cases hsecond : context = (1, 2)
      · refine ⟨[], wellNested_iff.mpr ?_⟩
        subst hsecond
        exact ⟨by decide +kernel, by decide +kernel, by decide +kernel⟩
      · have hnil : callsIn nestedNodes context = [] := by
          rw [callsIn, List.filter_eq_nil_iff]
          intro node hnode hin
          obtain ⟨hcall, rfl⟩ := isCallIn_iff.mp hin
          exact (hcontexts node hnode hcall).elim hfirst hsecond
        exact ⟨[], by rw [hnil]; exact .nil⟩

theorem calls_nestedRecords : FollowsReplay nestedNodes (modelOf .standard nestedRecords).edges :=
  (Finished.callEdges_followReplay (finished_modelOf _ (by decide +kernel))).1 nestedCalls_nestedRecords

end ToolEvent.RunModel
