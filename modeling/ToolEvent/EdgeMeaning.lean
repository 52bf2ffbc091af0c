import ToolEvent.CallNesting
import ToolEvent.Library.BestMatch
import ToolEvent.ResourceLifetimes

/-!
# What the edges of a run model say

For every kind of edges the nodes that one of them connects, without the searches and the array of
matched exits of `src/model.c`: whether a call is open is read off the edges themselves.
-/

namespace ToolEvent.RunModel

open LatestMatch BestMatch

variable {nodes : List Node} {edges : List Edge} {node other : Node} {i j : ℕ}

/-- The node is the record of a new process. -/
def Starts (parent child : ℤ) (node : Node) : Prop :=
  node.domain = .resource ∧ (node.recordKind = .fork ∨ node.recordKind = .spawn) ∧
    node.pid = parent ∧ node.childPid = child

/-- A call of the context of the node is entered before it and returns to no node in between. -/
structure OpenBefore (nodes : List Node) (edges : List Edge) (index : ℕ) (node : Node) (enter : ℕ) (call : Node) :
    Prop where
  before : enter < index
  at_enter : nodes[enter]? = some call
  inContext : isCallIn node.context call = true
  enters : entersCall call = true
  unreturned : ∀ exit < index, ⟨.callReturn, enter, exit⟩ ∉ edges

/-- The last of the calls with a property that are open before the node. -/
def LastOpen (nodes : List Node) (edges : List Edge) (index : ℕ) (node : Node) (p : Node → Prop) (enter : ℕ) : Prop :=
  (∃ call, OpenBefore nodes edges index node enter call ∧ p call) ∧
    ∀ i, enter < i → ∀ call, OpenBefore nodes edges index node i call → ¬ p call

/-- By the sequence numbers the call is open when the event happens. -/
structure OpenAround (nodes : List Node) (edges : List Edge) (event : Node) (enter : ℕ) (call : Node) : Prop where
  at_enter : nodes[enter]? = some call
  inContext : isCallIn event.context call = true
  enters : entersCall call = true
  entered : call.sequence ≤ event.sequence
  unreturned : ∀ exit, ⟨.callReturn, enter, exit⟩ ∈ edges → event.sequence ≤ sequenceAt nodes exit

/-- The first of the calls with the largest sequence number that are open when the event happens. -/
def InnermostAround (nodes : List Node) (edges : List Edge) (event : Node) (enter : ℕ) : Prop :=
  ∃ call, OpenAround nodes edges event enter call ∧ ∀ i outer, OpenAround nodes edges event i outer →
    outer.sequence < call.sequence ∨ call.sequence = outer.sequence ∧ enter ≤ i

/-- Every edge is there once, and it is there exactly when the two nodes are what its kind says. -/
structure EdgesMean (lib : RecordLibrary) (nodes : List Node) (edges : List Edge) : Prop where
  nodup : edges.Nodup
  returns : ∀ enter exit, ⟨.callReturn, enter, exit⟩ ∈ edges ↔ ∃ node, nodes[exit]? = some node ∧
    node.recordKind = .call ∧ entersCall node = false ∧
      LastOpen nodes edges exit node (fun call => namesAgree call node = true) enter
  parents : ∀ parent enter, ⟨.callParent, parent, enter⟩ ∈ edges ↔ ∃ node, nodes[enter]? = some node ∧
    node.recordKind = .call ∧ entersCall node = true ∧ LastOpen nodes edges enter node (fun _ => True) parent
  caused : ∀ call event, ⟨.callCausedEvent, call, event⟩ ∈ edges ↔ ∃ node, nodes[event]? = some node ∧
    node.domain = .resource ∧ InnermostAround nodes edges node call
  lifetimes : ∀ birth death, ⟨.resourceLifetime, birth, death⟩ ∈ edges ↔ ∃ node, nodes[birth]? = some node ∧
    node.domain = .resource ∧ isLifetimeBirth lib node = true ∧
      FirstBest (endsLifetime node) (· < ·) Node.sequence nodes death
  children : ∀ parent child, ⟨.processChildEvent, parent, child⟩ ∈ edges ↔ ∃ node other,
    nodes[parent]? = some node ∧ nodes[child]? = some other ∧ Starts node.pid other.pid node

variable (lib : RecordLibrary)

/-- The search for the call around an event finds the first of those with the largest sequence number. -/
theorem findEnclosingCall_eq_some_iff {matchedExit : MatchedExit} {resource : Node} {found : ℕ} :
    findEnclosingCall nodes matchedExit resource = some found ↔
      FirstBest (fun call : Node × Option ℕ => enclosesResource nodes resource call.1 call.2) (· > ·)
        (fun call => call.1.sequence) (nodes.zip matchedExit) found := by
  have hat : ∀ index (call : Node × Option ℕ), (nodes.zip matchedExit)[index]? = some call →
      sequenceAt nodes index = call.1.sequence :=
    fun index call hcall => sequenceAt_eq (List.getElem?_zip_eq_some.mp hcall).1
  exact foldl_eq_some_iff (fun call : Node × Option ℕ => enclosesResource nodes resource call.1 call.2) (· > ·)
    (fun call => call.1.sequence) hat

/-- The search for the end of a lifetime finds the first of those with the smallest sequence number. -/
theorem findLifetimeEnd_eq_some_iff_firstBest {birth : Node} {found : ℕ} :
    findLifetimeEnd lib nodes birth = some found ↔
      isLifetimeBirth lib birth = true ∧ FirstBest (endsLifetime birth) (· < ·) Node.sequence nodes found := by
  rw [← foldl_eq_some_iff (endsLifetime birth) (· < ·) Node.sequence fun index death hdeath => sequenceAt_eq hdeath,
    findLifetimeEnd]
  have hstep : ∀ (best : Option ℕ) (death : Node × ℕ),
      (birth.sequence < death.1.sequence ∧ death.1.pid = birth.pid ∧ lifetimeMatches birth death.1 = true ∧
        ∀ index ∈ best, death.1.sequence < sequenceAt nodes index) ↔
      endsLifetime birth death.1 = true ∧ ∀ index ∈ best, death.1.sequence < sequenceAt nodes index := by
    intro best death
    rw [endsLifetime, decide_eq_true_iff, and_assoc, and_assoc]
  simp only [hstep]
  split
  · next hbirth => rw [and_iff_right hbirth]
  · next hbirth => exact iff_of_false (by simp) fun h => hbirth h.1

theorem processChildEvent_mem_resourceEdges {matchedExit : MatchedExit} {parent child : ℕ} :
    ⟨.processChildEvent, parent, child⟩ ∈ resourceEdges lib nodes matchedExit i ↔
      i = parent ∧ ∃ node other, nodes[parent]? = some node ∧ nodes[child]? = some other ∧
        Starts node.pid other.pid node := by
  rw [resourceEdges]
  rcases hnode : nodes[i]? with _ | node
  · apply iff_of_false List.not_mem_nil
    rintro ⟨rfl, node, _, hparent, _⟩
    rw [hnode] at hparent
    cases hparent
  · have hchildren : (⟨.processChildEvent, parent, child⟩ : Edge) ∈ (List.range nodes.length).flatMap (fun child =>
        (if nodes[child]?.any (fun other => other.pid = node.childPid) then some child else none).toList.map
          (fun child => ⟨.processChildEvent, i, child⟩)) ↔
        i = parent ∧ ∃ other, nodes[child]? = some other ∧ other.pid = node.childPid := by
      simp only [List.mem_flatMap, List.mem_range, List.mem_map, Option.mem_toList, Option.ite_none_right_eq_some,
        Option.any_eq_true, decide_eq_true_eq, Edge.mk.injEq, true_and]
      constructor
      · rintro ⟨_, _, _, ⟨hother, hchild⟩, hindex, rfl⟩
        obtain rfl := Option.some.inj hchild
        exact ⟨hindex, hother⟩
      · rintro ⟨hindex, other, hother⟩
        exact ⟨child, (List.getElem?_eq_some_iff.mp hother.1).1, child, ⟨⟨other, hother⟩, rfl⟩, hindex, rfl⟩
    have hstarts : (i = parent ∧ ∃ node other, nodes[parent]? = some node ∧ nodes[child]? = some other ∧
        Starts node.pid other.pid node) ↔ node.domain = .resource ∧ (node.recordKind = .fork ∨ node.recordKind = .spawn) ∧
          i = parent ∧ ∃ other, nodes[child]? = some other ∧ other.pid = node.childPid := by
      constructor
      · rintro ⟨rfl, node, other, hparent, hchild, hdomain, hkind, _, hpid⟩
        obtain rfl := Option.some.inj (hnode.symm.trans hparent)
        exact ⟨hdomain, hkind, rfl, other, hchild, hpid.symm⟩
      · rintro ⟨hdomain, hkind, rfl, other, hchild, hpid⟩
        exact ⟨rfl, node, other, hnode, hchild, hdomain, hkind, rfl, hpid.symm⟩
    rw [hstarts]
    dsimp only
    split
    · next hdomain => exact iff_of_false List.not_mem_nil fun h => hdomain h.1
    · next hdomain =>
      rw [List.mem_append, List.mem_append, and_iff_right (not_not.mp hdomain)]
      have hcall : (⟨.processChildEvent, parent, child⟩ : Edge) ∉
          (findEnclosingCall nodes matchedExit node).toList.map fun call => ⟨.callCausedEvent, call, i⟩ := by simp
      have hend : (⟨.processChildEvent, parent, child⟩ : Edge) ∉
          (findLifetimeEnd lib nodes node).toList.map fun death => ⟨.resourceLifetime, i, death⟩ := by simp
      rw [or_iff_right hcall, or_iff_right hend]
      split
      · next hkind => rw [hchildren, and_iff_right hkind]
      · next hkind => exact iff_of_false List.not_mem_nil fun h => hkind h.1

/-- The edges to the nodes of a new process are those of the records of its start. -/
theorem processChildEvent_mem_edgesOf {parent child : ℕ} :
    ⟨.processChildEvent, parent, child⟩ ∈ edgesOf lib nodes ↔
      ∃ node other, nodes[parent]? = some node ∧ nodes[child]? = some other ∧ Starts node.pid other.pid node := by
  change _ ∈ edgesBefore nodes nodes.length ++ _ ↔ _
  rw [List.mem_append, List.mem_flatMap]
  constructor
  · rintro (hcall | ⟨index, -, hedge⟩)
    · rcases kind_edgesBefore _ hcall with hkind | hkind <;> cases hkind
    · exact ((processChildEvent_mem_resourceEdges lib).mp hedge).2
  · rintro ⟨node, other, hnode, hrest⟩
    exact .inr ⟨parent, List.mem_range.mpr (List.getElem?_eq_some_iff.mp hnode).1,
      (processChildEvent_mem_resourceEdges lib).mpr ⟨rfl, node, other, hnode, hrest⟩⟩

/-- The edges that return calls, as far as the pass over the calls has come. -/
theorem callReturn_mem_edgesBefore {enter exit : ℕ} (hi : i ≤ nodes.length) :
    ⟨.callReturn, enter, exit⟩ ∈ edgesBefore nodes i ↔ exit < i ∧ ⟨.callReturn, enter, exit⟩ ∈ edgesOf lib nodes := by
  rw [mem_edgesOf_call lib (.inl rfl), mem_edgesBefore, mem_edgesBefore]
  have htarget : ∀ {k : ℕ}, ⟨.callReturn, enter, exit⟩ ∈ (callEdge nodes (matchedBefore nodes k) k).2 → k = exit := by
    intro k hedge
    have hmem := (target_callEdge nodes (matchedBefore nodes k) k).subset (List.mem_map_of_mem hedge)
    exact (List.mem_singleton.mp hmem).symm
  constructor
  · rintro ⟨k, hk, hedge⟩
    obtain rfl := htarget hedge
    exact ⟨hk, k, Nat.lt_of_lt_of_le hk hi, hedge⟩
  · rintro ⟨hexit, k, _, hedge⟩
    obtain rfl := htarget hedge
    exact ⟨k, hexit, hedge⟩

/-- The calls that the pass finds open are those that no edge returns to an earlier node. -/
theorem active_iff {requireName : Bool} {enter : ℕ} {call : Node} (hi : i ≤ nodes.length) :
    Active nodes (matchedBefore nodes i) i node requireName enter call ↔
      OpenBefore nodes (edgesOf lib nodes) i node enter call ∧ (requireName = true → namesAgree call node = true) := by
  have hmatching := matching nodes hi
  have hreturned : ∀ exit, (matchedBefore nodes i)[enter]? = some (some exit) ↔
      exit < i ∧ ⟨.callReturn, enter, exit⟩ ∈ edgesOf lib nodes := by
    intro exit
    rw [← hmatching.returns, callReturn_mem_edgesBefore lib hi]
  constructor
  · rintro ⟨hbefore, hat, hunmatched, hcontext, henters, hname⟩
    refine ⟨⟨hbefore, hat, hcontext, henters, fun exit hexit hedge => ?_⟩, hname⟩
    rw [(hreturned exit).mpr ⟨hexit, hedge⟩] at hunmatched
    cases hunmatched
  · rintro ⟨⟨hbefore, hat, hcontext, henters, hunreturned⟩, hname⟩
    refine ⟨hbefore, hat, ?_, hcontext, henters, hname⟩
    have hlt : enter < (matchedBefore nodes i).length := by
      rw [hmatching.length]
      omega
    rw [List.getElem?_eq_getElem hlt]
    rcases hexit : (matchedBefore nodes i)[enter] with _ | exit
    · rfl
    · have hsome : (matchedBefore nodes i)[enter]? = some (some exit) := by rw [List.getElem?_eq_getElem hlt, hexit]
      obtain ⟨hbefore', hedge⟩ := (hreturned exit).mp hsome
      exact absurd hedge (hunreturned exit hbefore')

theorem findActiveEnter_eq_some_iff_lastOpen (requireName : Bool) {enter : ℕ} (hi : i ≤ nodes.length) :
    findActiveEnter nodes (matchedBefore nodes i) i node requireName = some enter ↔
      LastOpen nodes (edgesOf lib nodes) i node (fun call => requireName = true → namesAgree call node = true) enter := by
  rw [findActiveEnter_eq_some_iff, LastOpen]
  simp only [active_iff lib hi, not_exists, not_and]

theorem callReturn_mem_callEdge {matchedExit : MatchedExit} {enter exit : ℕ} (hnode : nodes[i]? = some node) :
    ⟨.callReturn, enter, exit⟩ ∈ (callEdge nodes matchedExit i).2 ↔
      i = exit ∧ node.recordKind = .call ∧ entersCall node = false ∧
        findActiveEnter nodes matchedExit i node true = some enter := by
  have hstep := callStep hnode matchedExit
  generalize callEdge nodes matchedExit i = result at hstep ⊢
  cases hstep with
  | other hcall => exact iff_of_false List.not_mem_nil fun h => hcall h.2.1
  | enter hcall henter => exact iff_of_false (by simp) fun h => by simp [henter] at h
  | unmatched hcall hexit hfound =>
    apply iff_of_false List.not_mem_nil
    intro h
    rw [hfound] at h
    cases h.2.2.2
  | returns enter' hcall hexit hfound =>
    simp only [List.mem_singleton, Edge.mk.injEq, true_and, hcall, hexit, hfound, Option.some.injEq]
    constructor
    · rintro ⟨rfl, rfl⟩
      exact ⟨rfl, rfl⟩
    · rintro ⟨rfl, rfl⟩
      exact ⟨rfl, rfl⟩

theorem callReturn_mem_edgesOf {enter exit : ℕ} :
    ⟨.callReturn, enter, exit⟩ ∈ edgesOf lib nodes ↔ ∃ node, nodes[exit]? = some node ∧
      node.recordKind = .call ∧ entersCall node = false ∧
        LastOpen nodes (edgesOf lib nodes) exit node (fun call => namesAgree call node = true) enter := by
  have hlast : ∀ {node : Node} {index : ℕ}, index ≤ nodes.length →
      (findActiveEnter nodes (matchedBefore nodes index) index node true = some enter ↔
        LastOpen nodes (edgesOf lib nodes) index node (fun call => namesAgree call node = true) enter) := by
    intro node index hindex
    simpa only [true_implies] using findActiveEnter_eq_some_iff_lastOpen lib true hindex
  rw [mem_edgesOf_call lib (.inl rfl), mem_edgesBefore]
  constructor
  · rintro ⟨index, hindex, hedge⟩
    have hnode := List.getElem?_eq_getElem hindex
    obtain ⟨rfl, hcall, hexit, hfound⟩ := (callReturn_mem_callEdge hnode).mp hedge
    exact ⟨_, hnode, hcall, hexit, (hlast (Nat.le_of_lt hindex)).mp hfound⟩
  · rintro ⟨node, hnode, hcall, hexit, hfound⟩
    have hindex := (List.getElem?_eq_some_iff.mp hnode).1
    exact ⟨exit, hindex, (callReturn_mem_callEdge hnode).mpr
      ⟨rfl, hcall, hexit, (hlast (Nat.le_of_lt hindex)).mpr hfound⟩⟩

theorem callParent_mem_edgesOf {parent enter : ℕ} :
    ⟨.callParent, parent, enter⟩ ∈ edgesOf lib nodes ↔ ∃ node, nodes[enter]? = some node ∧
      node.recordKind = .call ∧ entersCall node = true ∧
        LastOpen nodes (edgesOf lib nodes) enter node (fun _ => True) parent := by
  have hlast : ∀ {node : Node} {index : ℕ}, index ≤ nodes.length →
      (findActiveEnter nodes (matchedBefore nodes index) index node false = some parent ↔
        LastOpen nodes (edgesOf lib nodes) index node (fun _ => True) parent) := by
    intro node index hindex
    simpa only [Bool.false_eq_true, false_implies] using
      findActiveEnter_eq_some_iff_lastOpen lib false hindex
  rw [mem_edgesOf_call lib (.inr rfl), mem_edgesBefore]
  constructor
  · rintro ⟨index, hindex, hedge⟩
    have hnode := List.getElem?_eq_getElem hindex
    obtain ⟨rfl, hcall, henter, hfound⟩ := (callParent_mem_callEdge hnode).mp hedge
    exact ⟨_, hnode, hcall, henter, (hlast (Nat.le_of_lt hindex)).mp hfound⟩
  · rintro ⟨node, hnode, hcall, henter, hfound⟩
    have hindex := (List.getElem?_eq_some_iff.mp hnode).1
    exact ⟨enter, hindex, (callParent_mem_callEdge hnode).mpr
      ⟨rfl, hcall, henter, (hlast (Nat.le_of_lt hindex)).mpr hfound⟩⟩

/-- With all exits matched, the candidates of the search are the calls that are open around the event. -/
theorem openAround_iff {event : Node} {enter : ℕ} {call : Node} :
    OpenAround nodes (edgesOf lib nodes) event enter call ↔ ∃ matched,
      (nodes.zip (matchedBefore nodes nodes.length))[enter]? = some (call, matched) ∧
        enclosesResource nodes event call matched = true := by
  have hmatching := matching nodes (Nat.le_refl nodes.length)
  have hreturned : ∀ exit, (matchedBefore nodes nodes.length)[enter]? = some (some exit) ↔
      ⟨.callReturn, enter, exit⟩ ∈ edgesOf lib nodes := by
    intro exit
    rw [← hmatching.returns, mem_edgesOf_call lib (.inl rfl)]
  constructor
  · rintro ⟨hat, hcontext, henters, hentered, hunreturned⟩
    have hlt : enter < (matchedBefore nodes nodes.length).length := by
      rw [hmatching.length]
      exact (List.getElem?_eq_some_iff.mp hat).1
    have hmatched := List.getElem?_eq_getElem hlt
    refine ⟨_, List.getElem?_zip_eq_some.mpr ⟨hat, hmatched⟩, enclosesResource_iff.mpr ⟨hcontext, henters, hentered, ?_⟩⟩
    intro exit hexit
    rw [Option.mem_def.mp hexit] at hmatched
    exact hunreturned exit ((hreturned exit).mp hmatched)
  · rintro ⟨matched, hzip, hencloses⟩
    obtain ⟨hat, hmatched⟩ := List.getElem?_zip_eq_some.mp hzip
    obtain ⟨hcontext, henters, hentered, hunreturned⟩ := enclosesResource_iff.mp hencloses
    refine ⟨hat, hcontext, henters, hentered, fun exit hedge => hunreturned exit ?_⟩
    exact Option.some.inj (hmatched.symm.trans ((hreturned exit).mpr hedge))

theorem findEnclosingCall_eq_some_iff_innermost {event : Node} {enter : ℕ} :
    findEnclosingCall nodes (matchedBefore nodes nodes.length) event = some enter ↔
      InnermostAround nodes (edgesOf lib nodes) event enter := by
  rw [findEnclosingCall_eq_some_iff]
  constructor
  · rintro ⟨⟨call, matched⟩, hat, hencloses, hbest⟩
    refine ⟨call, (openAround_iff lib).mpr ⟨matched, hat, hencloses⟩, fun i outer houter => ?_⟩
    obtain ⟨matched', hat', hencloses'⟩ := (openAround_iff lib).mp houter
    exact hbest i (outer, matched') hat' hencloses'
  · rintro ⟨call, hcall, hbest⟩
    obtain ⟨matched, hat, hencloses⟩ := (openAround_iff lib).mp hcall
    refine ⟨(call, matched), hat, hencloses, ?_⟩
    rintro i ⟨outer, matched'⟩ hat' hencloses'
    exact hbest i outer ((openAround_iff lib).mpr ⟨matched', hat', hencloses'⟩)

theorem callCausedEvent_mem_edgesOf_iff {call event : ℕ} :
    ⟨.callCausedEvent, call, event⟩ ∈ edgesOf lib nodes ↔ ∃ node, nodes[event]? = some node ∧
      node.domain = .resource ∧ InnermostAround nodes (edgesOf lib nodes) node call := by
  rw [callCausedEvent_mem_edgesOf, causingCall, Option.bind_eq_some_iff]
  apply exists_congr
  intro node
  apply and_congr_right
  intro _
  rw [← findEnclosingCall_eq_some_iff_innermost]
  split
  · next hdomain => rw [and_iff_right hdomain]
  · next hdomain => exact iff_of_false (by simp) fun h => hdomain h.1

def resourceOf (edge : Edge) : ℕ := if edge.kind = .callCausedEvent then edge.target else edge.source

theorem nodup_map_toList {α β : Type} (found : Option α) (f : α → β) : (found.toList.map f).Nodup := by
  cases found <;> simp

theorem mem_map_toList {α β : Type} {found : Option α} {f : α → β} {y : β} (h : y ∈ found.toList.map f) :
    ∃ x, f x = y := by
  obtain ⟨x, -, hx⟩ := List.mem_map.mp h
  exact ⟨x, hx⟩

theorem nodup_childEdges (nodes : List Node) (index : ℕ) (node : Node) :
    ((List.range nodes.length).flatMap fun child =>
      (if nodes[child]?.any (fun other => other.pid = node.childPid) then some child else none).toList.map
        fun child => (⟨.processChildEvent, index, child⟩ : Edge)).Nodup := by
  apply List.nodup_flatMap.mpr
  refine ⟨fun child _ => nodup_map_toList _ _, List.nodup_range.imp fun {a b} hne => ?_⟩
  have htarget : ∀ {child : ℕ} {edge : Edge}, edge ∈
      (if nodes[child]?.any (fun other => other.pid = node.childPid) then some child else none).toList.map
        (fun child => (⟨.processChildEvent, index, child⟩ : Edge)) → edge.target = child := by
    intro child edge hedge
    obtain ⟨found, hfound, rfl⟩ := List.mem_map.mp hedge
    rw [Option.mem_toList, Option.ite_none_right_eq_some] at hfound
    exact (Option.some.inj hfound.2).symm
  exact fun edge hedge hedge' => hne ((htarget hedge).symm.trans (htarget hedge'))

theorem resourceEdges_once (nodes : List Node) (matchedExit : MatchedExit) (index : ℕ) :
    (resourceEdges lib nodes matchedExit index).Nodup ∧ ∀ edge ∈ resourceEdges lib nodes matchedExit index,
      resourceOf edge = index ∧ edge.kind ≠ .callReturn ∧ edge.kind ≠ .callParent := by
  rw [resourceEdges]
  cases nodes[index]? with
  | none => exact ⟨List.nodup_nil, fun edge hedge => absurd hedge List.not_mem_nil⟩
  | some node =>
    dsimp only
    split
    · exact ⟨List.nodup_nil, fun edge hedge => absurd hedge List.not_mem_nil⟩
    · have hchildren : ∀ edge ∈ (if node.recordKind = .fork ∨ node.recordKind = .spawn then
          (List.range nodes.length).flatMap fun child =>
            (if nodes[child]?.any (fun other => other.pid = node.childPid) then some child else none).toList.map
              fun child => (⟨.processChildEvent, index, child⟩ : Edge) else []),
          edge.kind = .processChildEvent ∧ edge.source = index := by
        intro edge hedge
        split at hedge
        · obtain ⟨child, -, hedge⟩ := List.mem_flatMap.mp hedge
          obtain ⟨found, rfl⟩ := mem_map_toList hedge
          exact ⟨rfl, rfl⟩
        · exact absurd hedge List.not_mem_nil
      constructor
      · apply List.Nodup.append (nodup_map_toList _ _)
        · apply List.Nodup.append (nodup_map_toList _ _)
          · split
            · exact nodup_childEdges nodes index node
            · exact List.nodup_nil
          · intro edge hend hchild
            obtain ⟨death, rfl⟩ := mem_map_toList hend
            cases (hchildren _ hchild).1
        · intro edge hcall hrest
          obtain ⟨call, rfl⟩ := mem_map_toList hcall
          rcases List.mem_append.mp hrest with hend | hchild
          · obtain ⟨death, hdeath⟩ := mem_map_toList hend
            cases hdeath
          · cases (hchildren _ hchild).1
      · intro edge hedge
        rcases List.mem_append.mp hedge with hcall | hrest
        · obtain ⟨call, rfl⟩ := mem_map_toList hcall
          exact ⟨rfl, by simp, by simp⟩
        · rcases List.mem_append.mp hrest with hend | hchild
          · obtain ⟨death, rfl⟩ := mem_map_toList hend
            exact ⟨rfl, by simp, by simp⟩
          · obtain ⟨hkind, hsource⟩ := hchildren edge hchild
            rw [resourceOf, hkind]
            exact ⟨hsource, by simp, by simp⟩

theorem nodup_edgesOf (nodes : List Node) : (edgesOf lib nodes).Nodup := by
  have honce := resourceEdges_once lib nodes (matchedBefore nodes nodes.length)
  change (edgesBefore nodes nodes.length ++ (List.range nodes.length).flatMap
    (resourceEdges lib nodes (matchedBefore nodes nodes.length))).Nodup
  apply List.Nodup.append
  · exact (List.nodup_range.sublist (target_edgesBefore nodes nodes.length)).of_map _
  · apply List.nodup_flatMap.mpr
    refine ⟨fun index _ => (honce index).1, List.nodup_range.imp fun {a b} hne edge hedge hedge' => hne ?_⟩
    exact ((honce a).2 edge hedge).1.symm.trans ((honce b).2 edge hedge').1
  · intro edge hcall hresource
    obtain ⟨index, -, hedge⟩ := List.mem_flatMap.mp hresource
    obtain ⟨-, hreturn, hparent⟩ := (honce index).2 edge hedge
    rcases kind_edgesBefore edge hcall with hkind | hkind
    · exact hreturn hkind
    · exact hparent hkind

variable {lib}

/-- The edges of a finished model say what their kinds mean. -/
theorem Finished.edgesMean {model : Model} (h : Finished lib model) : EdgesMean lib model.nodes model.edges := by
  rw [h.finishedFrom.edges]
  refine ⟨nodup_edgesOf lib _, fun _ _ => callReturn_mem_edgesOf lib, fun _ _ => callParent_mem_edgesOf lib,
    fun _ _ => callCausedEvent_mem_edgesOf_iff lib, fun birth death => ?_,
    fun _ _ => processChildEvent_mem_edgesOf lib⟩
  rw [resourceLifetime_mem_edgesOf]
  simp only [findLifetimeEnd_eq_some_iff_firstBest lib]

theorem edgesMean_nestedRecords :
    EdgesMean .standard (modelOf .standard nestedRecords).nodes (modelOf .standard nestedRecords).edges :=
  Finished.edgesMean (finished_modelOf _ (by decide))

end ToolEvent.RunModel
