import ToolEvent.EdgeMeaning
import ToolEvent.IncompleteOrder
import ToolEvent.Library.LayeredGraph
import ToolEvent.NodeIdentity

/-!
# Which models have a causal order

An edge of a model leads from a node to one that stands after it in the same process, or from the
record of a new process to all nodes of that process. So the causal graph has a cycle exactly if a
process descends from itself, as long as the calls of every context come with increasing sequence
numbers. The records of an admitted pair of streams do that.
-/

namespace ToolEvent.ModelAnalysis

open RunModel Relation LayeredGraph

def pidAt (nodes : List Node) (index : ℕ) : ℤ := (nodes[index]?.map Node.pid).getD 0

/-- The one node has the smaller sequence number, or the same and the smaller index. -/
def StandsBefore (nodes : List Node) (i j : ℕ) : Prop :=
  sequenceAt nodes i < sequenceAt nodes j ∨ sequenceAt nodes i = sequenceAt nodes j ∧ i < j

def HasChild (nodes : List Node) (parent child : ℤ) : Prop := ∃ node ∈ nodes, Starts parent child node

/-- The sequence numbers of the calls of a context do not decrease, an event of the context that is ingested
before an ENTER has another number than it, and no process is recorded to have started itself. -/
structure CallsInOrder (nodes : List Node) : Prop where
  calls : nodes.Pairwise fun earlier later => earlier.recordKind = .call → later.recordKind = .call →
    earlier.context = later.context → earlier.sequence ≤ later.sequence
  events : nodes.Pairwise fun event call => event.domain = .resource → call.recordKind = .call →
    entersCall call = true → event.context = call.context → event.sequence ≠ call.sequence
  children : ∀ node ∈ nodes, node.recordKind = .fork ∨ node.recordKind = .spawn → node.childPid ≠ node.pid

variable {lib : RecordLibrary} {nodes : List Node} {node other : Node} {i j : ℕ}

instance (nodes : List Node) : IsStrictOrder ℕ (StandsBefore nodes) where
  irrefl i h := by
    unfold StandsBefore at h
    omega
  trans i j k h h' := by
    unfold StandsBefore at *
    omega

theorem pidAt_eq (h : nodes[i]? = some node) : pidAt nodes i = node.pid := by
  rw [pidAt, h]
  rfl

theorem standsBefore_of (hi : nodes[i]? = some node) (hj : nodes[j]? = some other)
    (h : node.sequence < other.sequence ∨ node.sequence = other.sequence ∧ i < j) : StandsBefore nodes i j := by
  rwa [StandsBefore, sequenceAt_eq hi, sequenceAt_eq hj]

/-- The same for two nodes whose sequence numbers do not decrease. -/
theorem standsBefore_of_le (hi : nodes[i]? = some node) (hj : nodes[j]? = some other) (hlt : i < j)
    (hle : node.sequence ≤ other.sequence) : StandsBefore nodes i j := by
  apply standsBefore_of hi hj
  omega

theorem pairwise_getElem? {α : Type} {r : α → α → Prop} {xs : List α} {x y : α} (h : xs.Pairwise r) (hx : xs[i]? = some x)
    (hy : xs[j]? = some y) (hlt : i < j) : r x y := by
  obtain ⟨hi, rfl⟩ := List.getElem?_eq_some_iff.mp hx
  obtain ⟨hj, rfl⟩ := List.getElem?_eq_some_iff.mp hy
  exact List.pairwise_iff_getElem.mp h i j hi hj hlt

/-- The node stands after another one of its process. -/
def ComesAfter (nodes : List Node) (i j : ℕ) : Prop := pidAt nodes i = pidAt nodes j ∧ StandsBefore nodes i j

theorem comesAfter_of_context (hi : nodes[i]? = some node) (hj : nodes[j]? = some other)
    (hcontext : node.context = other.context) (hbefore : StandsBefore nodes i j) : ComesAfter nodes i j := by
  refine ⟨?_, hbefore⟩
  rw [pidAt_eq hi, pidAt_eq hj]
  exact congrArg Prod.fst hcontext

/-- The edges between calls lead from an ENTER to a later call of its context. -/
theorem CallsInOrder.comesAfter_of_call (h : CallsInOrder nodes) {edge : Edge}
    (hedge : edge ∈ edgesBefore nodes nodes.length) : ComesAfter nodes edge.source edge.target := by
  obtain ⟨index, hindex, hedge⟩ := mem_edgesBefore.mp hedge
  have hnode := List.getElem?_eq_getElem hindex
  have hstep := RunModel.callStep hnode (matchedBefore nodes index)
  have hafter : ∀ {requireName : Bool} {enter : ℕ}, nodes[index].recordKind = .call →
      findActiveEnter nodes (matchedBefore nodes index) index nodes[index] requireName = some enter →
      ComesAfter nodes enter index := by
    intro requireName enter hcall hfound
    obtain ⟨call, hactive⟩ := (findActiveEnter_eq_some_iff.mp hfound).1
    obtain ⟨henter, hcontext⟩ := isCallIn_iff.mp hactive.inContext
    apply comesAfter_of_context hactive.at_enter hnode hcontext
    apply standsBefore_of_le hactive.at_enter hnode hactive.before
    exact pairwise_getElem? h.calls hactive.at_enter hnode hactive.before henter hcall hcontext
  generalize callEdge nodes (matchedBefore nodes index) index = result at hstep hedge
  cases hstep with
  | other => exact absurd hedge List.not_mem_nil
  | enter hcall henter =>
    obtain ⟨parent, hparent, rfl⟩ := List.mem_map.mp hedge
    exact hafter hcall (Option.mem_toList.mp hparent)
  | unmatched => exact absurd hedge List.not_mem_nil
  | returns enter hcall hexit hfound =>
    rw [List.mem_singleton.mp hedge]
    exact hafter hcall hfound

/-- A call stands before the events that it causes. -/
theorem CallsInOrder.comesAfter_of_event (h : CallsInOrder nodes) {call event : ℕ} {matchedExit : MatchedExit}
    (hcause : causingCall nodes matchedExit event = some call) (hdistinct : call ≠ event) :
    ComesAfter nodes call event := by
  obtain ⟨resource, hresource, hfound⟩ := Option.bind_eq_some_iff.mp hcause
  split at hfound
  · next hdomain =>
    obtain ⟨enter, henter, hencloses, _⟩ := findEnclosingCall_eq_some_iff.mp hfound
    obtain ⟨hcall, henters, hle, _⟩ := enclosesResource_iff.mp hencloses
    obtain ⟨hkind, hcontext⟩ := isCallIn_iff.mp hcall
    have hat := (List.getElem?_zip_eq_some.mp henter).1
    apply comesAfter_of_context hat hresource hcontext
    apply standsBefore_of hat hresource
    rcases Nat.lt_or_eq_of_le hle with hlt | heq
    · exact .inl hlt
    · apply Or.inr
      refine ⟨heq, Nat.lt_of_le_of_ne (Nat.le_of_not_lt fun hlater => ?_) hdistinct⟩
      -- An event that was ingested before the ENTER has another sequence number.
      have hne := pairwise_getElem? h.events hresource hat hlater hdomain hkind henters hcontext.symm
      exact hne heq.symm
  · cases hfound

theorem comesAfter_of_lifetime {birth death : ℕ} (hbirth : nodes[birth]? = some node)
    (hfound : findLifetimeEnd lib nodes node = some death) : ComesAfter nodes birth death := by
  obtain ⟨_, other, hdeath, hends, _⟩ := (findLifetimeEnd_eq_some_iff_firstBest lib).mp hfound
  rw [endsLifetime, decide_eq_true_iff] at hends
  refine ⟨?_, standsBefore_of hbirth hdeath (.inl hends.1)⟩
  rw [pidAt_eq hbirth, pidAt_eq hdeath]
  exact hends.2.1.symm

variable {model : Model}

/-- An edge stays in its process, where it leads on, or it leads to the start of another one. -/
theorem CallsInOrder.layered (h : CallsInOrder model.nodes) (hmodel : Finished lib model) :
    Layered (pidAt model.nodes) (StandsBefore model.nodes) (HasChild model.nodes) (CausalArc model) := by
  rintro i j (⟨hdistinct, ⟨kind, source, target⟩, hedge, rfl, rfl⟩ | hchain)
  · rw [hmodel.finishedFrom.edges] at hedge
    cases kind with
    | callParent => exact .inr (h.comesAfter_of_call ((mem_edgesOf_call lib (.inr rfl)).mp hedge))
    | callReturn => exact .inr (h.comesAfter_of_call ((mem_edgesOf_call lib (.inl rfl)).mp hedge))
    | callCausedEvent => exact .inr (h.comesAfter_of_event ((callCausedEvent_mem_edgesOf lib).mp hedge) hdistinct)
    | resourceLifetime =>
      obtain ⟨birth, hbirth, _, hfound⟩ := (resourceLifetime_mem_edgesOf lib).mp hedge
      exact .inr (comesAfter_of_lifetime hbirth hfound)
    | processChildEvent =>
      obtain ⟨node, other, hnode, hother, hstarts⟩ := (processChildEvent_mem_edgesOf lib).mp hedge
      apply Or.inl
      rw [pidAt_eq hnode, pidAt_eq hother]
      exact ⟨node, List.mem_of_getElem? hnode, hstarts⟩
  · obtain ⟨x, y, hx, hy, hcontext, hbefore⟩ := hchain.1
    exact .inr (comesAfter_of_context hx hy ((RunModel.sameContext_iff _ _).mp hcontext) (standsBefore_of hx hy hbefore))

/-- The record of a new process has edges to all nodes of the process. -/
theorem CallsInOrder.carried (h : CallsInOrder model.nodes) (hmodel : Finished lib model) :
    Carried (· < model.nodes.length) (pidAt model.nodes) (HasChild model.nodes) (CausalArc model) := by
  rintro parent child ⟨node, hmem, hstarts⟩
  obtain ⟨i, hi, hnode⟩ := List.getElem_of_mem hmem
  have hat : model.nodes[i]? = some node := List.getElem?_eq_some_iff.mpr ⟨hi, hnode⟩
  obtain ⟨hdomain, hkind, rfl, rfl⟩ := hstarts
  refine ⟨i, hi, pidAt_eq hat, fun j hj hpid => .inl ⟨?_, ⟨.processChildEvent, i, j⟩, ?_, rfl, rfl⟩⟩
  · rintro rfl
    rw [pidAt_eq hat] at hpid
    exact h.children node hmem hkind hpid.symm
  · rw [hmodel.finishedFrom.edges]
    have hother := List.getElem?_eq_getElem hj
    refine (processChildEvent_mem_edgesOf lib).mpr ⟨node, _, hat, hother, hdomain, hkind, rfl, ?_⟩
    rw [← hpid, pidAt_eq hother]

/-- The causal graph has a cycle exactly if a process descends from itself. -/
theorem isAcyclic_iff_noDescent (hmodel : Finished lib model) (h : CallsInOrder model.nodes) :
    IsAcyclic model ↔ ∀ pid, ¬ TransGen (HasChild model.nodes) pid pid :=
  acyclic_iff (h.layered hmodel) (h.carried hmodel)

theorem isAcyclic_iff_noDescent_mutualForks :
    IsAcyclic (modelOf .standard mutualForks) ↔
      ∀ pid, ¬ TransGen (HasChild (modelOf .standard mutualForks).nodes) pid pid :=
  isAcyclic_iff_noDescent (finished_modelOf _ (by decide)) ⟨by decide, by decide, by decide⟩

end ToolEvent.ModelAnalysis

namespace ToolEvent.ModelInput

open Fallible World RunModel ModelAnalysis Relation

/-- Sequence numbers are available for the calls, an ENTER shares its number with no event of its
context, and no process is recorded to have started itself. -/
structure Numbered (resource call : List EventRecord) : Prop where
  calls : ∀ r ∈ call, r.recordKind = .call → r.sequence ≠ 0
  events : ∀ r ∈ resource, ∀ s ∈ call, s.recordKind = .call → s.callKind = .enter → r.pid = s.pid →
    r.contextId = s.contextId → r.sequence ≠ s.sequence
  children : ∀ r ∈ resource, r.recordKind = .fork ∨ r.recordKind = .spawn → r.childPid ≠ r.pid

def StartsProcess (resource : List EventRecord) (parent child : ℤ) : Prop :=
  ∃ r ∈ resource, (r.recordKind = .fork ∨ r.recordKind = .spawn) ∧ r.pid = parent ∧ r.childPid = child

variable {reader : RecordReader} {resource call : InputFile}

/-- A node of an admitted pair is made of a call or of another record, from the stream it belongs to. -/
theorem mem_addedNodes {node : Node} (h : node ∈ addedNodes reader resource call) :
    (∃ r ∈ recordsOf reader resource, r.recordKind ≠ .call ∧ Node.ofRecord r = node ∧ node.domain = .resource) ∨
      ∃ r ∈ recordsOf reader call, r.recordKind = .call ∧ Node.ofRecord r = node ∧ node.domain = .call := by
  rcases List.mem_append.mp h with hmem | hmem <;> obtain ⟨r, hr, rfl⟩ := List.mem_map.mp hmem <;>
    obtain ⟨hr, hbelongs⟩ := List.mem_filter.mp hr
  · have hkind : ¬ r.recordKind = .call := fun hkind => Bool.false_ne_true ((of_decide_eq_true hbelongs).2.mpr hkind)
    exact .inl ⟨r, hr, hkind, rfl, domain_ofRecord hbelongs⟩
  · exact .inr ⟨r, hr, (of_decide_eq_true hbelongs).2.mp rfl, rfl, domain_ofRecord hbelongs⟩

theorem Numbered.callsInOrder (h : Numbered (recordsOf reader resource) (recordsOf reader call))
    (horder : (addedNodes reader resource call).Pairwise InOrder) : CallsInOrder (addedNodes reader resource call) where
  calls := by
    apply horder.imp_of_mem
    intro earlier later hearlier hlater hinOrder hcall hcall' hcontext
    rcases mem_addedNodes hearlier with ⟨r, _, hkind, rfl, _⟩ | ⟨r, hr, _, rfl, hdomain⟩
    · exact absurd hcall hkind
    · rcases mem_addedNodes hlater with ⟨s, _, hkind, rfl, _⟩ | ⟨s, hs, _, rfl, hdomain'⟩
      · exact absurd hcall' hkind
      · apply Nat.le_of_lt
        exact hinOrder.increasing (hdomain.trans hdomain'.symm) (congrArg Prod.fst hcontext) (congrArg Prod.snd hcontext)
          (h.calls r hr hcall) (h.calls s hs hcall')
  events := by
    apply List.pairwise_of_forall_mem_list
    intro event hevent enter henter hdomain hcall henters hcontext
    rcases mem_addedNodes hevent with ⟨r, hr, _, rfl, _⟩ | ⟨r, _, _, rfl, hdomain'⟩
    · rcases mem_addedNodes henter with ⟨s, _, hkind, rfl, _⟩ | ⟨s, hs, _, rfl, _⟩
      · exact absurd hcall hkind
      · exact h.events r hr s hs hcall (of_decide_eq_true henters) (congrArg Prod.fst hcontext)
          (congrArg Prod.snd hcontext)
    · rw [hdomain] at hdomain'
      cases hdomain'
  children := by
    intro node hnode hkind
    rcases mem_addedNodes hnode with ⟨r, hr, _, rfl, _⟩ | ⟨r, _, hcall, rfl, _⟩
    · exact h.children r hr hkind
    · have hother : r.recordKind = .fork ∨ r.recordKind = .spawn := hkind
      rw [hcall] at hother
      rcases hother with hother | hother <;> cases hother

theorem hasChild_addedNodes (parent child : ℤ) :
    HasChild (addedNodes reader resource call) parent child ↔ StartsProcess (recordsOf reader resource) parent child := by
  constructor
  · rintro ⟨node, hnode, hdomain, hkind, hpid, hchild⟩
    rcases mem_addedNodes hnode with ⟨r, hr, _, rfl, _⟩ | ⟨r, _, _, rfl, hcall⟩
    · exact ⟨r, hr, hkind, hpid, hchild⟩
    · rw [hdomain] at hcall
      cases hcall
  · rintro ⟨r, hr, hkind, hpid, hchild⟩
    have hbelongs : belongs false r = true := by
      rcases hkind with hkind | hkind <;> simp [belongs, hkind]
    refine ⟨Node.ofRecord r, List.mem_append_left _ (List.mem_map_of_mem (List.mem_filter.mpr ⟨hr, hbelongs⟩)), ?_⟩
    exact ⟨domain_ofRecord hbelongs, hkind, hpid, hchild⟩

theorem finished_of_ingestPaths {outcomes : List Bool} {w : World Model}
    (h : ingestPaths reader resource call ⟨{}, outcomes⟩ = (.ok (), w)) : Finished reader.toRecordLibrary w.state := by
  refine ⟨(read_nodes_of_ingestPaths h).2.2 .create, ?_⟩
  obtain ⟨w₂, m₁, rh, ch, _, hfinish⟩ := read_of_ingestPaths h
  rcases finish_ok _ hfinish with ⟨hfinished, rfl⟩ | hfrom
  · exact hfinished
  · exact hfrom.finished

/-- An analysis of an admitted pair that returns 0 has gone through every record exactly if no process
descends from itself. -/
theorem covers_iff_noDescent {outcomes : List Bool} {w : World Model}
    (h : ingestPaths reader resource call ⟨{}, outcomes⟩ = (.ok (), w))
    (hnumbered : Numbered (recordsOf reader resource) (recordsOf reader call)) {file : Option SanitizerFile}
    {outcomes' : List Bool} {w' : World Analysis}
    (hrun : runAnalysis file ⟨{ model := w.state }, outcomes'⟩ = (.ok (), w')) :
    w'.state.Covers w.state ↔ ∀ pid, ¬ TransGen (StartsProcess (recordsOf reader resource)) pid pid := by
  have hmodel := finished_of_ingestPaths h
  obtain ⟨hnodes, horder, _⟩ := read_nodes_of_ingestPaths h
  have hdescent : HasChild w.state.nodes = StartsProcess (recordsOf reader resource) := by
    funext parent child
    rw [hnodes]
    exact propext (hasChild_addedNodes parent child)
  have hordered : CallsInOrder w.state.nodes := by
    rw [hnodes]
    exact hnumbered.callsInOrder horder
  rw [← hdescent, ((runAnalysis_ok hmodel hrun).covers_iff hmodel.reachable.sound)]
  exact LayeredGraph.acyclic_iff (hordered.layered hmodel) (hordered.carried hmodel)

/-- A program that forks within a call, and the file that its child opens. -/
def forkingResource : InputFile :=
  fileOf ["P101FORK\t5\ta\t1\t1\t2\t-\t-\t2\t9\tf\tc", "P101COMPLETE\t5\ta\t1\t1\t4\t-\t-\t1\t0\t0",
    "P101FD\t5\ta\t2\t1\t1\t-\t-\tOPEN\t3\t7\tf\tc", "P101COMPLETE\t5\ta\t2\t1\t2\t-\t-\t1\t0\t0"]

def forkingCalls : InputFile :=
  fileOf ["P101CALL\t5\ta\t1\t1\t1\t-\t-\tENTER\t9\tf\tfork\t-\t-\tc",
    "P101CALL\t5\ta\t1\t1\t3\t-\t-\tEXIT\t9\tf\tfork\t-\t2\tc", "P101COMPLETE\t5\ta\t1\t1\t4\t-\t-\t2\t0\t0"]

theorem covers_iff_noDescent_forkingResource :
    ∃ w w', ingestPaths .standard forkingResource forkingCalls ⟨{}, []⟩ = (.ok (), w) ∧
      runAnalysis none ⟨{ model := w.state }, []⟩ = (.ok (), w') ∧ w.state.nodes.length = 4 ∧
      (w'.state.Covers w.state ↔
        ∀ pid, ¬ TransGen (StartsProcess (recordsOf .standard forkingResource)) pid pid) := by
  obtain ⟨w, hw⟩ : ∃ w, ingestPaths .standard forkingResource forkingCalls ⟨{}, []⟩ = (.ok (), w) :=
    exists_of_fst_eq (by decide +kernel)
  have hstate : w = (ingestPaths .standard forkingResource forkingCalls ⟨{}, []⟩).2 := by rw [hw]
  obtain ⟨w', hw'⟩ : ∃ w', runAnalysis none ⟨{ model := w.state }, []⟩ = (.ok (), w') := by
    rw [hstate]
    exact exists_of_fst_eq (by decide +kernel)
  have hnumbered : Numbered (recordsOf .standard forkingResource) (recordsOf .standard forkingCalls) :=
    ⟨by decide +kernel, by decide +kernel, by decide +kernel⟩
  refine ⟨w, w', hw, hw', ?_, covers_iff_noDescent hw hnumbered hw'⟩
  rw [hstate]
  decide +kernel

end ToolEvent.ModelInput
