import ToolEvent.AnalysisTexts
import ToolEvent.LifecycleCauses
import ToolEvent.LifecycleFinish
import ToolEvent.LifecycleNames
import ToolEvent.ResourceReports
import ToolEvent.TraceWords

/-!
# The nodes of lifecycle findings

The resource pass looks a lifecycle finding up among the nodes, by its process, context and
sequence number. A leak of a descriptor that was inherited at a fork carries the process of the
child and the context and sequence number of the fork, which a record of the child may have as well.
-/

namespace ToolEvent.RunModel

open Fallible World Lifecycle Relation

/-- The record that a node is replayed as, with the position of the node for its line. -/
def tracedRecord (x : Node × ℕ) : EventRecord := { recordFromNode x.1 with lineNumber := x.2 }

def tracedRecords (nodes : List Node) : List EventRecord :=
  (nodes.zipIdx.filter fun x => isReplayed x.1).map tracedRecord

def reportedFindings (store : Store) : List Finding :=
  store.findings.map Finding.clearPending ++ (store.entries.filter (·.live)).map leakFinding

section Causes

variable (lib : RecordLibrary)

/-- The replay of the nodes, in which the lines of entries and findings are positions of nodes. -/
def tracedStore (nodes : List Node) : Option Store := Store.ingestAll lib {} (tracedRecords nodes)

def tracedFindings (nodes : List Node) : List Finding := (tracedStore lib nodes).elim [] reportedFindings

/-- At the fork the parent has the descriptor, which the record at the other position has acquired. -/
def HandsOn (nodes : List Node) (id : Text) (fork acquisition : ℕ) : Prop :=
  ∃ node store, nodes[fork]? = some node ∧ node.recordKind = .fork ∧ tracedStore lib (nodes.take fork) = some store ∧
    ∃ entry ∈ store.entries, entry.isInheritable node.pid = true ∧ entry.resourceId = id ∧
      entry.acquiredLineNumber = acquisition

/-- The record at a position is the cause of a finding: the replay names it, or it has opened the
descriptor that was inherited at the fork that the replay names. -/
inductive IsCause (nodes : List Node) (finding : Finding) : ℕ → Prop
  | named (index : ℕ) (hline : finding.lineNumber = index) : IsCause nodes finding index
  | opener (fork index : ℕ) (hleak : finding.kind = .leak) (hline : finding.lineNumber = fork)
      (hchain : TransGen (HandsOn lib nodes finding.resourceId) fork index)
      (hopens : ∀ node ∈ nodes[index]?, node.recordKind ≠ .fork) : IsCause nodes finding index

end Causes

variable {lib : RecordLibrary} {nodes rest : List Node} {store : Store} {place : Place} {request : Request}

theorem tracedRecords_concat (nodes : List Node) (node : Node) :
    tracedRecords (nodes ++ [node]) =
      tracedRecords nodes ++ if isReplayed node then [tracedRecord (node, nodes.length)] else [] := by
  simp only [tracedRecords, List.zipIdx_append, List.filter_append, List.map_append, List.zipIdx_singleton,
    List.filter_singleton, Nat.zero_add]
  cases isReplayed node <;> rfl

theorem tracedStore_concat {node : Node} (h : tracedStore lib (nodes ++ [node]) = some store) :
    ∃ before, tracedStore lib nodes = some before ∧
      (before.ingest lib (tracedRecord (node, nodes.length)) = some store ∨ store = before) := by
  have hsplit : (tracedStore lib nodes).bind (fun before => before.ingestAll lib
      (if isReplayed node then [tracedRecord (node, nodes.length)] else [])) = some store := by
    rw [tracedStore, tracedRecords_concat] at h
    exact (List.foldlM_append ..).symm.trans h
  obtain ⟨before, hbefore, hlast⟩ := Option.bind_eq_some_iff.mp hsplit
  refine ⟨before, hbefore, ?_⟩
  split at hlast
  · left
    obtain ⟨after, hingest, hafter⟩ := Option.bind_eq_some_iff.mp hlast
    obtain rfl := Option.some.inj hafter
    exact hingest
  · right
    exact (Option.some.inj hlast).symm

/-- The replay of the first nodes, whose entries are still there later. -/
theorem tracedStore_take (h : tracedStore lib nodes = some store) (index : ℕ) :
    ∃ before, tracedStore lib (nodes.take index) = some before ∧
      before.entries.map Entry.key ⊆ store.entries.map Entry.key := by
  induction nodes using List.reverseRecOn generalizing store with
  | nil =>
    rw [List.take_nil]
    exact ⟨store, h, List.Subset.refl _⟩
  | append_singleton nodes node ih =>
    rcases Nat.lt_or_ge nodes.length index with hlong | hshort
    · rw [List.take_of_length_le (by simpa using hlong)]
      exact ⟨store, h, List.Subset.refl _⟩
    · obtain ⟨middle, hmiddle, hlast⟩ := tracedStore_concat h
      obtain ⟨before, hbefore, hsubset⟩ := ih hmiddle
      rw [List.take_append_of_le_length hshort]
      refine ⟨before, hbefore, List.Subset.trans hsubset ?_⟩
      rcases hlast with hingest | rfl
      · exact keys_subset_ingest hingest
      · exact List.Subset.refl _

/-- The place of the node at a position, for a process. -/
structure PlacedAt (place : Place) (index : ℕ) (node : Node) (pid : ℤ) : Prop where
  pid : place.pid = pid
  contextId : place.contextId = node.contextId
  sequence : place.sequence = node.sequence
  line : place.lineNumber = index

def OwnPlace (nodes : List Node) (place : Place) : Prop :=
  ∃ index node, nodes[index]? = some node ∧ node.recordKind ≠ .fork ∧ PlacedAt place index node node.pid

/-- How the node at a position has acquired an entry: for its own process, or as a fork for the
child, which had no entry of the descriptor before. -/
inductive AcquiredAt (lib : RecordLibrary) (nodes : List Node) (request : Request) (index : ℕ) (node : Node) : Prop
  | own (hkind : node.recordKind ≠ .fork) (hplace : PlacedAt request.place index node node.pid) :
      AcquiredAt lib nodes request index node
  | inherited (hkind : node.recordKind = .fork) (hplace : PlacedAt request.place index node node.childPid)
      (hclass : request.key.resourceClass = fdResourceClass) (hpid : node.pid ≠ node.childPid)
      (hfresh : ∀ store, tracedStore lib (nodes.take index) = some store →
        request.key ∉ store.entries.map Entry.key) :
      AcquiredAt lib nodes request index node

theorem AcquiredAt.line {index : ℕ} {node : Node} (h : AcquiredAt lib nodes request index node) :
    request.lineNumber = index := by
  cases h with
  | own _ hplace => exact hplace.line
  | inherited _ hplace => exact hplace.line

theorem OwnPlace.append (h : OwnPlace nodes place) (rest : List Node) : OwnPlace (nodes ++ rest) place := by
  obtain ⟨index, node, hnode, howned⟩ := h
  have hlt := (List.getElem?_eq_some_iff.mp hnode).1
  exact ⟨index, node, by rwa [List.getElem?_append_left hlt], howned⟩

theorem AcquiredAt.append {index : ℕ} {node : Node} (h : AcquiredAt lib nodes request index node)
    (hnode : nodes[index]? = some node) (rest : List Node) : AcquiredAt lib (nodes ++ rest) request index node := by
  cases h with
  | own hkind hplace => exact .own hkind hplace
  | inherited hkind hplace hclass hpid hfresh =>
    refine .inherited hkind hplace hclass hpid ?_
    rwa [List.take_append_of_le_length (List.getElem?_eq_some_iff.mp hnode).1.le]

theorem placedAt_tracedRecord (index : ℕ) (node : Node) :
    PlacedAt (placeOf (tracedRecord (node, index))) index node node.pid := ⟨rfl, rfl, rfl, rfl⟩

/-- The findings of the replay are about records that are no forks. -/
theorem tracedStore_placed (h : tracedStore lib nodes = some store) : store.Placed (OwnPlace nodes) := by
  induction nodes using List.reverseRecOn generalizing store with
  | nil =>
    obtain rfl := Option.some.inj h
    exact fun finding hfinding => absurd hfinding List.not_mem_nil
  | append_singleton nodes node ih =>
    obtain ⟨before, hbefore, hlast⟩ := tracedStore_concat h
    have hplaced : before.Placed (OwnPlace (nodes ++ [node])) :=
      fun finding hfinding => (ih hbefore finding hfinding).append [node]
    rcases hlast with hingest | rfl
    · have hown : node.recordKind ≠ .fork → OwnPlace (nodes ++ [node]) (placeOf (tracedRecord (node, nodes.length))) :=
        fun hkind => ⟨_, node, List.getElem?_concat_length, hkind, placedAt_tracedRecord nodes.length node⟩
      exact Store.stable_placed.ingest lib hown _ _ hplaced hingest
    · exact hplaced

/-- Every entry was acquired by one of the nodes. -/
theorem tracedStore_acquired (h : tracedStore lib nodes = some store) :
    ∀ request ∈ store.entries.map Entry.acquisition,
      ∃ index node, nodes[index]? = some node ∧ AcquiredAt lib nodes request index node := by
  induction nodes using List.reverseRecOn generalizing store with
  | nil =>
    obtain rfl := Option.some.inj h
    exact fun request hrequest => absurd hrequest List.not_mem_nil
  | append_singleton nodes node ih =>
    obtain ⟨before, hbefore, hlast⟩ := tracedStore_concat h
    have hold : ∀ request ∈ before.entries.map Entry.acquisition,
        ∃ index owner, (nodes ++ [node])[index]? = some owner ∧ AcquiredAt lib (nodes ++ [node]) request index owner := by
      intro request hrequest
      obtain ⟨index, owner, howner, hacquired⟩ := ih hbefore request hrequest
      have hlt := (List.getElem?_eq_some_iff.mp howner).1
      exact ⟨index, owner, by rwa [List.getElem?_append_left hlt], hacquired.append howner [node]⟩
    rcases hlast with hingest | rfl
    · rw [acquisitions_ingest hingest]
      intro request hrequest
      rcases List.mem_append.mp hrequest with hrest | hnew
      · exact hold request hrest
      · have hasked := (List.mem_filter.mp hnew).1
        refine ⟨nodes.length, node, List.getElem?_concat_length, ?_⟩
        by_cases hkind : node.recordKind = .fork
        · obtain ⟨id, hid, rfl⟩ := clone_of_mem_requests hkind hasked
          obtain ⟨hreplayed, hfresh⟩ := fresh_of_mem_forkClones hid
          refine .inherited hkind ⟨rfl, rfl, rfl, rfl⟩ rfl ?_ fun store hstore => ?_
          · simp only [isForkReplayed, decide_eq_true_eq, not_or] at hreplayed
            exact hreplayed.2.2
          · rw [List.take_left' rfl, hbefore] at hstore
            obtain rfl := Option.some.inj hstore
            exact hfresh
        · refine .own hkind ?_
          rw [place_of_mem_requests hkind hasked]
          exact placedAt_tracedRecord nodes.length node
    · exact hold

/-- At a fork, what the parent has was acquired by an earlier record. -/
theorem HandsOn.acquired {id : Text} {fork index : ℕ} (h : HandsOn lib nodes id fork index) :
    ∃ store node entry, tracedStore lib (nodes.take fork) = some store ∧ entry ∈ store.entries ∧
      entry.resourceClass = fdResourceClass ∧ entry.resourceId = id ∧ index < fork ∧ nodes[index]? = some node ∧
      AcquiredAt lib (nodes.take fork) entry.acquisition index node := by
  obtain ⟨parent, store, -, -, hstore, entry, hentry, hinheritable, hid, hline⟩ := h
  obtain ⟨acquisition, node, hnode, hacquired⟩ := tracedStore_acquired hstore _ (List.mem_map_of_mem hentry)
  simp only [Entry.isInheritable, decide_eq_true_eq] at hinheritable
  obtain rfl : acquisition = index := Int.ofNat_inj.mp (hacquired.line.symm.trans hline)
  have hlt := (List.getElem?_eq_some_iff.mp hnode).1
  rw [List.length_take, lt_min_iff] at hlt
  rw [List.getElem?_take_of_lt hlt.1] at hnode
  exact ⟨store, node, entry, hstore, hentry, hinheritable.2.2, hid, hlt.1, hnode, hacquired⟩

/-- The process of the record that opened a descriptor has an entry of it at the fork. -/
theorem key_of_handsOn {id : Text} {fork index : ℕ} (hchain : TransGen (HandsOn lib nodes id) fork index) {node : Node}
    (hnode : nodes[index]? = some node) (hopens : node.recordKind ≠ .fork) :
    ∃ store, tracedStore lib (nodes.take fork) = some store ∧
      (⟨node.pid, fdResourceClass, id⟩ : Key) ∈ store.entries.map Entry.key := by
  induction hchain using TransGen.head_induction_on with
  | single hstep =>
    obtain ⟨store, node', entry, hstore, hentry, hclass, hid, -, hnode', hacquired⟩ := hstep.acquired
    obtain rfl := Option.some.inj (hnode.symm.trans hnode')
    cases hacquired with
    | own _ hplace =>
      refine ⟨store, hstore, List.mem_map.mpr ⟨entry, hentry, ?_⟩⟩
      rw [Entry.key, hclass, hid]
      exact congrArg (Key.mk · fdResourceClass id) hplace.pid
    | inherited hkind => exact absurd hkind hopens
  | head hstep _ ih =>
    obtain ⟨store, -, -, hstore, -, -, -, hlt, -, -⟩ := hstep.acquired
    obtain ⟨before, hbefore, hsubset⟩ := tracedStore_take hstore _
    obtain ⟨before', hbefore', hkey⟩ := ih
    rw [List.take_take, Nat.min_eq_left hlt.le, hbefore'] at hbefore
    obtain rfl := Option.some.inj hbefore
    exact ⟨store, hstore, hsubset hkey⟩

/-- A finding of the replay reports a record, or an entry that is left open. -/
theorem mem_tracedFindings {finding : Finding} (h : finding ∈ tracedFindings lib nodes) :
    OwnPlace nodes finding.place ∨ ∃ entry index node, finding = leakFinding entry ∧ nodes[index]? = some node ∧
      AcquiredAt lib nodes entry.acquisition index node := by
  unfold tracedFindings at h
  cases hstore : tracedStore lib nodes with
  | none =>
    rw [hstore] at h
    cases h
  | some store =>
    rw [hstore, Option.elim_some] at h
    rcases List.mem_append.mp h with hreported | hleak
    · left
      obtain ⟨old, hold, rfl⟩ := List.mem_map.mp hreported
      exact tracedStore_placed hstore old hold
    · right
      obtain ⟨entry, hentry, rfl⟩ := List.mem_map.mp hleak
      have hmem := List.mem_map_of_mem (f := Entry.acquisition) (List.mem_filter.mp hentry).1
      obtain ⟨index, node, hnode, hacquired⟩ := tracedStore_acquired hstore _ hmem
      exact ⟨entry, index, node, rfl, hnode, hacquired⟩

/-- The finding is a leak of a descriptor that was inherited at the fork. -/
structure InheritedLeak (lib : RecordLibrary) (nodes : List Node) (finding : Finding) (index : ℕ) (fork : Node) :
    Prop where
  kind : fork.recordKind = .fork
  place : PlacedAt finding.place index fork fork.childPid
  parent : fork.pid ≠ fork.childPid
  fresh : ∀ store, tracedStore lib (nodes.take index) = some store →
    (⟨fork.childPid, fdResourceClass, finding.resourceId⟩ : Key) ∉ store.entries.map Entry.key

/-- The replay names a record of the process of the finding, or a fork. -/
theorem named_of_mem_tracedFindings {finding : Finding} (h : finding ∈ tracedFindings lib nodes) :
    ∃ (index : ℕ) (node : Node), finding.lineNumber = index ∧ nodes[index]? = some node ∧
      (node.recordKind ≠ .fork ∧ PlacedAt finding.place index node node.pid ∨
        InheritedLeak lib nodes finding index node) := by
  rcases mem_tracedFindings h with ⟨index, node, hnode, hkind, hplace⟩ | ⟨entry, index, node, rfl, hnode, hacquired⟩
  · exact ⟨index, node, hplace.line, hnode, .inl ⟨hkind, hplace⟩⟩
  · refine ⟨index, node, hacquired.line, hnode, ?_⟩
    cases hacquired with
    | own hkind hplace => exact .inl ⟨hkind, hplace⟩
    | inherited hkind hplace hclass hpid hfresh =>
      have hkey : entry.acquisition.key = ⟨node.childPid, fdResourceClass, entry.resourceId⟩ := by
        rw [← hclass, ← hplace.pid]
        rfl
      rw [hkey] at hfresh
      exact .inr ⟨hkind, hplace, hpid, hfresh⟩

/-- A record of the child is no cause of a leak of what was inherited at the fork. -/
theorem InheritedLeak.pid_ne {finding : Finding} {index : ℕ} {fork : Node}
    (h : InheritedLeak lib nodes finding index fork) (hfork : nodes[index]? = some fork) {cause : ℕ} {node : Node}
    (hcause : IsCause lib nodes finding cause) (hnode : nodes[cause]? = some node) : node.pid ≠ fork.childPid := by
  have hline : finding.lineNumber = index := h.place.line
  cases hcause with
  | named _ hnamed =>
    obtain rfl : cause = index := Int.ofNat_inj.mp (hnamed.symm.trans hline)
    obtain rfl := Option.some.inj (hnode.symm.trans hfork)
    exact h.parent
  | opener earlier _ _ hnamed hchain hopens =>
    obtain rfl : earlier = index := Int.ofNat_inj.mp (hnamed.symm.trans hline)
    obtain ⟨store, hstore, hkey⟩ := key_of_handsOn hchain hnode (hopens node hnode)
    intro hpid
    rw [hpid] at hkey
    exact h.fresh store hstore hkey

theorem reportedFindings_lineless (store : Store) :
    reportedFindings store.lineless = (reportedFindings store).map Finding.lineless := by
  simp only [reportedFindings, Store.lineless, List.map_append, List.map_map, List.filter_map]
  rfl

theorem ingestAll_lineless (records : List EventRecord) :
    (Store.ingestAll lib {} (records.map lineless)) = (Store.ingestAll lib {} records).map Store.lineless :=
  lineless_foldlM lineless (fun record => Store.lineless_ingest record lib) records {}

theorem finish_findings {w w' : World Lifecycle.Model} (hopen : w.state.finished = false)
    (h : Lifecycle.finish w = (.ok (), w')) : w'.state.findings = reportedFindings w.state.store := by
  rcases finish_cases w with ⟨hfinished, _⟩ | ⟨_, r, middle, hloop, _, _, ⟨e, _, hrun⟩ | ⟨hr, hrun⟩⟩
  · cases hopen.symm.trans hfinished
  · cases h.symm.trans hrun
  · obtain ⟨-, rfl⟩ := Prod.mk.inj (h.symm.trans hrun)
    rw [hr, List.range_eq_range'] at hloop
    have hfindings := (@forEach_finishEntry_ok w.state.entries [] w middle rfl hloop).2
    dsimp only
    rw [hfindings, List.map_append, clearPending_leakFinding]
    rfl

theorem tracedRecords_lineless (nodes : List Node) :
    (tracedRecords nodes).map lineless = ((nodes.filter isReplayed).map recordFromNode).map lineless := by
  have hnodes : (nodes.zipIdx.filter fun x => isReplayed x.1).map Prod.fst = nodes.filter isReplayed :=
    (List.filter_map (f := Prod.fst) (p := isReplayed) (l := nodes.zipIdx)).symm.trans
      (congrArg (List.filter isReplayed) (List.zipIdx_map_fst 0 nodes))
  rw [← hnodes, tracedRecords, List.map_map, List.map_map, List.map_map]
  rfl

/-- The findings of a finished model are those of the traced replay, with other lines. -/
theorem Finished.findings_lineless {model : Model} (h : Finished lib model) :
    ∃ lifecycle, model.lifecycle = some lifecycle ∧
      lifecycle.findings.map Finding.lineless = (tracedFindings lib model.nodes).map Finding.lineless := by
  obtain ⟨outcomes, v, hreplay, hlifecycle⟩ := h.finishedFrom.lifecycle
  obtain ⟨⟨⟩, w, hingest, hfinish⟩ := run_bind_eq_ok.mp hreplay
  have hsound : Lifecycle.Sound {} := (Lifecycle.Reachable.create : Lifecycle.Reachable lib {}).sound
  obtain ⟨hstore, hopened⟩ := ingestNodes_store hsound hingest
  have htraced : (tracedStore lib model.nodes).map Store.lineless = some w.state.store.lineless := by
    rw [tracedStore, ← ingestAll_lineless, tracedRecords_lineless, ingestAll_lineless]
    exact congrArg (Option.map Store.lineless) hstore
  obtain ⟨store, hsome, hsame⟩ := Option.map_eq_some_iff.mp htraced
  refine ⟨v.state, hlifecycle, ?_⟩
  rw [finish_findings (hopened rfl) hfinish, tracedFindings, hsome, Option.elim_some, ← reportedFindings_lineless,
    ← reportedFindings_lineless, hsame]

end ToolEvent.RunModel

namespace ToolEvent.ModelAnalysis

open Fallible World RunModel Lifecycle Relation

/-- What `find_node` compares. -/
def nodeKey (node : Node) : ℤ × ℕ × ℕ := (node.pid, node.contextId, node.sequence)

/-- `analyze_resources` reports the lifecycle finding at the position, after the allocations of size zero,
and attributes it to the node. -/
structure Attributes (w : World Analysis) (k : ℕ) (finding : Lifecycle.Finding) (node : Node) : Prop where
  listed : (lifecycleFindings w.state.model)[k]? = some finding
  reported : (analyzeResources w).2.state.findings[w.state.orderedNodes.countP isZeroAllocation + k]? =
    some (lifecycleReport w.state finding)
  found : findNode w.state finding.pid finding.contextId finding.sequence = some node

/-- A lifecycle finding that is reported is attributed to the node of a cause of it, or to none. -/
def AttributesToCauses (lib : RecordLibrary) (model : RunModel.Model) : Prop :=
  ∀ outcomes w, buildCausalOrder ⟨{ model := model }, outcomes⟩ = (.ok (), w) →
    ∀ k finding node, Attributes w k finding node →
      ∃ traced index, (tracedFindings lib model.nodes)[k]? = some traced ∧ IsCause lib model.nodes traced index ∧
        model.nodes[index]? = some node

/-- The finding at the position can be reported: its texts and those of what is reported before it fit,
and so do these findings themselves. -/
structure Reportable (lib : RecordLibrary) (nodes : List Node) (k : ℕ) : Prop where
  allocations : ∀ node ∈ nodes, isZeroAllocation node = true → ShortText node.ptr ∧ ShortText node.newPtr
  lifecycle : ∀ finding ∈ (tracedFindings lib nodes).take (k + 1),
    ShortText finding.resourceClass ∧ ShortText finding.resourceId
  limit : nodes.countP isZeroAllocation + k < findingLimit

/-- No record of a child has the context and the sequence number of the fork at which a descriptor
was inherited whose leak is reported. -/
def ForksApart (lib : RecordLibrary) (nodes : List Node) : Prop :=
  ∀ (k : ℕ) finding, (tracedFindings lib nodes)[k]? = some finding → Reportable lib nodes k →
    ∀ (index : ℕ) (fork : Node), finding.lineNumber = index → nodes[index]? = some fork → fork.recordKind = .fork →
      ∀ node ∈ nodes, nodeKey node ≠ (fork.childPid, fork.contextId, fork.sequence)

variable {lib : RecordLibrary} {model : RunModel.Model} {analysis : Analysis} {pid : ℤ} {context sequence : ℕ} {node : Node}

theorem lifecycleFindings_traced (hmodel : Finished lib model) (k : ℕ) :
    (lifecycleFindings model)[k]?.map Finding.lineless = (tracedFindings lib model.nodes)[k]?.map Finding.lineless := by
  obtain ⟨lifecycle, hlifecycle, hfindings⟩ := hmodel.findings_lineless
  rw [← List.getElem?_map, ← List.getElem?_map, ← hfindings, lifecycleFindings, hlifecycle]
  rfl

theorem nodeKey_eq_iff : nodeKey node = (pid, context, sequence) ↔
    node.pid = pid ∧ node.contextId = context ∧ node.sequence = sequence := by
  rw [nodeKey, Prod.mk.injEq, Prod.mk.injEq]

/-- With an order, `find_node` finds the node of the key. -/
theorem Ran.findNode_eq_some_iff (h : Ran model analysis) (hacyclic : IsAcyclic model)
    (hunique : (model.nodes.map nodeKey).Nodup) :
    findNode analysis pid context sequence = some node ↔
      node ∈ model.nodes ∧ nodeKey node = (pid, context, sequence) := by
  have hmem : ∀ {n}, n ∈ analysis.orderedNodes ↔ n ∈ model.nodes := (h.orderedNodes_perm hacyclic).mem_iff
  have hfound : ∀ {n}, findNode analysis pid context sequence = some n →
      n ∈ model.nodes ∧ nodeKey n = (pid, context, sequence) := by
    intro n hn
    have hkey := List.find?_some hn
    rw [decide_eq_true_eq] at hkey
    exact ⟨hmem.mp (List.mem_of_find?_eq_some hn), nodeKey_eq_iff.mpr hkey⟩
  constructor
  · exact hfound
  · rintro ⟨hnode, hkey⟩
    have hsome : (findNode analysis pid context sequence).isSome = true :=
      List.find?_isSome.mpr ⟨node, hmem.mpr hnode, decide_eq_true (nodeKey_eq_iff.mp hkey)⟩
    obtain ⟨n, hn⟩ := Option.isSome_iff_exists.mp hsome
    obtain ⟨hn', hkey'⟩ := hfound hn
    rw [hn, List.inj_on_of_nodup_map hunique hn' hnode (hkey'.trans hkey.symm)]

theorem Ran.findNode_of_cyclic (h : Ran model analysis) (hcyclic : ¬ IsAcyclic model) :
    findNode analysis pid context sequence = none := by
  rcases h.order with ⟨horder, -⟩ | ⟨-, hzero⟩
  · exact absurd horder.isAcyclic hcyclic
  · rw [findNode, Analysis.orderedNodes, hzero, List.take_zero]
    rfl

/-- What `find_node` compares does not depend on the lines. -/
theorem findNode_congr {finding traced : Lifecycle.Finding} (h : finding.lineless = traced.lineless) :
    findNode analysis finding.pid finding.contextId finding.sequence =
      findNode analysis traced.pid traced.contextId traced.sequence := by
  have hsame := congrArg (fun f : Lifecycle.Finding => findNode analysis f.pid f.contextId f.sequence) h
  exact hsame

theorem key_of_placedAt {finding : Lifecycle.Finding} {index : ℕ} (h : PlacedAt finding.place index node pid) :
    (finding.pid, finding.contextId, finding.sequence) = (pid, node.contextId, node.sequence) := by
  have hpid : finding.pid = pid := h.pid
  have hcontext : finding.contextId = node.contextId := h.contextId
  have hsequence : finding.sequence = node.sequence := h.sequence
  rw [hpid, hcontext, hsequence]

/-- What `build_causal_order` leaves has no findings and no storage for them. -/
theorem buildCausalOrder_empty (hsound : Sound model) {outcomes : List Bool} {w : World Analysis}
    (h : buildCausalOrder ⟨{ model := model }, outcomes⟩ = (.ok (), w)) :
    w.state.findings = [] ∧ w.state.Doubled ∧ w.state.model = model := by
  by_cases hrefused : false ∈ outcomes.take 6
  · rw [buildCausalOrder_refused { model := model } outcomes hsound hrefused] at h
    cases h
  · obtain ⟨order, -, hrun⟩ := buildCausalOrder_granted { model := model } outcomes hsound hrefused
    obtain ⟨-, rfl⟩ := Prod.mk.inj (hrun.symm.trans h)
    rw [Analysis.concluded]
    split <;> exact ⟨rfl, ⟨Nat.le_refl 0, .inl rfl⟩, rfl⟩

/-- The evidence of a lifecycle finding is its class and its resource. -/
theorem fits_lifecycleReport (finding : Lifecycle.Finding) : (lifecycleReport analysis finding).Fits ↔
    ShortText finding.resourceClass ∧ ShortText finding.resourceId := by
  have hdetail : ShortText .empty := (by decide : 0 < evidenceTextSize)
  exact ⟨fun h => ⟨h.1, h.2.1⟩, fun h => ⟨h.1, h.2, hdetail⟩⟩

theorem fits_emptyAllocationReport : (emptyAllocationReport node).Fits ↔
    ShortText node.ptr ∧ ShortText node.newPtr := by
  have hdetail : ShortText .empty := (by decide : 0 < evidenceTextSize)
  exact ⟨fun h => ⟨h.1, h.2.1⟩, fun h => ⟨h.1, h.2, hdetail⟩⟩

/-- What the replay says about a finding that can be reported is what the records say. -/
theorem addable_iff_reportable (hmodel : Finished lib model) (hran : Ran model analysis) (hacyclic : IsAcyclic model)
    (k : ℕ) : Addable (resourceFindings analysis) (analysis.orderedNodes.countP isZeroAllocation + k) ↔
      k < (tracedFindings lib model.nodes).length ∧ Reportable lib model.nodes k := by
  have hperm := hran.orderedNodes_perm hacyclic
  have htexts : ∀ {findings findings' : List Lifecycle.Finding},
      findings.map Lifecycle.Finding.lineless = findings'.map Lifecycle.Finding.lineless →
        (∀ f ∈ findings, ShortText f.resourceClass ∧ ShortText f.resourceId) →
          ∀ f ∈ findings', ShortText f.resourceClass ∧ ShortText f.resourceId := by
    intro findings findings' hsame hshort f hf
    have hmem := List.mem_map_of_mem (f := Lifecycle.Finding.lineless) hf
    rw [← hsame] at hmem
    obtain ⟨g, hg, hlines⟩ := List.mem_map.mp hmem
    have hclass := congrArg Lifecycle.Finding.resourceClass hlines
    have hid := congrArg Lifecycle.Finding.resourceId hlines
    exact ⟨hclass ▸ (hshort g hg).1, hid ▸ (hshort g hg).2⟩
  have hlists : (lifecycleFindings model).map Lifecycle.Finding.lineless =
      (tracedFindings lib model.nodes).map Lifecycle.Finding.lineless := by
    obtain ⟨lifecycle, hlifecycle, hfindings⟩ := hmodel.findings_lineless
    rw [← hfindings, lifecycleFindings, hlifecycle]
    rfl
  have htakes : ((lifecycleFindings model).take (k + 1)).map Lifecycle.Finding.lineless =
      ((tracedFindings lib model.nodes).take (k + 1)).map Lifecycle.Finding.lineless := by
    rw [List.map_take, List.map_take, hlists]
  have hlength : (lifecycleFindings model).length = (tracedFindings lib model.nodes).length := by
    rw [← List.length_map Lifecycle.Finding.lineless, hlists, List.length_map]
  have hcount : analysis.orderedNodes.countP isZeroAllocation = model.nodes.countP isZeroAllocation :=
    hperm.countP_eq _
  have hfirst : ((analysis.orderedNodes.filter isZeroAllocation).map emptyAllocationReport).length =
      analysis.orderedNodes.countP isZeroAllocation := by rw [List.length_map, List.countP_eq_length_filter]
  have htake : (resourceFindings analysis).take (analysis.orderedNodes.countP isZeroAllocation + k + 1) =
      (analysis.orderedNodes.filter isZeroAllocation).map emptyAllocationReport ++
        ((lifecycleFindings model).take (k + 1)).map (lifecycleReport analysis) := by
    rw [resourceFindings, hran.ofModel, Nat.add_assoc, ← hfirst, List.take_length_add_append, List.map_take]
  constructor
  · intro h
    have hlt := h.lt
    rw [resourceFindings, hran.ofModel, List.length_append, hfirst, List.length_map, hlength] at hlt
    have hfits := h.fits
    rw [htake, List.forall_mem_append] at hfits
    refine ⟨by omega, ⟨fun node hnode hzero => ?_, htexts htakes fun f hf => ?_, hcount ▸ h.limit⟩⟩
    · have hmem := List.mem_filter.mpr ⟨hperm.mem_iff.mpr hnode, hzero⟩
      exact fits_emptyAllocationReport.mp (hfits.1 _ (List.mem_map_of_mem hmem))
    · exact (fits_lifecycleReport f).mp (hfits.2 _ (List.mem_map_of_mem hf))
  · rintro ⟨hlt, hreportable⟩
    refine ⟨?_, ?_, hcount ▸ hreportable.limit⟩
    · rw [resourceFindings, hran.ofModel, List.length_append, hfirst, List.length_map, hlength]
      omega
    · rw [htake, List.forall_mem_append]
      constructor
      · intro finding hmem
        obtain ⟨node, hnode, rfl⟩ := List.mem_map.mp hmem
        obtain ⟨hordered, hzero⟩ := List.mem_filter.mp hnode
        exact fits_emptyAllocationReport.mpr (hreportable.allocations node (hperm.mem_iff.mp hordered) hzero)
      · intro finding hmem
        obtain ⟨f, hf, rfl⟩ := List.mem_map.mp hmem
        exact (fits_lifecycleReport f).mpr (htexts htakes.symm hreportable.lifecycle f hf)

/-- With forks apart, the node of a finding is the one that the replay names. -/
theorem attributesToCauses_of_forksApart (hmodel : Finished lib model) (hunique : (model.nodes.map nodeKey).Nodup)
    (hacyclic : IsAcyclic model) (hforks : ForksApart lib model.nodes) : AttributesToCauses lib model := by
  intro outcomes w hbuild k finding node hattributes
  have hran := buildCausalOrder_ok hmodel.reachable.sound hbuild
  obtain ⟨hnone, hdoubled, hsame⟩ := buildCausalOrder_empty hmodel.reachable.sound hbuild
  have hk := hattributes.listed
  rw [hsame] at hk
  have hlines := lifecycleFindings_traced hmodel k
  rw [hk, Option.map_some] at hlines
  obtain ⟨traced, htraced, hlines⟩ := Option.map_eq_some_iff.mp hlines.symm
  have hfind := hattributes.found
  rw [findNode_congr hlines.symm, hran.findNode_eq_some_iff hacyclic hunique] at hfind
  have hmem := List.mem_of_getElem? htraced
  obtain ⟨index, named, hline, hnamed, ⟨-, hplace⟩ | hleak⟩ := named_of_mem_tracedFindings hmem
  · have hnode : named = node :=
      List.inj_on_of_nodup_map hunique (List.mem_of_getElem? hnamed) hfind.1 ((key_of_placedAt hplace).symm.trans hfind.2.symm)
    exact ⟨traced, index, htraced, .named index hline, hnode ▸ hnamed⟩
  · have hplace := (List.getElem?_eq_some_iff.mp hattributes.reported).1
    have haddable := ((addsInTurn_analyzeResources hdoubled).addable hnone hplace).1
    have hreportable := ((addable_iff_reportable hmodel hran hacyclic k).mp haddable).2
    have hkey := hfind.2.trans (key_of_placedAt hleak.place)
    exact absurd hkey (hforks k traced htraced hreportable index named hline hnamed hleak.kind node hfind.1)

/-- When a record of a child is like the fork of its parent, the leak is attributed to it. -/
theorem forksApart_of_attributesToCauses (hmodel : Finished lib model) (hunique : (model.nodes.map nodeKey).Nodup)
    (hacyclic : IsAcyclic model) (hcauses : AttributesToCauses lib model) : ForksApart lib model.nodes := by
  intro k traced hk hreportable index fork hline hfork hkind node hnode hkey
  obtain ⟨index', fork', hline', hfork', hnamed⟩ := named_of_mem_tracedFindings (List.mem_of_getElem? hk)
  obtain rfl : index' = index := Int.ofNat_inj.mp (hline'.symm.trans hline)
  obtain rfl := Option.some.inj (hfork'.symm.trans hfork)
  rcases hnamed with ⟨hother, -⟩ | hleak
  · exact hother hkind
  obtain ⟨order, -, hbuild⟩ := buildCausalOrder_granted { model := model } [] hmodel.reachable.sound List.not_mem_nil
  have hran := buildCausalOrder_ok hmodel.reachable.sound hbuild
  obtain ⟨hnone, hdoubled, hsame⟩ := buildCausalOrder_empty hmodel.reachable.sound hbuild
  have hlines := lifecycleFindings_traced hmodel k
  rw [hk, Option.map_some] at hlines
  obtain ⟨finding, hfinding, hlines⟩ := Option.map_eq_some_iff.mp hlines
  have hfind := (hran.findNode_eq_some_iff hacyclic hunique).mpr ⟨hnode, hkey.trans (key_of_placedAt hleak.place).symm⟩
  rw [← findNode_congr hlines] at hfind
  have haddable := (addable_iff_reportable hmodel hran hacyclic k).mpr
    ⟨(List.getElem?_eq_some_iff.mp hk).1, hreportable⟩
  have hadds := addsInTurn_analyzeResources hdoubled
  have hreported := (hadds.addable hnone (hadds.lt_length hnone rfl haddable)).2
  have hplace : (resourceFindings (Analysis.concluded { model := model } order))[
      (Analysis.concluded { model := model } order).orderedNodes.countP isZeroAllocation + k]? =
        some (lifecycleReport (Analysis.concluded { model := model } order) finding) := by
    rw [List.countP_eq_length_filter, ← List.length_map emptyAllocationReport, resourceFindings,
      List.getElem?_append_right (Nat.le_add_right _ _), Nat.add_sub_cancel_left, List.getElem?_map, hsame, hfinding]
    rfl
  obtain ⟨traced', cause, htraced', hcause, hnode'⟩ := hcauses [] _ hbuild k finding node
    ⟨by rw [hsame]; exact hfinding, hreported.trans hplace, hfind⟩
  obtain rfl := Option.some.inj (hk.symm.trans htraced')
  exact hleak.pid_ne hfork hcause hnode' (nodeKey_eq_iff.mp hkey).1

/-- Every lifecycle finding that is reported is attributed to the node of its cause, or to none, exactly
when the causal graph has a cycle or no record of a child is mistaken for a fork of its parent. -/
theorem attributesToCauses_iff (hmodel : Finished lib model) (hunique : (model.nodes.map nodeKey).Nodup) :
    AttributesToCauses lib model ↔ ¬ IsAcyclic model ∨ ForksApart lib model.nodes := by
  constructor
  · intro hcauses
    by_cases hacyclic : IsAcyclic model
    · exact .inr (forksApart_of_attributesToCauses hmodel hunique hacyclic hcauses)
    · exact .inl hacyclic
  · intro h
    by_cases hacyclic : IsAcyclic model
    · exact attributesToCauses_of_forksApart hmodel hunique hacyclic (h.resolve_left (not_not_intro hacyclic))
    · intro outcomes w hbuild k finding node hattributes
      have hfind := hattributes.found
      rw [(buildCausalOrder_ok hmodel.reachable.sound hbuild).findNode_of_cyclic hacyclic] at hfind
      cases hfind

/-- A parent opens a descriptor and forks, and the child opens another one and closes it. -/
def forkedRecords (sequence : ℕ) : List EventRecord :=
  let run := some (.ofString "run")
  [{ recordKind := .fd, runId := run, pid := 1, contextId := 1, sequence := 1, fd := 3 },
    { recordKind := .fork, runId := run, pid := 1, childPid := 2, contextId := 1, sequence := 2 },
    { recordKind := .fd, runId := run, pid := 2, contextId := 1, sequence := sequence, fd := 4 },
    { recordKind := .fd, runId := run, pid := 2, contextId := 1, sequence := 4, fd := 4, fdKind := .closed }]

theorem attributesToCauses_forkedRecords : AttributesToCauses .standard (modelOf .standard (forkedRecords 3)) := by
  have hapart : ∀ fork ∈ (modelOf .standard (forkedRecords 3)).nodes, fork.recordKind = .fork →
      ∀ node ∈ (modelOf .standard (forkedRecords 3)).nodes,
        nodeKey node ≠ (fork.childPid, fork.contextId, fork.sequence) := by decide +kernel
  apply (attributesToCauses_iff (finished_modelOf _ (by decide +kernel)) (by decide +kernel)).mpr
  exact .inr fun _ _ _ _ _ fork _ hfork => hapart fork (List.mem_of_getElem? hfork)

/-- The child goes on with the count of the context it was forked in, and the leak of the inherited
descriptor is attributed to its first record. -/
theorem forkedRecords_not_attributed :
    Finished .standard (modelOf .standard (forkedRecords 2)) ∧
      ((modelOf .standard (forkedRecords 2)).nodes.map nodeKey).Nodup ∧
      ¬ AttributesToCauses .standard (modelOf .standard (forkedRecords 2)) := by
  have hfinished : Finished .standard (modelOf .standard (forkedRecords 2)) := finished_modelOf _ (by decide +kernel)
  have hunique : ((modelOf .standard (forkedRecords 2)).nodes.map nodeKey).Nodup := by decide +kernel
  have hbuild : buildCausalOrder ⟨{ model := modelOf .standard (forkedRecords 2) }, []⟩ = (.ok (), _) :=
    Prod.ext (by decide +kernel) rfl
  have hacyclic : IsAcyclic (modelOf .standard (forkedRecords 2)) := by
    rcases (buildCausalOrder_ok hfinished.reachable.sound hbuild).order with ⟨horder, -⟩ | ⟨-, hzero⟩
    · exact horder.isAcyclic
    · exact absurd hzero (by decide +kernel)
  refine ⟨hfinished, hunique, fun hcauses => ?_⟩
  have hapart := forksApart_of_attributesToCauses hfinished hunique hacyclic hcauses
  have hreportable : Reportable .standard (modelOf .standard (forkedRecords 2)).nodes 1 :=
    ⟨by decide +kernel, by decide +kernel, by decide +kernel⟩
  have hleak : ∃ finding, (tracedFindings .standard (modelOf .standard (forkedRecords 2)).nodes)[1]? = some finding ∧
      finding.lineNumber = 1 := by
    refine ⟨_, List.getElem?_eq_getElem (by decide +kernel), by decide +kernel⟩
  obtain ⟨finding, hfinding, hline⟩ := hleak
  have hfork : ∃ fork ∈ (modelOf .standard (forkedRecords 2)).nodes[1]?, fork.recordKind = .fork ∧
      ∃ node ∈ (modelOf .standard (forkedRecords 2)).nodes,
        nodeKey node = (fork.childPid, fork.contextId, fork.sequence) := by decide +kernel
  obtain ⟨fork, hfork, hkind, node, hnode, hkey⟩ := hfork
  exact hapart 1 finding hfinding hreportable 1 fork hline hfork hkind node hnode hkey

end ToolEvent.ModelAnalysis
