import ToolEvent.CausalOrderGraph

/-!
# Emitting the causal order

While the heap is emptied it holds the ready nodes, and the in-degrees count the
predecessors that are not emitted yet. So the emitted nodes grow by the least ready node.
-/

namespace ToolEvent.ModelAnalysis

open Fallible World RunModel LinearExtension

structure HeapHolds (P : ℕ → Prop) (heap : List ℕ) : Prop where
  nodup : heap.Nodup
  isHeap : BinaryHeap.IsHeap heap
  mem : ∀ x, x ∈ heap ↔ P x

theorem HeapHolds.congr {P Q : ℕ → Prop} {heap : List ℕ} (h : HeapHolds P heap)
    (hPQ : ∀ x, P x ↔ Q x) : HeapHolds Q heap :=
  ⟨h.nodup, h.isHeap, fun x => (h.mem x).trans (hPQ x)⟩

theorem heapHolds_nil {P : ℕ → Prop} (h : ∀ x, ¬ P x) : HeapHolds P [] :=
  ⟨List.nodup_nil, fun c _ x y hx => by simp at hx, fun x => by simp [h x]⟩

theorem HeapHolds.pop {P : ℕ → Prop} {heap : List ℕ} (h : HeapHolds P heap) (hne : heap ≠ []) :
    ∃ root rest, BinaryHeap.pop heap = some (root, rest) ∧ P root ∧ (∀ x, P x → root ≤ x) ∧
      HeapHolds (fun x => P x ∧ x ≠ root) rest := by
  obtain ⟨root, rest, hpop, hperm, hheap, hmin⟩ := BinaryHeap.pop_spec h.isHeap hne
  have hnodup := List.nodup_cons.mp (hperm.nodup_iff.mp h.nodup)
  refine ⟨root, rest, hpop, (h.mem root).mp (hperm.mem_iff.mpr List.mem_cons_self),
    fun x hx => hmin x ((h.mem x).mpr hx), hnodup.2, hheap, fun x => ?_⟩
  rw [← h.mem x, hperm.mem_iff, List.mem_cons]
  constructor
  · exact fun hx => ⟨.inr hx, fun heq => hnodup.1 (heq ▸ hx)⟩
  · rintro ⟨rfl | hx, hne⟩
    · exact absurd rfl hne
    · exact hx

variable (analysis : Analysis) (outcomes : List Bool) {count : ℕ}

theorem heapPush_run {P : ℕ → Prop} (locals : OrderLocals) {value : ℕ}
    (h : HeapHolds P locals.heap) (hlt : ∀ x, P x → x < count) (hvalue : value < count)
    (hnew : ¬ P value) :
    ∃ heap, heapPush count value ⟨(analysis, locals), outcomes⟩ =
        (.ok (), ⟨(analysis, ({ locals with heap := heap }).withStatus 0), outcomes⟩) ∧
      HeapHolds (fun x => P x ∨ x = value) heap := by
  have hnotMem : value ∉ locals.heap := fun hmem => hnew ((h.mem value).mp hmem)
  have hroom : locals.heap.length < count := by
    have hsub : value :: locals.heap ⊆ List.range count := by
      intro x hx
      rcases List.mem_cons.mp hx with rfl | hx
      · exact List.mem_range.mpr hvalue
      · exact List.mem_range.mpr (hlt x ((h.mem x).mp hx))
    have hle := (List.subperm_of_subset (List.nodup_cons.mpr ⟨hnotMem, h.nodup⟩) hsub).length_le
    simpa using hle
  obtain ⟨heap, hpush, hperm, hheap⟩ := BinaryHeap.push_spec h.isHeap value
  refine ⟨heap, ?_, hperm.nodup_iff.mpr (List.nodup_cons.mpr ⟨hnotMem, h.nodup⟩), hheap, fun x => ?_⟩
  · unfold heapPush
    rw [run_readState_bind]
    dsimp only
    rw [if_neg (Nat.not_le_of_lt hroom), hpush]
    rfl
  · rw [hperm.mem_iff, List.mem_cons, h.mem x, or_comm]

/-- The in-degree of a node when the arcs to the pending targets are still to be removed. -/
def degree (count : ℕ) (successors : ℕ → List ℕ) (finished pending : List ℕ) (w : ℕ) : ℕ :=
  waiting count successors finished w + if w ∈ pending then 1 else 0

theorem degree_nil (count : ℕ) (successors : ℕ → List ℕ) (finished : List ℕ) (w : ℕ) :
    degree count successors finished [] w = waiting count successors finished w := by
  simp [degree]

/-- The locals between two removals of an arc: some arcs of the node emitted last are pending. -/
structure Emitting (count : ℕ) (successors : ℕ → List ℕ) (finished pending : List ℕ)
    (locals : OrderLocals) : Prop where
  graph : Graph count successors locals
  counts : Counts count (degree count successors finished pending) locals.indegree
  heap : HeapHolds
    (fun x => x < count ∧ x ∉ finished ∧ degree count successors finished pending x = 0) locals.heap

variable {successors : ℕ → List ℕ}

theorem waiting_eq_zero_iff {locals : OrderLocals} (hgraph : Graph count successors locals)
    {finished : List ℕ} {w : ℕ} :
    waiting count successors finished w = 0 ↔ ∀ v, w ∈ successors v → v ∈ finished := by
  rw [waiting, List.countP_eq_zero]
  constructor
  · intro h v hv
    have hvc := hgraph.source_lt v (List.ne_nil_of_mem hv)
    simpa [hv] using h v (List.mem_range.mpr hvc)
  · intro h v _
    simpa using h v

theorem waiting_finish {finished : List ℕ} {current : ℕ} (hcurrent : current < count)
    (hnew : current ∉ finished) (w : ℕ) :
    waiting count successors finished w =
      degree count successors (finished ++ [current]) (successors current) w := by
  unfold degree waiting
  split
  · next hmem =>
    rw [countP_range_insert (a := current) (p := fun v => w ∈ successors v ∧ v ∉ finished ++ [current])
      (by simp), if_pos hcurrent]
    intro v
    rcases eq_or_ne v current with rfl | hne
    · simp [hmem, hnew]
    · simp [hne]
  · next hmem =>
    refine List.countP_congr fun v _ => ?_
    rcases eq_or_ne v current with rfl | hne
    · simp [hmem]
    · simp [hne]

theorem pushRoots_run {locals : OrderLocals} {calls : ℕ} {P : Prop}
    (h : Built count successors calls locals) (hstatus : P → locals.operationStatus = 0) :
    ∃ locals', forEach (pushRoot count) (List.range count) ⟨(analysis, locals), outcomes⟩ =
        (.ok (), ⟨(analysis, locals'), outcomes⟩) ∧
      Emitting count successors [] [] locals' ∧ (P → locals'.operationStatus = 0) := by
  have hloop := forEach_run (pushRoot count) (List.range count)
    (fun pre (w : World OrderState) => ∃ locals', w = ⟨(analysis, locals'), outcomes⟩ ∧
      Graph count successors locals' ∧ Counts count (waiting count successors []) locals'.indegree ∧
      HeapHolds (fun x => x ∈ pre ∧ waiting count successors [] x = 0) locals'.heap ∧
      (P → locals'.operationStatus = 0)) ?_
      ⟨locals, rfl, h.graph, h.counts, by rw [h.heap]; exact heapHolds_nil (by simp), hstatus⟩
  · obtain ⟨-, hrun, locals', rfl, hgraph, hcounts, hheap, hstatus'⟩ := hloop
    refine ⟨locals', hrun, ⟨hgraph, ?_, hheap.congr fun x => ?_⟩, hstatus'⟩
    · exact ⟨hcounts.length, fun w hw => (hcounts.value w hw).trans (by rw [degree_nil])⟩
    · simp [degree_nil]
  · rintro pre index post w hsplit ⟨locals', rfl, hgraph, hcounts, hheap, hstatus'⟩
    have hmem : ∀ x ∈ pre ++ index :: post, x < count := fun x hx => List.mem_range.mp (hsplit ▸ hx)
    have hnodup := (List.nodup_append.mp (hsplit ▸ List.nodup_range)).2.2
    have hindex := hmem index (by simp)
    unfold pushRoot
    rw [run_readState_bind]
    dsimp only
    rw [hcounts.value index hindex]
    dsimp only
    split
    · next hzero =>
      obtain ⟨heap, hrun, hheap'⟩ := heapPush_run analysis outcomes locals'
        hheap (fun x hx => hmem x (List.mem_append_left _ hx.1)) hindex
        (fun hp => hnodup index hp.1 index List.mem_cons_self rfl)
      refine ⟨_, hrun, _, rfl, ⟨hgraph.heads_length, hgraph.lists, hgraph.nodup, hgraph.target_lt,
        hgraph.source_lt, hgraph.irrefl⟩, hcounts, hheap'.congr fun x => ?_, fun _ => rfl⟩
      simp only [List.mem_append, List.mem_singleton]
      constructor
      · rintro (⟨hx, hw⟩ | rfl)
        · exact ⟨.inl hx, hw⟩
        · exact ⟨.inr rfl, hzero⟩
      · rintro ⟨hx | rfl, hw⟩
        · exact .inl ⟨hx, hw⟩
        · exact .inr rfl
    · next hpos =>
      refine ⟨_, rfl, locals', rfl, hgraph, hcounts, hheap.congr fun x => ?_, hstatus'⟩
      simp only [List.mem_append, List.mem_singleton]
      constructor
      · exact fun hx => ⟨.inl hx.1, hx.2⟩
      · rintro ⟨hx | rfl, hw⟩
        · exact ⟨hx, hw⟩
        · exact absurd hw hpos

theorem degree_cons {finished pending : List ℕ} {target : ℕ} (hnew : target ∉ pending) (w : ℕ) :
    degree count successors finished (target :: pending) w =
      degree count successors finished pending w + if w = target then 1 else 0 := by
  unfold degree
  rcases eq_or_ne w target with rfl | hne
  · simp [hnew]
  · simp [hne]

theorem relaxArcs_run {finished pending : List ℕ} {head : Option ℕ} {fuel : ℕ}
    {locals : OrderLocals} (hlists : Lists locals.arcs head pending) (hfuel : pending.length ≤ fuel)
    (hnodup : pending.Nodup) (hpending : ∀ t ∈ pending, t < count ∧ t ∉ finished)
    (h : Emitting count successors finished pending locals) :
    ∃ locals', relaxArcs count fuel head ⟨(analysis, locals), outcomes⟩ =
        (.ok (), ⟨(analysis, locals'), outcomes⟩) ∧
      Emitting count successors finished [] locals' ∧
      (locals.operationStatus = 0 → locals'.operationStatus = 0) := by
  induction pending generalizing head fuel locals with
  | nil =>
    cases hlists
    exact ⟨locals, by cases fuel <;> rfl, h, id⟩
  | cons target pending ih =>
    obtain ⟨hnew, hnodup'⟩ := List.nodup_cons.mp hnodup
    obtain ⟨htarget, htf⟩ := hpending target List.mem_cons_self
    cases hlists with
    | @cons arc a _ here earlier rest =>
    cases fuel with
    | zero => simp at hfuel
    | succ fuel =>
      have hdegree := h.counts.value a.target htarget
      rw [degree_cons hnew, if_pos rfl] at hdegree
      generalize hd : degree count successors finished pending a.target = d at hdegree
      have hcounts : Counts count (degree count successors finished pending)
          (locals.indegree.set a.target d) := by
        refine ⟨by rw [List.length_set]; exact h.counts.length, fun w hw => ?_⟩
        rcases eq_or_ne a.target w with rfl | hne
        · rw [List.getElem?_set_self (by rw [h.counts.length]; exact hw), hd]
        · rw [List.getElem?_set_ne hne, h.counts.value w hw, degree_cons hnew, if_neg hne.symm]
          rfl
      have hpos : degree count successors finished (a.target :: pending) a.target ≠ 0 := by
        rw [degree_cons hnew, if_pos rfl]
        exact Nat.succ_ne_zero _
      have hsame : ∀ x, x ≠ a.target → degree count successors finished (a.target :: pending) x =
          degree count successors finished pending x := fun x hx => by
        rw [degree_cons hnew, if_neg hx]
        rfl
      have hset : updateLocals (fun l => { l with indegree := l.indegree.set a.target d })
          ⟨(analysis, locals), outcomes⟩ = (.ok (),
            ⟨(analysis, { locals with indegree := locals.indegree.set a.target d }), outcomes⟩) := rfl
      unfold relaxArcs
      rw [run_readState_bind]
      dsimp only
      rw [here]
      dsimp only
      rw [hdegree]
      dsimp only
      rw [run_bind_of_ok hset]
      have hrest := fun t ht => hpending t (List.mem_cons_of_mem a.target ht)
      split
      · next hzero =>
        obtain ⟨heap, hrun, hheap⟩ := heapPush_run analysis outcomes
          { locals with indegree := locals.indegree.set a.target d } h.heap (fun x hx => hx.1)
          htarget (fun hp => hpos hp.2.2)
        rw [run_bind_of_ok hrun]
        have hnext : Emitting count successors finished pending (OrderLocals.withStatus 0
            { locals with heap := heap, indegree := locals.indegree.set a.target d }) := by
          refine ⟨⟨h.graph.heads_length, h.graph.lists, h.graph.nodup, h.graph.target_lt,
            h.graph.source_lt, h.graph.irrefl⟩, hcounts, hheap.congr fun x => ?_⟩
          rcases eq_or_ne x a.target with rfl | hne
          · simp [htarget, htf, hd, hzero]
          · simp [hne, hsame x hne]
        have hlists' : Lists (OrderLocals.withStatus 0
            { locals with heap := heap, indegree := locals.indegree.set a.target d }).arcs
            a.next pending := rest
        obtain ⟨locals', hrun', hemitting, hstatus⟩ :=
          ih hlists' (Nat.le_of_succ_le_succ hfuel) hnodup' hrest hnext
        exact ⟨locals', hrun', hemitting, fun _ => hstatus rfl⟩
      · next hnonzero =>
        have hnext : Emitting count successors finished pending
            { locals with indegree := locals.indegree.set a.target d } := by
          refine ⟨⟨h.graph.heads_length, h.graph.lists, h.graph.nodup, h.graph.target_lt,
            h.graph.source_lt, h.graph.irrefl⟩, hcounts, h.heap.congr fun x => ?_⟩
          rcases eq_or_ne x a.target with rfl | hne
          · simp [hpos, hd, hnonzero]
          · rw [hsame x hne]
        have hlists' : Lists { locals with indegree := locals.indegree.set a.target d }.arcs
            a.next pending := rest
        exact ih hlists' (Nat.le_of_succ_le_succ hfuel) hnodup' hrest hnext

/-- The elements written to the array for the nodes of the given indices. -/
def orderedOf (nodes : List Node) (indices : List ℕ) : List OrderedNode :=
  indices.filterMap (fun i => nodes[i]?.map (fun node => ⟨node, i⟩))

theorem orderedOf_append {nodes : List Node} {i : ℕ} {node : Node} (h : nodes[i]? = some node)
    (indices : List ℕ) : orderedOf nodes (indices ++ [i]) = orderedOf nodes indices ++ [⟨node, i⟩] := by
  simp [orderedOf, h]

theorem mem_orderedOf {nodes : List Node} {indices : List ℕ} {x : OrderedNode}
    (h : x ∈ orderedOf nodes indices) : nodes[x.originalIndex]? = some x.node := by
  obtain ⟨i, -, hx⟩ := List.mem_filterMap.mp h
  obtain ⟨node, hnode, rfl⟩ := Option.map_eq_some_iff.mp hx
  exact hnode

theorem map_originalIndex_orderedOf {nodes : List Node} {indices : List ℕ}
    (h : ∀ i ∈ indices, i < nodes.length) :
    (orderedOf nodes indices).map OrderedNode.originalIndex = indices := by
  induction indices with
  | nil => rfl
  | cons i indices ih =>
    have hi := List.getElem?_eq_getElem (h i List.mem_cons_self)
    have hrest := ih fun j hj => h j (List.mem_cons_of_mem _ hj)
    simpa [orderedOf, hi] using hrest

theorem isReady_iff {locals : OrderLocals} (hgraph : Graph count successors locals)
    {finished : List ℕ} {x : ℕ} :
    IsReady (fun v w => w ∈ successors v) (List.range count) finished x ↔
      x < count ∧ x ∉ finished ∧ degree count successors finished [] x = 0 := by
  rw [degree_nil, waiting_eq_zero_iff hgraph]
  exact ⟨fun h => ⟨List.mem_range.mp h.mem, h.notDone, h.before⟩,
    fun h => ⟨List.mem_range.mpr h.1, h.2.1, h.2.2⟩⟩

/-- The relation that the stored graph represents. -/
abbrev After (successors : ℕ → List ℕ) : ℕ → ℕ → Prop := fun v w => w ∈ successors v

/-- The indices emitted so far grew by the least ready index. -/
abbrev GrowsLeast (count : ℕ) (successors : ℕ → List ℕ) : List ℕ → Prop :=
  Grows (After successors) (List.range count) (IsLeastReady (After successors) (List.range count))

/-- The object after the nodes of the given indices are emitted. -/
def Analysis.withOrder (analysis : Analysis) (indices : List ℕ) : Analysis :=
  { analysis with ordered := some (orderedOf analysis.model.nodes indices) }

@[simp] theorem withOrder_model (indices : List ℕ) :
    (analysis.withOrder indices).model = analysis.model := rfl

theorem emitted_withOrder {indices : List ℕ} (h : ∀ i ∈ indices, i < analysis.model.nodes.length) :
    (analysis.withOrder indices).emitted = indices.length := by
  have hlength := congrArg List.length (map_originalIndex_orderedOf h)
  simpa [Analysis.emitted, Analysis.withOrder] using hlength

theorem emitNode_run {finished : List ℕ} {current : ℕ} {locals : OrderLocals}
    (hgrows : GrowsLeast analysis.model.nodes.length successors (finished ++ [current]))
    (hcurrent : current < analysis.model.nodes.length) (hnew : current ∉ finished)
    (h : Emitting analysis.model.nodes.length successors (finished ++ [current])
      (successors current) locals) :
    ∃ locals', emitNode analysis.model.nodes.length current
          ⟨(analysis.withOrder finished, locals), outcomes⟩ =
        (.ok (), ⟨(analysis.withOrder (finished ++ [current]), locals'), outcomes⟩) ∧
      Emitting analysis.model.nodes.length successors (finished ++ [current]) [] locals' ∧
      (locals.operationStatus = 0 → locals'.operationStatus = 0) := by
  have hlists := h.graph.lists current hcurrent
  have hpending : ∀ t ∈ successors current,
      t < analysis.model.nodes.length ∧ t ∉ finished ++ [current] := by
    refine fun t ht => ⟨h.graph.target_lt current t ht, fun hmem => ?_⟩
    have hlt := hgrows.ordered current t ht hmem
    have htc : t ≠ current := fun heq => h.graph.irrefl current (heq ▸ ht)
    have htf : t ∈ finished := by simpa [htc] using hmem
    rw [List.idxOf_append_of_notMem hnew, List.idxOf_append_of_mem htf] at hlt
    exact absurd (List.idxOf_lt_length_iff.mpr htf) (by simp at hlt; omega)
  obtain ⟨locals', hrun, hemitting, hstatus⟩ := relaxArcs_run
    (analysis.withOrder (finished ++ [current])) outcomes hlists
    (hlists.length_le hlists.head_lt) (h.graph.nodup current) hpending h
  refine ⟨locals', ?_, hemitting, hstatus⟩
  have hemit : (analysis.withOrder finished).emit ⟨analysis.model.nodes[current], current⟩ =
      analysis.withOrder (finished ++ [current]) := by
    simp only [Analysis.emit, Analysis.withOrder, Option.map_some,
      orderedOf_append (List.getElem?_eq_getElem hcurrent)]
  have hroom : (analysis.withOrder finished).emitted < analysis.model.nodes.length := by
    have hmem := hgrows.mem
    rw [emitted_withOrder analysis fun i hi =>
      List.mem_range.mp (hmem i (List.mem_append_left _ hi))]
    have hle := (List.subperm_of_subset hgrows.nodup hmem).length_le
    simpa using hle
  unfold emitNode
  rw [run_readState_bind]
  simp only [withOrder_model, List.getElem?_eq_getElem hcurrent]
  rw [if_neg (Nat.not_le_of_lt hroom)]
  change relaxArcs _ _ _ ⟨((analysis.withOrder finished).emit _, locals), outcomes⟩ = _
  rw [hemit]
  exact hrun

theorem emitLoop_run {fuel : ℕ} {finished : List ℕ} {locals : OrderLocals}
    (hgrows : GrowsLeast analysis.model.nodes.length successors finished)
    (h : Emitting analysis.model.nodes.length successors finished [] locals)
    (hfuel : analysis.model.nodes.length < fuel + finished.length) :
    ∃ finished' locals',
      emitLoop analysis.model.nodes.length fuel
          ⟨(analysis.withOrder finished, locals), outcomes⟩ =
        (.ok (), ⟨(analysis.withOrder finished', locals'), outcomes⟩) ∧
      GrowsLeast analysis.model.nodes.length successors finished' ∧
      (∀ x, ¬ IsReady (After successors) (List.range analysis.model.nodes.length) finished' x) ∧
      (locals.operationStatus = 0 → locals'.operationStatus = 0) := by
  induction fuel generalizing finished locals with
  | zero =>
    have hle := (List.subperm_of_subset hgrows.nodup hgrows.mem).length_le
    simp at hle hfuel
    omega
  | succ fuel ih =>
    unfold emitLoop
    rw [run_readState_bind]
    dsimp only
    split
    · next hempty =>
      refine ⟨finished, locals, rfl, hgrows, fun x hready => ?_, id⟩
      have hx := (h.heap.mem x).mpr ((isReady_iff h.graph).mp hready)
      simp [hempty] at hx
    · next hne =>
      obtain ⟨current, heap, hpop, hready, hmin, hheap⟩ := h.heap.pop hne
      rw [hpop]
      have hgrows' : GrowsLeast analysis.model.nodes.length successors (finished ++ [current]) :=
        hgrows.snoc ((isReady_iff h.graph).mpr hready) fun y hy =>
          hmin y ((isReady_iff h.graph).mp hy)
      have hnext : Emitting analysis.model.nodes.length successors (finished ++ [current])
          (successors current) { locals with heap := heap } := by
        have hdegree : ∀ w, degree analysis.model.nodes.length successors finished [] w =
            degree analysis.model.nodes.length successors (finished ++ [current])
              (successors current) w := fun w => by
          rw [degree_nil, waiting_finish hready.1 hready.2.1]
        refine ⟨⟨h.graph.heads_length, h.graph.lists, h.graph.nodup, h.graph.target_lt,
          h.graph.source_lt, h.graph.irrefl⟩, ⟨h.counts.length, fun w hw => ?_⟩,
          hheap.congr fun x => ?_⟩
        · rw [← hdegree]
          exact h.counts.value w hw
        · rw [← hdegree]
          simp only [List.mem_append, List.mem_singleton, not_or]
          tauto
      obtain ⟨locals', hrun, hemitting, hstatus⟩ :=
        emitNode_run analysis outcomes hgrows' hready.1 hready.2.1 hnext
      have hset : updateLocals (fun l => { l with heap := heap })
          ⟨(analysis.withOrder finished, locals), outcomes⟩ =
          (.ok (), ⟨(analysis.withOrder finished, { locals with heap := heap }), outcomes⟩) := rfl
      obtain ⟨finished', locals'', hrun', hgrows'', hdone, hstatus'⟩ := ih hgrows' hemitting
        (by simp; omega)
      refine ⟨finished', locals'', ?_, hgrows'', hdone, fun hzero => hstatus' (hstatus hzero)⟩
      dsimp only
      rw [run_bind_of_ok hset, run_bind_of_ok hrun]
      exact hrun'

end ToolEvent.ModelAnalysis
