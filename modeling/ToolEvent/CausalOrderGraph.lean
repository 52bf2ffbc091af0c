import ToolEvent.CausalGraph

/-!
# The adjacency list of the causal order

What `build_causal_order` stores before it empties the heap: for every node the list of
its successors, each once, and the number of its predecessors.
-/

namespace ToolEvent.ModelAnalysis

open Fallible World RunModel LinearExtension

/-- The arcs from a head on lead to the given targets; every arc points to an earlier one. -/
inductive Lists (arcs : List GraphArc) : Option ℕ → List ℕ → Prop
  | nil : Lists arcs none []
  | cons {arc : ℕ} {a : GraphArc} {targets : List ℕ} (here : arcs[arc]? = some a)
      (earlier : ∀ i ∈ a.next, i < arc) (rest : Lists arcs a.next targets) :
      Lists arcs (some arc) (a.target :: targets)

theorem Lists.head_lt {arcs : List GraphArc} {head : Option ℕ} {targets : List ℕ}
    (h : Lists arcs head targets) : ∀ i ∈ head, i < arcs.length := by
  cases h with
  | nil => simp
  | cons here _ _ =>
    rintro i ⟨⟩
    exact (List.getElem?_eq_some_iff.mp here).1

theorem Lists.length_le {arcs : List GraphArc} {head : Option ℕ} {targets : List ℕ} {bound : ℕ}
    (h : Lists arcs head targets) (hbound : ∀ i ∈ head, i < bound) : targets.length ≤ bound := by
  induction h generalizing bound with
  | nil => exact Nat.zero_le _
  | cons here earlier _ ih =>
    have := ih earlier
    have := hbound _ rfl
    simp only [List.length_cons]
    omega

theorem Lists.append {arcs : List GraphArc} {head : Option ℕ} {targets : List ℕ}
    (h : Lists arcs head targets) (a : GraphArc) : Lists (arcs ++ [a]) head targets := by
  induction h with
  | nil => exact .nil
  | cons here earlier _ ih =>
    refine .cons ?_ earlier ih
    rw [List.getElem?_append_left (List.getElem?_eq_some_iff.mp here).1]
    exact here

theorem Lists.findArc {arcs : List GraphArc} {head : Option ℕ} {targets : List ℕ} {fuel : ℕ}
    (h : Lists arcs head targets) (hfuel : targets.length ≤ fuel) (target : ℕ) :
    findArc arcs target fuel head = some (decide (target ∈ targets)) := by
  induction h generalizing fuel with
  | nil => cases fuel <;> simp [ModelAnalysis.findArc]
  | @cons arc a targets here _ _ ih =>
    cases fuel with
    | zero => simp at hfuel
    | succ fuel =>
      rw [ModelAnalysis.findArc, here]
      dsimp only
      split
      · next heq => simp [heq]
      · next hne => simp [ih (by simpa using hfuel), Ne.symm hne]

/-- The successors of the nodes after an arc is added, unless it is listed already. -/
def link (successors : ℕ → List ℕ) (source target : ℕ) : ℕ → List ℕ :=
  if source = target ∨ target ∈ successors source then successors
  else Function.update successors source (target :: successors source)

theorem mem_link {successors : ℕ → List ℕ} {source target v w : ℕ} :
    w ∈ link successors source target v ↔
      w ∈ successors v ∨ (source ≠ target ∧ v = source ∧ w = target) := by
  unfold link
  split
  · grind
  · rcases eq_or_ne v source with rfl | hne
    · simp
      grind
    · simp [hne]

def linkAll (successors : ℕ → List ℕ) (arcs : List (ℕ × ℕ)) : ℕ → List ℕ :=
  arcs.foldl (fun s arc => link s arc.1 arc.2) successors

theorem mem_linkAll {arcs : List (ℕ × ℕ)} {v w : ℕ} : ∀ {successors : ℕ → List ℕ},
    w ∈ linkAll successors arcs v ↔ w ∈ successors v ∨ (v ≠ w ∧ (v, w) ∈ arcs) := by
  induction arcs with
  | nil => simp [linkAll]
  | cons arc arcs ih =>
    intro successors
    obtain ⟨a, b⟩ := arc
    change w ∈ linkAll (link successors a b) arcs v ↔ _
    rw [ih, mem_link]
    simp only [List.mem_cons, Prod.mk.injEq]
    constructor
    · rintro ((h | ⟨hne, rfl, rfl⟩) | ⟨hne, h⟩)
      · exact .inl h
      · exact .inr ⟨hne, .inl ⟨rfl, rfl⟩⟩
      · exact .inr ⟨hne, .inr h⟩
    · rintro (h | ⟨hne, ⟨rfl, rfl⟩ | h⟩)
      · exact .inl (.inl h)
      · exact .inl (.inr ⟨hne, rfl, rfl⟩)
      · exact .inr ⟨hne, h⟩

theorem linkAll_append (successors : ℕ → List ℕ) (arcs : List (ℕ × ℕ)) (arc : ℕ × ℕ) :
    linkAll successors (arcs ++ [arc]) = link (linkAll successors arcs) arc.1 arc.2 := by
  simp [linkAll]

def waiting (count : ℕ) (successors : ℕ → List ℕ) (finished : List ℕ) (w : ℕ) : ℕ :=
  (List.range count).countP (fun v => w ∈ successors v ∧ v ∉ finished)

/-- The stored graph of `count` nodes lists the successors of every node. -/
structure Graph (count : ℕ) (successors : ℕ → List ℕ) (locals : OrderLocals) : Prop where
  heads_length : locals.heads.length = count
  lists : ∀ v < count, Lists locals.arcs locals.heads[v]?.join (successors v)
  nodup : ∀ v, (successors v).Nodup
  target_lt : ∀ v, ∀ w ∈ successors v, w < count
  source_lt : ∀ v, successors v ≠ [] → v < count
  irrefl : ∀ v, v ∉ successors v

/-- The stored in-degrees of `count` nodes. -/
structure Counts (count : ℕ) (degree : ℕ → ℕ) (indegree : List ℕ) : Prop where
  length : indegree.length = count
  value : ∀ w < count, indegree[w]? = some (degree w)

theorem countP_range_insert {p q : ℕ → Bool} {a count : ℕ} (ha : p a = false)
    (hq : ∀ v, q v = (p v || v = a)) :
    (List.range count).countP q = (List.range count).countP p + if a < count then 1 else 0 := by
  induction count with
  | zero => simp
  | succ count ih =>
    rw [List.range_succ, List.countP_append, List.countP_append, ih, List.countP_singleton,
      List.countP_singleton, hq count]
    rcases eq_or_ne count a with rfl | hne
    · simp [ha]
    · simp only [hne, decide_false, Bool.or_false]
      split_ifs <;> omega

theorem waiting_link {count : ℕ} {successors : ℕ → List ℕ} {source target : ℕ}
    (hsource : source < count) (hnew : target ∉ successors source) (hne : source ≠ target) (w : ℕ) :
    waiting count (link successors source target) [] w =
      waiting count successors [] w + if w = target then 1 else 0 := by
  unfold waiting
  rcases eq_or_ne w target with rfl | hw
  · rw [countP_range_insert (p := fun v => w ∈ successors v ∧ v ∉ []) (a := source) (by simpa)
      (fun v => by simp [mem_link, hne]), if_pos hsource, if_pos rfl]
  · rw [if_neg hw, Nat.add_zero]
    refine List.countP_congr fun v _ => ?_
    simp [mem_link, hw]

theorem Graph.insertArc {count source target : ℕ} {successors : ℕ → List ℕ} {locals : OrderLocals}
    (h : Graph count successors locals) (hsource : source < count) (htarget : target < count)
    (hne : source ≠ target) (hnew : target ∉ successors source) :
    Graph count (link successors source target)
      ((locals.insertArc source target).withStatus 0) := by
  have hlink : link successors source target =
      Function.update successors source (target :: successors source) :=
    if_neg (by simp [hne, hnew])
  constructor
  · simpa [OrderLocals.insertArc, OrderLocals.withStatus] using h.heads_length
  · intro v hv
    have hold := (h.lists v hv).append ⟨target, locals.heads[source]?.join⟩
    rw [hlink]
    simp only [OrderLocals.insertArc, OrderLocals.withStatus]
    rcases eq_or_ne v source with rfl | hvs
    · rw [List.getElem?_set_self (by rw [h.heads_length]; exact hv), Function.update_self]
      exact .cons (a := ⟨target, locals.heads[v]?.join⟩) (by simp) (h.lists v hv).head_lt hold
    · rw [List.getElem?_set_ne hvs.symm, Function.update_of_ne hvs]
      exact hold
  · intro v
    rw [hlink]
    rcases eq_or_ne v source with rfl | hvs
    · rw [Function.update_self]
      exact List.nodup_cons.mpr ⟨hnew, h.nodup v⟩
    · rw [Function.update_of_ne hvs]
      exact h.nodup v
  · intro v w hw
    rcases mem_link.mp hw with hw | ⟨-, -, rfl⟩
    · exact h.target_lt v w hw
    · exact htarget
  · intro v hv
    obtain ⟨w, hw⟩ := List.exists_mem_of_ne_nil _ hv
    rcases mem_link.mp hw with hw | ⟨-, rfl, -⟩
    · exact h.source_lt v (List.ne_nil_of_mem hw)
    · exact hsource
  · intro v hv
    rcases mem_link.mp hv with hv | ⟨-, rfl, rfl⟩
    · exact h.irrefl v hv
    · exact hne rfl

theorem addArc_run (analysis : Analysis) (outcomes : List Bool)
    {capacity count source target : ℕ} {successors : ℕ → List ℕ} {locals : OrderLocals}
    (hgraph : Graph count successors locals)
    (hcounts : Counts count (waiting count successors []) locals.indegree)
    (hsource : source < count) (htarget : target < count) (hroom : locals.arcs.length < capacity) :
    ∃ locals', addArc capacity count source target ⟨(analysis, locals), outcomes⟩ =
        (.ok (), ⟨(analysis, locals'), outcomes⟩) ∧
      Graph count (link successors source target) locals' ∧
      Counts count (waiting count (link successors source target) []) locals'.indegree ∧
      locals'.arcs.length ≤ locals.arcs.length + 1 ∧ locals'.heap = locals.heap ∧
      locals'.operationStatus = 0 := by
  have hlists := hgraph.lists source hsource
  have hfind : findArc locals.arcs target locals.arcs.length locals.heads[source]?.join =
      some (decide (target ∈ successors source)) :=
    hlists.findArc (hlists.length_le hlists.head_lt) target
  unfold addArc
  rw [run_readState_bind]
  dsimp only
  rw [if_neg (by omega)]
  split
  · next heq =>
    refine ⟨locals.withStatus 0, rfl, ?_⟩
    rw [link, if_pos (.inl heq)]
    exact ⟨⟨hgraph.heads_length, hgraph.lists, hgraph.nodup, hgraph.target_lt, hgraph.source_lt,
      hgraph.irrefl⟩, hcounts, Nat.le_succ _, rfl, rfl⟩
  · next hne =>
    rw [hfind]
    by_cases hmem : target ∈ successors source
    · refine ⟨locals.withStatus 0, by simp [hmem, updateLocals], ?_⟩
      rw [link, if_pos (.inr hmem)]
      exact ⟨⟨hgraph.heads_length, hgraph.lists, hgraph.nodup, hgraph.target_lt, hgraph.source_lt,
        hgraph.irrefl⟩, hcounts, Nat.le_succ _, rfl, rfl⟩
    · refine ⟨(locals.insertArc source target).withStatus 0, ?_,
        hgraph.insertArc hsource htarget hne hmem, ?_, by simp [OrderLocals.insertArc,
        OrderLocals.withStatus], rfl, rfl⟩
      · simp [hmem, updateLocals, Nat.ne_of_lt hroom]
      · refine ⟨by simpa [OrderLocals.insertArc, OrderLocals.withStatus] using hcounts.length, ?_⟩
        intro w hw
        rw [waiting_link hsource hmem hne]
        simp only [OrderLocals.insertArc, OrderLocals.withStatus, List.getElem?_modify,
          hcounts.value w hw]
        split_ifs with h1 h2 h2
        · rfl
        · exact absurd h1.symm h2
        · exact absurd h2.symm h1
        · rfl

def edgeArcs (edges : List Edge) : List (ℕ × ℕ) := edges.map (fun edge => (edge.source, edge.target))

def chainArcs (neighbours : List (OrderedNode × OrderedNode)) : List (ℕ × ℕ) :=
  (neighbours.filter (fun p => sameContext p.1.node p.2.node)).map
    (fun p => (p.1.originalIndex, p.2.originalIndex))

theorem edgeArcs_append (edges : List Edge) (edge : Edge) :
    edgeArcs (edges ++ [edge]) = edgeArcs edges ++ [(edge.source, edge.target)] := List.map_append

theorem chainArcs_append (neighbours : List (OrderedNode × OrderedNode))
    (p : OrderedNode × OrderedNode) :
    chainArcs (neighbours ++ [p]) = chainArcs neighbours ++
      if sameContext p.1.node p.2.node then [(p.1.originalIndex, p.2.originalIndex)] else [] := by
  rw [chainArcs, List.filter_append, List.map_append]
  cases h : sameContext p.1.node p.2.node <;> simp [h, chainArcs]

def successorsOf (nodes : List Node) (edges : List Edge) : ℕ → List ℕ :=
  linkAll (linkAll (fun _ => []) (edgeArcs edges))
    (chainArcs ((sortedByContext nodes).zip (sortedByContext nodes).tail))

theorem mem_successorsOf {model : Model} {i j : ℕ} :
    j ∈ successorsOf model.nodes model.edges i ↔ CausalArc model i j := by
  rw [successorsOf, mem_linkAll, mem_linkAll]
  simp only [List.not_mem_nil, false_or, edgeArcs, chainArcs, List.mem_map, List.mem_filter,
    Prod.mk.injEq, Prod.exists]
  constructor
  · rintro (⟨hne, edge, hedge, rfl, rfl⟩ | ⟨-, x, y, ⟨hmem, hcontext⟩, rfl, rfl⟩)
    · exact .inl ⟨hne, edge, hedge, rfl, rfl⟩
    · exact .inr (covers_of_neighbours hmem hcontext)
  · rintro (⟨hne, edge, hedge, rfl, rfl⟩ | hcovers)
    · exact .inl ⟨hne, edge, hedge, rfl, rfl⟩
    · obtain ⟨x, y, hmem, hcontext, rfl, rfl⟩ := neighbours_of_covers hcovers
      exact .inr ⟨CausalArc.ne (.inr hcovers), x, y, ⟨hmem, hcontext⟩, rfl, rfl⟩

/-- The locals while the graph is stored, after at most the given number of calls of `add_arc`. -/
structure Built (count : ℕ) (successors : ℕ → List ℕ) (calls : ℕ) (locals : OrderLocals) : Prop where
  graph : Graph count successors locals
  counts : Counts count (waiting count successors []) locals.indegree
  arcs_le : locals.arcs.length ≤ calls
  heap : locals.heap = []

variable (analysis : Analysis) (outcomes : List Bool)

theorem Built.addArc {count calls capacity source target : ℕ} {successors : ℕ → List ℕ}
    {locals : OrderLocals} (h : Built count successors calls locals) (hsource : source < count)
    (htarget : target < count) (hroom : calls < capacity) :
    ∃ locals', addArc capacity count source target ⟨(analysis, locals), outcomes⟩ =
        (.ok (), ⟨(analysis, locals'), outcomes⟩) ∧
      Built count (link successors source target) (calls + 1) locals' ∧
      locals'.operationStatus = 0 := by
  obtain ⟨locals', hrun, hgraph, hcounts, hlength, hheap, hstatus⟩ :=
    addArc_run analysis outcomes h.graph h.counts hsource htarget
      (h.arcs_le.trans_lt hroom)
  have := h.arcs_le
  exact ⟨locals', hrun, ⟨hgraph, hcounts, by omega, hheap.trans h.heap⟩, hstatus⟩

theorem built_empty (nodes : List Node) (locals : OrderLocals) (harcs : locals.arcs = [])
    (hheap : locals.heap = []) :
    Built nodes.length (fun _ => []) 0
      { locals with heads := nodes.map (fun _ => none), indegree := nodes.map (fun _ => 0) } := by
  refine ⟨⟨by simp, fun v hv => ?_, by simp, by simp, by simp, by simp⟩, ⟨by simp, fun w hw => ?_⟩,
    by simp [harcs], hheap⟩
  · simp only [List.getElem?_map, List.getElem?_eq_getElem hv]
    exact .nil
  · simp only [List.getElem?_map, List.getElem?_eq_getElem hw, waiting]
    simp

theorem addEdges_run {nodes : List Node} {edges : List Edge} {locals : OrderLocals}
    (hedges : ∀ edge ∈ edges, edge.source < nodes.length ∧ edge.target < nodes.length)
    (h : Built nodes.length (fun _ => []) 0 locals) {capacity : ℕ} (hcapacity : edges.length ≤ capacity) :
    ∃ locals', forEach (fun edge => addArc capacity nodes.length edge.source edge.target) edges
          ⟨(analysis, locals), outcomes⟩ = (.ok (), ⟨(analysis, locals'), outcomes⟩) ∧
      Built nodes.length (linkAll (fun _ => []) (edgeArcs edges)) edges.length locals' ∧
      (edges ≠ [] → locals'.operationStatus = 0) := by
  have hloop := forEach_run
    (fun edge : Edge => addArc capacity nodes.length edge.source edge.target) edges
    (fun pre (w : World OrderState) => ∃ locals', w = ⟨(analysis, locals'), outcomes⟩ ∧
      Built nodes.length (linkAll (fun _ => []) (edgeArcs pre)) pre.length locals' ∧
      (pre ≠ [] → locals'.operationStatus = 0)) ?_ ⟨locals, rfl, h, fun hne => absurd rfl hne⟩
  · obtain ⟨-, hrun, locals', rfl, hbuilt, hstatus⟩ := hloop
    exact ⟨locals', hrun, hbuilt, hstatus⟩
  · rintro pre edge post w hsplit ⟨locals', rfl, hbuilt, -⟩
    have hlength := congrArg List.length hsplit
    simp only [List.length_append, List.length_cons] at hlength
    obtain ⟨hsource, htarget⟩ := hedges edge (by simp [hsplit])
    have hroom : pre.length < capacity := by omega
    obtain ⟨locals'', hrun, hbuilt', hstatus⟩ := hbuilt.addArc analysis outcomes hsource htarget hroom
    refine ⟨_, hrun, locals'', rfl, ?_, fun _ => hstatus⟩
    rw [edgeArcs_append, linkAll_append, List.length_append]
    exact hbuilt'

theorem addChains_run {nodes : List Node} {successors : ℕ → List ℕ} {calls capacity : ℕ}
    {neighbours : List (OrderedNode × OrderedNode)} {locals : OrderLocals} {P : Prop}
    (hneighbours : ∀ p ∈ neighbours,
      p.1.originalIndex < nodes.length ∧ p.2.originalIndex < nodes.length)
    (h : Built nodes.length successors calls locals)
    (hstatus : P → locals.operationStatus = 0)
    (hcapacity : calls + neighbours.length ≤ capacity) :
    ∃ locals', forEach (addChainArc capacity nodes.length) neighbours
          ⟨(analysis, locals), outcomes⟩ = (.ok (), ⟨(analysis, locals'), outcomes⟩) ∧
      Built nodes.length (linkAll successors (chainArcs neighbours))
        (calls + neighbours.length) locals' ∧
      (P → locals'.operationStatus = 0) := by
  have hloop := forEach_run (addChainArc capacity nodes.length) neighbours
    (fun pre (w : World OrderState) => ∃ locals', w = ⟨(analysis, locals'), outcomes⟩ ∧
      Built nodes.length (linkAll successors (chainArcs pre)) (calls + pre.length) locals' ∧
      (P → locals'.operationStatus = 0)) ?_ ⟨locals, rfl, h, hstatus⟩
  · obtain ⟨-, hrun, locals', rfl, hbuilt, hstatus'⟩ := hloop
    exact ⟨locals', hrun, hbuilt, hstatus'⟩
  · rintro pre p post w hsplit ⟨locals', rfl, hbuilt, hstatus'⟩
    have hlength := congrArg List.length hsplit
    simp only [List.length_append, List.length_cons] at hlength
    obtain ⟨hsource, htarget⟩ := hneighbours p (by simp [hsplit])
    unfold addChainArc
    split
    · next hcontext =>
      have hroom : calls + pre.length < capacity := by omega
      obtain ⟨locals'', hrun, hbuilt', hzero⟩ := hbuilt.addArc analysis outcomes hsource htarget hroom
      refine ⟨_, hrun, locals'', rfl, ?_, fun _ => hzero⟩
      rw [chainArcs_append, if_pos hcontext, linkAll_append, List.length_append]
      exact hbuilt'
    · next hcontext =>
      refine ⟨_, rfl, locals', rfl, ?_, hstatus'⟩
      rw [chainArcs_append, if_neg hcontext, List.append_nil, List.length_append]
      exact ⟨hbuilt.graph, hbuilt.counts, hbuilt.arcs_le.trans (by omega), hbuilt.heap⟩

end ToolEvent.ModelAnalysis
