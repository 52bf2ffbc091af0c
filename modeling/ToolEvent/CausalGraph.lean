import ToolEvent.CausalOrder
import ToolEvent.Library.LinearExtension

/-!
# The causal graph of a run model

The graph that a causal order has to respect: the edges of the model, and for every
context the chain of its nodes by sequence number and index. Sorting the nodes as
`build_causal_order` does makes the chain pairs neighbours.
-/

namespace ToolEvent.ModelAnalysis

open RunModel LinearExtension Relation

/-- Of two nodes of one context, the left one has the smaller sequence number, or the
same and the smaller index. -/
def InContextOrder (nodes : List Node) (i j : ℕ) : Prop :=
  ∃ x y, nodes[i]? = some x ∧ nodes[j]? = some y ∧ sameContext x y = true ∧
    (x.sequence < y.sequence ∨ x.sequence = y.sequence ∧ i < j)

/-- An arc of the causal graph: an edge of the model between distinct nodes, or
neighbours in the chain of a context. -/
def CausalArc (model : Model) (i j : ℕ) : Prop :=
  (i ≠ j ∧ ∃ edge ∈ model.edges, edge.source = i ∧ edge.target = j) ∨
    Covers (InContextOrder model.nodes) i j

/-- No cycle goes through two or more nodes. -/
def IsAcyclic (model : Model) : Prop := ∀ i, ¬ TransGen (CausalArc model) i i

/-- An order of the nodes, by index, that respects the edges and the contexts. -/
structure IsCausalOrder (model : Model) (order : List ℕ) : Prop where
  perm : order.Perm (List.range model.nodes.length)
  edges : ∀ edge ∈ model.edges, edge.source ≠ edge.target →
    order.idxOf edge.source < order.idxOf edge.target
  contexts : ∀ i j, InContextOrder model.nodes i j → order.idxOf i < order.idxOf j

instance (nodes : List Node) (i j : ℕ) : Decidable (InContextOrder nodes i j) :=
  match hx : nodes[i]?, hy : nodes[j]? with
  | some x, some y =>
    decidable_of_iff (sameContext x y = true ∧
        (x.sequence < y.sequence ∨ x.sequence = y.sequence ∧ i < j)) (by simp [InContextOrder, hx, hy])
  | none, _ => isFalse (by simp [InContextOrder, hx])
  | _, none => isFalse (by simp [InContextOrder, hy])

theorem sameContext_iff {x y : Node} :
    sameContext x y = true ↔ x.pid = y.pid ∧ x.contextId = y.contextId := by
  simp [sameContext]

instance (nodes : List Node) : IsStrictOrder ℕ (InContextOrder nodes) where
  irrefl := by
    rintro i ⟨x, y, hx, hy, -, h⟩
    obtain rfl := Option.some.inj (hx.symm.trans hy)
    omega
  trans := by
    rintro i j k ⟨x, y, hx, hy, hxy, h⟩ ⟨y', z, hy', hz, hyz, h'⟩
    obtain rfl := Option.some.inj (hy.symm.trans hy')
    rw [sameContext_iff] at hxy hyz
    exact ⟨x, z, hx, hz, sameContext_iff.mpr ⟨hxy.1.trans hyz.1, hxy.2.trans hyz.2⟩, by omega⟩

variable {nodes : List Node}

theorem InContextOrder.lt_length {i j : ℕ} (h : InContextOrder nodes i j) :
    i < nodes.length ∧ j < nodes.length := by
  obtain ⟨x, y, hx, hy, -⟩ := h
  exact ⟨(List.getElem?_eq_some_iff.mp hx).1, (List.getElem?_eq_some_iff.mp hy).1⟩

theorem transGen_covers_of_inContextOrder {i j : ℕ} (h : InContextOrder nodes i j) :
    TransGen (Covers (InContextOrder nodes)) i j := by
  refine transGen_covers (fun a b => ?_) h
  exact (Set.finite_lt_nat nodes.length).subset fun c hc => hc.1.lt_length.2

theorem CausalArc.ne {model : Model} {i j : ℕ} (h : CausalArc model i j) : i ≠ j := by
  rcases h with h | h
  · exact h.1
  · rintro rfl
    exact irrefl i h.1

/-- The orders that respect the graph are its linear extensions. -/
theorem isCausalOrder_iff {model : Model} {order : List ℕ} :
    IsCausalOrder model order ↔
      IsLinearExtension (CausalArc model) (List.range model.nodes.length) order := by
  constructor
  · rintro ⟨hperm, hedges, hcontexts⟩
    refine ⟨hperm, ?_⟩
    rintro i j (⟨hne, edge, hedge, rfl, rfl⟩ | hchain)
    · exact hedges edge hedge hne
    · exact hcontexts i j hchain.1
  · rintro ⟨hperm, hordered⟩
    refine ⟨hperm, fun edge hedge hne => hordered _ _ (.inl ⟨hne, edge, hedge, rfl, rfl⟩), ?_⟩
    intro i j hij
    have hchain := transGen_covers_of_inContextOrder hij
    clear hij
    induction hchain with
    | single h => exact hordered _ _ (.inr h)
    | tail _ h ih => exact ih.trans (hordered _ _ (.inr h))

instance (model : Model) (order : List ℕ) : Decidable (IsCausalOrder model order) :=
  decidable_of_iff (order.Perm (List.range model.nodes.length) ∧
      (∀ edge ∈ model.edges, edge.source ≠ edge.target →
        order.idxOf edge.source < order.idxOf edge.target) ∧
      ∀ i < model.nodes.length, ∀ j < model.nodes.length, InContextOrder model.nodes i j →
        order.idxOf i < order.idxOf j)
    ⟨fun ⟨hperm, hedges, hcontexts⟩ => ⟨hperm, hedges, fun i j hij =>
        hcontexts i hij.lt_length.1 j hij.lt_length.2 hij⟩,
      fun h => ⟨h.perm, h.edges, fun i _ j _ => h.contexts i j⟩⟩

instance : Std.Total orderedNodeLe where
  total x y := by
    unfold orderedNodeLe
    grind

instance : IsTrans OrderedNode orderedNodeLe where
  trans x y z := by
    unfold orderedNodeLe
    grind

theorem mem_indexedNodes {x : OrderedNode} :
    x ∈ indexedNodes nodes ↔ nodes[x.originalIndex]? = some x.node := by
  simp only [indexedNodes, List.mem_map, Prod.exists, List.mk_mem_zipIdx_iff_getElem?]
  constructor
  · rintro ⟨node, index, h, rfl⟩
    exact h
  · exact fun h => ⟨x.node, x.originalIndex, h, rfl⟩

theorem mem_sortedByContext {x : OrderedNode} :
    x ∈ sortedByContext nodes ↔ nodes[x.originalIndex]? = some x.node := by
  rw [sortedByContext, List.mem_insertionSort, mem_indexedNodes]

theorem map_originalIndex_indexedNodes :
    (indexedNodes nodes).map OrderedNode.originalIndex = List.range nodes.length := by
  rw [indexedNodes, List.map_map]
  rw [List.range_eq_range', ← List.zipIdx_map_snd 0 nodes]
  rfl

theorem nodup_sortedByContext (nodes : List Node) : ((sortedByContext nodes).map OrderedNode.originalIndex).Nodup := by
  have hperm := (List.perm_insertionSort orderedNodeLe (indexedNodes nodes)).map
    OrderedNode.originalIndex
  rw [map_originalIndex_indexedNodes] at hperm
  exact hperm.nodup_iff.mpr List.nodup_range

theorem pairwise_sortedByContext (nodes : List Node) : (sortedByContext nodes).Pairwise orderedNodeLe :=
  List.pairwise_insertionSort _ _

theorem mem_zip_tail_iff {α : Type*} {l : List α} {x y : α} :
    (x, y) ∈ l.zip l.tail ↔ ∃ pre post, l = pre ++ x :: y :: post := by
  constructor
  · intro h
    induction l with
    | nil => simp at h
    | cons a l ih =>
      cases l with
      | nil => simp at h
      | cons b l =>
        rcases List.mem_cons.mp h with h | h
        · obtain ⟨rfl, rfl⟩ := Prod.mk.inj h
          exact ⟨[], l, rfl⟩
        · obtain ⟨pre, post, hl⟩ := ih h
          exact ⟨a :: pre, post, by rw [hl, List.cons_append]⟩
  · rintro ⟨pre, post, rfl⟩
    induction pre with
    | nil => simp
    | cons a pre ih => cases pre <;> simp_all

theorem inContextOrder_of_le {x y : OrderedNode} (hx : nodes[x.originalIndex]? = some x.node)
    (hy : nodes[y.originalIndex]? = some y.node) (hle : orderedNodeLe x y)
    (hcontext : sameContext x.node y.node = true) (hne : x.originalIndex ≠ y.originalIndex) :
    InContextOrder nodes x.originalIndex y.originalIndex := by
  refine ⟨x.node, y.node, hx, hy, hcontext, ?_⟩
  rw [sameContext_iff] at hcontext
  unfold orderedNodeLe at hle
  grind

theorem InContextOrder.sameContext {x y : OrderedNode}
    (h : InContextOrder nodes x.originalIndex y.originalIndex)
    (hx : nodes[x.originalIndex]? = some x.node) (hy : nodes[y.originalIndex]? = some y.node) :
    sameContext x.node y.node = true := by
  obtain ⟨u, v, hu, hv, hcontext, -⟩ := h
  rwa [← Option.some.inj (hu.symm.trans hx), ← Option.some.inj (hv.symm.trans hy)]

theorem InContextOrder.not_le {x y : OrderedNode}
    (h : InContextOrder nodes x.originalIndex y.originalIndex)
    (hx : nodes[x.originalIndex]? = some x.node) (hy : nodes[y.originalIndex]? = some y.node) :
    ¬ orderedNodeLe y x := by
  obtain ⟨u, v, hu, hv, hcontext, horder⟩ := h
  obtain rfl := Option.some.inj (hu.symm.trans hx)
  obtain rfl := Option.some.inj (hv.symm.trans hy)
  rw [sameContext_iff] at hcontext
  unfold orderedNodeLe
  grind

/-- What stands between nodes of one context belongs to that context. -/
theorem sameContext_of_between {x m y : OrderedNode} (hxm : orderedNodeLe x m)
    (hmy : orderedNodeLe m y) (h : sameContext x.node y.node = true) :
    sameContext x.node m.node = true ∧ sameContext m.node y.node = true := by
  simp only [sameContext_iff] at *
  unfold orderedNodeLe at *
  grind

/-- Neighbours of one context in the sorted array are neighbours in the chain of the context. -/
theorem covers_of_neighbours {x y : OrderedNode}
    (h : (x, y) ∈ (sortedByContext nodes).zip (sortedByContext nodes).tail)
    (hcontext : sameContext x.node y.node = true) :
    Covers (InContextOrder nodes) x.originalIndex y.originalIndex := by
  obtain ⟨pre, post, hsplit⟩ := mem_zip_tail_iff.mp h
  have hmem : ∀ z ∈ pre ++ x :: y :: post, nodes[z.originalIndex]? = some z.node :=
    fun z hz => mem_sortedByContext.mp (hsplit ▸ hz)
  have hpairwise := hsplit ▸ pairwise_sortedByContext nodes
  have hnodup := hsplit ▸ nodup_sortedByContext nodes
  have hx := hmem x (by simp)
  have hy := hmem y (by simp)
  obtain ⟨-, hsuffix, hpre⟩ := List.pairwise_append.mp hpairwise
  rw [List.pairwise_cons, List.pairwise_cons] at hsuffix
  have hne : x.originalIndex ≠ y.originalIndex := by
    intro heq
    simp [heq, List.nodup_append] at hnodup
  refine ⟨inContextOrder_of_le hx hy (hsuffix.1 y List.mem_cons_self) hcontext hne, ?_⟩
  rintro c ⟨hxc, hcy⟩
  obtain ⟨-, node, -, hc, -⟩ := id hxc
  have hz : (⟨node, c⟩ : OrderedNode) ∈ pre ++ x :: y :: post := hsplit ▸ mem_sortedByContext.mpr hc
  have hnotx := InContextOrder.not_le (y := ⟨node, c⟩) hxc hx hc
  have hnoty := InContextOrder.not_le (x := ⟨node, c⟩) hcy hc hy
  rcases List.mem_append.mp hz with hz | hz
  · exact hnotx (hpre _ hz x List.mem_cons_self)
  · rcases List.mem_cons.mp hz with rfl | hz
    · exact irrefl c hxc
    · rcases List.mem_cons.mp hz with rfl | hz
      · exact irrefl c hcy
      · exact hnoty (hsuffix.2.1 _ hz)

theorem neighbours_of_covers {i j : ℕ} (h : Covers (InContextOrder nodes) i j) :
    ∃ x y, (x, y) ∈ (sortedByContext nodes).zip (sortedByContext nodes).tail ∧
      sameContext x.node y.node = true ∧ x.originalIndex = i ∧ y.originalIndex = j := by
  obtain ⟨u, v, hu, hv, hcontext, -⟩ := id h.1
  have hxmem : (⟨u, i⟩ : OrderedNode) ∈ sortedByContext nodes := mem_sortedByContext.mpr hu
  have hymem : (⟨v, j⟩ : OrderedNode) ∈ sortedByContext nodes := mem_sortedByContext.mpr hv
  have hnotle : ¬ orderedNodeLe ⟨v, j⟩ ⟨u, i⟩ := InContextOrder.not_le (x := ⟨u, i⟩) (y := ⟨v, j⟩) h.1 hu hv
  refine ⟨⟨u, i⟩, ⟨v, j⟩, mem_zip_tail_iff.mpr ?_, hcontext, rfl, rfl⟩
  obtain ⟨pre, suffix, hsplit⟩ := List.append_of_mem hxmem
  have hmem : ∀ z ∈ pre ++ ⟨u, i⟩ :: suffix, nodes[z.originalIndex]? = some z.node :=
    fun z hz => mem_sortedByContext.mp (hsplit ▸ hz)
  have hpairwise := hsplit ▸ pairwise_sortedByContext nodes
  have hnodup := hsplit ▸ nodup_sortedByContext nodes
  rw [hsplit] at hymem
  obtain ⟨-, hsuffix, hpre⟩ := List.pairwise_append.mp hpairwise
  rw [List.pairwise_cons] at hsuffix
  rcases List.mem_append.mp hymem with hy | hy
  · exact absurd (hpre _ hy _ List.mem_cons_self) hnotle
  · rcases List.mem_cons.mp hy with hy | hy
    · obtain ⟨-, rfl⟩ := OrderedNode.mk.inj hy
      exact absurd h.1 (irrefl _)
    · obtain ⟨middle, post, rfl⟩ := List.append_of_mem hy
      cases middle with
      | nil => exact ⟨pre, post, hsplit⟩
      | cons m middle =>
        exfalso
        have hxm := hsuffix.1 m (by simp)
        have hmy : orderedNodeLe m ⟨v, j⟩ :=
          (List.pairwise_append.mp hsuffix.2).2.2 m (by simp) _ (by simp)
        obtain ⟨hcontextxm, hcontextmy⟩ := sameContext_of_between hxm hmy hcontext
        have hm := hmem m (by simp)
        simp only [List.map_append, List.map_cons, List.cons_append, List.nodup_append,
          List.nodup_cons, List.mem_cons, List.mem_append, List.mem_map] at hnodup
        refine h.2 m.originalIndex ⟨?_, ?_⟩
        · exact inContextOrder_of_le (x := ⟨u, i⟩) hu hm hxm hcontextxm (by grind)
        · exact inContextOrder_of_le (y := ⟨v, j⟩) hm hv hmy hcontextmy (by grind)

end ToolEvent.ModelAnalysis
