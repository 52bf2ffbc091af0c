import ToolEvent.Library.Cells
import ToolEvent.SynchronizationSearch

/-!
# The arrays of the search

`sync_reaches` of `src/analysis.c` with its two arrays, which have one cell more than there
are edges. No vertex is expanded twice, so the cells suffice: an edge is pushed when its
source is visited, and a vertex is visited after it was pushed.
-/

namespace ToolEvent.ModelAnalysis

open Cells Reachability Relation

/-- The arrays `pending` and `visited` with the numbers of their cells in use. -/
structure SearchArrays where
  pending : List EvidenceText
  pendingCount : ℕ
  visited : List EvidenceText
  visitedCount : ℕ
  /-- Whether a successor was left out because `pending` was full. -/
  dropped : Bool := false

/-- The loop over the edges: whether the target was found, and the arrays after it. -/
def scanInto (edgeCount : ℕ) (current target : EvidenceText) :
    List SyncEdge → SearchArrays → Option (Bool × SearchArrays)
  | [], arrays => some (false, arrays)
  | edge :: edges, arrays =>
    if edge.source ≠ current then scanInto edgeCount current target edges arrays
    else if edge.target = target then some (true, arrays)
    else if arrays.pendingCount < edgeCount + 1 then do
      let pending ← store arrays.pending arrays.pendingCount edge.target
      scanInto edgeCount current target edges
        { arrays with pending, pendingCount := arrays.pendingCount + 1 }
    else scanInto edgeCount current target edges { arrays with dropped := true }

/-- The loop over the pending texts, within a bound on its rounds. -/
def searchLoop (edges : List SyncEdge) (target : EvidenceText) :
    ℕ → SearchArrays → Option (Bool × SearchArrays)
  | 0, _ => none
  | rounds + 1, arrays =>
    if arrays.pendingCount = 0 then some (false, arrays)
    else do
      let arrays := { arrays with pendingCount := arrays.pendingCount - 1 }
      let current ← arrays.pending[arrays.pendingCount]?
      if current ∈ arrays.visited.take arrays.visitedCount then searchLoop edges target rounds arrays
      else do
        let visited ← store arrays.visited arrays.visitedCount current
        let (found, arrays) ← scanInto edges.length current target edges
          { arrays with visited, visitedCount := arrays.visitedCount + 1 }
        if found then return (true, arrays) else searchLoop edges target rounds arrays

/-- `sync_reaches` with granted requests. A write outside an array has no result. -/
def searchArrays (edges : List SyncEdge) (start target : EvidenceText) : Option (Bool × SearchArrays) :=
  let cells := List.replicate (edges.length + 1) EvidenceText.empty
  if start = target then some (true, ⟨cells, 0, cells, 0, false⟩)
  else do
    let pending ← store cells 0 start
    searchLoop edges target (edges.length + 2) ⟨pending, 1, cells, 0, false⟩

/-- What the arrays hold: the pending texts, the next one last, and the visited ones. -/
structure Searching (edgeCount : ℕ) (pending visited : List EvidenceText) (arrays : SearchArrays) : Prop where
  pendingRoom : arrays.pending.length = edgeCount + 1
  visitedRoom : arrays.visited.length = edgeCount + 1
  pending : Cells.Holds arrays.pending arrays.pendingCount pending.reverse
  visited : Cells.Holds arrays.visited arrays.visitedCount visited
  kept : arrays.dropped = false

section Steps

variable {edgeCount : ℕ} {pending visited : List EvidenceText} {arrays : SearchArrays}

theorem Searching.pendingCount (h : Searching edgeCount pending visited arrays) :
    arrays.pendingCount = pending.length := by
  rw [← h.pending.length, List.length_reverse]

theorem Searching.push (h : Searching edgeCount pending visited arrays)
    (hroom : pending.length < edgeCount + 1) (next : EvidenceText) :
    ∃ cells, store arrays.pending arrays.pendingCount next = some cells ∧
      Searching edgeCount (next :: pending) visited
        { arrays with pending := cells, pendingCount := arrays.pendingCount + 1 } := by
  have hin : arrays.pendingCount < arrays.pending.length := by
    rw [h.pendingCount, h.pendingRoom]
    exact hroom
  obtain ⟨cells, hstore, hlength, hholds⟩ := h.pending.store hin next
  refine ⟨cells, hstore, hlength.trans h.pendingRoom, h.visitedRoom, ?_, h.visited, h.kept⟩
  rwa [List.reverse_cons]

theorem Searching.pop {current : EvidenceText} (h : Searching edgeCount (current :: pending) visited arrays) :
    arrays.pendingCount = pending.length + 1 ∧ arrays.pending[pending.length]? = some current ∧
      Searching edgeCount pending visited { arrays with pendingCount := pending.length } := by
  have hcount := h.pendingCount
  have hholds := h.pending
  rw [hcount, List.length_cons, List.reverse_cons] at hholds
  obtain ⟨hcurrent, hrest⟩ := hholds.pop
  exact ⟨hcount, hcurrent, h.pendingRoom, h.visitedRoom, hrest, h.visited, h.kept⟩

theorem Searching.visit (h : Searching edgeCount pending visited arrays)
    (hroom : visited.length < edgeCount + 1) (current : EvidenceText) :
    ∃ cells, store arrays.visited arrays.visitedCount current = some cells ∧
      Searching edgeCount pending (visited ++ [current])
        { arrays with visited := cells, visitedCount := arrays.visitedCount + 1 } := by
  have hin : arrays.visitedCount < arrays.visited.length := by
    rw [← h.visited.length, h.visitedRoom]
    exact hroom
  obtain ⟨cells, hstore, hlength, hholds⟩ := h.visited.store hin current
  exact ⟨cells, hstore, h.pendingRoom, hlength.trans h.visitedRoom, h.pending, hholds, h.kept⟩

end Steps

/-- The loop over the edges finds room for every successor. -/
theorem scanInto_spec {edgeCount : ℕ} {current target : EvidenceText} (edges : List SyncEdge)
    {pending visited : List EvidenceText} {arrays : SearchArrays}
    (h : Searching edgeCount pending visited arrays)
    (hroom : pending.length + (edgeEnds.outgoing edges current).length ≤ edgeCount + 1) :
    ∃ next, scanInto edgeCount current target edges arrays =
        some ((scanEdges current target (edgeCount + 1) edges pending).isNone, next) ∧ next.dropped = false ∧
      ∀ texts, scanEdges current target (edgeCount + 1) edges pending = some texts →
        Searching edgeCount texts visited next := by
  induction edges generalizing pending arrays with
  | nil =>
    refine ⟨arrays, rfl, h.kept, ?_⟩
    intro texts htexts
    cases htexts
    exact h
  | cons edge edges ih =>
    simp only [scanInto, scanEdges]
    by_cases hsource : edge.source = current
    · have houtgoing : edgeEnds.outgoing (edge :: edges) current = edge :: edgeEnds.outgoing edges current :=
        List.filter_cons_of_pos (decide_eq_true hsource)
      rw [houtgoing, List.length_cons] at hroom
      rw [if_neg (not_not_intro hsource), if_neg (not_not_intro hsource)]
      by_cases htarget : edge.target = target
      · rw [if_pos htarget, if_pos htarget]
        exact ⟨arrays, rfl, h.kept, fun texts htexts => by cases htexts⟩
      · have hfits : pending.length < edgeCount + 1 := by omega
        obtain ⟨cells, hstore, hpushed⟩ := h.push hfits edge.target
        rw [if_neg htarget, if_neg htarget, h.pendingCount, if_pos hfits, if_pos hfits, ← h.pendingCount, hstore]
        apply ih hpushed
        rw [List.length_cons]
        omega
    · have houtgoing : edgeEnds.outgoing (edge :: edges) current = edgeEnds.outgoing edges current :=
        List.filter_cons_of_neg (fun hc => hsource (of_decide_eq_true hc))
      rw [houtgoing] at hroom
      rw [if_pos hsource, if_pos hsource]
      exact ih h hroom

/-- The search on the arrays follows the search on lists. The texts pending, the edges not yet
explored and the texts visited are never more than the cells of an array. -/
theorem searchLoop_spec {edges : List SyncEdge} {target : EvidenceText} {reached : Bool} (rounds : ℕ)
    {pending visited : List EvidenceText} {arrays : SearchArrays}
    (h : Searching edges.length pending visited arrays)
    (hcount : pending.length + (edgeEnds.unexplored edges visited).length + visited.length ≤ edges.length + 1)
    (hloop : reachLoop edges target rounds pending visited = some reached) :
    ∃ final, searchLoop edges target (rounds + 1) arrays = some (reached, final) ∧ final.dropped = false := by
  induction rounds generalizing pending visited arrays with
  | zero =>
    cases pending with
    | nil =>
      cases hloop
      exact ⟨arrays, if_pos h.pendingCount, h.kept⟩
    | cons current pending => cases hloop
  | succ rounds ih =>
    cases pending with
    | nil =>
      cases hloop
      exact ⟨arrays, if_pos h.pendingCount, h.kept⟩
    | cons current pending =>
      obtain ⟨hpending, hcurrent, hpopped⟩ := h.pop
      have hmore : ¬ pending.length + 1 = 0 := Nat.succ_ne_zero _
      rw [List.length_cons] at hcount
      rw [reachLoop] at hloop
      rw [searchLoop, hpending, if_neg hmore]
      simp only [Nat.add_sub_cancel, hcurrent, Option.bind_eq_bind, Option.bind_some, hpopped.visited.take]
      by_cases hvisited : current ∈ visited
      · rw [if_pos hvisited] at hloop ⊢
        exact ih hpopped (by omega) hloop
      · rw [if_neg hvisited] at hloop ⊢
        have hmeasure : (edgeEnds.unexplored edges (visited ++ [current])).length +
            (edgeEnds.outgoing edges current).length = (edgeEnds.unexplored edges visited).length :=
          EdgeEnds.length_unexplored_visit hvisited
        have hroom : pending.length + (edgeEnds.outgoing edges current).length ≤ edges.length + 1 := by omega
        obtain ⟨cells, hstore, hnoted⟩ := hpopped.visit (by omega) current
        obtain ⟨next, hscan, hkept, hnext⟩ :=
          @scanInto_spec edges.length current target edges pending (visited ++ [current]) _ hnoted hroom
        rw [hstore]
        simp only [Option.bind_some, hscan]
        cases hedges : scanEdges current target (edges.length + 1) edges pending with
        | none =>
          rw [hedges] at hloop
          cases hloop
          exact ⟨next, rfl, hkept⟩
        | some texts =>
          rw [hedges] at hloop
          have htexts : texts = (successors edges current).reverse ++ pending := by
            rw [scanEdges_eq _ _ _ _ _ hroom] at hedges
            split at hedges
            · cases hedges
            · exact (Option.some.inj hedges).symm
          have hsuccessors : (successors edges current).length = (edgeEnds.outgoing edges current).length :=
            List.length_map _
          apply ih (hnext texts hedges) _ hloop
          rw [htexts, List.length_append, List.length_reverse, List.length_append, List.length_singleton]
          omega

/-- The search on the arrays returns what the search on lists returns. -/
theorem searchArrays_reaches (edges : List SyncEdge) (start target : EvidenceText) :
    ∃ final, searchArrays edges start target = some (reaches edges start target, final) ∧
      final.dropped = false := by
  unfold searchArrays reaches
  by_cases heq : start = target
  · simp [heq]
  · have hcells : 0 < (List.replicate (edges.length + 1) EvidenceText.empty).length := by
      rw [List.length_replicate]
      exact Nat.succ_pos _
    obtain ⟨cells, hstore, hlength, hholds⟩ :=
      (holds_nil (List.replicate (edges.length + 1) EvidenceText.empty)).store hcells start
    rw [List.length_replicate] at hlength
    obtain ⟨reached, hloop, -⟩ := exists_reachLoop edges heq
    have hstart : Searching edges.length [start] [] ⟨cells, 1, List.replicate (edges.length + 1) .empty, 0, false⟩ :=
      ⟨hlength, List.length_replicate, hholds, holds_nil _, rfl⟩
    have hunexplored : (edgeEnds.unexplored edges []).length ≤ edges.length := List.length_filter_le _ _
    obtain ⟨final, hsearch, hkept⟩ := searchLoop_spec (edges.length + 1) hstart (by simp; omega) hloop
    refine ⟨final, ?_, hkept⟩
    rw [if_neg heq, hstore, hloop]
    simpa [heq] using hsearch

/-- The search on the arrays ends and decides whether there is a path. It writes no cell
outside the arrays and leaves no successor out. -/
theorem searchArrays_spec (edges : List SyncEdge) (start target : EvidenceText) :
    ∃ reached final, searchArrays edges start target = some (reached, final) ∧ final.dropped = false ∧
      (reached = true ↔ start = target ∨ TransGen (Linked edges) start target) := by
  obtain ⟨final, hsearch, hkept⟩ := searchArrays_reaches edges start target
  refine ⟨reaches edges start target, final, hsearch, hkept, ?_⟩
  rw [reaches_iff, reflTransGen_iff_eq_or_transGen]
  exact or_congr_left eq_comm

end ToolEvent.ModelAnalysis
