import ToolEvent.Library.Reachability
import ToolEvent.Synchronization

/-!
# The search of the synchronization graphs

`sync_reaches` decides whether there is a path in a list of edges. Every edge is pushed at
most once, when its source is visited, so neither the room for pending texts nor the number
of rounds is ever short.
-/

namespace ToolEvent.ModelAnalysis

open Fallible World Reachability Relation

def edgeEnds : EdgeEnds SyncEdge EvidenceText := ⟨SyncEdge.source, SyncEdge.target⟩

/-- Some edge of the list goes from the first text to the second. -/
def Linked (edges : List SyncEdge) : EvidenceText → EvidenceText → Prop := edgeEnds.Joins edges

theorem linked_concat {edges : List SyncEdge} {edge : SyncEdge} {x y : EvidenceText} :
    Linked (edges ++ [edge]) x y ↔ Linked edges x y ∨ x = edge.source ∧ y = edge.target :=
  EdgeEnds.joins_concat

def successors (edges : List SyncEdge) (current : EvidenceText) : List EvidenceText :=
  (edgeEnds.outgoing edges current).map edgeEnds.target

theorem mem_successors {edges : List SyncEdge} {current u : EvidenceText} :
    u ∈ successors edges current ↔ Linked edges current u := EdgeEnds.mem_map_outgoing

/-- The loop over the edges pushes the successors of the current text, unless one is the target. -/
theorem scanEdges_eq (current target : EvidenceText) (limit : ℕ) (edges : List SyncEdge)
    (pending : List EvidenceText) (h : pending.length + (edgeEnds.outgoing edges current).length ≤ limit) :
    scanEdges current target limit edges pending =
      if target ∈ successors edges current then none
      else some ((successors edges current).reverse ++ pending) := by
  induction edges generalizing pending with
  | nil => rfl
  | cons edge edges ih =>
    by_cases hsource : edge.source = current
    · have houtgoing : edgeEnds.outgoing (edge :: edges) current = edge :: edgeEnds.outgoing edges current :=
        List.filter_cons_of_pos (decide_eq_true hsource)
      have hsuccessors : successors (edge :: edges) current = edge.target :: successors edges current := by
        rw [successors, houtgoing]
        rfl
      rw [houtgoing, List.length_cons] at h
      have hroom : pending.length < limit := by omega
      rw [scanEdges, if_neg (not_not_intro hsource), hsuccessors]
      by_cases htarget : edge.target = target
      · simp [htarget]
      · have hfits : (edge.target :: pending).length + (edgeEnds.outgoing edges current).length ≤ limit := by
          rw [List.length_cons]
          omega
        rw [if_neg htarget, if_pos hroom, ih _ hfits]
        simp [Ne.symm htarget]
    · have houtgoing : edgeEnds.outgoing (edge :: edges) current = edgeEnds.outgoing edges current :=
        List.filter_cons_of_neg (fun h => hsource (of_decide_eq_true h))
      have hsuccessors : successors (edge :: edges) current = successors edges current := by
        rw [successors, houtgoing]
        rfl
      rw [houtgoing] at h
      rw [scanEdges, if_pos hsource, ih _ h, hsuccessors]

/-- The loop over the pending texts decides whether the target is reached. -/
theorem reachLoop_spec {edges : List SyncEdge} {start target : EvidenceText} (hne : start ≠ target) (fuel : ℕ)
    {pending visited : List EvidenceText}
    (hfrontier : Frontier (Linked edges) start target pending visited)
    (hfuel : pending.length + (edgeEnds.unexplored edges visited).length ≤ fuel)
    (hedges : fuel ≤ edges.length + 1) :
    ∃ reached, reachLoop edges target fuel pending visited = some reached ∧
      (reached = true ↔ ReflTransGen (Linked edges) start target) := by
  induction fuel generalizing pending visited with
  | zero =>
    cases pending with
    | nil => exact ⟨false, rfl, by simpa using hfrontier.exhausted hne⟩
    | cons current pending => exact absurd hfuel (by simp)
  | succ fuel ih =>
    cases pending with
    | nil => exact ⟨false, rfl, by simpa using hfrontier.exhausted hne⟩
    | cons current pending =>
      rw [List.length_cons] at hfuel
      by_cases hvisited : current ∈ visited
      · have hrest := ih (hfrontier.skip hvisited) (by omega) (by omega)
        rwa [reachLoop, if_pos hvisited]
      · have hmeasure : (edgeEnds.unexplored edges (visited ++ [current])).length +
            (edgeEnds.outgoing edges current).length = (edgeEnds.unexplored edges visited).length :=
          EdgeEnds.length_unexplored_visit hvisited
        rw [reachLoop, if_neg hvisited, scanEdges_eq _ _ _ _ _ (by omega)]
        by_cases hgoal : target ∈ successors edges current
        · rw [if_pos hgoal]
          exact ⟨true, rfl, by simpa using hfrontier.found (mem_successors.mp hgoal)⟩
        · rw [if_neg hgoal]
          have hsuccessors : ∀ u, u ∈ (successors edges current).reverse ↔ Linked edges current u :=
            fun u => List.mem_reverse.trans mem_successors
          apply ih (hfrontier.visit hsuccessors (by simpa using hgoal))
          · rw [List.length_append, List.length_reverse, successors, List.length_map]
            omega
          · omega

theorem exists_reachLoop (edges : List SyncEdge) {start target : EvidenceText} (hne : start ≠ target) :
    ∃ reached, reachLoop edges target (edges.length + 1) [start] [] = some reached ∧
      (reached = true ↔ ReflTransGen (Linked edges) start target) := by
  have hlength : (edgeEnds.unexplored edges []).length ≤ edges.length := List.length_filter_le _ _
  apply reachLoop_spec hne (edges.length + 1) frontier_start _ le_rfl
  rw [List.length_singleton]
  omega

/-- What `sync_reaches` returns when its requests are granted. -/
def reaches (edges : List SyncEdge) (start target : EvidenceText) : Bool :=
  start = target ∨ reachLoop edges target (edges.length + 1) [start] [] = some true

theorem reaches_iff {edges : List SyncEdge} {start target : EvidenceText} :
    reaches edges start target = true ↔ ReflTransGen (Linked edges) start target := by
  unfold reaches
  by_cases heq : start = target
  · subst heq
    simp [ReflTransGen.refl]
  · obtain ⟨reached, hloop, hreached⟩ := exists_reachLoop edges heq
    simp [heq, hloop, hreached]

theorem run_syncReaches (edges : List SyncEdge) (start target : EvidenceText) (s : SyncState) :
    syncReaches edges start target ⟨s, []⟩ = (.ok (reaches edges start target), ⟨s, []⟩) := by
  unfold syncReaches reaches
  rw [run_bind_of_ok (run_allocateAll_nil 2 s)]
  by_cases heq : start = target
  · simp [heq]
  · obtain ⟨reached, hloop, -⟩ := exists_reachLoop edges heq
    simp [heq, hloop]

end ToolEvent.ModelAnalysis
