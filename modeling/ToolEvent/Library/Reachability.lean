import Mathlib.Data.List.Basic
import Mathlib.Logic.Relation

/-!
# Searching a graph given by a list of edges

A search keeps vertices still to be visited and vertices visited. What it knows is an
invariant with one rule for each thing it does, so that a loop over the pending vertices
decides whether there is a path. Cycles are found as edges are added: an edge closes one
exactly when its source is reached from its target.
-/

namespace Reachability

open Relation

variable {V E : Type*}

def OnCycle (r : V → V → Prop) (v : V) : Prop := TransGen r v v

def Cyclic (r : V → V → Prop) : Prop := ∃ v, OnCycle r v

theorem onCycle_iff {r : V → V → Prop} {v : V} : OnCycle r v ↔ ∃ u, r v u ∧ ReflTransGen r u v :=
  TransGen.head'_iff

def EdgeOnCycle (r : V → V → Prop) (x y : V) : Prop := r x y ∧ ReflTransGen r y x

variable {r r' : V → V → Prop} {source target : V}

/-- A path with one more edge either avoids it or goes through its ends. -/
theorem transGen_or_of_insert (hinsert : ∀ x y, r' x y → r x y ∨ x = source ∧ y = target) {x y : V}
    (h : TransGen r' x y) : TransGen r x y ∨ ReflTransGen r x source ∧ ReflTransGen r target y := by
  induction h with
  | single hstep =>
    rcases hinsert _ _ hstep with hold | ⟨rfl, rfl⟩
    · exact .inl (.single hold)
    · exact .inr ⟨.refl, .refl⟩
  | tail _ hstep ih =>
    rcases hinsert _ _ hstep with hold | ⟨rfl, rfl⟩
    · exact ih.imp (fun hpath => hpath.tail hold) (fun hpath => ⟨hpath.1, hpath.2.tail hold⟩)
    · rcases ih with hpath | hpath
      · exact .inr ⟨hpath.to_reflTransGen, .refl⟩
      · exact .inr ⟨hpath.1, .refl⟩

/-- An edge closes a cycle when its source is reached from its target. -/
theorem cyclic_insert_iff (hinsert : ∀ x y, r' x y ↔ r x y ∨ x = source ∧ y = target) :
    Cyclic r' ↔ Cyclic r ∨ ReflTransGen r target source := by
  have hmono : ∀ x y, r x y → r' x y := fun x y hxy => (hinsert x y).mpr (.inl hxy)
  constructor
  · rintro ⟨v, hv⟩
    rcases transGen_or_of_insert (fun x y => (hinsert x y).mp) hv with hcycle | ⟨hsource, htarget⟩
    · exact .inl ⟨v, hcycle⟩
    · exact .inr (htarget.trans hsource)
  · rintro (⟨v, hv⟩ | hpath)
    · exact ⟨v, TransGen.mono hmono _ _ hv⟩
    · have hedge : r' source target := (hinsert source target).mpr (.inr ⟨rfl, rfl⟩)
      exact ⟨source, TransGen.head' hedge (ReflTransGen.mono hmono _ _ hpath)⟩

/-- Edges into the vertex where a path starts reach nothing else. -/
theorem reflTransGen_insert_into_start {start : V} (hinsert : ∀ x y, r' x y ↔ r x y ∨ x = source ∧ y = start) {y : V} :
    ReflTransGen r' start y ↔ ReflTransGen r start y := by
  constructor
  · intro hpath
    induction hpath with
    | refl => exact .refl
    | tail _ hstep ih =>
      rcases (hinsert _ _).mp hstep with hold | ⟨-, rfl⟩
      · exact ih.tail hold
      · exact .refl
  · exact ReflTransGen.mono (fun x y hxy => (hinsert x y).mpr (.inl hxy)) _ _

variable {start goal : V} {pending visited : List V}

/-- What a search from `start` knows while it has not found `goal`. -/
structure Frontier (r : V → V → Prop) (start goal : V) (pending visited : List V) : Prop where
  reached : ∀ v ∈ pending, ReflTransGen r start v
  started : start ∈ visited ∨ start ∈ pending
  closed : ∀ v ∈ visited, ∀ u, r v u → u ≠ goal ∧ (u ∈ visited ∨ u ∈ pending)

theorem frontier_start : Frontier r start goal [start] [] := by
  refine ⟨fun v hv => ?_, .inr List.mem_cons_self, nofun⟩
  rw [List.mem_singleton.mp hv]

theorem Frontier.skip {current : V} (h : Frontier r start goal (current :: pending) visited)
    (hvisited : current ∈ visited) : Frontier r start goal pending visited := by
  have hmoved : ∀ {u}, u ∈ visited ∨ u ∈ current :: pending → u ∈ visited ∨ u ∈ pending := by
    rintro u (hu | hu)
    · exact .inl hu
    · rcases List.mem_cons.mp hu with rfl | hu
      · exact .inl hvisited
      · exact .inr hu
  exact ⟨fun v hv => h.reached v (List.mem_cons_of_mem _ hv), hmoved h.started,
    fun v hv u huv => (h.closed v hv u huv).imp_right hmoved⟩

/-- A vertex is visited, and its successors, none of them the goal, are pending. -/
theorem Frontier.visit {current : V} {successors : List V}
    (h : Frontier r start goal (current :: pending) visited)
    (hsuccessors : ∀ u, u ∈ successors ↔ r current u) (hgoal : goal ∉ successors) :
    Frontier r start goal (successors ++ pending) (visited ++ [current]) := by
  have hmoved : ∀ {u}, u ∈ visited ∨ u ∈ current :: pending →
      u ∈ visited ++ [current] ∨ u ∈ successors ++ pending := by
    rintro u (hu | hu)
    · exact .inl (List.mem_append_left _ hu)
    · rcases List.mem_cons.mp hu with rfl | hu
      · exact .inl (by simp)
      · exact .inr (List.mem_append_right _ hu)
  refine ⟨fun v hv => ?_, hmoved h.started, fun v hv u huv => ?_⟩
  · rcases List.mem_append.mp hv with hv | hv
    · exact (h.reached current List.mem_cons_self).tail ((hsuccessors v).mp hv)
    · exact h.reached v (List.mem_cons_of_mem _ hv)
  · rcases List.mem_append.mp hv with hv | hv
    · exact (h.closed v hv u huv).imp_right hmoved
    · obtain rfl := List.mem_singleton.mp hv
      have hu := (hsuccessors u).mpr huv
      exact ⟨fun heq => hgoal (heq ▸ hu), .inr (List.mem_append_left _ hu)⟩

/-- The goal is a successor of a pending vertex. -/
theorem Frontier.found {current : V} (h : Frontier r start goal (current :: pending) visited)
    (hgoal : r current goal) : ReflTransGen r start goal :=
  (h.reached current List.mem_cons_self).tail hgoal

/-- Nothing is pending, so the goal is not reached. -/
theorem Frontier.exhausted (h : Frontier r start goal [] visited) (hne : start ≠ goal) :
    ¬ ReflTransGen r start goal := by
  have hall : ∀ v, ReflTransGen r start v → v ∈ visited := by
    intro v hv
    induction hv with
    | refl => exact h.started.resolve_right (List.not_mem_nil)
    | tail _ hstep ih => exact (h.closed _ ih _ hstep).2.resolve_right (List.not_mem_nil)
  intro hpath
  rcases hpath.cases_tail with heq | ⟨v, hv, hstep⟩
  · exact hne heq.symm
  · exact (h.closed v (hall v hv) goal hstep).1 rfl

structure EdgeEnds (E V : Type*) where
  source : E → V
  target : E → V

/-- Some edge of the list goes from the first vertex to the second. -/
def EdgeEnds.Joins (ends : EdgeEnds E V) (edges : List E) (x y : V) : Prop :=
  ∃ edge ∈ edges, ends.source edge = x ∧ ends.target edge = y

namespace EdgeEnds

variable {ends : EdgeEnds E V} {edges : List E}

theorem joins_concat {edge : E} {x y : V} :
    ends.Joins (edges ++ [edge]) x y ↔
      ends.Joins edges x y ∨ x = ends.source edge ∧ y = ends.target edge := by
  unfold Joins
  constructor
  · rintro ⟨e, he, rfl, rfl⟩
    rcases List.mem_append.mp he with he | he
    · exact .inl ⟨e, he, rfl, rfl⟩
    · rw [List.mem_singleton.mp he]
      exact .inr ⟨rfl, rfl⟩
  · rintro (⟨e, he, rfl, rfl⟩ | ⟨rfl, rfl⟩)
    · exact ⟨e, List.mem_append_left _ he, rfl, rfl⟩
    · exact ⟨edge, by simp, rfl, rfl⟩

variable [DecidableEq V]

def outgoing (ends : EdgeEnds E V) (edges : List E) (x : V) : List E :=
  edges.filter (fun edge => ends.source edge = x)

def unexplored (ends : EdgeEnds E V) (edges : List E) (visited : List V) : List E :=
  edges.filter (fun edge => ends.source edge ∉ visited)

theorem mem_map_outgoing {x y : V} :
    y ∈ (ends.outgoing edges x).map ends.target ↔ ends.Joins edges x y := by
  simp [outgoing, Joins, and_assoc]

/-- A visit explores the edges from its vertex, so that a search ends. -/
theorem length_unexplored_visit {current : V} (h : current ∉ visited) :
    (ends.unexplored edges (visited ++ [current])).length + (ends.outgoing edges current).length =
      (ends.unexplored edges visited).length := by
  induction edges with
  | nil => rfl
  | cons edge edges ih =>
    simp only [unexplored, outgoing, List.filter_cons, List.mem_append, List.mem_singleton] at ih ⊢
    by_cases hsource : ends.source edge = current
    · rw [hsource]
      simp only [h, or_true, not_true_eq_false, decide_false, Bool.false_eq_true, if_false, decide_true,
        if_true, not_false_eq_true, List.length_cons]
      omega
    · by_cases hvisited : ends.source edge ∈ visited
      · simpa [hsource, hvisited] using ih
      · simp only [hsource, hvisited, or_self, not_false_eq_true, decide_true, if_true, decide_false,
          Bool.false_eq_true, if_false, List.length_cons]
        omega

end EdgeEnds

end Reachability
