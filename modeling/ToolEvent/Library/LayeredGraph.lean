import Mathlib.Logic.Relation
import Mathlib.Order.RelClasses

/-!
# Graphs in layers

The vertices of a graph lie in groups. An edge either stays in its group, where it follows a
strict order, or it leads from a group down to another one. Such a graph has a cycle exactly
if a group lies below itself, when every step down between groups is an edge from one vertex
to all vertices of the lower group.
-/

namespace LayeredGraph

open Relation

variable {V G : Type*} {group : V → G} {within edge : V → V → Prop} {down : G → G → Prop}

/-- An edge stays in its group, or it leads down. -/
def Layered (group : V → G) (within : V → V → Prop) (down : G → G → Prop) (edge : V → V → Prop) : Prop :=
  ∀ a b, edge a b → down (group a) (group b) ∨ group a = group b ∧ within a b

/-- A path that leaves its group ends in a lower one. -/
theorem Layered.transGen [IsTrans V within] (h : Layered group within down edge) {a b : V}
    (hpath : TransGen edge a b) : TransGen down (group a) (group b) ∨ group a = group b ∧ within a b := by
  induction hpath with
  | single hedge =>
    rcases h _ _ hedge with hdown | hwithin
    · exact .inl (.single hdown)
    · exact .inr hwithin
  | tail _ hedge ih =>
    rcases h _ _ hedge with hdown | ⟨hsame, hwithin⟩ <;> rcases ih with hbefore | ⟨hbefore, hwithin'⟩
    · exact .inl (hbefore.tail hdown)
    · rw [hbefore]
      exact .inl (.single hdown)
    · rw [← hsame]
      exact .inl hbefore
    · exact .inr ⟨hbefore.trans hsame, trans_of within hwithin' hwithin⟩

/-- Every step down is an edge from one vertex to all vertices of the lower group. -/
def Carried (vertex : V → Prop) (group : V → G) (down : G → G → Prop) (edge : V → V → Prop) : Prop :=
  ∀ g g', down g g' → ∃ a, vertex a ∧ group a = g ∧ ∀ b, vertex b → group b = g' → edge a b

theorem Carried.transGen {vertex : V → Prop} (h : Carried vertex group down edge) {g g' : G}
    (hpath : TransGen down g g') :
    ∃ a, vertex a ∧ group a = g ∧ ∀ b, vertex b → group b = g' → TransGen edge a b := by
  induction hpath using TransGen.head_induction_on with
  | single hdown =>
    obtain ⟨a, ha, hgroup, hedges⟩ := h _ _ hdown
    exact ⟨a, ha, hgroup, fun b hb hlower => .single (hedges b hb hlower)⟩
  | head hdown _ ih =>
    obtain ⟨a, ha, hgroup, hedges⟩ := h _ _ hdown
    obtain ⟨c, hc, hmiddle, hpaths⟩ := ih
    exact ⟨a, ha, hgroup, fun b hb hlower => .head (hedges c hc hmiddle) (hpaths b hb hlower)⟩

theorem acyclic_iff [IsStrictOrder V within] {vertex : V → Prop} (h : Layered group within down edge)
    (hcarried : Carried vertex group down edge) :
    (∀ a, ¬ TransGen edge a a) ↔ ∀ g, ¬ TransGen down g g := by
  constructor
  · intro hacyclic g hcycle
    obtain ⟨a, ha, hgroup, hpaths⟩ := hcarried.transGen hcycle
    exact hacyclic a (hpaths a ha hgroup)
  · intro hacyclic a hcycle
    rcases h.transGen hcycle with hdown | ⟨_, hwithin⟩
    · exact hacyclic _ hdown
    · exact irrefl_of within a hwithin

end LayeredGraph
