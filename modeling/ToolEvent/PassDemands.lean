import ToolEvent.Library.Demands
import ToolEvent.ResourceReports

/-!
# What the passes demand

The passes ask for arrays of their own, and add findings and lines of the trace tree to storage that is
doubled when it is full. Which of their requests are granted is read off the room that is left and the
outcomes to come, for a list of demands that depends on the nodes.
-/

namespace ToolEvent.ModelAnalysis

open Fallible World RunModel

/-- The findings and the length of the trace tree, with the capacities of their storage. -/
structure Room where
  findings : List Finding := []
  findingCapacity : ℕ := 0
  treeLength : ℕ := 0
  treeCapacity : ℕ := 0

def Analysis.room (analysis : Analysis) : Room :=
  ⟨analysis.findings, analysis.findingCapacity, analysis.traceTree.length, analysis.traceTreeCapacity⟩

structure Supply where
  room : Room
  outcomes : List Bool

/-- A call of `sync_reaches`: what it finds when its two requests are granted, what it finds when they are
not, and what is reported if it finds something. -/
structure Search where
  found : Bool
  same : Bool
  report : SyncReport

inductive Demand
  | arrays (count : ℕ)
  | finding (finding : Finding)
  | report (report : SyncReport)
  | search (searches : List Search)
  | line (length : ℕ)

namespace Supply

/-- As many requests, none of which may be refused. -/
def grant (count : ℕ) (supply : Supply) : Option Supply :=
  if false ∈ supply.outcomes.take count then none else some ⟨supply.room, supply.outcomes.drop count⟩

def hold (finding : Finding) (supply : Supply) : Option Supply :=
  let room := { supply.room with findings := supply.room.findings ++ [finding] }
  let capacity :=
    if supply.room.findingCapacity = 0 then initialFindingCapacity else supply.room.findingCapacity * 2
  if supply.room.findings.length < supply.room.findingCapacity then some ⟨room, supply.outcomes⟩
  else if sizeMax / findingSize < capacity then none
  else grant 1 ⟨{ room with findingCapacity := capacity }, supply.outcomes⟩

def insert (report : SyncReport) (supply : Supply) : Option Supply :=
  if supply.room.findings.any (fun finding => report.Matches finding) then some supply
  else hold report.finding supply

/-- The searches up to the first that finds something. A refused request only keeps a search from finding more
than that it ends where it starts. -/
def search : List Search → Supply → Option Supply
  | [], supply => some supply
  | s :: searches, supply =>
    let rest : Supply := ⟨supply.room, supply.outcomes.drop 2⟩
    if (if false ∈ supply.outcomes.take 2 then s.same else s.found) then insert s.report rest else search searches rest

def write (length : ℕ) (supply : Supply) : Option Supply :=
  let room := { supply.room with treeLength := supply.room.treeLength + length }
  let required := supply.room.treeLength + length + 1
  let capacity := growTrace required 64
    (if supply.room.treeCapacity = 0 then traceInitialCapacity else supply.room.treeCapacity)
  if sizeMax < required then none
  else if required ≤ supply.room.treeCapacity then some ⟨room, supply.outcomes⟩
  else if capacity < required then none
  else grant 1 ⟨{ room with treeCapacity := capacity }, supply.outcomes⟩

def meet (supply : Supply) : Demand → Option Supply
  | .arrays count => supply.grant count
  | .finding finding => supply.hold finding
  | .report report => supply.insert report
  | .search searches => supply.search searches
  | .line length => supply.write length

end Supply

def supplyOf (w : World Analysis) : Supply := ⟨w.state.room, w.outcomes⟩

/-- The supply of a pass with local variables. -/
def passSupply {τ : Type} (w : World (Analysis × τ)) : Supply := ⟨w.state.1.room, w.outcomes⟩

variable {σ τ α : Type} {c : Prop} {ds : List Demand}

theorem demands_singleton {x : Routine σ α} {view : World σ → Supply} {w : World σ} {d : Demand}
    (h : Ends x w (fun _ w' => c ∧ (view w).meet d = some (view w')) fun _ => c → (view w).meet d = none) :
    Demands Supply.meet view x w c [d] := by
  refine Ends.imp h (fun _ w' hw' => ⟨hw'.1, ?_⟩) fun _ hw' hc => ?_
  · rw [List.foldlM_cons, hw'.2]
    rfl
  · rw [List.foldlM_cons, hw' hc]
    rfl

theorem demands_arrays (room : σ → Room) (count : ℕ) {e : Raised} {x : Routine σ α} {w : World σ}
    (h : Demands Supply.meet (fun w => ⟨room w.state, w.outcomes⟩) x ⟨w.state, w.outcomes.drop count⟩ c ds) :
    Demands Supply.meet (fun w => ⟨room w.state, w.outcomes⟩)
      (allocateAll count >>= fun granted => if granted then x else fail e) w c (.arrays count :: ds) := by
  refine ends_bind_of_ok (run_allocateAll count w.state w.outcomes) ?_
  have hmeet : (Demand.arrays count :: ds).foldlM Supply.meet (⟨room w.state, w.outcomes⟩ : Supply) =
      (Supply.grant count ⟨room w.state, w.outcomes⟩).bind fun s => ds.foldlM Supply.meet s := rfl
  rw [hmeet, Supply.grant]
  by_cases hrefused : false ∈ w.outcomes.take count
  · rw [if_neg (by simpa using hrefused), if_pos hrefused]
    exact ends_fail fun _ => rfl
  · rw [if_pos (decide_eq_true hrefused), if_neg hrefused]
    exact h

theorem grant_of_granted {count : ℕ} {room : Room} {outcomes : List Bool} (h : false ∉ outcomes.take count) :
    Supply.grant count ⟨room, outcomes⟩ = some ⟨room, outcomes.drop count⟩ := if_neg h

theorem grant_of_refused {count : ℕ} {room : Room} {outcomes : List Bool} (h : false ∈ outcomes.take count) :
    Supply.grant count ⟨room, outcomes⟩ = none := if_pos h

theorem ends_grow {e : Raised} {f : σ → σ} {w : World σ} :
    Ends (allocate >>= fun grown => if grown then updateState f else fail e) w
      (fun _ w' => w' = ⟨f w.state, w.outcomes.drop 1⟩ ∧ false ∉ w.outcomes.take 1)
      fun _ => false ∈ w.outcomes.take 1 := by
  obtain ⟨s, _ | ⟨_ | _, outcomes⟩⟩ := w
  · exact ⟨rfl, List.not_mem_nil⟩
  · exact List.mem_cons_self
  · exact ⟨rfl, by simp⟩

theorem demands_addFinding (identifier : Text) (policy : Policy) (message : Text) (node : Option Node)
    (source target detail : Option Text) (w : World Analysis) :
    Demands Supply.meet supplyOf (addFinding identifier policy message node source target detail) w
      (newFinding identifier policy message node source target detail).Fits
      [.finding (newFinding identifier policy message node source target detail)] := by
  have hfits := fits_newFinding identifier policy message node source target detail
  rw [addFinding]
  generalize newFinding identifier policy message node source target detail = finding at hfits ⊢
  refine demands_singleton ?_
  -- The storage is reserved before the texts are looked at.
  refine Ends.bind (R := fun _ w' => Supply.hold finding (supplyOf w) =
    some ⟨{ w'.state.room with findings := w'.state.findings ++ [finding] }, w'.outcomes⟩) ?_ fun _ w' hheld => ?_
  · refine ends_readState_bind (Ends.ite (fun hroom => ends_pure (if_pos hroom)) fun hfull =>
      Ends.ite (fun hsize => ends_fail fun _ => ?_) fun hsize => ?_)
    · exact (if_neg hfull).trans (if_pos hsize)
    · have hheld : Supply.hold finding (supplyOf w) = _ := (if_neg hfull).trans (if_neg hsize)
      refine ends_grow.imp (fun _ w' hw' => ?_) fun _ hrefused _ => hheld.trans (grant_of_refused hrefused)
      obtain ⟨rfl, hgranted⟩ := hw'
      exact hheld.trans (grant_of_granted hgranted)
  · refine Ends.ite (fun hfit => ends_updateState ⟨hfits.mp hfit, hheld⟩) fun hunfit =>
      ends_fail fun hc => absurd (hfits.mpr hc) hunfit

theorem demands_appendTrace (text : Text) (w : World Analysis) :
    Demands Supply.meet supplyOf (appendTrace text) w True [.line text.length] := by
  refine demands_singleton ?_
  refine ends_readState_bind (Ends.ite (fun hlarge => ends_fail fun _ => if_pos hlarge) fun hsmall => ?_)
  refine Ends.bind (R := fun _ w' => Supply.write text.length (supplyOf w) =
    some ⟨{ w'.state.room with treeLength := w'.state.traceTree.length + text.length }, w'.outcomes⟩) ?_
      fun _ w' hwritten => ends_updateState ⟨trivial, ?_⟩
  · refine Ends.ite (fun hfull => Ends.ite (fun hshort => ends_fail fun _ => ?_) fun hlong => ?_) fun hroom => ends_pure ?_
    · exact (if_neg hsmall).trans ((if_neg (Nat.not_le.mpr hfull)).trans (if_pos hshort))
    · have hwritten : Supply.write text.length (supplyOf w) = _ :=
        (if_neg hsmall).trans ((if_neg (Nat.not_le.mpr hfull)).trans (if_neg hlong))
      refine ends_grow.imp (fun _ w' hw' => ?_) fun _ hrefused _ => hwritten.trans (grant_of_refused hrefused)
      obtain ⟨rfl, hgranted⟩ := hw'
      exact hwritten.trans (grant_of_granted hgranted)
    · exact (if_neg hsmall).trans (if_pos (Nat.le_of_not_lt hroom))
  · rw [Supply.meet, hwritten]
    simp only [supplyOf, Analysis.room, Text.length_append]

/-- A routine on the object alone, in a pass with local variables. -/
theorem demands_onFirst {x : Routine Analysis α} {w : World (Analysis × τ)}
    (h : Demands Supply.meet supplyOf x ⟨w.state.1, w.outcomes⟩ c ds) :
    Demands Supply.meet passSupply (World.onFirst x) w c ds := by
  refine ends_of (fun a w' hrun => ?_) fun e w' hrun => ?_
  · obtain ⟨hok, rfl⟩ := Prod.mk.inj hrun
    exact Ends.ok h (Prod.ext hok rfl)
  · obtain ⟨herror, rfl⟩ := Prod.mk.inj hrun
    exact Ends.error h (Prod.ext herror rfl)

theorem demands_withLocals {x : Routine (Analysis × τ) α} {locals : τ} {w : World Analysis}
    (h : Demands Supply.meet passSupply x ⟨(w.state, locals), w.outcomes⟩ c ds) :
    Demands Supply.meet supplyOf (World.withLocals locals x) w c ds := by
  refine ends_of (fun a w' hrun => ?_) fun e w' hrun => ?_
  · obtain ⟨v, hbody, rfl⟩ := withLocals_eq_ok.mp hrun
    exact Ends.ok h hbody
  · obtain ⟨herror, rfl⟩ := Prod.mk.inj hrun
    exact Ends.error h (Prod.ext herror rfl)

end ToolEvent.ModelAnalysis
