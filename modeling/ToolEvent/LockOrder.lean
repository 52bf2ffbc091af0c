import ToolEvent.SynchronizationItems
import ToolEvent.SynchronizationReports

/-!
# Cycles of the lock order

Whenever a thread acquires a lock, the pass adds an edge from every other lock the thread
holds, after it has tested whether the edge closes a cycle. So it reports a cycle exactly
when the graph of the whole sequence has one.
-/

namespace ToolEvent.ModelAnalysis

open Fallible World Reachability Relation RunModel

/-- There is an edge from one lock to another when some thread acquires the second while it
still holds the first. -/
def LockOrder (nodes : List Node) (held acquired : EvidenceText) : Prop :=
  ∃ n thread, lockEffects.opensAt nodes n = some (thread, acquired) ∧ held ≠ acquired ∧
    Holds (nodes.take n) thread held

theorem lockOrder_concat {nodes : List Node} {node : Node} {x y : EvidenceText} :
    LockOrder (nodes ++ [node]) x y ↔
      LockOrder nodes x y ∨ ∃ thread, lockEffects.opens node = some (thread, y) ∧ x ≠ y ∧ Holds nodes thread x := by
  constructor
  · rintro ⟨n, thread, hopens, hne, hholds⟩
    have hlt := Lifetimes.Effects.opensAt_lt hopens
    rw [List.length_append, List.length_singleton] at hlt
    rcases Nat.lt_or_eq_of_le (Nat.le_of_lt_succ hlt) with hlt | rfl
    · rw [List.take_append_of_le_length (Nat.le_of_lt hlt)] at hholds
      rw [Lifetimes.Effects.opensAt, List.getElem?_append_left hlt] at hopens
      exact .inl ⟨n, thread, hopens, hne, hholds⟩
    · rw [List.take_left] at hholds
      refine .inr ⟨thread, ?_, hne, hholds⟩
      simpa [Lifetimes.Effects.opensAt] using hopens
  · rintro (⟨n, thread, hopens, hne, hholds⟩ | ⟨thread, hopens, hne, hholds⟩)
    · have hlt := Lifetimes.Effects.opensAt_lt hopens
      refine ⟨n, thread, ?_, hne, ?_⟩
      · rw [Lifetimes.Effects.opensAt, List.getElem?_append_left hlt]
        exact hopens
      · rwa [List.take_append_of_le_length (Nat.le_of_lt hlt)]
    · refine ⟨nodes.length, thread, ?_, hne, ?_⟩
      · simpa [Lifetimes.Effects.opensAt] using hopens
      · rwa [List.take_left]

/-- The item is one of another lock that the thread holds. -/
def IsOrdered (thread resource : EvidenceText) (item : SyncItem) : Prop :=
  item.active = true ∧ item.thread = thread ∧ item.resource ≠ resource

instance (thread resource : EvidenceText) (item : SyncItem) : Decidable (IsOrdered thread resource item) :=
  inferInstanceAs (Decidable (_ ∧ _ ∧ _))

theorem lockEdges_orderEffect (thread resource : EvidenceText) (item : SyncItem) (l : SyncLocals) :
    (orderEffect thread resource item l).lockEdges =
      if IsOrdered thread resource item then l.lockEdges ++ [⟨item.resource, resource⟩] else l.lockEdges := by
  by_cases hordered : IsOrdered thread resource item
  · have heffect : orderEffect thread resource item l = l.pushLockEdge ⟨item.resource, resource⟩ := if_pos hordered
    rw [heffect, if_pos hordered]
    rfl
  · have heffect : orderEffect thread resource item l = l := if_neg hordered
    rw [heffect, if_neg hordered]

theorem linked_orderEffects {thread resource : EvidenceText} (items : List SyncItem) (l : SyncLocals)
    {x y : EvidenceText} :
    Linked (items.foldl (fun l item => orderEffect thread resource item l) l).lockEdges x y ↔
      Linked l.lockEdges x y ∨ y = resource ∧ ∃ item ∈ items, IsOrdered thread resource item ∧ item.resource = x := by
  induction items generalizing l with
  | nil => simp
  | cons item items ih =>
    rw [List.foldl_cons, ih, lockEdges_orderEffect]
    split
    · next hordered =>
      rw [linked_concat]
      simp only [List.exists_mem_cons_iff, hordered, true_and]
      grind
    · next hordered => simp only [List.exists_mem_cons_iff, hordered, false_and, false_or]

theorem opens_eq_some_iff {node : Node} {name : ItemName} :
    lockEffects.opens node = some name ↔
      isLockRecord node = true ∧ node.resourceKind = .acquire ∧ (heldItem node).name = name := by
  unfold lockEffects itemEffects
  dsimp only
  split
  · next h => simp [h]
  · next h =>
    rw [not_and] at h
    simpa using fun hlock hkind => absurd hkind (h hlock)

theorem lockEdges_pushHeld (item : SyncItem) (l : SyncLocals) : (l.pushHeld item).lockEdges = l.lockEdges := rfl

theorem lockEdges_endHeld (thread resource : EvidenceText) (l : SyncLocals) :
    (l.endHeld thread resource).lockEdges = l.lockEdges := by
  unfold SyncLocals.endHeld
  split <;> rfl

theorem lockEdges_endWait (thread resource : EvidenceText) (l : SyncLocals) :
    (l.endWait thread resource).lockEdges = l.lockEdges := by
  unfold SyncLocals.endWait
  split <;> rfl

/-- Only the acquisition of a lock adds edges. -/
theorem lockEdges_of_not_opens {node : Node} (h : lockEffects.opens node = none) (l : SyncLocals) :
    (nodeEffect node l).lockEdges = l.lockEdges := by
  cases hlock : isLockRecord node with
  | true =>
    rw [nodeEffect_of_lock hlock]
    cases hkind : node.resourceKind with
    | acquire =>
      rw [opens_eq_some_iff.mpr ⟨hlock, hkind, rfl⟩] at h
      cases h
    | release => exact lockEdges_endHeld _ _ l
    | replace | transfer | use => rfl
  | false =>
    cases hwait : isWaitRecord node with
    | true =>
      rw [nodeEffect_of_wait hwait]
      cases node.resourceKind with
      | release => exact lockEdges_endWait _ _ l
      | acquire | replace | transfer | use => rfl
    | false =>
      rcases nodeEffect_of_other hlock hwait l with hsame | ⟨item, hpush⟩
      · rw [hsame]
      · rw [hpush]
        rfl

/-- The edges after the records are the lock order. -/
theorem linked_lockEdges_iff (nodes : List Node) {x y : EvidenceText} :
    Linked (passEffect nodes).lockEdges x y ↔ LockOrder nodes x y := by
  induction nodes using List.reverseRecOn generalizing x y with
  | nil => simp [passEffect, Linked, EdgeEnds.Joins, LockOrder, Lifetimes.Effects.opensAt]
  | append_singleton nodes node ih =>
    rw [passEffect_concat, lockOrder_concat, ← ih]
    cases hopens : lockEffects.opens node with
    | none => simp [lockEdges_of_not_opens hopens]
    | some name =>
      obtain ⟨hlock, hkind, rfl⟩ := opens_eq_some_iff.mp hopens
      rw [nodeEffect_of_lock hlock, hkind]
      dsimp only
      rw [acquireEffect, lockEdges_pushHeld, linked_orderEffects]
      apply or_congr_right
      simp only [IsOrdered, ← exists_held_iff, Option.some.injEq]
      constructor
      · rintro ⟨rfl, held, hheld, ⟨hactive, hthread, hne⟩, rfl⟩
        exact ⟨_, rfl, hne, held, hheld, hactive, hthread, rfl⟩
      · rintro ⟨thread, hname, hne, held, hheld, hactive, rfl, rfl⟩
        obtain ⟨hthread, rfl⟩ := Prod.mk.inj hname
        exact ⟨rfl, held, hheld, ⟨hactive, hthread.symm, hne⟩, rfl⟩

def IsLockOrderReport (report : SyncReport) : Prop :=
  Text.ofString report.identifier = .ofString "P101-SYNC-001"

/-- An edge is reported exactly when it closes a cycle. -/
theorem cyclic_orderEffect_iff (node : Node) (thread resource : EvidenceText) (item : SyncItem) (l : SyncLocals) :
    Cyclic (Linked (orderEffect thread resource item l).lockEdges) ↔
      Cyclic (Linked l.lockEdges) ∨ ∃ report ∈ orderReports node thread resource item l, IsLockOrderReport report := by
  rw [lockEdges_orderEffect]
  by_cases hordered : IsOrdered thread resource item
  · have hreports : orderReports node thread resource item l =
        if reaches l.lockEdges resource item.resource then [⟨"P101-SYNC-001", node, item.resource, resource⟩]
        else [] := if_pos hordered
    rw [if_pos hordered, cyclic_insert_iff fun x y => linked_concat, ← reaches_iff, hreports]
    apply or_congr_right
    split
    · next hreaches => simp [hreaches, IsLockOrderReport]
    · next hreaches => simp [hreaches]
  · have hreports : orderReports node thread resource item l = [] := if_neg hordered
    rw [if_neg hordered, hreports]
    simp

theorem not_isLockOrderReport {identifiers : List String} {reports : List SyncReport} (h : AllAre identifiers reports)
    (hother : ∀ identifier ∈ identifiers, Text.ofString identifier ≠ .ofString "P101-SYNC-001") :
    ¬ ∃ report ∈ reports, IsLockOrderReport report := by
  rintro ⟨report, hreport, horder⟩
  exact hother report.identifier (h report hreport) horder

/-- A record makes a report about the lock order exactly when it closes a cycle. -/
theorem cyclic_nodeEffect_iff (node : Node) (l : SyncLocals) :
    Cyclic (Linked (nodeEffect node l).lockEdges) ↔
      Cyclic (Linked l.lockEdges) ∨ ∃ report ∈ nodeReports node l, IsLockOrderReport report := by
  cases hopens : lockEffects.opens node with
  | none =>
    rw [lockEdges_of_not_opens hopens]
    refine (or_iff_left ?_).symm
    rcases nodeReports_cases node l with ⟨hlock, hkind⟩ | hothers
    · rw [opens_eq_some_iff.mpr ⟨hlock, hkind, rfl⟩] at hopens
      cases hopens
    · exact not_isLockOrderReport hothers (by decide)
  | some name =>
    obtain ⟨hlock, hkind, -⟩ := opens_eq_some_iff.mp hopens
    rw [nodeEffect_of_lock hlock, nodeReports_of_acquire hlock hkind, hkind]
    exact exists_mem_reportsInOrder (C := fun l => Cyclic (Linked l.lockEdges)) (P := IsLockOrderReport)
      (cyclic_orderEffect_iff node _ _) l.held l

/-- The pass makes a report about the lock order exactly when the lock order has a cycle. -/
theorem lockOrderReport_iff (nodes : List Node) :
    (∃ report ∈ synchronizationReports nodes, IsLockOrderReport report) ↔ Cyclic (LockOrder nodes) := by
  have hgraph : Linked (passEffect nodes).lockEdges = LockOrder nodes := by
    funext x y
    exact propext (linked_lockEdges_iff nodes)
  have hinitial : ¬ Cyclic (Linked ([] : List SyncEdge)) := by
    rintro ⟨v, hv⟩
    obtain ⟨u, ⟨edge, hedge, -⟩, -⟩ := onCycle_iff.mp hv
    exact absurd hedge List.not_mem_nil
  have hpass := exists_mem_reportsInOrder (C := fun l => Cyclic (Linked l.lockEdges)) (P := IsLockOrderReport)
    cyclic_nodeEffect_iff nodes {}
  have hend : ¬ ∃ report ∈ (finalArrays nodes).waits.flatMap (fun wait => waitReports wait (finalArrays nodes)),
      IsLockOrderReport report :=
    not_isLockOrderReport (allAre_flatMap fun wait _ => allAre_waitReports wait _) (by decide)
  rw [← hgraph]
  refine Iff.trans ?_ ((or_iff_right hinitial).symm.trans hpass.symm)
  simp only [synchronizationReports, List.mem_append, or_and_right, exists_or, or_iff_left hend]
  rfl

def HasLockOrderFinding (findings : List Finding) : Prop :=
  ∃ finding ∈ findings, finding.diagnosticId = .ofString "P101-SYNC-001"

theorem hasLockOrderFinding_insertAll {findings : List Finding} {reports : List SyncReport} :
    HasLockOrderFinding (SyncReport.insertAll findings reports) ↔
      HasLockOrderFinding findings ∨ ∃ report ∈ reports, IsLockOrderReport report :=
  SyncReport.exists_mem_insertAll (P := fun identifier _ _ => identifier = .ofString "P101-SYNC-001")

/-- Granted its requests, the pass leaves a finding about the lock order exactly when there was one
or the lock order has a cycle. It fails only when the findings outgrow `SIZE_MAX` bytes, and even
then every such finding is about a cycle. -/
theorem lockOrderFinding_iff_cyclic (analysis : Analysis) :
    Ends analyzeSynchronization ⟨analysis, []⟩
      (fun _ w => HasLockOrderFinding w.state.findings ↔
        HasLockOrderFinding analysis.findings ∨ Cyclic (LockOrder analysis.orderedNodes))
      (fun w => w.state.Exhausted ∧ (HasLockOrderFinding w.state.findings →
        HasLockOrderFinding analysis.findings ∨ Cyclic (LockOrder analysis.orderedNodes))) := by
  refine (inserts_analyzeSynchronization analysis).imp (fun _ w hfindings => ?_) fun w hfailed => ?_
  · rw [hfindings, hasLockOrderFinding_insertAll, lockOrderReport_iff]
  · obtain ⟨hexhausted, first, hprefix, hfindings⟩ := hfailed
    refine ⟨hexhausted, fun hfinding => ?_⟩
    rw [hfindings, hasLockOrderFinding_insertAll] at hfinding
    apply hfinding.imp_right
    rintro ⟨report, hreport, horder⟩
    exact (lockOrderReport_iff _).mp ⟨report, hprefix.subset hreport, horder⟩

end ToolEvent.ModelAnalysis
