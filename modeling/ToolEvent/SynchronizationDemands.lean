import ToolEvent.PassDemands

/-!
# What the synchronization pass demands

The synchronization pass asks for its six arrays, for two arrays in every search of a graph, and for the
storage of its findings. A search that does not get its arrays finds only that it ends where it starts,
so that the demands for storage depend on which requests are granted.
-/

namespace ToolEvent.ModelAnalysis

open Fallible World LatestMatch RunModel

variable {α : Type} {w : World SyncState}

def DemandsFrom (α : Type) (x : Routine SyncState α) (w : World SyncState) (demands : List Demand) : Prop :=
  Demands Supply.meet passSupply x w True demands

/-- What a routine demands, as a function of the arrays it starts from. -/
abbrev Asks (x : Routine SyncState α) (demands : SyncLocals → List Demand) : Prop := Enters DemandsFrom x demands

/-- The texts of a report fit, so that only storage can be missing. -/
theorem asks_addSyncFinding (identifier : String) (node : Node) (source target : EvidenceText) :
    Asks (addSyncFinding identifier node source target) (fun _ => [.report ⟨identifier, node, source, target⟩]) := by
  intro w
  have hfits : (SyncReport.finding ⟨identifier, node, source, target⟩).Fits :=
    ⟨source.fits, target.fits, (by decide : Text.empty.length < evidenceTextSize)⟩
  refine demands_readState_bind ?_
  dsimp only
  split
  · next hrepeats => exact demands_singleton (ends_pure ⟨trivial, if_pos hrepeats⟩)
  · next hnew =>
    have hinsert : Supply.insert ⟨identifier, node, source, target⟩ (passSupply w) =
        Supply.hold (SyncReport.finding ⟨identifier, node, source, target⟩) (passSupply w) := if_neg hnew
    refine ((demands_onFirst (demands_addFinding _ _ _ _ _ _ _ _)).congr (iff_true_intro hfits).symm).of_eq ?_
    exact congrArg (fun s : Option Supply => s >>= fun s => [].foldlM Supply.meet s) hinsert

theorem asksRules : ReportRules .report DemandsFrom where
  pureAt := fun a _ => demands_pure a trivial
  updateAt := fun _ _ => demands_updateState rfl
  readAt := fun h => demands_readState_bind h
  bindAt := fun hx hf => (Demands.bind hx hf).congr (and_iff_left trivial).symm
  addAt := asks_addSyncFinding

theorem run_syncReaches_requests (edges : List SyncEdge) (start target : EvidenceText) (w : World SyncState) :
    syncReaches edges start target w =
      (.ok (if false ∈ w.outcomes.take 2 then decide (start = target) else reaches edges start target),
        ⟨w.state, w.outcomes.drop 2⟩) := by
  unfold syncReaches reaches
  rw [run_bind_of_ok (run_allocateAll 2 w.state w.outcomes)]
  by_cases hrefused : false ∈ w.outcomes.take 2
  · simp [hrefused]
  · by_cases heq : start = target
    · simp [heq]
    · obtain ⟨reached, hloop, -⟩ := exists_reachLoop edges heq
      simp [hrefused, heq, hloop]

/-- A search, what is done when it finds something, and what is done when it does not. -/
theorem demands_search {report : SyncReport} {f : Bool → Routine SyncState Unit} {searches : List Search}
    (edges : List SyncEdge) (start target : EvidenceText) (hfound : Asks (f true) (fun _ => [.report report]))
    (hrest : Demands Supply.meet passSupply (f false) ⟨w.state, w.outcomes.drop 2⟩ True [.search searches]) :
    Demands Supply.meet passSupply (syncReaches edges start target >>= f) w True
      [.search (⟨reaches edges start target, start = target, report⟩ :: searches)] := by
  have hmeet : Supply.search (⟨reaches edges start target, start = target, report⟩ :: searches) (passSupply w) =
      if (if false ∈ w.outcomes.take 2 then decide (start = target) else reaches edges start target) then
        Supply.insert report ⟨w.state.1.room, w.outcomes.drop 2⟩
      else Supply.search searches ⟨w.state.1.room, w.outcomes.drop 2⟩ := rfl
  have hrun := run_syncReaches_requests edges start target w
  generalize (if false ∈ w.outcomes.take 2 then decide (start = target) else reaches edges start target) = found at hmeet hrun
  cases found with
  | true => exact demands_bind_of_ok hrun (hfound _) (congrArg (fun s : Option Supply => s >>= some) hmeet)
  | false => exact demands_bind_of_ok hrun hrest (congrArg (fun s : Option Supply => s >>= some) hmeet)

/-- A search that is not followed by another. -/
theorem demands_searchOnce {report : SyncReport} {f : Bool → Routine SyncState Unit} (edges : List SyncEdge)
    (start target : EvidenceText) (hfound : Asks (f true) (fun _ => [.report report]))
    (hrest : Asks (f false) (fun _ => [])) :
    Demands Supply.meet passSupply (syncReaches edges start target >>= f) w True
      [.search [⟨reaches edges start target, start = target, report⟩]] :=
  demands_search edges start target hfound ((hrest _).of_eq rfl)

def orderDemands (node : Node) (thread resource : EvidenceText) (item : SyncItem) (l : SyncLocals) : List Demand :=
  if item.active ∧ item.thread = thread ∧ item.resource ≠ resource then
    [.search [⟨reaches l.lockEdges resource item.resource, resource = item.resource,
      ⟨"P101-SYNC-001", node, item.resource, resource⟩⟩]]
  else []

def acquireDemands (node : Node) (thread resource : EvidenceText) (l : SyncLocals) : List Demand :=
  reportsInOrder (orderEffect thread resource) (orderDemands node thread resource) l.held l

theorem asks_orderLocks (node : Node) (thread resource : EvidenceText) (item : SyncItem) :
    Asks (orderLocks node thread resource item) (orderDemands node thread resource item) := by
  refine Enters.ite (enters_readState_bind asksRules fun w => demands_searchOnce _ _ _ ?_ ?_) (enters_pure asksRules _)
  · have hkeeps := keepsLocals_of_evolves (evolves_addSyncFinding "P101-SYNC-001" node item.resource resource)
    exact (asks_addSyncFinding _ _ _ _).bind asksRules hkeeps.performs fun _ => enters_updateSync asksRules _
  · exact enters_updateSync asksRules _

theorem asks_acquireLock (node : Node) (thread resource : EvidenceText) :
    Asks (acquireLock node thread resource) (acquireDemands node thread resource) := by
  refine enters_readState_bind asksRules fun w => ?_
  have hloop := enters_forEach asksRules (asks_orderLocks node thread resource) (performs_orderLocks node thread resource)
    w.state.2.held
  have heffect := performs_forEach (performs_orderLocks node thread resource) (extendsLog_orderEffect thread resource)
    w.state.2.held
  have hall := hloop.bind asksRules heffect fun _ =>
    enters_updateSync asksRules (SyncLocals.pushHeld { node := node, thread := thread, resource := resource })
  simpa [acquireDemands] using hall w

def recordDemands (node : Node) (l : SyncLocals) : List Demand :=
  if isHeldClass node.resourceClass ∧ node.resourceKind = .acquire then
    acquireDemands node (formatSyncThread node) (formatSyncResource node node.resourceId) l
  else (recordReports node l).map .report

def syncDemands (node : Node) (l : SyncLocals) : List Demand :=
  if isSynchronizationRecord node then recordDemands node l else []

theorem asks_synchronizeRecord (node : Node) : Asks (synchronizeRecord node) (recordDemands node) := by
  intro w
  unfold recordDemands
  by_cases hacquire : isHeldClass node.resourceClass = true ∧ node.resourceKind = .acquire
  · rw [if_pos hacquire, synchronizeRecord_of_acquire hacquire.1 hacquire.2]
    exact asks_acquireLock _ _ _ w
  · rw [if_neg hacquire]
    exact reports_synchronizeRecord asksRules hacquire w

theorem asks_synchronizeNode (node : Node) : Asks (synchronizeNode node) (syncDemands node) := by
  have hcount : Asks (updateState fun s : SyncState =>
      ({ s.1 with synchronizationRecords := s.1.synchronizationRecords + 1 }, s.2)) (fun _ => []) :=
    fun _ => demands_updateState rfl
  have hkeeps : KeepsLocals (updateState fun s : SyncState =>
      ({ s.1 with synchronizationRecords := s.1.synchronizationRecords + 1 }, s.2)) := fun _ => rfl
  exact Enters.ite (hcount.bind asksRules hkeeps.performs fun _ => asks_synchronizeRecord node) (enters_pure asksRules _)

def deadlockSearches (wait : SyncItem) (edges waitEdges : List SyncEdge) : List Search :=
  (edges.filter fun edge => edge.source = wait.thread).map fun edge =>
    ⟨reaches waitEdges edge.target wait.thread, edge.target = wait.thread,
      ⟨"P101-SYNC-002", wait.node, wait.thread, edge.target⟩⟩

def waitDemands (wait : SyncItem) (l : SyncLocals) : List Demand :=
  if wait.active = false then []
  else if wait.join then
    [.search [⟨reaches l.joinEdges wait.target wait.thread, wait.target = wait.thread,
      ⟨"P101-SYNC-003", wait.node, wait.thread, wait.target⟩⟩]]
  else [.search (deadlockSearches wait l.waitEdges l.waitEdges)]

theorem deadlockSearches_cons (wait : SyncItem) (edge : SyncEdge) (edges waitEdges : List SyncEdge) :
    deadlockSearches wait (edge :: edges) waitEdges =
      if edge.source ≠ wait.thread then deadlockSearches wait edges waitEdges
      else ⟨reaches waitEdges edge.target wait.thread, edge.target = wait.thread,
        ⟨"P101-SYNC-002", wait.node, wait.thread, edge.target⟩⟩ :: deadlockSearches wait edges waitEdges := by
  unfold deadlockSearches
  by_cases hsource : edge.source = wait.thread <;> simp [hsource]

theorem asks_reportDeadlock (wait : SyncItem) (edges : List SyncEdge) :
    Asks (reportDeadlock wait edges) (fun l => [.search (deadlockSearches wait edges l.waitEdges)]) := by
  induction edges with
  | nil => exact fun w => (asksRules.pureAt _ w).of_eq rfl
  | cons edge edges ih =>
    intro w
    dsimp only
    rw [deadlockSearches_cons, reportDeadlock]
    split
    · exact ih w
    · exact demands_readState_bind (demands_search _ _ _ (asks_addSyncFinding _ _ _ _) (ih _))

theorem asks_reportWait (wait : SyncItem) : Asks (reportWait wait) (waitDemands wait) := by
  intro w
  unfold reportWait waitDemands
  split
  · exact asksRules.pureAt _ w
  · apply demands_readState_bind
    dsimp only
    split
    · exact demands_searchOnce _ _ _ (asks_addSyncFinding _ _ _ _) (enters_pure asksRules _)
    · exact asks_reportDeadlock wait _ w

theorem asks_synchronizationEnd :
    Asks (do
      updateSync SyncLocals.addAllWaitEdges
      let (_, l) ← readState
      forEach reportWait l.waits
      updateState (fun s => ({ s.1 with lockOrderEdges := s.2.lockEdges.length }, s.2)))
      (fun l => l.addAllWaitEdges.waits.flatMap (fun wait => waitDemands wait l.addAllWaitEdges)) := by
  have hwaits : Asks (do
      let (_, l) ← readState
      forEach reportWait l.waits
      updateState (fun s => ({ s.1 with lockOrderEdges := s.2.lockEdges.length }, s.2)))
      (fun l => l.waits.flatMap (fun wait => waitDemands wait l)) := by
    refine enters_readState_bind asksRules fun w => ?_
    have hloop := enters_forEach_keeps asksRules asks_reportWait (fun wait => keepsLocals_of_evolves (evolves_reportWait wait))
      w.state.2.waits
    have hcount : Asks (updateState fun s : SyncState =>
        ({ s.1 with lockOrderEdges := s.2.lockEdges.length }, s.2)) (fun _ => []) :=
      fun _ => demands_updateState rfl
    simpa using hloop.bind asksRules (keepsLocals_reportWaits _).performs (fun _ => hcount) w
  exact (enters_updateSync asksRules _).bind asksRules (performs_updateSync _) fun _ => hwaits

/-- The demands of `analyze_synchronization`. -/
def synchronizationDemands (nodes : List Node) : List Demand :=
  .arrays 6 :: (reportsInOrder nodeEffect syncDemands nodes {} ++
    (finalArrays nodes).waits.flatMap fun wait => waitDemands wait (finalArrays nodes))

theorem demands_analyzeSynchronization (w : World Analysis) :
    Demands Supply.meet supplyOf analyzeSynchronization w True (synchronizationDemands w.state.orderedNodes) := by
  refine demands_withLocals (demands_arrays (fun s : SyncState => s.1.room) 6 (demands_readState_bind ?_))
  have hpass := enters_forEach asksRules asks_synchronizeNode performs_synchronizeNode w.state.orderedNodes
  exact hpass.bind asksRules (performs_pass w.state.orderedNodes) (fun _ => asks_synchronizationEnd) ⟨(w.state, {}), w.outcomes.drop 6⟩

end ToolEvent.ModelAnalysis
