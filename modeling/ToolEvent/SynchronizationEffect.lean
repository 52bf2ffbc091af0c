import ToolEvent.Synchronization
import ToolEvent.Library.Completion

/-!
# What the synchronization pass stores

The arrays of `analyze_synchronization` do not depend on the findings: a run that stops
early has made the first writes of the run that does not. Granted its requests, the pass
never stops early.
-/

namespace ToolEvent.ModelAnalysis

open Fallible World LatestMatch RunModel

def orderEffect (thread resource : EvidenceText) (item : SyncItem) (l : SyncLocals) : SyncLocals :=
  if item.active ∧ item.thread = thread ∧ item.resource ≠ resource then
    l.pushLockEdge ⟨item.resource, resource⟩
  else l

def acquireEffect (node : Node) (thread resource : EvidenceText) (l : SyncLocals) : SyncLocals :=
  (l.held.foldl (fun l item => orderEffect thread resource item l) l).pushHeld
    { node := node, thread := thread, resource := resource }

def beginWaitEffect (node : Node) (thread resource : EvidenceText) (l : SyncLocals) : SyncLocals :=
  (l.log .waits l.waits.length).pushWait (waitItem node thread resource)

def recordEffect (node : Node) (l : SyncLocals) : SyncLocals :=
  let thread := formatSyncThread node
  let resource := formatSyncResource node node.resourceId
  let isMutexLifecycle : Bool := node.resourceClass = .ofString "pthread-mutex"
  let isTerminalAttempt : Bool := node.resourceClass = .ofString "pthread-terminal-attempt"
  let isJoinableThread : Bool := node.resourceClass = .ofString "pthread-joinable-thread"
  let isBlockingOperation : Bool := node.resourceClass = .ofString "blocking-operation"
  match isMutexLifecycle, isTerminalAttempt, isJoinableThread, isBlockingOperation,
    isHeldClass node.resourceClass, node.resourceKind with
  | false, false, true, _, _, .release =>
    l.pushTerminated { node := node, thread := thread, resource := resource }
  | false, false, false, false, true, .acquire => acquireEffect node thread resource l
  | false, false, false, false, true, .release => l.endHeld thread resource
  | false, false, false, false, false, .acquire => beginWaitEffect node thread resource l
  | false, false, false, false, false, .release =>
    l.endWait (if isJoinWait node then resource else thread) resource
  | _, _, _, _, _, _ => l

def nodeEffect (node : Node) (l : SyncLocals) : SyncLocals :=
  if isSynchronizationRecord node then recordEffect node l else l

/-- The arrays after the loop over the ordered nodes. -/
def passEffect (nodes : List Node) : SyncLocals := nodes.foldl (fun l node => nodeEffect node l) {}

def ExtendsLog (g : SyncLocals → SyncLocals) : Prop := ∀ l, l.writes <+: (g l).writes

theorem extendsLog_foldl {ι : Type} {g : ι → SyncLocals → SyncLocals} (h : ∀ i, ExtendsLog (g i))
    (is : List ι) : ExtendsLog (fun l => is.foldl (fun l i => g i l) l) := by
  induction is with
  | nil => exact fun l => List.prefix_rfl
  | cons i is ih => exact fun l => (h i l).trans (ih (g i l))

theorem extendsLog_orderEffect (thread resource : EvidenceText) (item : SyncItem) :
    ExtendsLog (orderEffect thread resource item) := by
  intro l
  unfold orderEffect
  split
  · exact List.prefix_append _ _
  · exact List.prefix_rfl

theorem extendsLog_acquireEffect (node : Node) (thread resource : EvidenceText) :
    ExtendsLog (acquireEffect node thread resource) := fun l =>
  (extendsLog_foldl (extendsLog_orderEffect thread resource) l.held l).trans
    (List.prefix_append _ _)

theorem extendsLog_endHeld (thread resource : EvidenceText) :
    ExtendsLog (SyncLocals.endHeld thread resource) := by
  intro l
  unfold SyncLocals.endHeld
  split
  · exact List.prefix_append _ _
  · exact List.prefix_rfl

theorem extendsLog_endWait (thread resource : EvidenceText) :
    ExtendsLog (SyncLocals.endWait thread resource) := by
  intro l
  unfold SyncLocals.endWait
  split
  · exact List.prefix_append _ _
  · exact List.prefix_rfl

theorem extendsLog_recordEffect (node : Node) : ExtendsLog (recordEffect node) := by
  intro l
  unfold recordEffect
  dsimp only
  split
  · exact List.prefix_append _ _
  · exact extendsLog_acquireEffect node _ _ l
  · exact extendsLog_endHeld _ _ l
  · exact List.prefix_append _ _
  · exact extendsLog_endWait _ _ l
  · exact List.prefix_rfl

theorem extendsLog_nodeEffect (node : Node) : ExtendsLog (nodeEffect node) := by
  intro l
  unfold nodeEffect
  split
  · exact extendsLog_recordEffect node l
  · exact List.prefix_rfl

theorem extendsLog_addWaitEdges (wait : SyncItem) : ExtendsLog (SyncLocals.addWaitEdges wait) := by
  intro l
  unfold SyncLocals.addWaitEdges
  split_ifs
  · exact List.prefix_rfl
  · exact (List.prefix_append _ _).trans (List.prefix_append _ _)
  · refine extendsLog_foldl (g := fun item l =>
      if item.active ∧ item.resource = wait.resource then
        SyncLocals.pushWaitEdge ⟨wait.thread, item.thread⟩ l
      else l) (fun item l => ?_) l.held l
    split
    · exact List.prefix_append _ _
    · exact List.prefix_rfl

theorem extendsLog_addAllWaitEdges : ExtendsLog SyncLocals.addAllWaitEdges := fun l =>
  extendsLog_foldl extendsLog_addWaitEdges l.waits l

/-- Success leaves the given locals, and a failure has made the first of their writes. -/
structure Leads {α : Type} (x : Routine SyncState α) (w : World SyncState) (l : SyncLocals) :
    Prop where
  ok : ∀ a w', x w = (.ok a, w') → w'.state.2 = l
  writes : (x w).2.state.2.writes <+: l.writes

def Performs {α : Type} (x : Routine SyncState α) (g : SyncLocals → SyncLocals) : Prop :=
  ∀ w, Leads x w (g w.state.2)

variable {α β : Type}

theorem Leads.bind {x : Routine SyncState α} {f : α → Routine SyncState β} {w : World SyncState}
    {l l' : SyncLocals} (hx : Leads x w l) (hf : ∀ a w', x w = (.ok a, w') → Leads (f a) w' l')
    (hlog : l.writes <+: l'.writes) : Leads (x >>= f) w l' := by
  rcases hrun : x w with ⟨⟨e⟩ | ⟨a⟩, w'⟩
  · have hwrites := hx.writes
    rw [hrun] at hwrites
    refine ⟨fun b w'' h => ?_, ?_⟩
    · simp [run_bind_of_error hrun] at h
    · rw [run_bind_of_error hrun]
      exact hwrites.trans hlog
  · have hnext := hf a w' hrun
    refine ⟨fun b w'' h => hnext.ok b w'' ?_, ?_⟩
    · rwa [run_bind_of_ok hrun] at h
    · rw [run_bind_of_ok hrun]
      exact hnext.writes

theorem Performs.bind {x : Routine SyncState α} {f : α → Routine SyncState β}
    {g g' : SyncLocals → SyncLocals} (hx : Performs x g) (hf : ∀ a, Performs (f a) g')
    (hlog : ExtendsLog g') : Performs (x >>= f) (fun l => g' (g l)) := by
  intro w
  refine (hx w).bind (fun a w' hrun => ?_) (hlog _)
  have hnext := hf a w'
  rw [(hx w).ok a w' hrun] at hnext
  exact hnext

theorem performs_updateSync (f : SyncLocals → SyncLocals) : Performs (updateSync f) f := by
  intro w
  refine ⟨fun _ w' h => ?_, List.prefix_rfl⟩
  obtain ⟨-, rfl⟩ := Prod.mk.inj h
  rfl

theorem performs_readState_bind {f : SyncState → Routine SyncState β} {g : SyncLocals → SyncLocals}
    (h : ∀ s w, w.state = s → Leads (f s) w (g s.2)) : Performs (readState >>= f) g :=
  fun w => ⟨(h w.state w rfl).ok, (h w.state w rfl).writes⟩

def KeepsLocals (x : Routine SyncState α) : Prop := ∀ w, (x w).2.state.2 = w.state.2

theorem KeepsLocals.performs {x : Routine SyncState α} (h : KeepsLocals x) : Performs x id := by
  intro w
  refine ⟨fun a w' hrun => ?_, ?_⟩
  · have hkeep := h w
    rw [hrun] at hkeep
    exact hkeep
  · rw [h w]
    exact List.prefix_rfl

theorem keepsLocals_of_evolves {x : Routine SyncState α}
    (h : Evolves (fun s t : SyncState => t.2 = s.2) x) : KeepsLocals x := by
  intro w
  have hreach := h w
  exact invariant_of_reaches (fun s => s.2 = w.state.2) (fun s t hst hs => hst.trans hs) hreach rfl

theorem performs_forEach {ι : Type} {f : ι → Routine SyncState Unit}
    {g : ι → SyncLocals → SyncLocals} (h : ∀ i, Performs (f i) (g i)) (hlog : ∀ i, ExtendsLog (g i))
    (is : List ι) : Performs (forEach f is) (fun l => is.foldl (fun l i => g i l) l) := by
  induction is with
  | nil => exact (keepsLocals_of_evolves (evolves_pure _)).performs
  | cons i is ih => exact (h i).bind (fun _ => ih) (extendsLog_foldl hlog is)

abbrev SameLocals : SyncState → SyncState → Prop := fun s t => t.2 = s.2

theorem evolves_onFirst {x : Routine Analysis α} : Evolves SameLocals (onFirst x) :=
  fun _ => .single rfl

theorem evolves_syncReaches (edges : List SyncEdge) (start target : EvidenceText) :
    Evolves SameLocals (syncReaches edges start target) := by
  refine (evolves_allocateAll 2).bind fun granted => Evolves.ite (evolves_pure _) ?_
  split
  · exact evolves_fail _
  · exact evolves_pure _

theorem evolves_addSyncFinding (identifier : String) (node : Node) (source target : EvidenceText) :
    Evolves SameLocals (addSyncFinding identifier node source target) :=
  evolves_readState.bind fun _ => Evolves.ite (evolves_pure _) evolves_onFirst

theorem evolves_reportLastHeld (identifier : String) (node : Node) (thread resource : EvidenceText) :
    Evolves SameLocals (reportLastHeld identifier node thread resource) := by
  refine evolves_readState.bind fun s => ?_
  dsimp only
  split
  · exact evolves_addSyncFinding _ _ _ _
  · exact evolves_pure _

theorem evolves_reportReleaseOrder (node : Node) (resource : EvidenceText) (last : Option SyncItem) :
    Evolves SameLocals (reportReleaseOrder node resource last) := by
  cases last with
  | none => exact evolves_pure _
  | some item => exact Evolves.ite (evolves_addSyncFinding _ _ _ _) (evolves_pure _)

theorem evolves_destroyMutex (node : Node) (resource : EvidenceText) :
    Evolves SameLocals (destroyMutex node resource) := by
  refine evolves_readState.bind fun s => Evolves.bind ?_ fun _ => ?_
  · exact evolves_forEach (fun item => Evolves.ite (evolves_addSyncFinding _ _ _ _) (evolves_pure _)) _
  · exact evolves_forEach (fun item => Evolves.ite (evolves_addSyncFinding _ _ _ _) (evolves_pure _)) _

theorem evolves_attemptTerminal (node : Node) (resource : EvidenceText) :
    Evolves SameLocals (attemptTerminal node resource) :=
  evolves_readState.bind fun _ =>
    evolves_forEach (fun _ => Evolves.ite (evolves_addSyncFinding _ _ _ _) (evolves_pure _)) _

theorem evolves_reportDeadlock (wait : SyncItem) (edges : List SyncEdge) :
    Evolves SameLocals (reportDeadlock wait edges) := by
  induction edges with
  | nil => exact evolves_pure _
  | cons edge edges ih =>
    refine Evolves.ite ih (evolves_readState.bind fun _ => (evolves_syncReaches _ _ _).bind fun _ => ?_)
    exact Evolves.ite (evolves_addSyncFinding _ _ _ _) ih

theorem evolves_reportWait (wait : SyncItem) : Evolves SameLocals (reportWait wait) := by
  refine Evolves.ite (evolves_pure _) (evolves_readState.bind fun _ => Evolves.ite ?_ ?_)
  · exact (evolves_syncReaches _ _ _).bind fun _ =>
      Evolves.ite (evolves_addSyncFinding _ _ _ _) (evolves_pure _)
  · exact evolves_reportDeadlock _ _

theorem performs_orderLocks (node : Node) (thread resource : EvidenceText) (item : SyncItem) :
    Performs (orderLocks node thread resource item) (orderEffect thread resource item) := by
  unfold orderLocks orderEffect
  split
  · refine performs_readState_bind fun s w hs => ?_
    subst hs
    have hlog : ExtendsLog (SyncLocals.pushLockEdge ⟨item.resource, resource⟩) :=
      fun l => List.prefix_append _ _
    have hsearch := (keepsLocals_of_evolves
      (evolves_syncReaches w.state.2.lockEdges resource item.resource)).performs
    have hreport : ∀ cycle : Bool, Performs (if cycle then
        addSyncFinding "P101-SYNC-001" node item.resource resource else pure ()) id := fun cycle =>
      (keepsLocals_of_evolves (Evolves.ite (evolves_addSyncFinding _ _ _ _) (evolves_pure _))).performs
    exact hsearch.bind (fun cycle => (hreport cycle).bind (fun _ => performs_updateSync _) hlog) hlog w
  · exact (keepsLocals_of_evolves (evolves_pure _)).performs

theorem performs_acquireLock (node : Node) (thread resource : EvidenceText) :
    Performs (acquireLock node thread resource) (acquireEffect node thread resource) := by
  refine performs_readState_bind fun s w hs => ?_
  subst hs
  have hloop := performs_forEach (performs_orderLocks node thread resource)
    (extendsLog_orderEffect thread resource) w.state.2.held
  exact hloop.bind (fun _ => performs_updateSync _) (fun l => List.prefix_append _ _) w

theorem performs_releaseLock (node : Node) (thread resource : EvidenceText) :
    Performs (releaseLock node thread resource) (SyncLocals.endHeld thread resource) := by
  refine performs_readState_bind fun s w hs => ?_
  subst hs
  exact (keepsLocals_of_evolves (evolves_reportReleaseOrder _ _ _)).performs.bind
    (fun _ => performs_updateSync _) (extendsLog_endHeld thread resource) w

theorem performs_beginWait (node : Node) (thread resource : EvidenceText) :
    Performs (beginWait node thread resource) (beginWaitEffect node thread resource) := by
  have hjoin : Performs (if isJoinWait node then
      reportLastHeld "P101-SYNC-005" node thread resource else pure ()) id :=
    (keepsLocals_of_evolves (Evolves.ite (evolves_reportLastHeld _ _ _ _) (evolves_pure _))).performs
  have hwrite : ExtendsLog (beginWaitEffect node thread resource) := fun l => List.prefix_append _ _
  refine hjoin.bind (fun _ => performs_readState_bind fun s w hs => ?_) hwrite
  subst hs
  have hreport : Performs (if isConditionWait node then
      forEach (fun prior : SyncItem => if prior.active ∧
          prior.resource = (waitItem node thread resource).resource ∧
          prior.target ≠ (waitItem node thread resource).target then
        addSyncFinding "P101-SYNC-009" node (waitItem node thread resource).resource
          (waitItem node thread resource).target else pure ()) w.state.2.waits
      else pure ()) id := by
    refine (keepsLocals_of_evolves (Evolves.ite (evolves_forEach (fun prior => ?_) _)
      (evolves_pure _))).performs
    exact Evolves.ite (evolves_addSyncFinding _ _ _ _) (evolves_pure _)
  have hpush : ExtendsLog (SyncLocals.pushWait (waitItem node thread resource)) :=
    fun l => List.prefix_rfl
  exact (performs_updateSync _).bind
    (fun _ => hreport.bind (fun _ => performs_updateSync _) hpush) hpush w

theorem performs_synchronizeRecord (node : Node) :
    Performs (synchronizeRecord node) (recordEffect node) := by
  have hkeep : ∀ {x : Routine SyncState Unit}, Evolves SameLocals x → Performs x id :=
    fun h => (keepsLocals_of_evolves h).performs
  intro w
  unfold synchronizeRecord recordEffect
  dsimp only
  generalize decide (node.resourceClass = .ofString "pthread-mutex") = isMutexLifecycle
  generalize decide (node.resourceClass = .ofString "pthread-terminal-attempt") = isTerminalAttempt
  generalize decide (node.resourceClass = .ofString "pthread-joinable-thread") = isJoinableThread
  generalize decide (node.resourceClass = .ofString "blocking-operation") = isBlockingOperation
  generalize isHeldClass node.resourceClass = isHeld
  cases isMutexLifecycle with
  | true => exact hkeep (Evolves.ite (evolves_destroyMutex _ _) (evolves_pure _)) w
  | false =>
  cases isTerminalAttempt with
  | true => exact hkeep (evolves_attemptTerminal _ _) w
  | false =>
  cases isJoinableThread with
  | true =>
    cases node.resourceKind
    case release => exact performs_updateSync _ w
    all_goals exact hkeep (evolves_pure _) w
  | false =>
  cases isBlockingOperation with
  | true => exact hkeep (evolves_reportLastHeld _ _ _ _) w
  | false =>
  cases isHeld with
  | true =>
    cases node.resourceKind
    case acquire => exact performs_acquireLock _ _ _ w
    case release => exact performs_releaseLock _ _ _ w
    all_goals exact hkeep (evolves_pure _) w
  | false =>
    cases node.resourceKind
    case acquire => exact performs_beginWait _ _ _ w
    case release => exact performs_updateSync _ w
    all_goals exact hkeep (evolves_pure _) w

/-- The counter of the records does not concern the arrays. -/
theorem performs_synchronizeNode (node : Node) : Performs (synchronizeNode node) (nodeEffect node) := by
  intro w
  unfold synchronizeNode nodeEffect
  split
  · have hcount : KeepsLocals (updateState fun s : SyncState =>
        ({ s.1 with synchronizationRecords := s.1.synchronizationRecords + 1 }, s.2)) := fun _ => rfl
    exact hcount.performs.bind (fun _ => performs_synchronizeRecord node) (extendsLog_recordEffect node) w
  · exact (keepsLocals_of_evolves (evolves_pure _)).performs w

end ToolEvent.ModelAnalysis
