import ToolEvent.HeldLocks
import ToolEvent.JoinableThreads
import ToolEvent.LockOrder
import ToolEvent.PolicyReports
import ToolEvent.SynchronizationBounds
import ToolEvent.WaitGraph

/-!
# The discipline of threads

The pass over the synchronization records forbids nine things. Each of them is stated here on the records
alone: on the locks that a replay of one thread holds, on the waits that no record has ended yet, and on the
graphs of locks, waits and joins. The findings of the pass are the violations, each once.
-/

namespace ToolEvent.ModelAnalysis

open Fallible World LatestMatch RunModel Reachability Relation

inductive SyncRule
  | lockOrder | deadlock | joinCycle | releaseOrder | joinHolding | destroyInUse | consumedTwice | otherMutex
  | blockHolding
  deriving DecidableEq

def SyncRule.identifier : SyncRule → String
  | .lockOrder => "P101-SYNC-001"
  | .deadlock => "P101-SYNC-002"
  | .joinCycle => "P101-SYNC-003"
  | .releaseOrder => "P101-SYNC-004"
  | .joinHolding => "P101-SYNC-005"
  | .destroyInUse => "P101-SYNC-007"
  | .consumedTwice => "P101-SYNC-008"
  | .otherMutex => "P101-SYNC-009"
  | .blockHolding => "P101-SYNC-010"

def isLockAcquire (node : Node) : Bool := isLockRecord node ∧ node.resourceKind = .acquire

def isWaitBegin (node : Node) : Bool := isWaitRecord node ∧ node.resourceKind = .acquire

def isMutexDestroy (node : Node) : Bool :=
  node.domain = .resource ∧ node.recordKind = .resource ∧ node.resourceClass = .ofString "pthread-mutex" ∧
    node.resourceKind = .release

def isJoinableRelease (node : Node) : Bool := isJoinableRecord node ∧ node.resourceKind = .release

/-- Who waits: a wait to join is one of the waiter that its record names. -/
def waiterOf (node : Node) : EvidenceText := (waitItemOf node).thread

/-- The mutex that a wait gives up, or the thread that it waits for. -/
def waitTarget (node : Node) : EvidenceText := (waitItemOf node).target

def HeldBy (nodes : List Node) (mutex thread : EvidenceText) : Prop := mutex ∈ heldLocks nodes thread

/-- A wait that names the mutex has not ended. -/
def AwaitedBy (nodes : List Node) (mutex waiter : EvidenceText) : Prop :=
  ∃ wait, Unfinished nodes wait ∧ (lockOf wait = mutex ∨ waitTarget wait = mutex) ∧ waiterOf wait = waiter

/-- What a record violates, after the records before it. -/
def RecordViolates (before : List Node) (node : Node) (source target : EvidenceText) : SyncRule → Prop
  | .lockOrder =>
    isLockAcquire node = true ∧ target = lockOf node ∧ HeldBy before source (formatSyncThread node) ∧ source ≠ target ∧
      ReflTransGen (LockOrder before) target source
  | .releaseOrder => isLockRelease node = true ∧ NamesLastLock before node source target ∧ source ≠ lockOf node
  | .joinHolding => isJoinBegin node = true ∧ NamesLastLock before node source target
  | .blockHolding => isBlockingRecord node = true ∧ NamesLastLock before node source target
  | .destroyInUse =>
    isMutexDestroy node = true ∧ source = lockOf node ∧ (HeldBy before source target ∨ AwaitedBy before source target)
  | .consumedTwice =>
    isTerminalAttempt node = true ∧ source = threadIdentity node ∧
      ∃ release ∈ before, isJoinableRelease release = true ∧ threadIdentity release = source ∧
        formatSyncThread release = target
  | .otherMutex =>
    (isWaitBegin node = true ∧ isConditionWait node = true) ∧ source = lockOf node ∧ target = waitTarget node ∧
      ∃ wait, Unfinished before wait ∧ lockOf wait = source ∧ waitTarget wait ≠ target
  | .deadlock | .joinCycle => False

def Violates (nodes : List Node) (source target : EvidenceText) : SyncRule → Prop
  | .deadlock => Blocked nodes source ∧ WaitsFor nodes source target ∧ ReflTransGen (WaitsFor nodes) target source
  | .joinCycle => EdgeOnCycle (UnfinishedJoin nodes) source target
  | rule => ∃ before node after, nodes = before ++ node :: after ∧ RecordViolates before node source target rule

theorem SyncRule.eq_of_identifier {rule r : SyncRule}
    (h : Text.ofString rule.identifier = .ofString r.identifier) : rule = r := by
  cases rule <;> cases r <;> first | rfl | exact absurd h (by decide)

theorem rule_of_hasReport {rule r : SyncRule} {reports : List SyncReport} {source target : EvidenceText}
    (h : AllAre [r.identifier] reports) (hreport : HasReport reports rule.identifier source target) :
    rule = r := by
  obtain ⟨report, hmem, hidentifier, -⟩ := hreport
  rw [List.mem_singleton.mp (h report hmem)] at hidentifier
  exact (SyncRule.eq_of_identifier hidentifier).symm

/-- A loop that reports of some of its items. -/
theorem hasReport_flatMap {ι : Type} {p : ι → Prop} [DecidablePred p] {report : ι → SyncReport} {is : List ι}
    {identifier : String} {source target : EvidenceText} :
    HasReport (is.flatMap fun i => if p i then [report i] else []) identifier source target ↔
      ∃ i ∈ is, p i ∧ Text.ofString (report i).identifier = .ofString identifier ∧ (report i).source = source ∧
        (report i).target = target := by
  unfold HasReport
  constructor
  · rintro ⟨r, hr, hmatches⟩
    obtain ⟨i, hi, hmem⟩ := List.mem_flatMap.mp hr
    split at hmem
    · next hp =>
      rw [List.mem_singleton.mp hmem] at hmatches
      exact ⟨i, hi, hp, hmatches⟩
    · exact absurd hmem List.not_mem_nil
  · rintro ⟨i, hi, hp, hmatches⟩
    refine ⟨report i, List.mem_flatMap.mpr ⟨i, hi, ?_⟩, hmatches⟩
    rw [if_pos hp]
    exact List.mem_singleton_self _

/-- The reports of a loop whose rounds change nothing that they look at. -/
theorem reportsInOrder_of_kept {ι : Type} {g : ι → SyncLocals → SyncLocals} {reports : ι → SyncLocals → List SyncReport}
    (h : ∀ i j l, reports i (g j l) = reports i l) (is : List ι) (l : SyncLocals) :
    reportsInOrder g reports is l = is.flatMap fun i => reports i l := by
  induction is generalizing l with
  | nil => rfl
  | cons i is ih =>
    rw [reportsInOrder, ih, List.flatMap_cons]
    simp only [h]

variable {nodes : List Node} {node : Node} {source target : EvidenceText} {l : SyncLocals}

theorem exists_held_item_iff {lock thread : EvidenceText} :
    (∃ item ∈ (passEffect nodes).held, item.active = true ∧ item.thread = thread ∧ item.resource = lock) ↔
      HeldBy nodes lock thread := by
  rw [HeldBy, ← activeLocks_passEffect, activeLocks]
  simp only [List.mem_map, List.mem_filter, isHeldBy, decide_eq_true_eq, and_assoc]

/-- The items of the terminated threads, in the order of the records. -/
theorem terminated_passEffect (nodes : List Node) :
    (passEffect nodes).terminated = (nodes.filter isJoinableRelease).map terminatedItem := by
  induction nodes using List.reverseRecOn with
  | nil => rfl
  | append_singleton nodes node ih =>
    rw [passEffect_concat, terminated_nodeEffect, ih, List.filter_append, List.map_append]
    split
    · next hends =>
      have hrelease : isJoinableRelease node = true := decide_eq_true hends
      rw [List.filter_cons_of_pos hrelease]
      rfl
    · next hkeeps =>
      have hother : ¬ isJoinableRelease node = true := fun h => hkeeps (of_decide_eq_true h)
      rw [List.filter_cons_of_neg hother]
      exact (List.append_nil _).symm

/-- Edges into the lock that is acquired do not help to leave it. -/
theorem reaches_orderEffect {thread lock : EvidenceText} (item : SyncItem) (goal : EvidenceText) :
    reaches (orderEffect thread lock item l).lockEdges lock goal = reaches l.lockEdges lock goal := by
  rw [Bool.eq_iff_iff, reaches_iff, reaches_iff, lockEdges_orderEffect]
  split
  · exact reflTransGen_insert_into_start fun x y => linked_concat
  · exact Iff.rfl

/-- When a lock is acquired, every held item is tested against the edges that were there before. -/
theorem acquireReports_eq (node : Node) (thread lock : EvidenceText) (l : SyncLocals) :
    acquireReports node thread lock l = l.held.flatMap fun item => orderReports node thread lock item l := by
  apply reportsInOrder_of_kept
  intro item item' l
  unfold orderReports
  rw [reaches_orderEffect]

theorem hasReport_acquire {thread lock : EvidenceText} :
    HasReport (acquireReports node thread lock l) "P101-SYNC-001" source target ↔
      target = lock ∧ (∃ item ∈ l.held, item.active = true ∧ item.thread = thread ∧ item.resource = source) ∧
        source ≠ target ∧ reaches l.lockEdges target source = true := by
  have hreports : (fun item => orderReports node thread lock item l) = fun item =>
      if (item.active ∧ item.thread = thread ∧ item.resource ≠ lock) ∧ reaches l.lockEdges lock item.resource then
        [⟨"P101-SYNC-001", node, item.resource, lock⟩] else [] := by
    funext item
    rw [orderReports, ← ite_and]
  rw [acquireReports_eq, hreports, hasReport_flatMap]
  constructor
  · rintro ⟨item, hitem, ⟨⟨hactive, hthread, hne⟩, hpath⟩, -, rfl, rfl⟩
    exact ⟨rfl, ⟨item, hitem, hactive, hthread, rfl⟩, hne, hpath⟩
  · rintro ⟨rfl, ⟨item, hitem, hactive, hthread, rfl⟩, hne, hpath⟩
    exact ⟨item, hitem, ⟨⟨hactive, hthread, hne⟩, hpath⟩, rfl, rfl, rfl⟩

theorem hasReport_destroy {mutex : EvidenceText} :
    HasReport (destroyReports node mutex l) "P101-SYNC-007" source target ↔
      source = mutex ∧ ((∃ item ∈ l.held, item.active = true ∧ item.thread = target ∧ item.resource = mutex) ∨
        ∃ item ∈ l.waits, item.active = true ∧ (item.resource = mutex ∨ item.target = mutex) ∧ item.thread = target) := by
  rw [destroyReports, hasReport_append, hasReport_flatMap, hasReport_flatMap]
  constructor
  · rintro (⟨item, hitem, ⟨hactive, hresource⟩, -, rfl, rfl⟩ | ⟨item, hitem, ⟨hactive, hnames⟩, -, rfl, rfl⟩)
    · exact ⟨rfl, .inl ⟨item, hitem, hactive, rfl, hresource⟩⟩
    · exact ⟨rfl, .inr ⟨item, hitem, hactive, hnames, rfl⟩⟩
  · rintro ⟨rfl, ⟨item, hitem, hactive, rfl, hresource⟩ | ⟨item, hitem, hactive, hnames, rfl⟩⟩
    · exact .inl ⟨item, hitem, ⟨hactive, hresource⟩, rfl, rfl, rfl⟩
    · exact .inr ⟨item, hitem, ⟨hactive, hnames⟩, rfl, rfl, rfl⟩

theorem hasReport_terminal {identity : EvidenceText} :
    HasReport (terminalReports node identity l) "P101-SYNC-008" source target ↔
      source = identity ∧ ∃ item ∈ l.terminated, item.active = true ∧ item.resource = identity ∧ item.thread = target := by
  rw [terminalReports, hasReport_flatMap]
  constructor
  · rintro ⟨item, hitem, ⟨hactive, hresource⟩, -, rfl, rfl⟩
    exact ⟨rfl, item, hitem, hactive, hresource, rfl⟩
  · rintro ⟨rfl, item, hitem, hactive, hresource, rfl⟩
    exact ⟨item, hitem, ⟨hactive, hresource⟩, rfl, rfl, rfl⟩

theorem hasReport_condition {item : SyncItem} :
    HasReport (conditionReports node item l) "P101-SYNC-009" source target ↔
      isConditionWait node = true ∧ source = item.resource ∧ target = item.target ∧
        ∃ prior ∈ l.waits, prior.active = true ∧ prior.resource = source ∧ prior.target ≠ target := by
  rw [conditionReports]
  split
  · next hcondition =>
    rw [hasReport_flatMap]
    constructor
    · rintro ⟨prior, hprior, ⟨hactive, hresource, htarget⟩, -, rfl, rfl⟩
      exact ⟨hcondition, rfl, rfl, prior, hprior, hactive, hresource, htarget⟩
    · rintro ⟨-, rfl, rfl, prior, hprior, hactive, hresource, htarget⟩
      exact ⟨prior, hprior, ⟨hactive, hresource, htarget⟩, rfl, rfl, rfl⟩
  · next hother =>
    refine iff_of_false ?_ (fun h => hother h.1)
    rintro ⟨report, hreport, -⟩
    exact absurd hreport List.not_mem_nil

theorem nodeReports_of_destroy (h : isMutexDestroy node = true) (l : SyncLocals) :
    nodeReports node l = destroyReports node (lockOf node) l := by
  obtain ⟨hdomain, hkind, hclass, hrelease⟩ := of_decide_eq_true h
  have hrecord : isSynchronizationRecord node = true := by
    apply decide_eq_true
    refine ⟨hdomain, hkind, ?_⟩
    rw [hclass]
    decide
  rw [nodeReports, if_pos hrecord]
  unfold recordReports
  simp only [hclass, hrelease, decide_true]
  rfl

theorem nodeReports_kinds (node : Node) (l : SyncLocals) :
    isMutexDestroy node = true ∨ isTerminalAttempt node = true ∨ isBlockingRecord node = true ∨
      isLockAcquire node = true ∨ isLockRelease node = true ∨ isWaitBegin node = true ∨ nodeReports node l = [] := by
  unfold nodeReports
  split
  · next hrecord =>
    obtain ⟨hdomain, hkind, hclass⟩ := of_decide_eq_true hrecord
    unfold recordReports
    dsimp only
    split
    · next hmutex hrelease => exact .inl (decide_eq_true ⟨hdomain, hkind, of_decide_eq_true hmutex, hrelease⟩)
    · next hterminal => exact .inr (.inl (decide_eq_true ⟨hdomain, hkind, of_decide_eq_true hterminal⟩))
    · next hblocking => exact .inr (.inr (.inl (decide_eq_true ⟨hdomain, hkind, of_decide_eq_true hblocking⟩)))
    · next hheld hacquire =>
      exact .inr (.inr (.inr (.inl (decide_eq_true ⟨decide_eq_true ⟨hdomain, hkind, hheld⟩, hacquire⟩))))
    · next hheld hrelease =>
      exact .inr (.inr (.inr (.inr (.inl (decide_eq_true ⟨decide_eq_true ⟨hdomain, hkind, hheld⟩, hrelease⟩)))))
    · next hmutex hterminal hjoinable hblocking hheld hacquire =>
      have hwait : isWaitRecord node = true := by
        rw [isSynchronizationClass_eq, hheld] at hclass
        simp only [List.any_cons, List.any_nil, hmutex, hterminal, hjoinable, hblocking, Bool.or_false,
          Bool.false_or] at hclass
        exact decide_eq_true ⟨hdomain, hkind, hclass⟩
      exact .inr (.inr (.inr (.inr (.inr (.inl (decide_eq_true ⟨hwait, hacquire⟩))))))
    · exact .inr (.inr (.inr (.inr (.inr (.inr rfl)))))
  · exact .inr (.inr (.inr (.inr (.inr (.inr rfl)))))

theorem waitItemOf_eq (node : Node) : waitItem node (formatSyncThread node) (lockOf node) = waitItemOf node := rfl

/-- What the beginning of a wait reports of the other mutex of a condition variable. -/
theorem hasReport_otherMutex {before : List Node} (hbegin : isWaitBegin node = true) :
    RecordReports node (passEffect before) "P101-SYNC-009" source target ↔
      RecordViolates before node source target .otherMutex := by
  obtain ⟨hwait, hkind⟩ := of_decide_eq_true hbegin
  have hjoins := allAre_lastHeldReports "P101-SYNC-005" node (formatSyncThread node) (lockOf node) (passEffect before)
  have hjoin : ¬ HasReport (if isJoinWait node then lastHeldReports "P101-SYNC-005" node (formatSyncThread node)
      (lockOf node) (passEffect before) else []) "P101-SYNC-009" source target :=
    not_hasReport (hjoins.ite (allAre_nil _)) (by decide) _ _
  rw [RecordReports, nodeReports_of_wait hwait hkind, beginWaitReports, hasReport_append, or_iff_right hjoin,
    hasReport_condition, waitItemOf_eq, exists_wait_iff]
  simp only [waitItem_resource]
  constructor
  · rintro ⟨hcondition, rfl, rfl, wait, hunfinished, hlock, htarget⟩
    exact ⟨⟨hbegin, hcondition⟩, rfl, rfl, wait, hunfinished, hlock, htarget⟩
  · rintro ⟨⟨-, hcondition⟩, rfl, rfl, wait, hunfinished, hlock, htarget⟩
    exact ⟨hcondition, rfl, rfl, wait, hunfinished, hlock, htarget⟩

theorem recordReports_destroy_iff {before : List Node} (hdestroy : isMutexDestroy node = true) :
    RecordReports node (passEffect before) "P101-SYNC-007" source target ↔
      RecordViolates before node source target .destroyInUse := by
  rw [RecordReports, nodeReports_of_destroy hdestroy, hasReport_destroy, exists_held_item_iff, exists_wait_iff]
  simp only [waitItem_resource]
  constructor
  · rintro ⟨rfl, huse⟩
    exact ⟨hdestroy, rfl, huse⟩
  · rintro ⟨-, rfl, huse⟩
    exact ⟨rfl, huse⟩

theorem recordReports_attempt_iff {before : List Node} (hattempt : isTerminalAttempt node = true) :
    RecordReports node (passEffect before) "P101-SYNC-008" source target ↔
      RecordViolates before node source target .consumedTwice := by
  rw [RecordReports, nodeReports_of_attempt hattempt, hasReport_terminal, terminated_passEffect]
  simp only [List.mem_map, List.mem_filter]
  constructor
  · rintro ⟨rfl, _, ⟨release, ⟨hmem, hrelease⟩, rfl⟩, -, hidentity, rfl⟩
    exact ⟨hattempt, rfl, release, hmem, hrelease, hidentity, rfl⟩
  · rintro ⟨-, rfl, release, hmem, hrelease, hidentity, rfl⟩
    exact ⟨rfl, _, ⟨release, ⟨hmem, hrelease⟩, rfl⟩, rfl, hidentity, rfl⟩

theorem recordReports_acquire_iff {before : List Node} (hacquire : isLockAcquire node = true) :
    RecordReports node (passEffect before) "P101-SYNC-001" source target ↔
      RecordViolates before node source target .lockOrder := by
  obtain ⟨hlock, hkind⟩ := of_decide_eq_true hacquire
  have hgraph : Linked (passEffect before).lockEdges = LockOrder before := by
    funext x y
    exact propext (linked_lockEdges_iff before)
  rw [RecordReports, nodeReports_of_acquire hlock hkind, hasReport_acquire, exists_held_item_iff, reaches_iff, hgraph]
  constructor
  · rintro ⟨rfl, hheld, hne, hpath⟩
    exact ⟨hacquire, rfl, hheld, hne, hpath⟩
  · rintro ⟨-, rfl, hheld, hne, hpath⟩
    exact ⟨rfl, hheld, hne, hpath⟩

theorem recordReports_iff {before : List Node} {rule : SyncRule} :
    RecordReports node (passEffect before) rule.identifier source target ↔
      RecordViolates before node source target rule := by
  constructor
  · intro hreport
    rcases nodeReports_kinds node (passEffect before) with hkind | hkind | hkind | hkind | hkind | hkind | hnone
    · have hall := allAre_destroyReports node (lockOf node) (passEffect before)
      rw [← nodeReports_of_destroy hkind] at hall
      obtain rfl := rule_of_hasReport (r := .destroyInUse) hall hreport
      exact (recordReports_destroy_iff hkind).mp hreport
    · have hall := allAre_terminalReports node (threadIdentity node) (passEffect before)
      rw [← nodeReports_of_attempt hkind] at hall
      obtain rfl := rule_of_hasReport (r := .consumedTwice) hall hreport
      exact (recordReports_attempt_iff hkind).mp hreport
    · have hall := allAre_lastHeldReports "P101-SYNC-010" node (formatSyncThread node) (lockOf node) (passEffect before)
      rw [← nodeReports_of_blocking hkind] at hall
      obtain rfl := rule_of_hasReport (r := .blockHolding) hall hreport
      have hlast := recordReports_blocking_iff.mp hreport
      rw [activeLocks_passEffect] at hlast
      exact hlast
    · obtain ⟨hlock, hacquire⟩ := of_decide_eq_true hkind
      have hall := allAre_acquireReports node (heldItem node).thread (heldItem node).resource (passEffect before)
      rw [← nodeReports_of_acquire hlock hacquire] at hall
      obtain rfl := rule_of_hasReport (r := .lockOrder) hall hreport
      exact (recordReports_acquire_iff hkind).mp hreport
    · have hall := allAre_releaseReports node (formatSyncThread node) (lockOf node) (passEffect before)
      rw [← nodeReports_of_release hkind] at hall
      obtain rfl := rule_of_hasReport (r := .releaseOrder) hall hreport
      obtain ⟨hrelease, hlast, hne, htarget⟩ := recordReports_release_iff.mp hreport
      rw [activeLocks_passEffect] at hlast
      exact ⟨hrelease, ⟨hlast, htarget⟩, hne⟩
    · have hbegin := hreport
      obtain ⟨hwait, hacquire⟩ := of_decide_eq_true hkind
      rw [RecordReports, nodeReports_of_wait hwait hacquire, beginWaitReports, hasReport_append] at hbegin
      rcases hbegin with hjoin | hcondition
      · have hall := (allAre_lastHeldReports "P101-SYNC-005" node (formatSyncThread node) (lockOf node)
          (passEffect before)).ite (p := isJoinWait node = true) (allAre_nil _)
        obtain rfl := rule_of_hasReport (r := .joinHolding) hall hjoin
        have hlast := recordReports_join_iff.mp hreport
        rw [activeLocks_passEffect] at hlast
        exact hlast
      · obtain rfl := rule_of_hasReport (r := .otherMutex) (allAre_conditionReports _ _ _) hcondition
        exact (hasReport_otherMutex hkind).mp hreport
    · rw [RecordReports, hnone] at hreport
      obtain ⟨report, hmem, -⟩ := hreport
      exact absurd hmem List.not_mem_nil
  · intro h
    cases rule with
    | lockOrder => exact (recordReports_acquire_iff h.1).mpr h
    | releaseOrder =>
      obtain ⟨hrelease, ⟨hlast, htarget⟩, hne⟩ := h
      rw [← activeLocks_passEffect] at hlast
      exact recordReports_release_iff.mpr ⟨hrelease, hlast, hne, htarget⟩
    | joinHolding =>
      apply recordReports_join_iff.mpr
      rw [activeLocks_passEffect]
      exact h
    | blockHolding =>
      apply recordReports_blocking_iff.mpr
      rw [activeLocks_passEffect]
      exact h
    | destroyInUse => exact (recordReports_destroy_iff h.1).mpr h
    | consumedTwice => exact (recordReports_attempt_iff h.1).mpr h
    | otherMutex => exact (hasReport_otherMutex h.1.1).mpr h
    | deadlock | joinCycle => exact h.elim

/-- The reports of the records are those of each record after those before it. -/
theorem hasReport_passReports {identifier : String} :
    HasReport (passReports nodes) identifier source target ↔
      ∃ before node after, nodes = before ++ node :: after ∧
        RecordReports node (passEffect before) identifier source target := by
  induction nodes using List.reverseRecOn with
  | nil => simp [passReports, reportsInOrder, HasReport]
  | append_singleton nodes last ih =>
    rw [passReports_concat, hasReport_append, ih]
    constructor
    · rintro (⟨before, node, after, rfl, hreport⟩ | hreport)
      · exact ⟨before, node, after ++ [last], by simp, hreport⟩
      · exact ⟨nodes, last, [], rfl, hreport⟩
    · rintro ⟨before, node, after, hsplit, hreport⟩
      induction after using List.reverseRecOn with
      | nil =>
        obtain ⟨rfl, hlast⟩ := List.append_inj' hsplit rfl
        obtain rfl := List.singleton_inj.mp hlast
        exact .inr hreport
      | append_singleton after node' _ =>
        rw [← List.cons_append, ← List.append_assoc] at hsplit
        obtain ⟨rfl, -⟩ := List.append_inj' hsplit rfl
        exact .inl ⟨before, node, after, rfl, hreport⟩

/-- For whom a thread on a cycle is reported to wait: the holder of the first edge that leads back. -/
def deadlockHolder (nodes : List Node) (thread : EvidenceText) : Option EvidenceText :=
  ((finalArrays nodes).waitEdges.find? fun edge =>
    edge.source = thread ∧ reaches (finalArrays nodes).waitEdges edge.target thread).map SyncEdge.target

/-- The reports at the end of the pass are about cycles of waits and of joins. -/
theorem rule_of_hasReport_waits {rule : SyncRule} {waits : List SyncItem}
    (h : HasReport (waits.flatMap fun wait => waitReports wait l) rule.identifier source target) :
    rule = .deadlock ∨ rule = .joinCycle := by
  obtain ⟨report, hmem, hidentifier, -⟩ := h
  have hall := allAre_flatMap (fun wait _ => allAre_waitReports wait l) report hmem
  rcases List.mem_cons.mp hall with hreport | hreport
  · rw [hreport] at hidentifier
    exact .inl (SyncRule.eq_of_identifier (r := .deadlock) hidentifier.symm)
  · rw [List.mem_singleton.mp hreport] at hidentifier
    exact .inr (SyncRule.eq_of_identifier (r := .joinCycle) hidentifier.symm)

theorem hasReport_waitReports {wait : SyncItem} :
    HasReport (waitReports wait l) "P101-SYNC-002" source target ↔
      wait.active = true ∧ wait.join = false ∧ wait.thread = source ∧ (l.waitEdges.find? fun edge =>
        edge.source = source ∧ reaches l.waitEdges edge.target source).map SyncEdge.target = some target := by
  unfold waitReports
  split
  · next hinactive => simp [HasReport, hinactive]
  · next hactive =>
    rw [Bool.not_eq_false] at hactive
    split
    · next hjoin =>
      refine iff_of_false ?_ (by simp [hjoin])
      rintro ⟨report, hreport, hidentifier, -⟩
      split at hreport
      · rw [List.mem_singleton.mp hreport] at hidentifier
        exact deadlock_ne_join hidentifier.symm
      · exact absurd hreport List.not_mem_nil
    · next hother =>
      rw [Bool.not_eq_true] at hother
      simp only [hactive, hother, true_and, deadlockReports, HasReport]
      constructor
      · rintro ⟨report, hreport, -, rfl, rfl⟩
        cases hfind : l.waitEdges.find? (fun edge =>
            edge.source = wait.thread ∧ reaches l.waitEdges edge.target wait.thread) with
        | none =>
          rw [hfind] at hreport
          exact absurd hreport List.not_mem_nil
        | some edge =>
          rw [hfind] at hreport
          obtain rfl := List.mem_singleton.mp hreport
          exact ⟨rfl, congrArg (Option.map SyncEdge.target) hfind⟩
      · rintro ⟨rfl, hfind⟩
        obtain ⟨edge, hedge, rfl⟩ := Option.map_eq_some_iff.mp hfind
        rw [hedge]
        exact ⟨_, List.mem_singleton_self _, rfl, rfl, rfl⟩

theorem hasReport_deadlock_iff :
    HasReport (synchronizationReports nodes) "P101-SYNC-002" source target ↔
      Blocked nodes source ∧ deadlockHolder nodes source = some target := by
  have hreports : HasReport (synchronizationReports nodes) "P101-SYNC-002" source target ↔
      ∃ wait ∈ (passEffect nodes).waits, HasReport (waitReports wait (finalArrays nodes)) "P101-SYNC-002" source target :=
    exists_report_iff fun report hreport => .inl hreport.1
  simp only [hreports, hasReport_waitReports]
  refine exists_wait_iff.trans ?_
  constructor
  · rintro ⟨node, hunfinished, hother, hthread, hholder⟩
    rw [waitItemOf_join] at hother
    rw [waitItem_thread, if_neg (by simp [hother])] at hthread
    exact ⟨⟨node, hunfinished, hother, hthread⟩, hholder⟩
  · rintro ⟨⟨node, hunfinished, hother, hthread⟩, hholder⟩
    refine ⟨node, hunfinished, (waitItemOf_join node).trans hother, ?_, hholder⟩
    rwa [waitItem_thread, if_neg (by simp [hother])]

theorem violates_of_deadlockHolder (hblocked : Blocked nodes source) (h : deadlockHolder nodes source = some target) :
    Violates nodes source target .deadlock := by
  obtain ⟨edge, hfind, rfl⟩ := Option.map_eq_some_iff.mp h
  have hback := List.find?_some hfind
  obtain ⟨rfl, hreaches⟩ := of_decide_eq_true hback
  have hgraph : Linked (finalArrays nodes).waitEdges = WaitsFor nodes := by
    funext x y
    exact propext linked_waitEdges_iff
  rw [reaches_iff, hgraph] at hreaches
  exact ⟨hblocked, linked_waitEdges_iff.mp ⟨edge, List.mem_of_find?_eq_some hfind, rfl, rfl⟩, hreaches⟩

/-- A thread that waits on a cycle has a holder. -/
theorem exists_deadlockHolder (h : Violates nodes source target .deadlock) :
    ∃ holder, deadlockHolder nodes source = some holder := by
  obtain ⟨hblocked, hwaits, hback⟩ := h
  obtain ⟨report, hreport, hidentifier, rfl⟩ :=
    (deadlockReport_iff nodes source).mpr ⟨hblocked, onCycle_iff.mpr ⟨target, hwaits, hback⟩⟩
  exact ⟨report.target, (hasReport_deadlock_iff.mp ⟨report, hreport, hidentifier, rfl, rfl⟩).2⟩

def SyncRule.IsOfRecord (rule : SyncRule) : Prop := rule ≠ .deadlock ∧ rule ≠ .joinCycle

theorem violates_of_isOfRecord {rule : SyncRule} (h : rule.IsOfRecord) : Violates nodes source target rule ↔
    ∃ before node after, nodes = before ++ node :: after ∧ RecordViolates before node source target rule := by
  cases rule with
  | deadlock => exact absurd rfl h.1
  | joinCycle => exact absurd rfl h.2
  | lockOrder | releaseOrder | joinHolding | destroyInUse | consumedTwice | otherMutex | blockHolding => exact Iff.rfl

/-- Except for deadlocks, of which one holder is named, the pass reports exactly what the records violate. -/
theorem hasReport_iff_violates {rule : SyncRule} (h : rule ≠ .deadlock) :
    HasReport (synchronizationReports nodes) rule.identifier source target ↔ Violates nodes source target rule := by
  by_cases hjoin : rule = .joinCycle
  · subst hjoin
    exact joinReport_iff nodes source target
  · have hend : ¬ HasReport ((finalArrays nodes).waits.flatMap fun wait => waitReports wait (finalArrays nodes))
        rule.identifier source target := fun hreport => (rule_of_hasReport_waits hreport).elim h hjoin
    rw [synchronizationReports, hasReport_append, or_iff_left hend, hasReport_passReports,
      violates_of_isOfRecord ⟨h, hjoin⟩]
    simp only [recordReports_iff]

/-- What tells two findings of the pass apart. -/
def evidenceOf (finding : Finding) : Text × Text × Text :=
  (finding.diagnosticId, finding.evidenceFrom, finding.evidenceTo)

theorem matches_iff_evidenceOf {report : SyncReport} {finding : Finding} :
    report.Matches finding ↔ evidenceOf finding = evidenceOf report.finding := by
  rw [evidenceOf, evidenceOf, Prod.mk.injEq, Prod.mk.injEq]
  exact Iff.rfl

theorem nodup_insertAll {findings : List Finding} {reports : List SyncReport} (h : (findings.map evidenceOf).Nodup) :
    ((SyncReport.insertAll findings reports).map evidenceOf).Nodup := by
  induction reports generalizing findings with
  | nil => exact h
  | cons report reports ih =>
    apply ih
    unfold SyncReport.insert
    split
    · exact h
    · next hnew =>
      have hfresh : evidenceOf report.finding ∉ findings.map evidenceOf := by
        intro hmem
        obtain ⟨finding, hfinding, heq⟩ := List.mem_map.mp hmem
        exact hnew (List.any_eq_true.mpr ⟨finding, hfinding, decide_eq_true (matches_iff_evidenceOf.mpr heq)⟩)
      rw [List.map_append]
      exact h.append (List.nodup_singleton _) (List.disjoint_singleton.mpr hfresh)

theorem mem_insertAll {findings : List Finding} {reports : List SyncReport} {finding : Finding}
    (h : finding ∈ SyncReport.insertAll findings reports) :
    finding ∈ findings ∨ ∃ report ∈ reports, finding = report.finding := by
  induction reports generalizing findings with
  | nil => exact .inl h
  | cons report reports ih =>
    rcases ih h with hold | ⟨later, hlater, rfl⟩
    · unfold SyncReport.insert at hold
      split at hold
      · exact .inl hold
      · rcases List.mem_append.mp hold with hold | hnew
        · exact .inl hold
        · exact .inr ⟨report, List.mem_cons_self, List.mem_singleton.mp hnew⟩
    · exact .inr ⟨later, List.mem_cons_of_mem _ hlater, rfl⟩

theorem hasFinding_insertAll {reports : List SyncReport} {identifier : String} :
    HasFinding (SyncReport.insertAll [] reports) identifier source target ↔
      HasReport reports identifier source target := by
  simp only [HasFinding, HasReport, ← EvidenceText.text_inj]
  refine (SyncReport.exists_mem_insertAll (P := fun id s t =>
    id = .ofString identifier ∧ s = source.text ∧ t = target.text)).trans (or_iff_right ?_)
  rintro ⟨finding, hfinding, -⟩
  exact absurd hfinding List.not_mem_nil

theorem eq_of_mem_ite {p : Prop} [Decidable p] {report report' : SyncReport}
    (h : report ∈ if p then [report'] else []) : report = report' := by
  split at h
  · exact List.mem_singleton.mp h
  · exact absurd h List.not_mem_nil

theorem node_of_mem_lastHeldReports {identifier : String} {thread lock : EvidenceText} :
    ∀ report ∈ lastHeldReports identifier node thread lock l, report.node = node := by
  intro report hreport
  unfold lastHeldReports at hreport
  cases hfind : lastHeld l.held thread with
  | none =>
    rw [hfind] at hreport
    exact absurd hreport List.not_mem_nil
  | some item =>
    rw [hfind] at hreport
    rw [List.mem_singleton.mp hreport]

/-- The reports are about the record that makes them. -/
theorem node_of_mem_nodeReports : ∀ report ∈ nodeReports node l, report.node = node := by
  intro report hreport
  rcases nodeReports_kinds node l with hkind | hkind | hkind | hkind | hkind | hkind | hnone
  · rw [nodeReports_of_destroy hkind, destroyReports] at hreport
    rcases List.mem_append.mp hreport with hitem | hitem
    · obtain ⟨item, -, hitem⟩ := List.mem_flatMap.mp hitem
      rw [eq_of_mem_ite hitem]
    · obtain ⟨item, -, hitem⟩ := List.mem_flatMap.mp hitem
      rw [eq_of_mem_ite hitem]
  · rw [nodeReports_of_attempt hkind, terminalReports] at hreport
    obtain ⟨item, -, hitem⟩ := List.mem_flatMap.mp hreport
    rw [eq_of_mem_ite hitem]
  · rw [nodeReports_of_blocking hkind] at hreport
    exact node_of_mem_lastHeldReports report hreport
  · obtain ⟨hlock, hacquire⟩ := of_decide_eq_true hkind
    rw [nodeReports_of_acquire hlock hacquire, acquireReports_eq] at hreport
    obtain ⟨item, -, hitem⟩ := List.mem_flatMap.mp hreport
    rw [orderReports, ← ite_and] at hitem
    rw [eq_of_mem_ite hitem]
  · rw [nodeReports_of_release hkind, releaseReports] at hreport
    cases hfind : lastHeld l.held (formatSyncThread node) with
    | none =>
      rw [hfind] at hreport
      exact absurd hreport List.not_mem_nil
    | some item =>
      rw [hfind] at hreport
      rw [eq_of_mem_ite hreport]
  · obtain ⟨hwait, hacquire⟩ := of_decide_eq_true hkind
    rw [nodeReports_of_wait hwait hacquire, beginWaitReports] at hreport
    rcases List.mem_append.mp hreport with hjoin | hcondition
    · split at hjoin
      · exact node_of_mem_lastHeldReports report hjoin
      · exact absurd hjoin List.not_mem_nil
    · unfold conditionReports at hcondition
      split at hcondition
      · obtain ⟨prior, -, hprior⟩ := List.mem_flatMap.mp hcondition
        rw [eq_of_mem_ite hprior]
      · exact absurd hcondition List.not_mem_nil
  · rw [hnone] at hreport
    exact absurd hreport List.not_mem_nil

theorem node_mem_of_mem_passReports : ∀ report ∈ passReports nodes, report.node ∈ nodes := by
  induction nodes using List.reverseRecOn with
  | nil => exact fun report hreport => absurd hreport List.not_mem_nil
  | append_singleton nodes node ih =>
    intro report hreport
    rw [passReports_concat] at hreport
    rcases List.mem_append.mp hreport with hearlier | hlast
    · exact List.mem_append_left _ (ih report hearlier)
    · rw [node_of_mem_nodeReports report hlast]
      exact List.mem_append_right _ (List.mem_singleton_self _)

theorem node_of_mem_waitReports {wait : SyncItem} :
    ∀ report ∈ waitReports wait l, wait.active = true ∧ report.node = wait.node := by
  intro report hreport
  unfold waitReports at hreport
  split at hreport
  · exact absurd hreport List.not_mem_nil
  · next hactive =>
    refine ⟨Bool.eq_true_of_not_eq_false hactive, ?_⟩
    split at hreport
    · rw [eq_of_mem_ite hreport]
    · unfold deadlockReports at hreport
      cases hfind : l.waitEdges.find? fun edge =>
          edge.source = wait.thread ∧ reaches l.waitEdges edge.target wait.thread with
      | none =>
        rw [hfind] at hreport
        exact absurd hreport List.not_mem_nil
      | some edge =>
        rw [hfind] at hreport
        rw [List.mem_singleton.mp hreport]

theorem waitItemOf_node (node : Node) : (waitItemOf node).node = node := by
  unfold waitItemOf waitItem
  split <;> rfl

theorem node_mem_of_mem_synchronizationReports :
    ∀ report ∈ synchronizationReports nodes, report.node ∈ nodes := by
  intro report hreport
  rcases List.mem_append.mp hreport with hpass | hend
  · exact node_mem_of_mem_passReports report hpass
  · obtain ⟨wait, hwait, hreport⟩ := List.mem_flatMap.mp hend
    obtain ⟨hactive, hnode⟩ := node_of_mem_waitReports report hreport
    rw [waits_finalArrays, mem_waits_iff hactive] at hwait
    obtain ⟨node, ⟨i, hi, -⟩, rfl⟩ := hwait
    rw [hnode, waitItemOf_node]
    exact List.mem_of_getElem? hi

/-- Every report of the pass is under one of the rules. -/
theorem rule_of_mem_synchronizationReports :
    ∀ report ∈ synchronizationReports nodes, ∃ rule : SyncRule, report.identifier = rule.identifier := by
  have hrules : ∀ identifier ∈ ["P101-SYNC-001", "P101-SYNC-004", "P101-SYNC-005", "P101-SYNC-007", "P101-SYNC-008",
      "P101-SYNC-009", "P101-SYNC-010"] ++ ["P101-SYNC-002", "P101-SYNC-003"],
      ∃ rule : SyncRule, identifier = rule.identifier := by
    simp only [List.cons_append, List.nil_append, List.forall_mem_cons]
    exact ⟨⟨.lockOrder, rfl⟩, ⟨.releaseOrder, rfl⟩, ⟨.joinHolding, rfl⟩, ⟨.destroyInUse, rfl⟩, ⟨.consumedTwice, rfl⟩,
      ⟨.otherMutex, rfl⟩, ⟨.blockHolding, rfl⟩, ⟨.deadlock, rfl⟩, ⟨.joinCycle, rfl⟩, by simp⟩
  intro report hreport
  apply hrules
  rcases List.mem_append.mp hreport with hpass | hend
  · exact List.mem_append_left _ (forall_mem_reportsInOrder allAre_nodeReports nodes {} report hpass)
  · exact List.mem_append_right _ (allAre_flatMap (fun wait _ => allAre_waitReports wait _) report hend)

theorem violates_of_hasReport {rule : SyncRule}
    (h : HasReport (synchronizationReports nodes) rule.identifier source target) : Violates nodes source target rule := by
  by_cases hdeadlock : rule = .deadlock
  · subst hdeadlock
    obtain ⟨hblocked, hholder⟩ := hasReport_deadlock_iff.mp h
    exact violates_of_deadlockHolder hblocked hholder
  · exact (hasReport_iff_violates hdeadlock).mp h

/-- The findings are what the records violate, each once. Of those for whom a thread on a cycle waits, one is
named. -/
structure AreViolations (nodes : List Node) (findings : List Finding) : Prop where
  distinct : (findings.map evidenceOf).Nodup
  formed : ∀ finding ∈ findings, ∃ (rule : SyncRule) (node : Node) (source target : EvidenceText), node ∈ nodes ∧
    Violates nodes source target rule ∧ finding = (SyncReport.mk rule.identifier node source target).finding
  reported : ∀ rule source target, rule ≠ .deadlock → Violates nodes source target rule →
    HasFinding findings rule.identifier source target
  deadlocks : ∀ thread holder, Violates nodes thread holder .deadlock →
    ∃! reported, HasFinding findings "P101-SYNC-002" thread reported

theorem areViolations_synchronizationReports (nodes : List Node) :
    AreViolations nodes (SyncReport.insertAll [] (synchronizationReports nodes)) where
  distinct := nodup_insertAll List.nodup_nil
  formed := by
    intro finding hfinding
    obtain ⟨report, hreport, rfl⟩ := (mem_insertAll hfinding).resolve_left List.not_mem_nil
    obtain ⟨rule, hrule⟩ := rule_of_mem_synchronizationReports report hreport
    have hviolates : Violates nodes report.source report.target rule :=
      violates_of_hasReport ⟨report, hreport, congrArg Text.ofString hrule, rfl, rfl⟩
    refine ⟨rule, report.node, report.source, report.target, node_mem_of_mem_synchronizationReports report hreport,
      hviolates, ?_⟩
    rw [← hrule]
  reported := by
    intro rule source target hrule hviolates
    exact hasFinding_insertAll.mpr ((hasReport_iff_violates hrule).mpr hviolates)
  deadlocks := by
    intro thread holder hviolates
    obtain ⟨reported, hreported⟩ := exists_deadlockHolder hviolates
    refine ⟨reported, hasFinding_insertAll.mpr (hasReport_deadlock_iff.mpr ⟨hviolates.1, hreported⟩), ?_⟩
    intro other hother
    have hholder := (hasReport_deadlock_iff.mp (hasFinding_insertAll.mp hother)).2
    exact Option.some.inj (hholder.symm.trans hreported)

/-- There is no finding exactly if nothing is violated. -/
theorem AreViolations.eq_nil_iff {findings : List Finding} (h : AreViolations nodes findings) :
    findings = [] ↔ ∀ rule source target, ¬ Violates nodes source target rule := by
  constructor
  · rintro rfl rule source target hviolates
    by_cases hrule : rule = .deadlock
    · subst hrule
      obtain ⟨reported, ⟨finding, hfinding, -⟩, -⟩ := h.deadlocks source target hviolates
      exact absurd hfinding List.not_mem_nil
    · obtain ⟨finding, hfinding, -⟩ := h.reported rule source target hrule hviolates
      exact absurd hfinding List.not_mem_nil
  · intro hnone
    apply List.eq_nil_iff_forall_not_mem.mpr
    intro finding hfinding
    obtain ⟨rule, node, source, target, -, hviolates, -⟩ := h.formed finding hfinding
    exact hnone rule source target hviolates

/-- The sixth byte of an identifier tells the rules from what the resource pass reports. -/
theorem SyncRule.byte_identifier (rule : SyncRule) : (Text.ofString rule.identifier).bytes[5]? = some 83 := by
  cases rule <;> decide

theorem byte_lifecycleIdentifier (finding : Lifecycle.Finding) :
    (Text.ofString (lifecycleIdentifier finding)).bytes[5]? ≠ some 83 := by
  unfold lifecycleIdentifier
  dsimp only
  generalize decide (finding.resourceClass = .ofString "fd") = descriptor
  generalize decide (finding.resourceClass = .ofString "allocation") = allocation
  generalize decide (finding.resourceClass = .ofString "child-process" ∨
    finding.resourceClass = .ofString "pthread-joinable-thread") = processObligation
  cases finding.kind <;> cases descriptor <;> cases allocation <;> cases processObligation <;> decide

/-- No finding of the resource pass is taken for one of the synchronization pass. -/
theorem not_matches_resourceFindings {analysis : Analysis} {report : SyncReport} {rule : SyncRule}
    (hrule : report.identifier = rule.identifier) : ∀ finding ∈ resourceFindings analysis, ¬ report.Matches finding := by
  intro finding hfinding hmatches
  have hbyte := rule.byte_identifier
  rw [← hrule, ← hmatches.1] at hbyte
  rcases List.mem_append.mp hfinding with hempty | hlifecycle
  · obtain ⟨node, -, rfl⟩ := List.mem_map.mp hempty
    exact absurd hbyte (by decide : (Text.ofString "P101-MEM-001").bytes[5]? ≠ some 83)
  · obtain ⟨cause, -, rfl⟩ := List.mem_map.mp hlifecycle
    exact byte_lifecycleIdentifier cause hbyte

theorem insert_append {first findings : List Finding} {report : SyncReport}
    (h : ∀ finding ∈ first, ¬ report.Matches finding) :
    SyncReport.insert (first ++ findings) report = first ++ SyncReport.insert findings report := by
  have hfirst : (first.any fun finding => decide (report.Matches finding)) = false := by
    apply List.any_eq_false.mpr
    intro finding hfinding hmatches
    exact h finding hfinding (of_decide_eq_true hmatches)
  unfold SyncReport.insert
  rw [List.any_append, hfirst, Bool.false_or]
  split
  · rfl
  · exact List.append_assoc _ _ _

theorem insertAll_append_left {first : List Finding} {reports : List SyncReport}
    (h : ∀ report ∈ reports, ∀ finding ∈ first, ¬ report.Matches finding) (findings : List Finding) :
    SyncReport.insertAll (first ++ findings) reports = first ++ SyncReport.insertAll findings reports := by
  induction reports generalizing findings with
  | nil => rfl
  | cons report reports ih =>
    have hrest := ih (fun later hlater => h later (List.mem_cons_of_mem _ hlater))
      (SyncReport.insert findings report)
    rw [SyncReport.insertAll, List.foldl_cons, insert_append (h report List.mem_cons_self)]
    exact hrest

theorem policy_of_mem_insertAll {reports : List SyncReport} :
    ∀ finding ∈ SyncReport.insertAll [] reports, finding.policy = .synchronization := by
  intro finding hfinding
  obtain ⟨report, -, rfl⟩ := (mem_insertAll hfinding).resolve_left List.not_mem_nil
  rfl

variable {lib : RecordLibrary} {model : RunModel.Model} {w : World Analysis}

/-- Granted its requests, a run leaves the findings of the synchronization pass as that pass inserts them. -/
theorem synchronizationFindings_of_stages {file : Option SanitizerFile} {w₁ w₂ w₃ w₄ : World Analysis}
    (h : Stages model file [] w₁ w₂ w₃ w₄ w) :
    (w.state.findings.filter fun finding => finding.policy = .synchronization) =
      SyncReport.insertAll [] (synchronizationReports w.state.orderedNodes) := by
  have houtcomes : w₂.outcomes = [] := by
    have hsuffix := (obeys_analyzeResources (r := PassChange) w₁).2
    rw [h.resources] at hsuffix
    exact List.suffix_nil.mp (hsuffix.trans h.built.suffix)
  have hpass : w₃.state.findings = SyncReport.insertAll w₂.state.findings (synchronizationReports w₂.state.orderedNodes) := by
    apply (inserts_analyzeSynchronization w₂.state).ok (a := ())
    rw [← houtcomes]
    exact h.synchronization
  have hlater : Leaves .synchronization w₃.state w.state := (h.leaves_trace (by decide)).trans (h.leaves_sanitizer (by decide))
  have hchange := (obeys_analyzeSynchronization (r := PassChange) w₂).1
  rw [h.synchronization] at hchange
  have hnodes : w.state.orderedNodes = w₂.state.orderedNodes :=
    hlater.toPassChange.orderedNodes_eq.trans hchange.orderedNodes_eq
  have hapart : ∀ report ∈ synchronizationReports w₂.state.orderedNodes,
      ∀ finding ∈ resourceFindings w₁.state, ¬ report.Matches finding := by
    intro report hreport
    obtain ⟨rule, hrule⟩ := rule_of_mem_synchronizationReports report hreport
    exact not_matches_resourceFindings hrule
  rw [filter_findings_eq hlater.toPassChange (hchange.counted h.counted) hlater.count, hpass, h.reported.findings,
    h.built.findings, List.nil_append, hnodes]
  have hsplit := insertAll_append_left hapart []
  rw [List.append_nil] at hsplit
  rw [hsplit, List.filter_append, filter_policy policy_of_mem_resourceFindings, if_neg (by decide), List.nil_append,
    filter_policy policy_of_mem_insertAll, if_pos rfl]

def mutexRecord (context sequence : ℕ) (kind : ResourceKind) (mutex : String) : EventRecord :=
  { recordKind := .resource, runId := some (.ofString "run"), pid := 1, contextId := context, sequence := sequence
    resourceKind := kind, resourceClass := some (.ofString "pthread-mutex-held"), resourceId := some (.ofString mutex) }

/-- Two threads take two mutexes in opposite orders, and the second one releases them out of order. -/
def crossedMutexes : List EventRecord :=
  [mutexRecord 1 1 .acquire "a", mutexRecord 1 2 .acquire "b", mutexRecord 1 3 .release "b",
    mutexRecord 1 4 .release "a", mutexRecord 2 5 .acquire "b", mutexRecord 2 6 .acquire "a",
    mutexRecord 2 7 .release "b", mutexRecord 2 8 .release "a"]

example : ((observedRun crossedMutexes).2.state.findings.filter fun finding =>
    finding.policy = .synchronization).map Finding.diagnosticId =
      [.ofString "P101-SYNC-001", .ofString "P101-SYNC-004"] := by decide +kernel

end ToolEvent.ModelAnalysis
