import ToolEvent.CausalOrder
import ToolEvent.SynchronizationRuns

/-!
# Joinable lifetimes of threads

A thread that is joined or detached has its joinable lifetime released, and an identity that is
acquired again begins another one. The pass keeps every release for good, so that it reports an
attempt on the new lifetime as if the old one were meant.
-/

namespace ToolEvent.ModelAnalysis

open Fallible World RunModel

def isJoinableRecord (node : Node) : Bool :=
  node.domain = .resource ∧ node.recordKind = .resource ∧ node.resourceClass = .ofString "pthread-joinable-thread"

def isTerminalAttempt (node : Node) : Bool :=
  node.domain = .resource ∧ node.recordKind = .resource ∧ node.resourceClass = .ofString "pthread-terminal-attempt"

def threadIdentity (node : Node) : EvidenceText := formatSyncResource node node.resourceId

def isLifetimeOf (identity : EvidenceText) (node : Node) : Bool :=
  isJoinableRecord node ∧ threadIdentity node = identity ∧
    (node.resourceKind = .acquire ∨ node.resourceKind = .release)

def lastLifetimeKind (nodes : List Node) (identity : EvidenceText) : Option ResourceKind :=
  (nodes.filter (isLifetimeOf identity)).getLast?.map Node.resourceKind

/-- The last of these records is a RELEASE: the joinable lifetime was consumed. -/
def Consumed (nodes : List Node) (identity : EvidenceText) : Prop :=
  lastLifetimeKind nodes identity = some .release

def EverConsumed (nodes : List Node) (identity : EvidenceText) : Prop :=
  ∃ node ∈ nodes, isLifetimeOf identity node = true ∧ node.resourceKind = .release

def ConsumedBy (nodes : List Node) (identity thread : EvidenceText) : Prop :=
  ∃ node ∈ nodes, isLifetimeOf identity node = true ∧ node.resourceKind = .release ∧ formatSyncThread node = thread

/-- A lifetime of the identity was consumed, and the last record begins another one. -/
def Renewed (nodes : List Node) (identity : EvidenceText) : Prop :=
  EverConsumed nodes identity ∧ lastLifetimeKind nodes identity = some .acquire

instance (nodes : List Node) (identity : EvidenceText) : Decidable (Renewed nodes identity) :=
  inferInstanceAs (Decidable ((∃ node ∈ nodes, _ ∧ _) ∧ _ = _))

theorem everConsumed_of_consumed {identity : EvidenceText} {nodes : List Node} (h : Consumed nodes identity) :
    EverConsumed nodes identity := by
  obtain ⟨node, hlast, hkind⟩ := Option.map_eq_some_iff.mp h
  obtain ⟨hmem, hlifetime⟩ := List.mem_filter.mp (List.mem_of_getLast? hlast)
  exact ⟨node, hmem, hlifetime, hkind⟩

theorem everConsumed_of_consumedBy {identity thread : EvidenceText} {nodes : List Node}
    (h : ConsumedBy nodes identity thread) : EverConsumed nodes identity := by
  obtain ⟨node, hmem, hlifetime, hkind, -⟩ := h
  exact ⟨node, hmem, hlifetime, hkind⟩

/-- A lifetime that was consumed is the last one, or another one was begun. -/
theorem everConsumed_iff {identity : EvidenceText} {nodes : List Node} :
    EverConsumed nodes identity ↔ Consumed nodes identity ∨ Renewed nodes identity := by
  constructor
  · rintro ⟨node, hmem, hlifetime, hkind⟩
    have hne : nodes.filter (isLifetimeOf identity) ≠ [] :=
      List.ne_nil_of_mem (List.mem_filter.mpr ⟨hmem, hlifetime⟩)
    have hlast : lastLifetimeKind nodes identity =
        some ((nodes.filter (isLifetimeOf identity)).getLast hne).resourceKind := by
      rw [lastLifetimeKind, List.getLast?_eq_some_getLast hne, Option.map_some]
    have hof := (List.mem_filter.mp (List.getLast_mem hne)).2
    rcases (of_decide_eq_true hof).2.2 with hacquire | hrelease
    · rw [hacquire] at hlast
      exact .inr ⟨⟨node, hmem, hlifetime, hkind⟩, hlast⟩
    · rw [hrelease] at hlast
      exact .inl hlast
  · rintro (hconsumed | hrenewed)
    · exact everConsumed_of_consumed hconsumed
    · exact hrenewed.1

theorem not_consumed_of_renewed {identity : EvidenceText} {nodes : List Node} (h : Renewed nodes identity) :
    ¬ Consumed nodes identity := by
  intro hconsumed
  have hkind := Option.some.inj (hconsumed.symm.trans h.2)
  cases hkind

def terminatedItem (node : Node) : SyncItem where
  node := node
  thread := formatSyncThread node
  resource := threadIdentity node

theorem terminated_orderEffects (thread resource : EvidenceText) (items : List SyncItem) (l : SyncLocals) :
    (items.foldl (fun l item => orderEffect thread resource item l) l).terminated = l.terminated := by
  induction items generalizing l with
  | nil => rfl
  | cons item items ih =>
    rw [List.foldl_cons, ih]
    unfold orderEffect
    split <;> rfl

theorem terminated_endHeld (thread resource : EvidenceText) (l : SyncLocals) :
    (l.endHeld thread resource).terminated = l.terminated := by
  unfold SyncLocals.endHeld
  cases lastMatching l.held thread resource <;> rfl

theorem terminated_endWait (thread resource : EvidenceText) (l : SyncLocals) :
    (l.endWait thread resource).terminated = l.terminated := by
  unfold SyncLocals.endWait
  cases lastMatching l.waits thread resource <;> rfl

theorem nodeEffect_of_joinable {node : Node} (h : isJoinableRecord node = true) (l : SyncLocals) :
    nodeEffect node l = if node.resourceKind = .release then l.pushTerminated (terminatedItem node) else l := by
  obtain ⟨hdomain, hkind, hclass⟩ := of_decide_eq_true h
  have hmutex : Text.ofString "pthread-joinable-thread" ≠ .ofString "pthread-mutex" := by decide
  have hterminal : Text.ofString "pthread-joinable-thread" ≠ .ofString "pthread-terminal-attempt" := by decide
  have hrecord : isSynchronizationRecord node = true := by
    apply decide_eq_true
    refine ⟨hdomain, hkind, ?_⟩
    rw [hclass]
    decide
  rw [nodeEffect, if_pos hrecord]
  unfold recordEffect
  simp only [hclass, hmutex, hterminal, decide_false, decide_true]
  cases node.resourceKind <;> rfl

theorem terminated_of_not_joinable {node : Node} (h : isJoinableRecord node = false) (l : SyncLocals) :
    (nodeEffect node l).terminated = l.terminated := by
  unfold nodeEffect
  split
  · next hrecord =>
    obtain ⟨hdomain, hkind, -⟩ := of_decide_eq_true hrecord
    have hclass : decide (node.resourceClass = .ofString "pthread-joinable-thread") = false := by
      simpa [isJoinableRecord, hdomain, hkind] using h
    unfold recordEffect
    dsimp only
    rw [hclass]
    split
    · next hjoinable _ => cases hjoinable
    · exact terminated_orderEffects _ _ l.held l
    · exact terminated_endHeld _ _ l
    · rfl
    · exact terminated_endWait _ _ l
    · rfl
  · rfl

/-- Only the end of a joinable lifetime adds to the terminated threads, and nothing takes from them. -/
theorem terminated_nodeEffect (node : Node) (l : SyncLocals) :
    (nodeEffect node l).terminated =
      if isJoinableRecord node ∧ node.resourceKind = .release then l.terminated ++ [terminatedItem node]
      else l.terminated := by
  cases hjoinable : isJoinableRecord node with
  | true =>
    rw [nodeEffect_of_joinable hjoinable]
    by_cases hrelease : node.resourceKind = .release
    · rw [if_pos hrelease, if_pos ⟨rfl, hrelease⟩]
      rfl
    · rw [if_neg hrelease, if_neg (fun h => hrelease h.2)]
  | false =>
    rw [if_neg (fun h => Bool.false_ne_true h.1)]
    exact terminated_of_not_joinable hjoinable l

/-- The terminated threads are active, and they are those that consumed the lifetimes. -/
theorem exists_terminated_iff {identity thread : EvidenceText} (nodes : List Node) :
    (∃ item ∈ (passEffect nodes).terminated,
      (item.active = true ∧ item.resource = identity) ∧ item.thread = thread) ↔ ConsumedBy nodes identity thread := by
  induction nodes using List.reverseRecOn with
  | nil => simp [passEffect, ConsumedBy]
  | append_singleton nodes node ih =>
    have hconcat : ConsumedBy (nodes ++ [node]) identity thread ↔ ConsumedBy nodes identity thread ∨
        (isLifetimeOf identity node = true ∧ node.resourceKind = .release ∧ formatSyncThread node = thread) := by
      simp only [ConsumedBy, List.mem_append, List.mem_singleton, or_and_right, exists_or, exists_eq_left]
    rw [hconcat, ← ih, passEffect_concat, terminated_nodeEffect]
    split
    · next hends =>
      have hlifetime : isLifetimeOf identity node = true ∧ node.resourceKind = .release ∧
          formatSyncThread node = thread ↔ threadIdentity node = identity ∧ formatSyncThread node = thread := by
        simp [isLifetimeOf, hends.1, hends.2]
      have hactive : (terminatedItem node).active = true := rfl
      have hresource : (terminatedItem node).resource = threadIdentity node := rfl
      have hthread : (terminatedItem node).thread = formatSyncThread node := rfl
      rw [hlifetime]
      simp only [List.mem_append, List.mem_singleton, or_and_right, exists_or, exists_eq_left, hactive, hresource,
        hthread, true_and]
    · next hkeeps =>
      refine (or_iff_left ?_).symm
      rintro ⟨hlifetime, hrelease, -⟩
      exact hkeeps ⟨(of_decide_eq_true hlifetime).1, hrelease⟩

theorem nodeReports_of_attempt {node : Node} (h : isTerminalAttempt node = true) (l : SyncLocals) :
    nodeReports node l = terminalReports node (threadIdentity node) l := by
  obtain ⟨hdomain, hkind, hclass⟩ := of_decide_eq_true h
  have hmutex : Text.ofString "pthread-terminal-attempt" ≠ .ofString "pthread-mutex" := by decide
  have hrecord : isSynchronizationRecord node = true := by
    apply decide_eq_true
    refine ⟨hdomain, hkind, ?_⟩
    rw [hclass]
    decide
  rw [nodeReports, if_pos hrecord]
  unfold recordReports
  simp only [hclass, hmutex, decide_false, decide_true]
  rfl

/-- A finding says that the joinable lifetime of the identity was consumed more than once, the first time
by the thread. -/
def HasTerminalFinding (findings : List Finding) (identity thread : EvidenceText) : Prop :=
  HasFinding findings "P101-SYNC-008" identity thread

/-- An attempt reports every thread that released the identity before it. -/
theorem recordReports_iff_consumedBy {node : Node} (h : isTerminalAttempt node = true) (nodes : List Node)
    (thread : EvidenceText) :
    RecordReports node (passEffect nodes) "P101-SYNC-008" (threadIdentity node) thread ↔
      ConsumedBy nodes (threadIdentity node) thread := by
  rw [← exists_terminated_iff]
  unfold RecordReports HasReport
  rw [nodeReports_of_attempt h]
  simp only [terminalReports, List.mem_flatMap]
  constructor
  · rintro ⟨report, ⟨item, hitem, hreport⟩, -, -, hthread⟩
    split at hreport
    · next hmatches =>
      obtain rfl := List.mem_singleton.mp hreport
      exact ⟨item, hitem, hmatches, hthread⟩
    · exact absurd hreport List.not_mem_nil
  · rintro ⟨item, hitem, hmatches, rfl⟩
    refine ⟨⟨"P101-SYNC-008", node, threadIdentity node, item.thread⟩, ⟨item, hitem, ?_⟩, rfl, rfl, rfl⟩
    rw [if_pos hmatches]
    exact List.mem_singleton_self _

variable {analysis : Analysis} {nodes : List Node} {w w' : World SyncState} {node : Node}

theorem Reached.hasTerminalFinding_iff (h : Reached analysis nodes w)
    (hstep : synchronizeNode node w = (.ok (), w')) (hattempt : isTerminalAttempt node = true)
    (thread : EvidenceText) :
    HasTerminalFinding w'.state.1.findings (threadIdentity node) thread ↔
      HasTerminalFinding w.state.1.findings (threadIdentity node) thread ∨
        ConsumedBy nodes (threadIdentity node) thread := by
  rw [← recordReports_iff_consumedBy hattempt]
  exact h.hasFinding_iff hstep

/-- The pass over the ordered nodes has come to an attempt and goes on behind it. -/
structure AttemptStep (analysis : Analysis) (before : List Node) (node : Node) (w w' : World SyncState) : Prop where
  split : ∃ after, analysis.orderedNodes = before ++ node :: after
  reached : Reached analysis before w
  step : synchronizeNode node w = (.ok (), w')
  attempt : isTerminalAttempt node = true

/-- At every attempt a finding is there exactly when the same finding was there, which is not repeated,
or when the joinable lifetime was consumed and the finding names a thread that did so. -/
def AttemptsFollow (analysis : Analysis) : Prop :=
  ∀ before node w w', AttemptStep analysis before node w w' → ∀ thread,
    (HasTerminalFinding w'.state.1.findings (threadIdentity node) thread ↔
      HasTerminalFinding w.state.1.findings (threadIdentity node) thread ∨
        Consumed before (threadIdentity node) ∧ ConsumedBy before (threadIdentity node) thread)

/-- An attempt on a lifetime that was begun anew comes after the findings about all threads that
consumed an earlier one. -/
def RenewalsReported (analysis : Analysis) : Prop :=
  ∀ before node w w', AttemptStep analysis before node w w' → Renewed before (threadIdentity node) →
    ∀ thread, ConsumedBy before (threadIdentity node) thread →
      HasTerminalFinding w.state.1.findings (threadIdentity node) thread

/-- The pass follows the joinable lifetimes exactly when no attempt meets a lifetime that was begun
anew without the findings about the earlier ones being there already. -/
theorem attemptsFollow_iff (analysis : Analysis) : AttemptsFollow analysis ↔ RenewalsReported analysis := by
  constructor
  · intro hfollow before node w w' hattempt hrenewed thread hconsumedBy
    have hadded := (hattempt.reached.hasTerminalFinding_iff hattempt.step hattempt.attempt thread).mpr (.inr hconsumedBy)
    have hspec := (hfollow before node w w' hattempt thread).mp hadded
    exact hspec.resolve_right fun hconsumed => not_consumed_of_renewed hrenewed hconsumed.1
  · intro hrenewals before node w w' hattempt thread
    rw [hattempt.reached.hasTerminalFinding_iff hattempt.step hattempt.attempt]
    constructor
    · rintro (hfinding | hconsumedBy)
      · exact .inl hfinding
      · rcases everConsumed_iff.mp (everConsumed_of_consumedBy hconsumedBy) with hconsumed | hrenewed
        · exact .inr ⟨hconsumed, hconsumedBy⟩
        · exact .inl (hrenewals before node w w' hattempt hrenewed thread hconsumedBy)
    · rintro (hfinding | ⟨-, hconsumedBy⟩)
      · exact .inl hfinding
      · exact .inr hconsumedBy

def threadRecord (sequence : ℕ) (kind : ResourceKind) (resourceClass : String) : EventRecord :=
  { recordKind := .resource, runId := some (.ofString "run"), pid := 42, contextId := 7, sequence := sequence
    resourceKind := kind, resourceClass := some (.ofString resourceClass), resourceId := some (.ofString "T") }

def renewedThread : List EventRecord :=
  [threadRecord 1 .release "pthread-joinable-thread", threadRecord 2 .acquire "pthread-joinable-thread"]

def rejoin : EventRecord := threadRecord 3 .use "pthread-terminal-attempt"

def rejoinedAnalysis : Analysis :=
  (buildCausalOrder ⟨{ model := modelOf .standard (renewedThread ++ [rejoin]) }, []⟩).2.state

def renewedWorld : World SyncState :=
  (forEach synchronizeNode (renewedThread.map Node.ofRecord) ⟨(rejoinedAnalysis, {}), []⟩).2

theorem attemptsFollow_rejoinedThread :
    Finished .standard (modelOf .standard (renewedThread ++ [rejoin])) ∧ ¬ AttemptsFollow rejoinedAnalysis := by
  refine ⟨finished_modelOf _ (by decide +kernel), fun hfollow => ?_⟩
  have hreached : Reached rejoinedAnalysis (renewedThread.map Node.ofRecord) renewedWorld :=
    Prod.ext (by decide +kernel) rfl
  have hstep : synchronizeNode (.ofRecord rejoin) renewedWorld =
      (.ok (), (synchronizeNode (.ofRecord rejoin) renewedWorld).2) := Prod.ext (by decide +kernel) rfl
  have hattempt : isTerminalAttempt (.ofRecord rejoin) = true := by decide
  have hsplit : rejoinedAnalysis.orderedNodes = renewedThread.map Node.ofRecord ++ [.ofRecord rejoin] := by
    decide +kernel
  have hrenewed : Renewed (renewedThread.map Node.ofRecord) (threadIdentity (.ofRecord rejoin)) := by decide +kernel
  have hnone : renewedWorld.state.1.findings = [] := by decide +kernel
  obtain ⟨release, hmem, hlifetime, hrelease⟩ := hrenewed.1
  have hadded := (hreached.hasTerminalFinding_iff hstep hattempt (formatSyncThread release)).mpr
    (.inr ⟨release, hmem, hlifetime, hrelease, rfl⟩)
  rcases (hfollow _ _ _ _ ⟨⟨[], hsplit⟩, hreached, hstep, hattempt⟩ _).mp hadded with ⟨finding, hfinding, -⟩ | hconsumed
  · rw [hnone] at hfinding
    exact absurd hfinding List.not_mem_nil
  · exact not_consumed_of_renewed hrenewed hconsumed.1

end ToolEvent.ModelAnalysis
