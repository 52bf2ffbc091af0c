import ToolEvent.SynchronizationReports

/-!
# Cycles of the final wait-for graph

At the end of the pass the active waits are those no record ended, and the active held items
the locks no record released. The edges made from them are the wait-for graph, and the
reports about them are those of the threads and of the joins on its cycles.
-/

namespace ToolEvent.ModelAnalysis

open Fallible World Reachability Relation RunModel

/-- A join that does not end, from the name of its waiter to the name of its target. -/
def UnfinishedJoin (nodes : List Node) (waiter target : EvidenceText) : Prop :=
  ∃ node, Unfinished nodes node ∧ isJoinWait node = true ∧
    formatSyncResource node node.resourceId = waiter ∧ formatSyncResource node node.relatedId = target

/-- The thread waits for something else than a join, and the wait does not end. -/
def Blocked (nodes : List Node) (thread : EvidenceText) : Prop :=
  ∃ node, Unfinished nodes node ∧ isJoinWait node = false ∧ formatSyncThread node = thread

def Awaits (nodes : List Node) (thread holder : EvidenceText) : Prop :=
  ∃ node, Unfinished nodes node ∧ isJoinWait node = false ∧ formatSyncThread node = thread ∧
    Holds nodes holder (formatSyncResource node node.resourceId)

def WaitsFor (nodes : List Node) (x y : EvidenceText) : Prop := Awaits nodes x y ∨ UnfinishedJoin nodes x y

theorem waitItemOf_join (node : Node) : (waitItemOf node).join = isJoinWait node := by
  unfold waitItemOf waitItem
  split
  · next hjoin => exact hjoin.symm
  · next hjoin => exact (Bool.eq_false_of_not_eq_true hjoin).symm

theorem waitItemOf_target {node : Node} (h : isJoinWait node = true) :
    (waitItemOf node).target = formatSyncResource node node.relatedId := by
  unfold waitItemOf waitItem
  rw [if_pos h]

/-- The records do not touch the edges of the waits. -/
theorem waitEdges_nodeEffect (node : Node) (l : SyncLocals) :
    (nodeEffect node l).waitEdges = l.waitEdges ∧ (nodeEffect node l).joinEdges = l.joinEdges := by
  cases hlock : isLockRecord node with
  | true =>
    rw [nodeEffect_of_lock hlock]
    cases node.resourceKind with
    | acquire => exact (orderEffects_keep _ _ l.held l).2.2
    | release =>
      dsimp only
      unfold SyncLocals.endHeld
      split <;> exact ⟨rfl, rfl⟩
    | replace | transfer | use => exact ⟨rfl, rfl⟩
  | false =>
    cases hwait : isWaitRecord node with
    | true =>
      rw [nodeEffect_of_wait hwait]
      cases node.resourceKind with
      | release =>
        dsimp only
        unfold SyncLocals.endWait
        split <;> exact ⟨rfl, rfl⟩
      | acquire | replace | transfer | use => exact ⟨rfl, rfl⟩
    | false =>
      rcases nodeEffect_of_other hlock hwait l with hsame | ⟨item, hpush⟩
      · rw [hsame]
        exact ⟨rfl, rfl⟩
      · rw [hpush]
        exact ⟨rfl, rfl⟩

theorem waitEdges_passEffect (nodes : List Node) :
    (passEffect nodes).waitEdges = [] ∧ (passEffect nodes).joinEdges = [] := by
  induction nodes using List.reverseRecOn with
  | nil => exact ⟨rfl, rfl⟩
  | append_singleton nodes node ih =>
    obtain ⟨hwait, hjoin⟩ := waitEdges_nodeEffect node (passEffect nodes)
    rw [passEffect_concat]
    exact ⟨hwait.trans ih.1, hjoin.trans ih.2⟩

/-- The body of the loop over the held items. -/
def holderEffect (wait item : SyncItem) (l : SyncLocals) : SyncLocals :=
  if item.active ∧ item.resource = wait.resource then l.pushWaitEdge ⟨wait.thread, item.thread⟩ else l

structure KeepsItems (l l' : SyncLocals) : Prop where
  held : l'.held = l.held
  waits : l'.waits = l.waits

theorem keepsItems_holderEffects (wait : SyncItem) (items : List SyncItem) (l : SyncLocals) :
    let l' := items.foldl (fun l item => holderEffect wait item l) l
    KeepsItems l l' ∧ l'.joinEdges = l.joinEdges := by
  induction items generalizing l with
  | nil => exact ⟨⟨rfl, rfl⟩, rfl⟩
  | cons item items ih =>
    obtain ⟨⟨hheld, hwaits⟩, hjoin⟩ := ih (holderEffect wait item l)
    have hstep : KeepsItems l (holderEffect wait item l) ∧ (holderEffect wait item l).joinEdges = l.joinEdges := by
      unfold holderEffect
      split <;> exact ⟨⟨rfl, rfl⟩, rfl⟩
    exact ⟨⟨hheld.trans hstep.1.held, hwaits.trans hstep.1.waits⟩, hjoin.trans hstep.2⟩

/-- The edge of a waiting thread to that of a held item. -/
def AwaitsItem (wait item : SyncItem) (x y : EvidenceText) : Prop :=
  item.active = true ∧ item.resource = wait.resource ∧ wait.thread = x ∧ item.thread = y

theorem linked_holderEffects (wait : SyncItem) (items : List SyncItem) (l : SyncLocals) {x y : EvidenceText} :
    Linked (items.foldl (fun l item => holderEffect wait item l) l).waitEdges x y ↔
      Linked l.waitEdges x y ∨ ∃ item ∈ items, AwaitsItem wait item x y := by
  induction items generalizing l with
  | nil => simp
  | cons item items ih =>
    rw [List.foldl_cons, ih, List.exists_mem_cons_iff, ← or_assoc]
    apply or_congr_left
    unfold holderEffect
    split
    · next hholds =>
      have hpush : (l.pushWaitEdge ⟨wait.thread, item.thread⟩).waitEdges =
        l.waitEdges ++ [⟨wait.thread, item.thread⟩] := rfl
      rw [hpush, linked_concat]
      apply or_congr_right
      simp only [AwaitsItem, hholds, true_and]
      exact and_congr eq_comm eq_comm
    · next hholds =>
      refine (or_iff_left ?_).symm
      exact fun hawaits => hholds ⟨hawaits.1, hawaits.2.1⟩

def JoinsTo (wait : SyncItem) (x y : EvidenceText) : Prop :=
  wait.active = true ∧ wait.join = true ∧ wait.thread = x ∧ wait.target = y

/-- The edges another wait adds. -/
def AwaitsAmong (items : List SyncItem) (wait : SyncItem) (x y : EvidenceText) : Prop :=
  wait.active = true ∧ wait.join = false ∧ ∃ item ∈ items, AwaitsItem wait item x y

theorem addWaitEdges_spec (wait : SyncItem) (l : SyncLocals) :
    KeepsItems l (l.addWaitEdges wait) ∧
      (∀ x y, Linked (l.addWaitEdges wait).joinEdges x y ↔ Linked l.joinEdges x y ∨ JoinsTo wait x y) ∧
      ∀ x y, Linked (l.addWaitEdges wait).waitEdges x y ↔
        Linked l.waitEdges x y ∨ JoinsTo wait x y ∨ AwaitsAmong l.held wait x y := by
  unfold SyncLocals.addWaitEdges JoinsTo AwaitsAmong
  split
  · next hinactive => exact ⟨⟨rfl, rfl⟩, by simp [hinactive], by simp [hinactive]⟩
  · next hactive =>
    rw [Bool.not_eq_false] at hactive
    split
    · next hjoin =>
      have hedge : ∀ x y, x = wait.thread ∧ y = wait.target ↔ wait.thread = x ∧ wait.target = y :=
        fun x y => and_congr eq_comm eq_comm
      refine ⟨⟨rfl, rfl⟩, fun x y => ?_, fun x y => ?_⟩
      · have hpush : ((l.pushJoinEdge ⟨wait.thread, wait.target⟩).pushWaitEdge
          ⟨wait.thread, wait.target⟩).joinEdges = l.joinEdges ++ [⟨wait.thread, wait.target⟩] := rfl
        rw [hpush, linked_concat]
        simp [hactive, hjoin, hedge]
      · have hpush : ((l.pushJoinEdge ⟨wait.thread, wait.target⟩).pushWaitEdge
          ⟨wait.thread, wait.target⟩).waitEdges = l.waitEdges ++ [⟨wait.thread, wait.target⟩] := rfl
        rw [hpush, linked_concat]
        simp [hactive, hjoin, hedge]
    · next hother =>
      rw [Bool.not_eq_true] at hother
      obtain ⟨hkeeps, hjoin⟩ := keepsItems_holderEffects wait l.held l
      refine ⟨hkeeps, fun x y => ?_, fun x y => ?_⟩
      · have hsame : (l.held.foldl (fun l item => if item.active ∧ item.resource = wait.resource then
            l.pushWaitEdge ⟨wait.thread, item.thread⟩ else l) l).joinEdges = l.joinEdges := hjoin
        simp [hsame, hother]
      · refine (linked_holderEffects wait l.held l).trans ?_
        simp [hactive, hother]

theorem addAllWaitEdges_spec (waits : List SyncItem) (l : SyncLocals) :
    let l' := waits.foldl (fun l wait => l.addWaitEdges wait) l
    KeepsItems l l' ∧
      (∀ x y, Linked l'.joinEdges x y ↔ Linked l.joinEdges x y ∨ ∃ wait ∈ waits, JoinsTo wait x y) ∧
      ∀ x y, Linked l'.waitEdges x y ↔
        Linked l.waitEdges x y ∨ ∃ wait ∈ waits, JoinsTo wait x y ∨ AwaitsAmong l.held wait x y := by
  induction waits generalizing l with
  | nil => exact ⟨⟨rfl, rfl⟩, by simp, by simp⟩
  | cons wait waits ih =>
    obtain ⟨hkeeps, hjoin, hwait⟩ := addWaitEdges_spec wait l
    obtain ⟨hkeeps', hjoin', hwait'⟩ := ih (l.addWaitEdges wait)
    refine ⟨⟨hkeeps'.held.trans hkeeps.held, hkeeps'.waits.trans hkeeps.waits⟩, fun x y => ?_, fun x y => ?_⟩
    · rw [List.foldl_cons, hjoin', hjoin, List.exists_mem_cons_iff, or_assoc]
    · rw [List.foldl_cons, hwait', hwait, List.exists_mem_cons_iff, or_assoc, hkeeps.held]

theorem waits_finalArrays (nodes : List Node) : (finalArrays nodes).waits = (passEffect nodes).waits :=
  (addAllWaitEdges_spec (passEffect nodes).waits (passEffect nodes)).1.waits

theorem not_linked_nil {x y : EvidenceText} : ¬ Linked [] x y := by
  rintro ⟨edge, hedge, -⟩
  exact absurd hedge List.not_mem_nil

/-- The active waits of the pass, by their records. -/
theorem exists_wait_iff {nodes : List Node} {P : SyncItem → Prop} :
    (∃ wait ∈ (passEffect nodes).waits, wait.active = true ∧ P wait) ↔
      ∃ node, Unfinished nodes node ∧ P (waitItemOf node) := by
  constructor
  · rintro ⟨wait, hwait, hactive, hP⟩
    obtain ⟨node, hunfinished, rfl⟩ := (mem_waits_iff hactive).mp hwait
    exact ⟨node, hunfinished, hP⟩
  · rintro ⟨node, hunfinished, hP⟩
    have hactive := waitItemOf_active node
    exact ⟨_, (mem_waits_iff hactive).mpr ⟨node, hunfinished, rfl⟩, hactive, hP⟩

theorem exists_joinsTo_iff {nodes : List Node} {x y : EvidenceText} :
    (∃ wait ∈ (passEffect nodes).waits, JoinsTo wait x y) ↔ UnfinishedJoin nodes x y := by
  refine exists_wait_iff.trans (exists_congr fun node => and_congr_right fun _ => ?_)
  rw [waitItemOf_join]
  apply and_congr_right
  intro hjoin
  rw [waitItemOf_target hjoin, waitItem_thread, if_pos hjoin]

theorem exists_awaitsAmong_iff {nodes : List Node} {x y : EvidenceText} :
    (∃ wait ∈ (passEffect nodes).waits, AwaitsAmong (passEffect nodes).held wait x y) ↔ Awaits nodes x y := by
  refine exists_wait_iff.trans (exists_congr fun node => and_congr_right fun _ => ?_)
  rw [waitItemOf_join]
  apply and_congr_right
  intro hother
  rw [← exists_held_iff]
  simp only [AwaitsItem, waitItem_thread, waitItem_resource, hother, Bool.false_eq_true, if_false]
  constructor
  · rintro ⟨item, hitem, hactive, hresource, hthread, hholder⟩
    exact ⟨hthread, item, hitem, hactive, hholder, hresource⟩
  · rintro ⟨hthread, item, hitem, hactive, hholder, hresource⟩
    exact ⟨item, hitem, hactive, hresource, hthread, hholder⟩

theorem linked_joinEdges_iff {nodes : List Node} {x y : EvidenceText} :
    Linked (finalArrays nodes).joinEdges x y ↔ UnfinishedJoin nodes x y := by
  have hspec := (addAllWaitEdges_spec (passEffect nodes).waits (passEffect nodes)).2.1 x y
  rw [(waitEdges_passEffect nodes).2, or_iff_right not_linked_nil, exists_joinsTo_iff] at hspec
  exact hspec

theorem linked_waitEdges_iff {nodes : List Node} {x y : EvidenceText} :
    Linked (finalArrays nodes).waitEdges x y ↔ WaitsFor nodes x y := by
  have hspec := (addAllWaitEdges_spec (passEffect nodes).waits (passEffect nodes)).2.2 x y
  rw [(waitEdges_passEffect nodes).1, or_iff_right not_linked_nil] at hspec
  simp only [and_or_left, exists_or] at hspec
  rw [exists_joinsTo_iff, exists_awaitsAmong_iff] at hspec
  exact hspec.trans or_comm

theorem onCycle_linked_iff {edges : List SyncEdge} {v : EvidenceText} :
    OnCycle (Linked edges) v ↔ ∃ edge ∈ edges, edge.source = v ∧ reaches edges edge.target v = true := by
  simp only [onCycle_iff, reaches_iff]
  constructor
  · rintro ⟨u, ⟨edge, hedge, rfl, rfl⟩, hpath⟩
    exact ⟨edge, hedge, rfl, hpath⟩
  · rintro ⟨edge, hedge, rfl, hpath⟩
    exact ⟨edge.target, ⟨edge, hedge, rfl, rfl⟩, hpath⟩

def IsDeadlockReport (thread : EvidenceText) (report : SyncReport) : Prop :=
  Text.ofString report.identifier = .ofString "P101-SYNC-002" ∧ report.source = thread

def IsJoinReport (waiter target : EvidenceText) (report : SyncReport) : Prop :=
  Text.ofString report.identifier = .ofString "P101-SYNC-003" ∧ report.source = waiter ∧ report.target = target

theorem deadlock_ne_join : Text.ofString "P101-SYNC-002" ≠ .ofString "P101-SYNC-003" := by decide

/-- A thread is reported, by its first edge that leads back, when it lies on a cycle. -/
theorem exists_deadlockReport_iff {wait : SyncItem} {edges : List SyncEdge} {thread : EvidenceText} :
    (∃ report ∈ deadlockReports wait edges edges, IsDeadlockReport thread report) ↔
      wait.thread = thread ∧ OnCycle (Linked edges) thread := by
  rw [onCycle_linked_iff]
  unfold deadlockReports
  cases hfind : edges.find? (fun edge => edge.source = wait.thread ∧ reaches edges edge.target wait.thread) with
  | none =>
    refine iff_of_false (by simp) ?_
    rintro ⟨rfl, edge, hedge, hsource, hreaches⟩
    exact absurd (decide_eq_true ⟨hsource, hreaches⟩) (List.find?_eq_none.mp hfind edge hedge)
  | some edge =>
    obtain ⟨hsource, hreaches⟩ : edge.source = wait.thread ∧ reaches edges edge.target wait.thread = true := by
      simpa using List.find?_some hfind
    constructor
    · rintro ⟨report, hreport, -, rfl⟩
      rw [List.mem_singleton.mp hreport]
      exact ⟨rfl, edge, List.mem_of_find?_eq_some hfind, hsource, hreaches⟩
    · rintro ⟨rfl, -⟩
      exact ⟨_, List.mem_singleton.mpr rfl, rfl, rfl⟩

theorem exists_waitReport_deadlock_iff {wait : SyncItem} {l : SyncLocals} {thread : EvidenceText} :
    (∃ report ∈ waitReports wait l, IsDeadlockReport thread report) ↔
      wait.active = true ∧ wait.join = false ∧ wait.thread = thread ∧ OnCycle (Linked l.waitEdges) thread := by
  unfold waitReports
  split
  · next hinactive => simp [hinactive]
  · next hactive =>
    rw [Bool.not_eq_false] at hactive
    split
    · next hjoin =>
      refine iff_of_false ?_ (by simp [hjoin])
      rintro ⟨report, hreport, hidentifier, -⟩
      split at hreport
      · rw [List.mem_singleton.mp hreport] at hidentifier
        exact deadlock_ne_join hidentifier.symm
      · exact absurd hreport List.not_mem_nil
    · next hother => simp [exists_deadlockReport_iff, hactive, hother]

theorem exists_waitReport_join_iff {wait : SyncItem} {l : SyncLocals} {waiter target : EvidenceText} :
    (∃ report ∈ waitReports wait l, IsJoinReport waiter target report) ↔
      JoinsTo wait waiter target ∧ ReflTransGen (Linked l.joinEdges) target waiter := by
  unfold waitReports JoinsTo
  split
  · next hinactive => simp [hinactive]
  · next hactive =>
    rw [Bool.not_eq_false] at hactive
    split
    · next hjoin =>
      constructor
      · rintro ⟨report, hreport, -, rfl, rfl⟩
        split at hreport
        · next hreaches =>
          rw [List.mem_singleton.mp hreport]
          exact ⟨⟨hactive, hjoin, rfl, rfl⟩, reaches_iff.mp hreaches⟩
        · exact absurd hreport List.not_mem_nil
      · rintro ⟨⟨-, -, rfl, rfl⟩, hpath⟩
        rw [if_pos (reaches_iff.mpr hpath)]
        exact ⟨_, List.mem_singleton.mpr rfl, rfl, rfl, rfl⟩
    · next hother =>
      refine iff_of_false ?_ (by simp [hother])
      rintro ⟨report, hreport, hidentifier, -⟩
      unfold deadlockReports at hreport
      cases hfind : l.waitEdges.find? (fun edge =>
        edge.source = wait.thread ∧ reaches l.waitEdges edge.target wait.thread) with
      | none =>
        rw [hfind] at hreport
        exact absurd hreport List.not_mem_nil
      | some edge =>
        rw [hfind] at hreport
        rw [List.mem_singleton.mp hreport] at hidentifier
        exact deadlock_ne_join hidentifier

theorem exists_report_iff {nodes : List Node} {P : SyncReport → Prop}
    (hP : ∀ report, P report → Text.ofString report.identifier = .ofString "P101-SYNC-002" ∨
      Text.ofString report.identifier = .ofString "P101-SYNC-003") :
    (∃ report ∈ synchronizationReports nodes, P report) ↔
      ∃ wait ∈ (passEffect nodes).waits, ∃ report ∈ waitReports wait (finalArrays nodes), P report := by
  have hpass : ¬ ∃ report ∈ passReports nodes, P report := by
    rintro ⟨report, hreport, hreported⟩
    have hidentifier := forall_mem_reportsInOrder allAre_nodeReports nodes {} report hreport
    have hothers : ∀ identifier ∈ ["P101-SYNC-001", "P101-SYNC-004", "P101-SYNC-005", "P101-SYNC-007",
        "P101-SYNC-008", "P101-SYNC-009", "P101-SYNC-010"],
        ¬ (Text.ofString identifier = .ofString "P101-SYNC-002" ∨
          Text.ofString identifier = .ofString "P101-SYNC-003") := by decide
    exact hothers report.identifier hidentifier (hP report hreported)
  simp only [synchronizationReports, List.mem_append, or_and_right, exists_or, or_iff_right hpass,
    List.mem_flatMap, waits_finalArrays]
  constructor
  · rintro ⟨report, ⟨wait, hwait, hreport⟩, hreported⟩
    exact ⟨wait, hwait, report, hreport, hreported⟩
  · rintro ⟨wait, hwait, report, hreport, hreported⟩
    exact ⟨report, ⟨wait, hwait, hreport⟩, hreported⟩

theorem deadlockReport_iff (nodes : List Node) (thread : EvidenceText) :
    (∃ report ∈ synchronizationReports nodes, IsDeadlockReport thread report) ↔
      Blocked nodes thread ∧ OnCycle (WaitsFor nodes) thread := by
  have hgraph : Linked (finalArrays nodes).waitEdges = WaitsFor nodes := by
    funext x y
    exact propext linked_waitEdges_iff
  rw [exists_report_iff fun report hreport => .inl hreport.1]
  simp only [exists_waitReport_deadlock_iff, hgraph]
  refine exists_wait_iff.trans ?_
  constructor
  · rintro ⟨node, hunfinished, hother, hthread, hcycle⟩
    rw [waitItemOf_join] at hother
    rw [waitItem_thread, if_neg (by simp [hother])] at hthread
    exact ⟨⟨node, hunfinished, hother, hthread⟩, hcycle⟩
  · rintro ⟨⟨node, hunfinished, hother, hthread⟩, hcycle⟩
    refine ⟨node, hunfinished, (waitItemOf_join node).trans hother, ?_, hcycle⟩
    rwa [waitItem_thread, if_neg (by simp [hother])]

theorem joinReport_iff (nodes : List Node) (waiter target : EvidenceText) :
    (∃ report ∈ synchronizationReports nodes, IsJoinReport waiter target report) ↔
      EdgeOnCycle (UnfinishedJoin nodes) waiter target := by
  have hgraph : Linked (finalArrays nodes).joinEdges = UnfinishedJoin nodes := by
    funext x y
    exact propext linked_joinEdges_iff
  rw [exists_report_iff fun report hreport => .inr hreport.1]
  simp only [exists_waitReport_join_iff, hgraph, EdgeOnCycle, ← exists_joinsTo_iff (x := waiter)]
  constructor
  · rintro ⟨wait, hwait, hjoins, hpath⟩
    exact ⟨⟨wait, hwait, hjoins⟩, hpath⟩
  · rintro ⟨⟨wait, hwait, hjoins⟩, hpath⟩
    exact ⟨wait, hwait, hjoins, hpath⟩

def HasDeadlockFinding (findings : List Finding) (thread : EvidenceText) : Prop :=
  ∃ finding ∈ findings, finding.diagnosticId = .ofString "P101-SYNC-002" ∧ finding.evidenceFrom = thread.text

/-- Some finding says that the join is on a cycle of joins. -/
def HasJoinFinding (findings : List Finding) (waiter target : EvidenceText) : Prop :=
  ∃ finding ∈ findings, finding.diagnosticId = .ofString "P101-SYNC-003" ∧
    finding.evidenceFrom = waiter.text ∧ finding.evidenceTo = target.text

theorem hasDeadlockFinding_insertAll {findings : List Finding} {reports : List SyncReport}
    {thread : EvidenceText} :
    HasDeadlockFinding (SyncReport.insertAll findings reports) thread ↔
      HasDeadlockFinding findings thread ∨ ∃ report ∈ reports, IsDeadlockReport thread report := by
  simp only [IsDeadlockReport, ← EvidenceText.text_inj]
  exact SyncReport.exists_mem_insertAll
    (P := fun identifier source _ => identifier = .ofString "P101-SYNC-002" ∧ source = thread.text)

theorem hasJoinFinding_insertAll {findings : List Finding} {reports : List SyncReport}
    {waiter target : EvidenceText} :
    HasJoinFinding (SyncReport.insertAll findings reports) waiter target ↔
      HasJoinFinding findings waiter target ∨ ∃ report ∈ reports, IsJoinReport waiter target report := by
  simp only [IsJoinReport, ← EvidenceText.text_inj]
  exact SyncReport.exists_mem_insertAll (P := fun identifier source destination =>
    identifier = .ofString "P101-SYNC-003" ∧ source = waiter.text ∧ destination = target.text)

/-- What the final graph calls for: the blocked threads on its cycles. -/
def Deadlocked (nodes : List Node) (thread : EvidenceText) : Prop :=
  Blocked nodes thread ∧ OnCycle (WaitsFor nodes) thread

/-- Granted its requests, the pass leaves exactly the findings about waits that were there or that
the final graph calls for. It fails only when the findings outgrow `SIZE_MAX` bytes, and even
then it leaves no others. -/
theorem waitFindings_iff (analysis : Analysis) :
    Ends analyzeSynchronization ⟨analysis, []⟩
      (fun _ w =>
        (∀ thread, HasDeadlockFinding w.state.findings thread ↔
          HasDeadlockFinding analysis.findings thread ∨ Deadlocked analysis.orderedNodes thread) ∧
        ∀ waiter target, HasJoinFinding w.state.findings waiter target ↔
          HasJoinFinding analysis.findings waiter target ∨
            EdgeOnCycle (UnfinishedJoin analysis.orderedNodes) waiter target)
      (fun w => w.state.Exhausted ∧
        (∀ thread, HasDeadlockFinding w.state.findings thread →
          HasDeadlockFinding analysis.findings thread ∨ Deadlocked analysis.orderedNodes thread) ∧
        ∀ waiter target, HasJoinFinding w.state.findings waiter target →
          HasJoinFinding analysis.findings waiter target ∨
            EdgeOnCycle (UnfinishedJoin analysis.orderedNodes) waiter target) := by
  refine (inserts_analyzeSynchronization analysis).imp (fun _ w hfindings => ?_) fun w hfailed => ?_
  · rw [hfindings]
    refine ⟨fun thread => ?_, fun waiter target => ?_⟩
    · rw [hasDeadlockFinding_insertAll, deadlockReport_iff, Deadlocked]
    · rw [hasJoinFinding_insertAll, joinReport_iff]
  · obtain ⟨hexhausted, first, hprefix, hfindings⟩ := hfailed
    rw [hfindings]
    refine ⟨hexhausted, fun thread hfinding => ?_, fun waiter target hfinding => ?_⟩
    · rw [hasDeadlockFinding_insertAll] at hfinding
      apply hfinding.imp_right
      rintro ⟨report, hreport, hdeadlock⟩
      exact (deadlockReport_iff _ _).mp ⟨report, hprefix.subset hreport, hdeadlock⟩
    · rw [hasJoinFinding_insertAll] at hfinding
      apply hfinding.imp_right
      rintro ⟨report, hreport, hjoin⟩
      exact (joinReport_iff _ _ _).mp ⟨report, hprefix.subset hreport, hjoin⟩

end ToolEvent.ModelAnalysis
