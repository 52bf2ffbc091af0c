import ToolEvent.SynchronizationRuns

/-!
# The locks that a thread holds

All threads share one array of held items, which the pass searches from its end. Seen from one
thread, the array is the stack that a replay of this thread's own records keeps.
-/

namespace ToolEvent.ModelAnalysis

open Fallible World LatestMatch RunModel

def isHeldBy (thread : EvidenceText) (item : SyncItem) : Bool := item.active ∧ item.thread = thread

/-- The locks of the active items of a thread, in the order of the array. -/
def activeLocks (items : List SyncItem) (thread : EvidenceText) : List EvidenceText :=
  (items.filter (isHeldBy thread)).map SyncItem.resource

def lockOf (node : Node) : EvidenceText := formatSyncResource node node.resourceId

/-- The reference replay of a thread: an ACQUIRE appends the lock, and a RELEASE removes its last
occurrence. -/
def lockStep (thread : EvidenceText) (locks : List EvidenceText) (node : Node) : List EvidenceText :=
  if isLockRecord node ∧ formatSyncThread node = thread then
    match node.resourceKind with
    | .acquire => locks ++ [lockOf node]
    | .release => eraseLatest (lockOf node) locks
    | _ => locks
  else locks

def heldLocks (nodes : List Node) (thread : EvidenceText) : List EvidenceText := nodes.foldl (lockStep thread) []

theorem activeLocks_concat (items : List SyncItem) (node : Node) (thread : EvidenceText) :
    activeLocks (items ++ [heldItem node]) thread =
      if formatSyncThread node = thread then activeLocks items thread ++ [lockOf node] else activeLocks items thread := by
  have hheld : isHeldBy thread (heldItem node) = decide (formatSyncThread node = thread) := by
    simp [isHeldBy, heldItem]
  unfold activeLocks
  rw [List.filter_append, List.map_append]
  by_cases hthread : formatSyncThread node = thread
  · rw [if_pos hthread, List.filter_cons_of_pos (by rw [hheld]; exact decide_eq_true hthread)]
    rfl
  · rw [if_neg hthread, List.filter_cons_of_neg (by rw [hheld]; exact decide_eq_true_iff.not.mpr hthread)]
    exact List.append_nil _

/-- Ending an item of the thread removes the last occurrence of its lock. -/
theorem activeLocks_endItem (items : List SyncItem) (thread lock : EvidenceText) :
    activeLocks (endItem (thread, lock) items) thread = eraseLatest lock (activeLocks items thread) := by
  have hfinds : lastMatching items thread lock =
      latestIndex (fun item => isHeldBy thread item ∧ item.resource = lock) items := by
    simp only [lastMatching, isHeldBy, decide_eq_true_eq, and_assoc]
  unfold endItem activeLocks
  dsimp only
  rw [hfinds]
  cases hfound : latestIndex (fun item => decide (isHeldBy thread item ∧ item.resource = lock)) items with
  | none => exact (eraseLatest_of_latestIndex hfound).symm
  | some i =>
    obtain ⟨pre, item, post, hsplit, rfl⟩ := exists_split_of_latestIndex hfound
    exact map_filter_modify hsplit rfl

/-- Ending an item of one thread changes nothing for the others. -/
theorem activeLocks_endItem_of_ne {thread thread' : EvidenceText} (hne : thread' ≠ thread) (items : List SyncItem)
    (lock : EvidenceText) : activeLocks (endItem (thread', lock) items) thread = activeLocks items thread := by
  unfold endItem activeLocks
  dsimp only
  cases hfound : lastMatching items thread' lock with
  | none => rfl
  | some i =>
    obtain ⟨pre, item, post, hsplit, rfl⟩ := exists_split_of_latestIndex hfound
    have hother : item.thread ≠ thread := (of_decide_eq_true hsplit.holds).2.1 ▸ hne
    have hhidden : isHeldBy thread item = false := decide_eq_false fun h => hother h.2
    exact congrArg (List.map SyncItem.resource) (filter_modify_hidden hsplit hhidden rfl)

/-- What a record does to the held items is, for every thread, a step of its replay. -/
theorem activeLocks_itemStep (items : List SyncItem) (node : Node) (thread : EvidenceText) :
    activeLocks (itemStep isLockRecord heldItem items node) thread = lockStep thread (activeLocks items thread) node := by
  unfold itemStep lockStep
  cases hlock : isLockRecord node with
  | false => rw [if_neg Bool.false_ne_true, if_neg (fun h => Bool.false_ne_true h.1)]
  | true =>
    rw [if_pos rfl]
    by_cases hthread : formatSyncThread node = thread
    · subst hthread
      rw [if_pos ⟨rfl, rfl⟩]
      cases node.resourceKind with
      | acquire => exact (activeLocks_concat items node _).trans (if_pos rfl)
      | release => exact activeLocks_endItem items _ _
      | replace | transfer | use => rfl
    · rw [if_neg (fun h => hthread h.2)]
      cases node.resourceKind with
      | acquire => exact (activeLocks_concat items node thread).trans (if_neg hthread)
      | release => exact activeLocks_endItem_of_ne hthread items _
      | replace | transfer | use => rfl

theorem activeLocks_passEffect (nodes : List Node) (thread : EvidenceText) :
    activeLocks (passEffect nodes).held thread = heldLocks nodes thread := by
  induction nodes using List.reverseRecOn with
  | nil => rfl
  | append_singleton nodes node ih =>
    rw [passEffect_concat, held_nodeEffect, activeLocks_itemStep, ih, heldLocks, heldLocks, List.foldl_concat]

/-- The search for the latest item finds the last lock of the replay. -/
theorem map_lastHeld (items : List SyncItem) (thread : EvidenceText) :
    (lastHeld items thread).map SyncItem.resource = (activeLocks items thread).getLast? := by
  rw [activeLocks, List.getLast?_map, getLast?_filter]
  rfl

def isLockRelease (node : Node) : Bool := isLockRecord node ∧ node.resourceKind = .release

def isJoinBegin (node : Node) : Bool := isWaitRecord node ∧ isJoinWait node ∧ node.resourceKind = .acquire

def isBlockingRecord (node : Node) : Bool :=
  node.domain = .resource ∧ node.recordKind = .resource ∧ node.resourceClass = .ofString "blocking-operation"

theorem nodeReports_of_release {node : Node} (h : isLockRelease node = true) (l : SyncLocals) :
    nodeReports node l = releaseReports node (formatSyncThread node) (lockOf node) l := by
  obtain ⟨hlock, hkind⟩ := of_decide_eq_true h
  obtain ⟨hrecord, hheld⟩ := isSynchronizationRecord_of_lock hlock
  obtain ⟨hmutex, hterminal, hjoinable, hblocking⟩ := ne_of_isHeldClass hheld
  rw [nodeReports, if_pos hrecord]
  unfold recordReports
  simp only [hmutex, hterminal, hjoinable, hblocking, hheld, hkind, decide_false]
  rfl

theorem nodeReports_of_wait {node : Node} (h : isWaitRecord node = true) (hkind : node.resourceKind = .acquire)
    (l : SyncLocals) : nodeReports node l = beginWaitReports node (formatSyncThread node) (lockOf node) l := by
  obtain ⟨hrecord, hwait⟩ := isSynchronizationRecord_of_wait h
  obtain ⟨hmutex, hterminal, hjoinable, hblocking, hheld⟩ := ne_of_isWaitClass hwait
  rw [nodeReports, if_pos hrecord]
  unfold recordReports
  simp only [hmutex, hterminal, hjoinable, hblocking, hheld, hkind, decide_false]
  rfl

theorem nodeReports_of_blocking {node : Node} (h : isBlockingRecord node = true) (l : SyncLocals) :
    nodeReports node l = lastHeldReports "P101-SYNC-010" node (formatSyncThread node) (lockOf node) l := by
  obtain ⟨hdomain, hkind, hclass⟩ := of_decide_eq_true h
  have hrecord : isSynchronizationRecord node = true := by
    apply decide_eq_true
    refine ⟨hdomain, hkind, ?_⟩
    rw [hclass]
    decide
  have hmutex : Text.ofString "blocking-operation" ≠ .ofString "pthread-mutex" := by decide
  have hterminal : Text.ofString "blocking-operation" ≠ .ofString "pthread-terminal-attempt" := by decide
  have hjoinable : Text.ofString "blocking-operation" ≠ .ofString "pthread-joinable-thread" := by decide
  rw [nodeReports, if_pos hrecord]
  unfold recordReports
  simp only [hclass, hmutex, hterminal, hjoinable, decide_false, decide_true]
  rfl

/-- The records that make reports about held locks; the others make other reports. -/
theorem nodeReports_held_cases (node : Node) (l : SyncLocals) :
    isLockRelease node = true ∨ isWaitRecord node = true ∧ node.resourceKind = .acquire ∨
      isBlockingRecord node = true ∨
      AllAre ["P101-SYNC-001", "P101-SYNC-007", "P101-SYNC-008"] (nodeReports node l) := by
  unfold nodeReports
  split
  · next hrecord =>
    obtain ⟨hdomain, hkind, hclass⟩ := of_decide_eq_true hrecord
    unfold recordReports
    dsimp only
    split
    · exact .inr (.inr (.inr ((allAre_destroyReports _ _ _).mono (by decide))))
    · exact .inr (.inr (.inr ((allAre_terminalReports _ _ _).mono (by decide))))
    · next hblocking => exact .inr (.inr (.inl (decide_eq_true ⟨hdomain, hkind, of_decide_eq_true hblocking⟩)))
    · exact .inr (.inr (.inr ((allAre_acquireReports _ _ _ _).mono (by decide))))
    · next hheld hrelease =>
      exact .inl (decide_eq_true ⟨decide_eq_true ⟨hdomain, hkind, hheld⟩, hrelease⟩)
    · next hmutex hterminal hjoinable hblocking hheld hacquire =>
      rw [isSynchronizationClass_eq, hheld] at hclass
      simp only [List.any_cons, List.any_nil, hmutex, hterminal, hjoinable, hblocking, Bool.or_false,
        Bool.false_or] at hclass
      exact .inr (.inl ⟨decide_eq_true ⟨hdomain, hkind, hclass⟩, hacquire⟩)
    · exact .inr (.inr (.inr (allAre_nil _)))
  · exact .inr (.inr (.inr (allAre_nil _)))

/-- A report about the last lock of the thread. -/
theorem hasReport_lastHeld {identifier : String} {node : Node} {thread lock source target : EvidenceText}
    {l : SyncLocals} :
    HasReport (lastHeldReports identifier node thread lock l) identifier source target ↔
      (activeLocks l.held thread).getLast? = some source ∧ target = lock := by
  rw [← map_lastHeld]
  unfold lastHeldReports HasReport
  cases lastHeld l.held thread with
  | none => simp
  | some item => simp [eq_comm]

theorem hasReport_release {node : Node} {thread lock source target : EvidenceText} {l : SyncLocals} :
    HasReport (releaseReports node thread lock l) "P101-SYNC-004" source target ↔
      (activeLocks l.held thread).getLast? = some source ∧ source ≠ lock ∧ target = lock := by
  rw [← map_lastHeld]
  unfold releaseReports HasReport
  cases lastHeld l.held thread with
  | none => simp
  | some item =>
    by_cases hlast : item.resource = lock
    · simp only [Option.elim_some, hlast, ne_eq, not_true, if_false, Option.map_some, Option.some.injEq,
        List.not_mem_nil, false_and, exists_false, false_iff]
      rintro ⟨rfl, hne, -⟩
      exact hne rfl
    · simp only [Option.elim_some, ne_eq, hlast, not_false_iff, if_true, Option.map_some, Option.some.injEq,
        List.mem_singleton, exists_eq_left, true_and]
      constructor
      · rintro ⟨rfl, rfl⟩
        exact ⟨rfl, hlast, rfl⟩
      · rintro ⟨rfl, -, rfl⟩
        exact ⟨rfl, rfl⟩

variable {node : Node} {source target : EvidenceText} {l : SyncLocals}

theorem recordReports_release_iff :
    RecordReports node l "P101-SYNC-004" source target ↔
      isLockRelease node = true ∧ (activeLocks l.held (formatSyncThread node)).getLast? = some source ∧
        source ≠ lockOf node ∧ target = lockOf node := by
  unfold RecordReports
  constructor
  · intro hreport
    rcases nodeReports_held_cases node l with hrelease | ⟨hwait, hkind⟩ | hblocking | hothers
    · rw [nodeReports_of_release hrelease, hasReport_release] at hreport
      exact ⟨hrelease, hreport⟩
    · rw [nodeReports_of_wait hwait hkind] at hreport
      exact absurd hreport (not_hasReport (allAre_beginWaitReports _ _ _ _) (by decide) _ _)
    · rw [nodeReports_of_blocking hblocking] at hreport
      exact absurd hreport (not_hasReport (allAre_lastHeldReports _ _ _ _ _) (by decide) _ _)
    · exact absurd hreport (not_hasReport hothers (by decide) _ _)
  · rintro ⟨hrelease, hlast⟩
    rw [nodeReports_of_release hrelease, hasReport_release]
    exact hlast

theorem allAre_conditionReports (node : Node) (item : SyncItem) (l : SyncLocals) :
    AllAre ["P101-SYNC-009"] (conditionReports node item l) := by
  refine AllAre.ite (allAre_flatMap fun prior _ => ?_) (allAre_nil _)
  exact (allAre_singleton List.mem_cons_self).ite (allAre_nil _)

/-- The beginning of a wait reports a held lock exactly when it is one for a thread to end. -/
theorem hasReport_beginWait {thread lock : EvidenceText} :
    HasReport (beginWaitReports node thread lock l) "P101-SYNC-005" source target ↔
      isJoinWait node = true ∧ (activeLocks l.held thread).getLast? = some source ∧ target = lock := by
  have hcondition := not_hasReport (allAre_conditionReports node (waitItem node thread lock) l)
    (show ∀ name ∈ ["P101-SYNC-009"], Text.ofString name ≠ .ofString "P101-SYNC-005" by decide) source target
  unfold beginWaitReports
  rw [hasReport_append, or_iff_left hcondition]
  cases isJoinWait node with
  | true =>
    rw [if_pos rfl, hasReport_lastHeld]
    exact ⟨fun hlast => ⟨rfl, hlast⟩, fun h => h.2⟩
  | false => simp [HasReport]

theorem recordReports_join_iff :
    RecordReports node l "P101-SYNC-005" source target ↔
      isJoinBegin node = true ∧ (activeLocks l.held (formatSyncThread node)).getLast? = some source ∧
        target = lockOf node := by
  unfold RecordReports
  constructor
  · intro hreport
    rcases nodeReports_held_cases node l with hrelease | ⟨hwait, hkind⟩ | hblocking | hothers
    · rw [nodeReports_of_release hrelease] at hreport
      exact absurd hreport (not_hasReport (allAre_releaseReports _ _ _ _) (by decide) _ _)
    · rw [nodeReports_of_wait hwait hkind, hasReport_beginWait] at hreport
      exact ⟨decide_eq_true ⟨hwait, hreport.1, hkind⟩, hreport.2⟩
    · rw [nodeReports_of_blocking hblocking] at hreport
      exact absurd hreport (not_hasReport (allAre_lastHeldReports _ _ _ _ _) (by decide) _ _)
    · exact absurd hreport (not_hasReport hothers (by decide) _ _)
  · rintro ⟨hbegin, hlast⟩
    obtain ⟨hwait, hjoin, hkind⟩ := of_decide_eq_true hbegin
    rw [nodeReports_of_wait hwait hkind, hasReport_beginWait]
    exact ⟨hjoin, hlast⟩

theorem recordReports_blocking_iff :
    RecordReports node l "P101-SYNC-010" source target ↔
      isBlockingRecord node = true ∧ (activeLocks l.held (formatSyncThread node)).getLast? = some source ∧
        target = lockOf node := by
  unfold RecordReports
  constructor
  · intro hreport
    rcases nodeReports_held_cases node l with hrelease | ⟨hwait, hkind⟩ | hblocking | hothers
    · rw [nodeReports_of_release hrelease] at hreport
      exact absurd hreport (not_hasReport (allAre_releaseReports _ _ _ _) (by decide) _ _)
    · rw [nodeReports_of_wait hwait hkind] at hreport
      exact absurd hreport (not_hasReport (allAre_beginWaitReports _ _ _ _) (by decide) _ _)
    · rw [nodeReports_of_blocking hblocking, hasReport_lastHeld] at hreport
      exact ⟨hblocking, hreport⟩
    · exact absurd hreport (not_hasReport hothers (by decide) _ _)
  · rintro ⟨hblocking, hlast⟩
    rw [nodeReports_of_blocking hblocking, hasReport_lastHeld]
    exact hlast

/-- The last lock of the thread of a record, in the replay of the records before it, and the lock,
thread or operation that the record names. -/
def NamesLastLock (nodes : List Node) (node : Node) (source target : EvidenceText) : Prop :=
  (heldLocks nodes (formatSyncThread node)).getLast? = some source ∧ target = lockOf node

/-- After every prefix the active held items of every thread are the locks of its replay. The next
record adds a finding that locks are released out of order, that a join begins with a lock held, or that
an operation may block with a lock held exactly when the replay says so, and it names the last lock. -/
theorem heldLocks_replayed {analysis : Analysis} {nodes : List Node} {w : World SyncState}
    (h : Reached analysis nodes w) :
    (∀ thread, activeLocks w.state.2.held thread = heldLocks nodes thread) ∧
      ∀ node w', synchronizeNode node w = (.ok (), w') → ∀ source target,
        (HasFinding w'.state.1.findings "P101-SYNC-004" source target ↔
          HasFinding w.state.1.findings "P101-SYNC-004" source target ∨
            isLockRelease node = true ∧ NamesLastLock nodes node source target ∧ source ≠ lockOf node) ∧
        (HasFinding w'.state.1.findings "P101-SYNC-005" source target ↔
          HasFinding w.state.1.findings "P101-SYNC-005" source target ∨
            isJoinBegin node = true ∧ NamesLastLock nodes node source target) ∧
        (HasFinding w'.state.1.findings "P101-SYNC-010" source target ↔
          HasFinding w.state.1.findings "P101-SYNC-010" source target ∨
            isBlockingRecord node = true ∧ NamesLastLock nodes node source target) := by
  refine ⟨fun thread => ?_, fun node w' hstep source target => ⟨?_, ?_, ?_⟩⟩
  · rw [h.locals, activeLocks_passEffect]
  · rw [h.hasFinding_iff hstep, recordReports_release_iff, activeLocks_passEffect, NamesLastLock, and_assoc,
      and_comm (a := target = lockOf node)]
  · rw [h.hasFinding_iff hstep, recordReports_join_iff, activeLocks_passEffect, NamesLastLock]
  · rw [h.hasFinding_iff hstep, recordReports_blocking_iff, activeLocks_passEffect, NamesLastLock]

def mutexNode (kind : ResourceKind) (mutex : String) : Node :=
  { domain := .resource, recordKind := .resource, resourceKind := kind, pid := 1, contextId := 1
    resourceClass := .ofString "pthread-mutex-held", resourceId := .ofString mutex }

/-- A mutex is released before the one that was acquired after it. -/
theorem heldLocks_replayed_crossed :
    ∃ w w', Reached { model := {} } [mutexNode .acquire "m", mutexNode .acquire "n"] w ∧
      synchronizeNode (mutexNode .release "m") w = (.ok (), w') ∧
      HasFinding w'.state.1.findings "P101-SYNC-004" (.ofText (.ofString "1:n")) (.ofText (.ofString "1:m")) := by
  have hrun : (forEach synchronizeNode [mutexNode .acquire "m", mutexNode .acquire "n"]
      ⟨({ model := {} }, {}), []⟩).1 = .ok () := by decide +kernel
  have hstep : (synchronizeNode (mutexNode .release "m") (forEach synchronizeNode
      [mutexNode .acquire "m", mutexNode .acquire "n"] ⟨({ model := {} }, {}), []⟩).2).1 = .ok () := by
    decide +kernel
  refine ⟨_, _, Prod.ext hrun rfl, Prod.ext hstep rfl, ?_⟩
  apply (((heldLocks_replayed (Prod.ext hrun rfl)).2 _ _ (Prod.ext hstep rfl) _ _).1).mpr
  exact .inr ⟨by decide, ⟨by decide +kernel, by decide⟩, by decide⟩

end ToolEvent.ModelAnalysis
