import ToolEvent.IncompleteOrder
import ToolEvent.JoinableThreads
import ToolEvent.LockOrder
import ToolEvent.WaitGraph

/-!
# The sizes of the arrays of the synchronization pass

Of the arrays of `analyze_synchronization`, those of items get at most one element from a record.
The edges do not: acquiring a lock adds one for every other lock that the thread holds, and a wait
that is left at the end adds one for every thread that holds the lock.
-/

namespace ToolEvent.ModelAnalysis

open Fallible World LatestMatch Lifetimes RunModel

def SyncLocals.size (l : SyncLocals) : SyncArray → ℕ
  | .held => l.held.length
  | .waits => l.waits.length
  | .terminated => l.terminated.length
  | .lockEdges => l.lockEdges.length
  | .waitEdges => l.waitEdges.length
  | .joinEdges => l.joinEdges.length

def SyncLocals.Logged (l : SyncLocals) : Prop :=
  ∀ array index, (array, index) ∈ l.writes ↔ index < l.size array

variable {l l' : SyncLocals} {array : SyncArray} {nodes : List Node}

theorem SyncLocals.Logged.push (h : l.Logged) (array : SyncArray)
    (hwrites : l'.writes = l.writes ++ [(array, l.size array)]) (hself : l'.size array = l.size array + 1)
    (hothers : ∀ other ≠ array, l'.size other = l.size other) : l'.Logged := by
  intro other index
  rw [hwrites, List.mem_append, h, List.mem_singleton, Prod.mk.injEq]
  rcases eq_or_ne other array with rfl | hne
  · rw [hself, eq_self_iff_true, true_and]
    exact Nat.lt_succ_iff_lt_or_eq.symm
  · rw [hothers other hne]
    exact or_iff_left fun hpair => hne hpair.1

/-- An element in use is written to again. -/
theorem SyncLocals.Logged.overwrite (h : l.Logged) {index : ℕ} (hindex : index < l.size array)
    (hwrites : l'.writes = l.writes ++ [(array, index)]) (hsize : ∀ other, l'.size other = l.size other) :
    l'.Logged := by
  intro other other'
  rw [hwrites, List.mem_append, h, List.mem_singleton, Prod.mk.injEq, hsize]
  refine or_iff_left_of_imp fun hpair => ?_
  rw [hpair.1, hpair.2]
  exact hindex

theorem logged_pushHeld (h : l.Logged) (item : SyncItem) : (l.pushHeld item).Logged :=
  h.push .held rfl List.length_append fun other hne => by cases other <;> first | rfl | exact absurd rfl hne

theorem logged_pushTerminated (h : l.Logged) (item : SyncItem) : (l.pushTerminated item).Logged :=
  h.push .terminated rfl List.length_append fun other hne => by cases other <;> first | rfl | exact absurd rfl hne

theorem logged_pushLockEdge (h : l.Logged) (edge : SyncEdge) : (l.pushLockEdge edge).Logged :=
  h.push .lockEdges rfl List.length_append fun other hne => by cases other <;> first | rfl | exact absurd rfl hne

theorem logged_pushWaitEdge (h : l.Logged) (edge : SyncEdge) : (l.pushWaitEdge edge).Logged :=
  h.push .waitEdges rfl List.length_append fun other hne => by cases other <;> first | rfl | exact absurd rfl hne

theorem logged_pushJoinEdge (h : l.Logged) (edge : SyncEdge) : (l.pushJoinEdge edge).Logged :=
  h.push .joinEdges rfl List.length_append fun other hne => by cases other <;> first | rfl | exact absurd rfl hne

theorem logged_beginWaitEffect (h : l.Logged) (node : Node) (thread resource : EvidenceText) :
    (beginWaitEffect node thread resource l).Logged :=
  h.push .waits rfl List.length_append fun other hne => by cases other <;> first | rfl | exact absurd rfl hne

theorem lastMatching_lt {items : List SyncItem} {thread resource : EvidenceText} {index : ℕ}
    (h : lastMatching items thread resource = some index) : index < items.length := by
  obtain ⟨pre, x, post, hsplit, rfl⟩ := exists_split_of_latestIndex h
  exact (List.getElem?_eq_some_iff.mp hsplit.getElem?).1

theorem logged_endHeld (h : l.Logged) (thread resource : EvidenceText) : (l.endHeld thread resource).Logged := by
  unfold SyncLocals.endHeld
  cases hlast : lastMatching l.held thread resource with
  | none => exact h
  | some index =>
    have hindex : index < l.size .held := lastMatching_lt hlast
    exact h.overwrite hindex rfl fun other => by cases other <;> first | rfl | exact List.length_modify _ _ _

theorem logged_endWait (h : l.Logged) (thread resource : EvidenceText) : (l.endWait thread resource).Logged := by
  unfold SyncLocals.endWait
  cases hlast : lastMatching l.waits thread resource with
  | none => exact h
  | some index =>
    have hindex : index < l.size .waits := lastMatching_lt hlast
    exact h.overwrite hindex rfl fun other => by cases other <;> first | rfl | exact List.length_modify _ _ _

theorem logged_foldl {ι : Type} {g : ι → SyncLocals → SyncLocals} (hg : ∀ i l, l.Logged → (g i l).Logged)
    (is : List ι) (h : l.Logged) : (is.foldl (fun l i => g i l) l).Logged := by
  induction is generalizing l with
  | nil => exact h
  | cons i is ih => exact ih (hg i l h)

theorem logged_acquireEffect (h : l.Logged) (node : Node) (thread resource : EvidenceText) :
    (acquireEffect node thread resource l).Logged := by
  apply logged_pushHeld
  refine logged_foldl (fun item l hl => ?_) l.held h
  unfold orderEffect
  split
  · exact logged_pushLockEdge hl _
  · exact hl

theorem logged_nodeEffect (node : Node) (h : l.Logged) : (nodeEffect node l).Logged := by
  unfold nodeEffect
  split
  · unfold recordEffect
    dsimp only
    split
    · exact logged_pushTerminated h _
    · exact logged_acquireEffect h node _ _
    · exact logged_endHeld h _ _
    · exact logged_beginWaitEffect h node _ _
    · exact logged_endWait h _ _
    · exact h
  · exact h

theorem logged_addWaitEdges (wait : SyncItem) (h : l.Logged) : (l.addWaitEdges wait).Logged := by
  unfold SyncLocals.addWaitEdges
  split_ifs
  · exact h
  · exact logged_pushWaitEdge (logged_pushJoinEdge h _) _
  · refine logged_foldl (g := holderEffect wait) (fun item l hl => ?_) l.held h
    unfold holderEffect
    split
    · exact logged_pushWaitEdge hl _
    · exact hl

theorem logged_finalArrays (nodes : List Node) : (finalArrays nodes).Logged := by
  have hempty : SyncLocals.Logged {} := fun array index => by cases array <;> simp [SyncLocals.size]
  have hpass : (passEffect nodes).Logged := logged_foldl (fun node _ hl => logged_nodeEffect node hl) nodes hempty
  exact logged_foldl (fun wait _ hl => logged_addWaitEdges wait hl) (passEffect nodes).waits hpass

/-- The locks other than the named one that its thread holds after the records. -/
def otherLocks (nodes : List Node) (name : ItemName) : ℕ :=
  (lockEffects.run nodes).countP (fun x => x.closer = none ∧ x.key.1 = name.1 ∧ x.key.2 ≠ name.2)

def lockPairsFrom : List Node → List Node → ℕ
  | _, [] => 0
  | before, node :: nodes =>
    (lockEffects.opens node).elim 0 (otherLocks before) + lockPairsFrom (before ++ [node]) nodes

/-- The pairs of an acquired lock and another one that its thread holds at that time. -/
def lockPairs (nodes : List Node) : ℕ := lockPairsFrom [] nodes

def holders (nodes : List Node) (resource : EvidenceText) : ℕ :=
  (lockEffects.run nodes).countP (fun x => x.closer = none ∧ x.key.2 = resource)

/-- The edges of a wait: one when it is a wait to join, else one for every holder of the lock. -/
def edgesOfWait (nodes : List Node) (x : Lifetime ItemName) : ℕ :=
  if x.closer ≠ none then 0
  else if (nodes[x.opener]?).any isJoinWait then 1
  else holders nodes x.key.2

def waitPairs (nodes : List Node) : ℕ := ((waitEffects.run nodes).map (edgesOfWait nodes)).sum

theorem lockPairsFrom_concat (before nodes : List Node) (node : Node) :
    lockPairsFrom before (nodes ++ [node]) =
      lockPairsFrom before nodes + (lockEffects.opens node).elim 0 (otherLocks (before ++ nodes)) := by
  induction nodes generalizing before with
  | nil => rw [List.nil_append, lockPairsFrom, lockPairsFrom, lockPairsFrom, List.append_nil, Nat.zero_add, Nat.add_zero]
  | cons first nodes ih =>
    rw [List.cons_append, lockPairsFrom, lockPairsFrom, ih, List.append_assoc, Nat.add_assoc]
    rfl

theorem length_orderEffects (thread resource : EvidenceText) (items : List SyncItem) (l : SyncLocals) :
    (items.foldl (fun l item => orderEffect thread resource item l) l).lockEdges.length =
      l.lockEdges.length + items.countP (fun item => IsOrdered thread resource item) := by
  induction items generalizing l with
  | nil => rfl
  | cons item items ih =>
    rw [List.foldl_cons, ih, lockEdges_orderEffect, List.countP_cons]
    split
    · next hordered =>
      rw [if_pos (decide_eq_true hordered), List.length_append, List.length_singleton]
      omega
    · next hordered => rw [if_neg (by simpa using hordered), Nat.add_zero]

theorem countP_held (nodes : List Node) (name : ItemName) :
    (passEffect nodes).held.countP (fun item => IsOrdered name.1 name.2 item) = otherLocks nodes name := by
  refine (countP_eq_of_forall₂ (forall₂_held nodes) fun x shown hshows => ?_).symm
  have hname := hshows.name_eq
  rw [← hname]
  exact decide_eq_decide.mpr (and_congr_left fun _ => hshows.active_iff.symm)

theorem length_lockEdges (nodes : List Node) : (passEffect nodes).lockEdges.length = lockPairs nodes := by
  induction nodes using List.reverseRecOn with
  | nil => rfl
  | append_singleton nodes node ih =>
    rw [passEffect_concat, lockPairs, lockPairsFrom_concat, List.nil_append]
    cases hopens : lockEffects.opens node with
    | none =>
      rw [lockEdges_of_not_opens hopens]
      exact ih
    | some name =>
      obtain ⟨hlock, hkind, rfl⟩ := opens_eq_some_iff.mp hopens
      rw [nodeEffect_of_lock hlock, hkind]
      dsimp only
      rw [acquireEffect, lockEdges_pushHeld, length_orderEffects, ih]
      exact congrArg (lockPairs nodes + ·) (countP_held nodes (heldItem node).name)

theorem length_holderEffects (wait : SyncItem) (items : List SyncItem) (l : SyncLocals) :
    (items.foldl (fun l item => holderEffect wait item l) l).waitEdges.length =
      l.waitEdges.length + items.countP (fun item => item.active ∧ item.resource = wait.resource) := by
  induction items generalizing l with
  | nil => rfl
  | cons item items ih =>
    rw [List.foldl_cons, ih, List.countP_cons, holderEffect]
    split
    · next hholds =>
      have hpush : (l.pushWaitEdge ⟨wait.thread, item.thread⟩).waitEdges.length = l.waitEdges.length + 1 :=
        List.length_append
      rw [if_pos (decide_eq_true hholds), hpush]
      omega
    · next hholds => rw [if_neg (by simpa using hholds), Nat.add_zero]

def itemEdges (held : List SyncItem) (wait : SyncItem) : ℕ :=
  if wait.active = false then 0
  else if wait.join then 1
  else held.countP (fun item => item.active ∧ item.resource = wait.resource)

theorem length_addWaitEdges (wait : SyncItem) (l : SyncLocals) :
    (l.addWaitEdges wait).waitEdges.length = l.waitEdges.length + itemEdges l.held wait ∧
      (l.addWaitEdges wait).joinEdges.length ≤ l.joinEdges.length + 1 := by
  unfold SyncLocals.addWaitEdges itemEdges
  split_ifs with hinactive hjoin
  · exact ⟨rfl, Nat.le_succ _⟩
  · exact ⟨List.length_append, List.length_append.le⟩
  · refine ⟨length_holderEffects wait l.held l, ?_⟩
    have hkept := (keepsItems_holderEffects wait l.held l).2
    exact (congrArg List.length hkept).le.trans (Nat.le_succ _)

theorem length_addAllWaitEdges (waits : List SyncItem) (l : SyncLocals) :
    let l' := waits.foldl (fun l wait => l.addWaitEdges wait) l
    l'.waitEdges.length = l.waitEdges.length + (waits.map (itemEdges l.held)).sum ∧
      l'.joinEdges.length ≤ l.joinEdges.length + waits.length := by
  induction waits generalizing l with
  | nil => exact ⟨rfl, Nat.le_refl _⟩
  | cons wait waits ih =>
    obtain ⟨hwait, hjoin⟩ := ih (l.addWaitEdges wait)
    obtain ⟨hfirst, hfirstJoin⟩ := length_addWaitEdges wait l
    have hheld := (addWaitEdges_spec wait l).1.held
    rw [hheld] at hwait
    refine ⟨?_, ?_⟩
    · rw [List.foldl_cons, hwait, hfirst, List.map_cons, List.sum_cons, Nat.add_assoc]
    · rw [List.foldl_cons, List.length_cons]
      omega

theorem countP_holders (nodes : List Node) (resource : EvidenceText) :
    (passEffect nodes).held.countP (fun item => item.active ∧ item.resource = resource) = holders nodes resource := by
  refine (countP_eq_of_forall₂ (forall₂_held nodes) fun x shown hshows => ?_).symm
  rw [← hshows.name_eq]
  exact decide_eq_decide.mpr (and_congr_left fun _ => hshows.active_iff.symm)

theorem itemEdges_of_shownBy {x : Lifetime ItemName} {shown : SyncItem} (h : ShownBy waitItemOf nodes x shown) :
    itemEdges (passEffect nodes).held shown = edgesOfWait nodes x := by
  have hactive := h.active_iff
  have hname := h.name_eq
  obtain ⟨node, hnode, -, hshown⟩ := h
  have hjoin : shown.join = (nodes[x.opener]?).any isJoinWait := by
    rw [hnode, hshown]
    exact waitItemOf_join node
  rw [itemEdges, edgesOfWait, countP_holders, ← hname, hjoin]
  by_cases hopen : x.closer = none
  · rw [if_neg (by simp [hactive.mpr hopen]), if_neg (not_not_intro hopen)]
    rfl
  · rw [if_pos (Bool.eq_false_of_not_eq_true fun h => hopen (hactive.mp h)), if_pos hopen]

theorem length_waitEdges (nodes : List Node) : (finalArrays nodes).waitEdges.length = waitPairs nodes := by
  have hall := (length_addAllWaitEdges (passEffect nodes).waits (passEffect nodes)).1
  rw [(waitEdges_passEffect nodes).1, List.length_nil, Nat.zero_add] at hall
  refine hall.trans (congrArg List.sum (map_eq_of_forall₂ (forall₂_waits nodes) fun x shown hshows => ?_).symm)
  exact (itemEdges_of_shownBy hshows).symm

theorem length_held_le (nodes : List Node) : (passEffect nodes).held.length ≤ nodes.length := by
  rw [← (forall₂_held nodes).length_eq]
  exact Effects.length_run_le nodes

theorem length_waits_le (nodes : List Node) : (passEffect nodes).waits.length ≤ nodes.length := by
  rw [← (forall₂_waits nodes).length_eq]
  exact Effects.length_run_le nodes

theorem length_terminated_le (nodes : List Node) : (passEffect nodes).terminated.length ≤ nodes.length := by
  induction nodes using List.reverseRecOn with
  | nil => exact Nat.le_refl _
  | append_singleton nodes node ih =>
    rw [passEffect_concat, terminated_nodeEffect, List.length_append, List.length_singleton]
    split
    · rw [List.length_append, List.length_singleton]
      omega
    · omega

/-- The edges at the end do not touch the other arrays. -/
theorem addWaitEdges_keeps (wait : SyncItem) (l : SyncLocals) :
    (l.addWaitEdges wait).terminated = l.terminated ∧ (l.addWaitEdges wait).lockEdges = l.lockEdges := by
  unfold SyncLocals.addWaitEdges
  split_ifs
  · exact ⟨rfl, rfl⟩
  · exact ⟨rfl, rfl⟩
  · refine List.foldlRecOn l.held (motive := fun l' : SyncLocals => l'.terminated = l.terminated ∧ l'.lockEdges = l.lockEdges) _
      ⟨rfl, rfl⟩ fun l' hkept item _ => ?_
    split
    · exact hkept
    · exact hkept

theorem finalArrays_keeps (nodes : List Node) :
    (finalArrays nodes).terminated = (passEffect nodes).terminated ∧
      (finalArrays nodes).lockEdges = (passEffect nodes).lockEdges :=
  List.foldlRecOn (passEffect nodes).waits
    (motive := fun l : SyncLocals => l.terminated = (passEffect nodes).terminated ∧ l.lockEdges = (passEffect nodes).lockEdges) _
    ⟨rfl, rfl⟩ fun l hkept wait _ =>
      ⟨(addWaitEdges_keeps wait l).1.trans hkept.1, (addWaitEdges_keeps wait l).2.trans hkept.2⟩

/-- Every array of items has room, whatever the records are. -/
theorem size_finalArrays_le (nodes : List Node) (array : SyncArray) (hlock : array ≠ .lockEdges)
    (hwait : array ≠ .waitEdges) : (finalArrays nodes).size array ≤ nodes.length := by
  have hkept := (addAllWaitEdges_spec (passEffect nodes).waits (passEffect nodes)).1
  cases array with
  | held => exact (congrArg List.length hkept.held).le.trans (length_held_le nodes)
  | waits => exact (congrArg List.length hkept.waits).le.trans (length_waits_le nodes)
  | terminated =>
    exact (congrArg List.length (finalArrays_keeps nodes).1).le.trans (length_terminated_le nodes)
  | joinEdges =>
    have hjoin := (length_addAllWaitEdges (passEffect nodes).waits (passEffect nodes)).2
    rw [(waitEdges_passEffect nodes).2, List.length_nil, Nat.zero_add] at hjoin
    exact hjoin.trans (length_waits_le nodes)
  | lockEdges => exact absurd rfl hlock
  | waitEdges => exact absurd rfl hwait

theorem performs_synchronizationEnd (waits : SyncLocals → List SyncItem) :
    Performs (do
      updateSync SyncLocals.addAllWaitEdges
      let (_, l) ← readState
      forEach reportWait (waits l)
      updateState (fun s => ({ s.1 with lockOrderEdges := s.2.lockEdges.length }, s.2))) SyncLocals.addAllWaitEdges := by
  have hreports : ExtendsLog id := fun _ => List.prefix_rfl
  refine (performs_updateSync SyncLocals.addAllWaitEdges).bind (fun _ => ?_) hreports
  refine performs_readState_bind fun s w hs => ?_
  have hcount : KeepsLocals (updateState fun s : SyncState =>
      ({ s.1 with lockOrderEdges := s.2.lockEdges.length }, s.2)) := fun _ => rfl
  subst hs
  exact (keepsLocals_reportWaits (waits w.state.2)).performs.bind (fun _ => hcount.performs)
    (fun l => List.prefix_rfl) w

theorem performs_synchronizationLoop (nodes : List Node) : Performs (do
    forEach synchronizeNode nodes
    updateSync SyncLocals.addAllWaitEdges
    let (_, l) ← readState
    forEach reportWait l.waits
    updateState (fun s : SyncState => ({ s.1 with lockOrderEdges := s.2.lockEdges.length }, s.2)))
    (fun l => (nodes.foldl (fun l node => nodeEffect node l) l).addAllWaitEdges) :=
  (performs_pass nodes).bind (fun _ => performs_synchronizationEnd SyncLocals.waits) extendsLog_addAllWaitEdges

/-- A run makes the first of the writes that the nodes lead to. -/
theorem synchronizationWrites_begins (analysis : Analysis) (outcomes : List Bool) :
    synchronizationWrites analysis outcomes <+: (finalArrays analysis.orderedNodes).writes := by
  rw [synchronizationWrites, synchronizationBody, run_bind_of_ok (run_allocateAll 6 _ outcomes)]
  split
  · exact (performs_synchronizationLoop analysis.orderedNodes ⟨(analysis, {}), outcomes.drop 6⟩).writes
  · exact List.nil_prefix

theorem length_flatMap_le {α β : Type} {f : α → List β} (xs : List α) (h : ∀ x, (f x).length ≤ 1) :
    (xs.flatMap f).length ≤ xs.length := by
  induction xs with
  | nil => exact Nat.zero_le _
  | cons x xs ih =>
    rw [List.flatMap_cons, List.length_append, List.length_cons, Nat.add_comm]
    exact Nat.add_le_add ih (h x)

theorem length_reportsInOrder_le {ι : Type} {g : ι → SyncLocals → SyncLocals}
    {reports : ι → SyncLocals → List SyncReport} (h : ∀ i l, (reports i l).length ≤ 1) (is : List ι)
    (l : SyncLocals) : (reportsInOrder g reports is l).length ≤ is.length := by
  induction is generalizing l with
  | nil => exact Nat.zero_le _
  | cons i is ih =>
    rw [reportsInOrder, List.length_append, List.length_cons, Nat.add_comm]
    exact Nat.add_le_add (ih _) (h i l)

theorem length_reportIf_le {p : Prop} [Decidable p] (report : SyncReport) :
    (if p then [report] else []).length ≤ 1 := by
  split
  · exact Nat.le_refl _
  · exact Nat.zero_le _

section Reports

variable (node : Node) (thread resource : EvidenceText) (l : SyncLocals)

theorem length_destroyReports_le : (destroyReports node resource l).length ≤ l.held.length + l.waits.length := by
  rw [destroyReports, List.length_append]
  exact Nat.add_le_add (length_flatMap_le _ fun _ => length_reportIf_le _)
    (length_flatMap_le _ fun _ => length_reportIf_le _)

theorem length_terminalReports_le : (terminalReports node resource l).length ≤ l.terminated.length :=
  length_flatMap_le _ fun _ => length_reportIf_le _

theorem length_lastHeldReports_le (identifier : String) :
    (lastHeldReports identifier node thread resource l).length ≤ 1 := by
  unfold lastHeldReports
  cases lastHeld l.held thread with
  | none => exact Nat.zero_le _
  | some item => exact Nat.le_refl _

theorem length_acquireReports_le : (acquireReports node thread resource l).length ≤ l.held.length := by
  refine length_reportsInOrder_le (fun item l => ?_) l.held l
  unfold orderReports
  split
  · exact length_reportIf_le _
  · exact Nat.zero_le _

theorem length_releaseReports_le : (releaseReports node thread resource l).length ≤ 1 := by
  unfold releaseReports
  cases lastHeld l.held thread with
  | none => exact Nat.zero_le _
  | some item => exact length_reportIf_le _

theorem length_beginWaitReports_le : (beginWaitReports node thread resource l).length ≤ l.waits.length + 1 := by
  rw [beginWaitReports, List.length_append, Nat.add_comm]
  apply Nat.add_le_add
  · unfold conditionReports
    split
    · exact length_flatMap_le _ fun _ => length_reportIf_le _
    · exact Nat.zero_le _
  · split
    · exact length_lastHeldReports_le node thread resource l _
    · exact Nat.zero_le _

/-- A record reports something at most once about every item. -/
theorem length_nodeReports_le :
    (nodeReports node l).length ≤ l.held.length + l.waits.length + l.terminated.length + 1 := by
  unfold nodeReports
  split
  · unfold recordReports
    dsimp only
    split
    · exact (length_destroyReports_le node _ l).trans (by omega)
    · exact (length_terminalReports_le node _ l).trans (by omega)
    · exact (length_lastHeldReports_le node _ _ l _).trans (by omega)
    · exact (length_acquireReports_le node _ _ l).trans (by omega)
    · exact (length_releaseReports_le node _ _ l).trans (by omega)
    · exact (length_beginWaitReports_le node _ _ l).trans (by omega)
    · exact Nat.zero_le _
  · exact Nat.zero_le _

end Reports

theorem passReports_concat (nodes : List Node) (node : Node) :
    passReports (nodes ++ [node]) = passReports nodes ++ nodeReports node (passEffect nodes) := by
  have happend : ∀ (l : SyncLocals), reportsInOrder nodeEffect nodeReports (nodes ++ [node]) l =
      reportsInOrder nodeEffect nodeReports nodes l ++
        nodeReports node (nodes.foldl (fun l node => nodeEffect node l) l) := by
    induction nodes with
    | nil => exact fun l => List.append_nil _
    | cons first nodes ih =>
      intro l
      rw [List.cons_append, reportsInOrder, reportsInOrder, ih, List.append_assoc]
      rfl
  exact happend {}

theorem length_passReports_le (nodes : List Node) :
    (passReports nodes).length ≤ nodes.length * (3 * nodes.length + 1) := by
  induction nodes using List.reverseRecOn with
  | nil => exact Nat.zero_le _
  | append_singleton nodes node ih =>
    have hnode := length_nodeReports_le node (passEffect nodes)
    have hheld := length_held_le nodes
    have hwaits := length_waits_le nodes
    have hterminated := length_terminated_le nodes
    have hstep : (nodeReports node (passEffect nodes)).length ≤ 3 * nodes.length + 1 := by omega
    rw [passReports_concat, List.length_append, List.length_append, List.length_singleton, Nat.add_mul, Nat.one_mul]
    refine Nat.add_le_add (ih.trans (Nat.mul_le_mul_left _ ?_)) (hstep.trans ?_) <;> omega

theorem length_synchronizationReports_le (nodes : List Node) :
    (synchronizationReports nodes).length ≤ nodes.length * (3 * nodes.length + 2) := by
  have hwaits : ((finalArrays nodes).waits.flatMap fun wait => waitReports wait (finalArrays nodes)).length ≤
      nodes.length := by
    refine (length_flatMap_le _ fun wait => ?_).trans ?_
    · unfold waitReports deadlockReports
      split_ifs
      · exact Nat.zero_le _
      · exact Nat.le_refl _
      · exact Nat.zero_le _
      · cases (finalArrays nodes).waitEdges.find? _ <;> simp
    · rw [waits_finalArrays]
      exact length_waits_le nodes
  have hpass := length_passReports_le nodes
  rw [synchronizationReports, List.length_append]
  exact (Nat.add_le_add hpass hwaits).trans (Nat.mul_succ _ _).ge

theorem obeys_addFinding_sparse (identifier : Text) (policy : Policy) (message : Text) (node : Option Node)
    (source target detail : Option Text) : Obeys (fun a a' => a.Sparse → a'.Sparse)
      (addFinding identifier policy message node source target detail) := by
  intro w
  by_cases hsparse : w.state.Sparse
  · refine Ends.final (P := fun w' : World Analysis => (w.state.Sparse → w'.state.Sparse) ∧ w'.outcomes <:+ w.outcomes) ?_
    refine ((ends_reserveFindings_sparse hsparse).imp (fun _ _ h => h) fun w' hw' => ?failed).bind fun _ w' hw' =>
      Ends.ite (fun _ => ends_updateState ?added) fun _ => ends_fail ?unfit
    case failed =>
      rw [hw'.2]
      exact ⟨id, hw'.1⟩
    all_goals
      obtain ⟨hsuffix, capacity, hstate, hcapacity⟩ := hw'
      rw [hstate]
    case added =>
      refine ⟨fun _ => hcapacity.trans (Nat.add_le_add_left (Nat.mul_le_mul_left 2 ?_) _), hsuffix⟩
      exact (List.prefix_append w.state.findings _).length_le
    case unfit => exact ⟨fun _ => hcapacity, hsuffix⟩
  · have hchange := obeys_addFinding identifier policy message node source target detail w
    exact ⟨fun h => absurd h hsparse, hchange.2⟩

instance : IsPreorder Analysis (fun a a' => a.Sparse → a'.Sparse) where
  refl := fun _ => id
  trans := fun _ _ _ h h' => h' ∘ h

instance : Admits .synchronization (fun a a' => a.Sparse → a'.Sparse) where
  addFinding := fun _ _ _ _ _ _ => obeys_addFinding_sparse _ _ _ _ _ _ _
  counts := fun _ _ _ _ _ _ => id
  trouble := fun _ => id

variable {lib : RecordLibrary} {model : Model} {analysis : Analysis}

theorem Ran.length_orderedNodes (h : Ran model analysis) : analysis.orderedNodes.length = analysis.orderedCount := by
  rw [Analysis.orderedNodes, List.length_map, List.length_take]
  rcases h.order with ⟨horder, hcount⟩ | ⟨-, hcount⟩
  · rw [length_ordered_of_isCausalOrder horder, hcount, Nat.min_self]
  · rw [hcount, Nat.zero_min]

theorem Ran.orderedCount_le (hsound : Sound model) (h : Ran model analysis) :
    analysis.orderedCount ≤ 2 * modelLimit := by
  have hnodes := hsound.nodes_le.trans hsound.nodeCapacity_le
  rcases h.order with ⟨-, hcount⟩ | ⟨-, hcount⟩
  · rwa [hcount]
  · rw [hcount]
    exact Nat.zero_le _

theorem length_insertAll_le (findings : List Finding) (reports : List SyncReport) :
    (SyncReport.insertAll findings reports).length ≤ findings.length + reports.length := by
  induction reports generalizing findings with
  | nil => exact Nat.le_refl _
  | cons report reports ih =>
    have hfirst : (SyncReport.insert findings report).length ≤ findings.length + 1 := by
      unfold SyncReport.insert
      split
      · exact Nat.le_succ _
      · exact List.length_append.le
    have hall := ih (SyncReport.insert findings report)
    rw [List.length_cons]
    exact hall.trans (by omega)

/-- An object in the same order in which nothing was found yet. -/
theorem Ran.exists_unreported (h : Ran model analysis) : ∃ fresh : Analysis, Ran model fresh ∧
    fresh.orderedNodes = analysis.orderedNodes ∧ fresh.findings = [] ∧ fresh.Sparse :=
  ⟨{ analysis with findings := [], findingCapacity := 0, policyCounts := fun _ => 0 },
    ⟨h.ofModel, fun _ => rfl, ⟨Nat.le_refl 0, Nat.zero_le _⟩, h.ordered, h.order⟩, rfl, rfl, Nat.zero_le _⟩

/-- With its requests granted, a pass that has found nothing so far is not stopped. -/
theorem analyzeSynchronization_granted (hsparse : analysis.Sparse) (hempty : analysis.findings = [])
    (hlength : analysis.orderedNodes.length ≤ 2 * modelLimit) :
    ∃ w, analyzeSynchronization ⟨analysis, []⟩ = (.ok (), w) := by
  rcases hrun : analyzeSynchronization ⟨analysis, []⟩ with ⟨⟨e⟩ | ⟨⟨⟩⟩, w⟩
  · have hkept := (obeys_analyzeSynchronization (r := fun a a' => a.Sparse → a'.Sparse) ⟨analysis, []⟩).1 hsparse
    rw [hrun] at hkept
    obtain ⟨hexhausted, first, hfirst, hfindings⟩ := Ends.error (inserts_analyzeSynchronization analysis) hrun
    have hinserted := length_insertAll_le analysis.findings first
    rw [← hfindings, hempty, List.length_nil, Nat.zero_add] at hinserted
    have hreports := length_synchronizationReports_le analysis.orderedNodes
    have hmost : analysis.orderedNodes.length * (3 * analysis.orderedNodes.length + 2) ≤
        2 * modelLimit * (3 * (2 * modelLimit) + 2) := Nat.mul_le_mul hlength (by omega)
    have hfew := hinserted.trans (hfirst.length_le.trans (hreports.trans hmost))
    have hlimit : 32 + 4 * (2 * modelLimit * (3 * (2 * modelLimit) + 2)) < sizeMax / findingSize := by decide
    simp only [Analysis.Sparse, Analysis.Exhausted, initialFindingCapacity] at hkept hexhausted
    omega
  · exact ⟨w, rfl⟩

theorem synchronizationWrites_granted (hsparse : analysis.Sparse) (hempty : analysis.findings = [])
    (hlength : analysis.orderedNodes.length ≤ 2 * modelLimit) :
    synchronizationWrites analysis [] = (finalArrays analysis.orderedNodes).writes := by
  obtain ⟨w, hrun⟩ := analyzeSynchronization_granted hsparse hempty hlength
  obtain ⟨v, hbody, -⟩ := withLocals_eq_ok.mp hrun
  have hloop := hbody
  rw [synchronizationBody, run_bind_of_ok (run_allocateAll_nil 6 _), if_pos rfl] at hloop
  have hlocals := (performs_synchronizationLoop analysis.orderedNodes ⟨(analysis, {}), []⟩).ok () v hloop
  rw [synchronizationWrites, hbody, hlocals]
  rfl

/-- Whatever the requests are answered and whatever was found before, no analysis of the model in the
order of the nodes writes outside an array of the pass. -/
def WritesInBounds (model : Model) (nodes : List Node) : Prop :=
  ∀ (analysis : Analysis) (outcomes : List Bool), Ran model analysis → analysis.orderedNodes = nodes →
    ∀ write ∈ synchronizationWrites analysis outcomes, write.2 < arrayCapacity analysis.orderedCount write.1

/-- All writes stay in the arrays exactly when the pairs fit the arrays of the edges. -/
theorem writesInBounds_iff (hmodel : Finished lib model) (hran : Ran model analysis) :
    WritesInBounds model analysis.orderedNodes ↔
      lockPairs analysis.orderedNodes ≤ max 1 analysis.orderedCount ∧
        waitPairs analysis.orderedNodes ≤ 2 * max 1 analysis.orderedCount := by
  have hlogged := logged_finalArrays analysis.orderedNodes
  have hlocks : (finalArrays analysis.orderedNodes).size .lockEdges = lockPairs analysis.orderedNodes :=
    (congrArg List.length (finalArrays_keeps _).2).trans (length_lockEdges _)
  have hwaits : (finalArrays analysis.orderedNodes).size .waitEdges = waitPairs analysis.orderedNodes :=
    length_waitEdges _
  constructor
  · intro h
    obtain ⟨fresh, hfresh, hnodes, hempty, hsparse⟩ := hran.exists_unreported
    have hlength := hfresh.length_orderedNodes.le.trans (hfresh.orderedCount_le hmodel.reachable.sound)
    have hcount : fresh.orderedCount = analysis.orderedCount := by
      rw [← hfresh.length_orderedNodes, hnodes, hran.length_orderedNodes]
    have hwrites := h fresh [] hfresh hnodes
    rw [synchronizationWrites_granted hsparse hempty hlength, hnodes, hcount] at hwrites
    have hfits : ∀ array, (finalArrays analysis.orderedNodes).size array ≤ arrayCapacity analysis.orderedCount array := by
      intro array
      by_contra hlarge
      exact Nat.lt_irrefl _ (hwrites (array, _) ((hlogged array _).mpr (Nat.lt_of_not_le hlarge)))
    exact ⟨hlocks ▸ hfits .lockEdges, hwaits ▸ hfits .waitEdges⟩
  · rintro ⟨hlockFits, hwaitFits⟩ other outcomes hother hnodes ⟨array, index⟩ hwrite
    have hmem := (synchronizationWrites_begins other outcomes).subset hwrite
    have hcount : other.orderedCount = analysis.orderedCount := by
      rw [← hother.length_orderedNodes, hnodes, hran.length_orderedNodes]
    rw [hnodes, hlogged] at hmem
    rw [hcount]
    refine lt_of_lt_of_le hmem ?_
    have hitems := size_finalArrays_le analysis.orderedNodes array
    rw [hran.length_orderedNodes] at hitems
    cases array with
    | lockEdges => exact hlocks.le.trans hlockFits
    | waitEdges => exact hwaits.le.trans hwaitFits
    | held | waits | terminated | joinEdges => exact (hitems (by decide) (by decide)).trans (Nat.le_max_right _ _)

def acquisition (sequence : ℕ) (lock : String) : EventRecord :=
  { recordKind := .resource, runId := some (.ofString "run"), pid := 1, contextId := 1, sequence := sequence
    resourceKind := .acquire, resourceClass := some (.ofString "pthread-mutex-held")
    resourceId := some (.ofString lock) }

def orderedAnalysis (records : List EventRecord) : Analysis :=
  (buildCausalOrder ⟨{ model := modelOf .standard records }, []⟩).2.state

theorem ran_orderedAnalysis {records : List EventRecord} (hmodel : Finished .standard (modelOf .standard records)) :
    Ran (modelOf .standard records) (orderedAnalysis records) := by
  obtain ⟨order, -, hbuild⟩ :=
    buildCausalOrder_granted { model := modelOf .standard records } [] hmodel.reachable.sound List.not_mem_nil
  have hran := buildCausalOrder_ok hmodel.reachable.sound hbuild
  rwa [orderedAnalysis, hbuild]

def twoLocks : List EventRecord := [acquisition 1 "m1", acquisition 2 "m2"]

theorem writesInBounds_twoLocks :
    WritesInBounds (modelOf .standard twoLocks) (orderedAnalysis twoLocks).orderedNodes ↔
      lockPairs (orderedAnalysis twoLocks).orderedNodes ≤ max 1 (orderedAnalysis twoLocks).orderedCount ∧
        waitPairs (orderedAnalysis twoLocks).orderedNodes ≤ 2 * max 1 (orderedAnalysis twoLocks).orderedCount := by
  have hmodel : Finished .standard (modelOf .standard twoLocks) := finished_modelOf _ (by decide +kernel)
  exact writesInBounds_iff hmodel (ran_orderedAnalysis hmodel)

def fourLocks : List EventRecord :=
  [acquisition 1 "m1", acquisition 2 "m2", acquisition 3 "m3", acquisition 4 "m4"]

/-- The fourth of four nested locks adds an edge behind the four that the array has room for. -/
theorem fourLocks_outOfBounds :
    Finished .standard (modelOf .standard fourLocks) ∧ (orderedAnalysis fourLocks).orderedCount = 4 ∧
      (SyncArray.lockEdges, 5) ∈ synchronizationWrites (orderedAnalysis fourLocks) [] ∧
      ¬ WritesInBounds (modelOf .standard fourLocks) (orderedAnalysis fourLocks).orderedNodes := by
  have hmodel : Finished .standard (modelOf .standard fourLocks) := finished_modelOf _ (by decide +kernel)
  have hcount : (orderedAnalysis fourLocks).orderedCount = 4 := by decide +kernel
  have hwrite : (SyncArray.lockEdges, 5) ∈ synchronizationWrites (orderedAnalysis fourLocks) [] := by decide +kernel
  refine ⟨hmodel, hcount, hwrite, fun h => ?_⟩
  have hbelow := h (orderedAnalysis fourLocks) [] (ran_orderedAnalysis hmodel) rfl _ hwrite
  rw [hcount] at hbelow
  exact absurd hbelow (by decide)

end ToolEvent.ModelAnalysis
