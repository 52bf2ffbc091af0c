import ToolEvent.Library.Lifetimes
import ToolEvent.SynchronizationEffect

/-!
# Held locks and waits as lifetimes

A record that acquires a lock or begins a wait adds an item, and one that releases or ends it
makes the latest active item of its names inactive. The two arrays show the lifetimes of
these names, in the order in which the lifetimes were opened.
-/

namespace ToolEvent.ModelAnalysis

open LatestMatch Lifetimes RunModel

abbrev ItemName := EvidenceText × EvidenceText

def SyncItem.name (item : SyncItem) : ItemName := (item.thread, item.resource)

/-- The names of the waits, as `synchronization_class` lists them. -/
def isWaitClass (resourceClass : Text) : Bool :=
  ["pthread-mutex-wait", "pthread-rwlock-read-wait", "pthread-rwlock-write-wait",
    "pthread-condition-wait", "pthread-join-wait"].any (fun name => resourceClass = .ofString name)

def isLockRecord (node : Node) : Bool :=
  node.domain = .resource ∧ node.recordKind = .resource ∧ isHeldClass node.resourceClass

def isWaitRecord (node : Node) : Bool :=
  node.domain = .resource ∧ node.recordKind = .resource ∧ isWaitClass node.resourceClass

def heldItem (node : Node) : SyncItem where
  node := node
  thread := formatSyncThread node
  resource := formatSyncResource node node.resourceId

def waitItemOf (node : Node) : SyncItem :=
  waitItem node (formatSyncThread node) (formatSyncResource node node.resourceId)

/-- An ACQUIRE opens a lifetime of the names of its item, and a RELEASE closes the latest one. -/
def itemEffects (selects : Node → Bool) (item : Node → SyncItem) : Effects Node ItemName where
  opens := fun node => if selects node ∧ node.resourceKind = .acquire then some (item node).name else none
  closes := fun node => if selects node ∧ node.resourceKind = .release then some (item node).name else none

abbrev lockEffects : Effects Node ItemName := itemEffects isLockRecord heldItem

/-- The waits of threads; a wait to join is one of the waiter its record names. -/
abbrev waitEffects : Effects Node ItemName := itemEffects isWaitRecord waitItemOf

def endItem (name : ItemName) (items : List SyncItem) : List SyncItem :=
  (lastMatching items name.1 name.2).elim items (items.modify · SyncItem.deactivate)

def itemStep (selects : Node → Bool) (item : Node → SyncItem) (items : List SyncItem) (node : Node) :
    List SyncItem :=
  if selects node then
    match node.resourceKind with
    | .acquire => items ++ [item node]
    | .release => endItem (item node).name items
    | _ => items
  else items

theorem held_endHeld (thread resource : EvidenceText) (l : SyncLocals) :
    (l.endHeld thread resource).held = endItem (thread, resource) l.held := by
  unfold SyncLocals.endHeld endItem
  dsimp only
  cases lastMatching l.held thread resource <;> rfl

theorem waits_endHeld (thread resource : EvidenceText) (l : SyncLocals) :
    (l.endHeld thread resource).waits = l.waits := by
  unfold SyncLocals.endHeld
  cases lastMatching l.held thread resource <;> rfl

theorem held_endWait (thread resource : EvidenceText) (l : SyncLocals) :
    (l.endWait thread resource).held = l.held := by
  unfold SyncLocals.endWait
  cases lastMatching l.waits thread resource <;> rfl

theorem waits_endWait (thread resource : EvidenceText) (l : SyncLocals) :
    (l.endWait thread resource).waits = endItem (thread, resource) l.waits := by
  unfold SyncLocals.endWait endItem
  dsimp only
  cases lastMatching l.waits thread resource <;> rfl

/-- Ordering the locks changes the lock edges and the log only. -/
theorem orderEffects_keep (thread resource : EvidenceText) (items : List SyncItem) (l : SyncLocals) :
    let l' := items.foldl (fun l item => orderEffect thread resource item l) l
    l'.held = l.held ∧ l'.waits = l.waits ∧ l'.waitEdges = l.waitEdges ∧ l'.joinEdges = l.joinEdges := by
  induction items generalizing l with
  | nil => exact ⟨rfl, rfl, rfl, rfl⟩
  | cons item items ih =>
    have hrest := ih (orderEffect thread resource item l)
    by_cases hordered : item.active = true ∧ item.thread = thread ∧ item.resource ≠ resource
    · have heffect : orderEffect thread resource item l = l.pushLockEdge ⟨item.resource, resource⟩ :=
        if_pos hordered
      rw [heffect] at hrest
      rwa [List.foldl_cons, heffect]
    · have heffect : orderEffect thread resource item l = l := if_neg hordered
      rw [heffect] at hrest
      rwa [List.foldl_cons, heffect]

/-- The classes of locks are none of those the pass treats before them. -/
theorem ne_of_isHeldClass {resourceClass : Text} (h : isHeldClass resourceClass = true) :
    resourceClass ≠ .ofString "pthread-mutex" ∧ resourceClass ≠ .ofString "pthread-terminal-attempt" ∧
      resourceClass ≠ .ofString "pthread-joinable-thread" ∧ resourceClass ≠ .ofString "blocking-operation" := by
  rcases of_decide_eq_true h with rfl | rfl <;> decide

theorem ne_of_isWaitClass {resourceClass : Text} (h : isWaitClass resourceClass = true) :
    resourceClass ≠ .ofString "pthread-mutex" ∧ resourceClass ≠ .ofString "pthread-terminal-attempt" ∧
      resourceClass ≠ .ofString "pthread-joinable-thread" ∧ resourceClass ≠ .ofString "blocking-operation" ∧
      isHeldClass resourceClass = false := by
  obtain ⟨name, hname, hclass⟩ := List.any_eq_true.mp h
  obtain rfl := of_decide_eq_true hclass
  revert name
  decide

/-- The classes are those of locks, those of waits and four more. -/
theorem isSynchronizationClass_eq (resourceClass : Text) :
    isSynchronizationClass resourceClass = (isHeldClass resourceClass || (isWaitClass resourceClass ||
      ["pthread-mutex", "pthread-terminal-attempt", "pthread-joinable-thread", "blocking-operation"].any
        (fun name => resourceClass = .ofString name))) := by
  rw [isSynchronizationClass, isWaitClass, ← List.any_append]
  rfl

theorem isSynchronizationRecord_of_lock {node : Node} (h : isLockRecord node = true) :
    isSynchronizationRecord node = true ∧ isHeldClass node.resourceClass = true := by
  obtain ⟨hdomain, hkind, hheld⟩ := of_decide_eq_true h
  have hclass : isSynchronizationClass node.resourceClass = true := by
    rw [isSynchronizationClass, hheld, Bool.true_or]
  exact ⟨decide_eq_true ⟨hdomain, hkind, hclass⟩, hheld⟩

theorem isSynchronizationRecord_of_wait {node : Node} (h : isWaitRecord node = true) :
    isSynchronizationRecord node = true ∧ isWaitClass node.resourceClass = true := by
  obtain ⟨hdomain, hkind, hwait⟩ := of_decide_eq_true h
  have hclass : isSynchronizationClass node.resourceClass = true := by
    rw [isSynchronizationClass_eq, hwait, Bool.true_or, Bool.or_true]
  exact ⟨decide_eq_true ⟨hdomain, hkind, hclass⟩, hwait⟩

theorem nodeEffect_of_lock {node : Node} (h : isLockRecord node = true) (l : SyncLocals) :
    nodeEffect node l = match node.resourceKind with
      | .acquire => acquireEffect node (heldItem node).thread (heldItem node).resource l
      | .release => l.endHeld (heldItem node).thread (heldItem node).resource
      | _ => l := by
  obtain ⟨hrecord, hheld⟩ := isSynchronizationRecord_of_lock h
  obtain ⟨hmutex, hterminal, hjoinable, hblocking⟩ := ne_of_isHeldClass hheld
  rw [nodeEffect, if_pos hrecord]
  unfold recordEffect
  simp only [hmutex, hterminal, hjoinable, hblocking, hheld, decide_false]
  cases node.resourceKind <;> rfl

theorem waitItem_thread (node : Node) :
    (waitItemOf node).thread =
      if isJoinWait node then formatSyncResource node node.resourceId else formatSyncThread node := by
  unfold waitItemOf waitItem
  split <;> rfl

theorem waitItem_resource (node : Node) :
    (waitItemOf node).resource = formatSyncResource node node.resourceId := by
  unfold waitItemOf waitItem
  split <;> rfl

theorem nodeEffect_of_wait {node : Node} (h : isWaitRecord node = true) (l : SyncLocals) :
    nodeEffect node l = match node.resourceKind with
      | .acquire => (l.log .waits l.waits.length).pushWait (waitItemOf node)
      | .release => l.endWait (waitItemOf node).thread (waitItemOf node).resource
      | _ => l := by
  obtain ⟨hrecord, hwait⟩ := isSynchronizationRecord_of_wait h
  obtain ⟨hmutex, hterminal, hjoinable, hblocking, hheld⟩ := ne_of_isWaitClass hwait
  rw [nodeEffect, if_pos hrecord, waitItem_thread, waitItem_resource]
  unfold recordEffect
  simp only [hmutex, hterminal, hjoinable, hblocking, hheld, decide_false]
  cases node.resourceKind <;> rfl

/-- The other records at most end the joinable lifetime of a thread. -/
theorem nodeEffect_of_other {node : Node} (hlock : isLockRecord node = false) (hwait : isWaitRecord node = false)
    (l : SyncLocals) : nodeEffect node l = l ∨ ∃ item, nodeEffect node l = l.pushTerminated item := by
  unfold nodeEffect
  split
  · next hrecord =>
    obtain ⟨hdomain, hkind, hclass⟩ := of_decide_eq_true hrecord
    have hheld : isHeldClass node.resourceClass = false := by
      simpa [isLockRecord, hdomain, hkind] using hlock
    have hwaits : isWaitClass node.resourceClass = false := by
      simpa [isWaitRecord, hdomain, hkind] using hwait
    rw [isSynchronizationClass_eq, hheld, hwaits] at hclass
    unfold recordEffect
    simp only [List.any_cons, List.any_nil, Bool.or_false, Bool.false_or] at hclass ⊢
    generalize decide (node.resourceClass = .ofString "pthread-mutex") = isMutexLifecycle at hclass ⊢
    generalize decide (node.resourceClass = .ofString "pthread-terminal-attempt") = isTerminalAttempt at hclass ⊢
    generalize decide (node.resourceClass = .ofString "pthread-joinable-thread") = isJoinableThread at hclass ⊢
    generalize decide (node.resourceClass = .ofString "blocking-operation") = isBlockingOperation at hclass ⊢
    cases isMutexLifecycle with
    | true => exact .inl rfl
    | false =>
    cases isTerminalAttempt with
    | true => exact .inl rfl
    | false =>
    cases isJoinableThread with
    | true =>
      cases node.resourceKind
      case release => exact .inr ⟨_, rfl⟩
      all_goals exact .inl rfl
    | false =>
    cases isBlockingOperation with
    | true => exact .inl rfl
    | false => cases hclass
  · exact .inl rfl

theorem held_nodeEffect (node : Node) (l : SyncLocals) :
    (nodeEffect node l).held = itemStep isLockRecord heldItem l.held node := by
  unfold itemStep
  cases hlock : isLockRecord node with
  | true =>
    rw [nodeEffect_of_lock hlock, if_pos rfl]
    cases node.resourceKind with
    | acquire => exact congrArg (· ++ [heldItem node]) (orderEffects_keep _ _ l.held l).1
    | release => exact held_endHeld _ _ l
    | replace | transfer | use => rfl
  | false =>
    rw [if_neg (by simp)]
    cases hwait : isWaitRecord node with
    | true =>
      rw [nodeEffect_of_wait hwait]
      cases node.resourceKind with
      | release => exact held_endWait _ _ l
      | acquire | replace | transfer | use => rfl
    | false =>
      rcases nodeEffect_of_other hlock hwait l with hsame | ⟨item, hpush⟩
      · rw [hsame]
      · rw [hpush]
        rfl

theorem waits_nodeEffect (node : Node) (l : SyncLocals) :
    (nodeEffect node l).waits = itemStep isWaitRecord waitItemOf l.waits node := by
  unfold itemStep
  cases hwait : isWaitRecord node with
  | true =>
    rw [nodeEffect_of_wait hwait, if_pos rfl]
    cases node.resourceKind with
    | release => exact waits_endWait _ _ l
    | acquire | replace | transfer | use => rfl
  | false =>
    rw [if_neg (by simp)]
    cases hlock : isLockRecord node with
    | true =>
      rw [nodeEffect_of_lock hlock]
      cases node.resourceKind with
      | acquire => exact (orderEffects_keep _ _ l.held l).2.1
      | release => exact waits_endHeld _ _ l
      | replace | transfer | use => rfl
    | false =>
      rcases nodeEffect_of_other hlock hwait l with hsame | ⟨item, hpush⟩
      · rw [hsame]
      · rw [hpush]
        rfl

theorem passEffect_concat (nodes : List Node) (node : Node) :
    passEffect (nodes ++ [node]) = nodeEffect node (passEffect nodes) := List.foldl_concat _ _ _ _

def ShownBy (item : Node → SyncItem) (nodes : List Node) (lifetime : Lifetime ItemName) (shown : SyncItem) :
    Prop :=
  ∃ node, nodes[lifetime.opener]? = some node ∧ lifetime.key = (item node).name ∧
    shown = { item node with active := decide (lifetime.closer = none) }

variable {item : Node → SyncItem} {selects : Node → Bool} {nodes : List Node}

theorem ShownBy.mono {lifetime : Lifetime ItemName} {shown : SyncItem} (h : ShownBy item nodes lifetime shown)
    (node : Node) : ShownBy item (nodes ++ [node]) lifetime shown := by
  obtain ⟨opener, hopener, hshown⟩ := h
  refine ⟨opener, ?_, hshown⟩
  rw [List.getElem?_append_left (List.getElem?_eq_some_iff.mp hopener).1]
  exact hopener

theorem ShownBy.name_eq {lifetime : Lifetime ItemName} {shown : SyncItem}
    (h : ShownBy item nodes lifetime shown) : shown.name = lifetime.key := by
  obtain ⟨opener, -, hkey, rfl⟩ := h
  exact hkey.symm

theorem ShownBy.active_iff {lifetime : Lifetime ItemName} {shown : SyncItem}
    (h : ShownBy item nodes lifetime shown) : shown.active = true ↔ lifetime.closer = none := by
  obtain ⟨opener, -, -, rfl⟩ := h
  exact decide_eq_true_iff

theorem ShownBy.isOpen_eq {lifetime : Lifetime ItemName} {shown : SyncItem}
    (h : ShownBy item nodes lifetime shown) (name : ItemName) :
    lifetime.isOpen name = decide (shown.active ∧ shown.thread = name.1 ∧ shown.resource = name.2) := by
  apply decide_eq_decide.mpr
  have hname : shown.thread = name.1 ∧ shown.resource = name.2 ↔ lifetime.key = name := by
    rw [← h.name_eq, Prod.ext_iff]
    exact Iff.rfl
  rw [h.active_iff, hname]
  exact and_comm

theorem ShownBy.close {lifetime : Lifetime ItemName} {shown : SyncItem} (h : ShownBy item nodes lifetime shown)
    (index : ℕ) : ShownBy item nodes (lifetime.closeAt index) shown.deactivate := by
  obtain ⟨opener, hopener, hkey, rfl⟩ := h
  exact ⟨opener, hopener, hkey, rfl⟩

/-- The items of the array are the lifetimes of the names, in order. -/
theorem forall₂_shownBy (hactive : ∀ node, (item node).active = true) (nodes : List Node) :
    List.Forall₂ (ShownBy item nodes) ((itemEffects selects item).run nodes)
      (nodes.foldl (itemStep selects item) []) := by
  induction nodes using List.reverseRecOn with
  | nil => exact .nil
  | append_singleton nodes node ih =>
    rw [Effects.run_concat, List.foldl_concat]
    have hgrown : List.Forall₂ (ShownBy item (nodes ++ [node])) ((itemEffects selects item).run nodes)
        (nodes.foldl (itemStep selects item) []) := ih.imp fun _ _ hshown => hshown.mono node
    generalize nodes.foldl (itemStep selects item) [] = items at hgrown
    generalize (itemEffects selects item).run nodes = lifetimes at hgrown ⊢
    unfold itemStep Effects.step itemEffects
    dsimp only
    cases hselects : selects node with
    | false => simpa using hgrown
    | true =>
      cases node.resourceKind with
      | acquire =>
        have hnew : ShownBy item (nodes ++ [node]) { key := (item node).name, opener := nodes.length } (item node) := by
          refine ⟨node, by simp, rfl, ?_⟩
          have hitem := hactive node
          cases hcase : item node
          rw [hcase] at hitem
          simp [← hitem]
        simpa using List.rel_append hgrown (.cons hnew .nil)
      | release =>
        have hopen : ∀ x shown, ShownBy item (nodes ++ [node]) x shown → x.isOpen (item node).name =
            decide (shown.active ∧ shown.thread = (item node).thread ∧ shown.resource = (item node).resource) :=
          fun _ _ hshown => hshown.isOpen_eq _
        have hclose : ∀ x shown, ShownBy item (nodes ++ [node]) x shown →
            ShownBy item (nodes ++ [node]) (x.closeAt nodes.length) shown.deactivate :=
          fun _ _ hshown => hshown.close _
        exact forall₂_close hopen hclose hgrown
      | replace | transfer | use => simpa using hgrown

/-- After the records, the thread holds the lock: it acquired it and no record released that
acquisition. -/
def Holds (nodes : List Node) (thread resource : EvidenceText) : Prop :=
  ∃ i, lockEffects.Unclosed nodes i (thread, resource)

/-- The record begins a wait that no later record ends. -/
def Unfinished (nodes : List Node) (node : Node) : Prop :=
  ∃ i, nodes[i]? = some node ∧ waitEffects.Unclosed nodes i (waitItemOf node).name

theorem forall₂_held (nodes : List Node) :
    List.Forall₂ (ShownBy heldItem nodes) (lockEffects.run nodes) (passEffect nodes).held := by
  have hheld : (passEffect nodes).held = nodes.foldl (itemStep isLockRecord heldItem) [] := by
    induction nodes using List.reverseRecOn with
    | nil => rfl
    | append_singleton nodes node ih => rw [passEffect_concat, held_nodeEffect, ih, List.foldl_concat]
  rw [hheld]
  exact forall₂_shownBy (fun _ => rfl) nodes

theorem waitItemOf_active (node : Node) : (waitItemOf node).active = true := by
  unfold waitItemOf waitItem
  split <;> rfl

theorem forall₂_waits (nodes : List Node) :
    List.Forall₂ (ShownBy waitItemOf nodes) (waitEffects.run nodes) (passEffect nodes).waits := by
  have hwaits : (passEffect nodes).waits = nodes.foldl (itemStep isWaitRecord waitItemOf) [] := by
    induction nodes using List.reverseRecOn with
    | nil => rfl
    | append_singleton nodes node ih => rw [passEffect_concat, waits_nodeEffect, ih, List.foldl_concat]
  rw [hwaits]
  exact forall₂_shownBy waitItemOf_active nodes

/-- The active held items are the locks that threads hold. -/
theorem exists_held_iff {nodes : List Node} {thread resource : EvidenceText} :
    (∃ held ∈ (passEffect nodes).held, held.active = true ∧ held.thread = thread ∧ held.resource = resource) ↔
      Holds nodes thread resource := by
  have hshown := forall₂_held nodes
  simp only [Holds, Effects.unclosed_iff]
  constructor
  · rintro ⟨held, hheld, hactive, rfl, rfl⟩
    obtain ⟨x, hx, hshows⟩ : ∃ x ∈ lockEffects.run nodes, ShownBy heldItem nodes x held :=
      exists_of_forall₂_left hshown.flip hheld
    exact ⟨x.opener, x, hx, rfl, hshows.name_eq.symm, hshows.active_iff.mp hactive⟩
  · rintro ⟨i, x, hx, rfl, hkey, hopen⟩
    obtain ⟨held, hheld, hshows⟩ := exists_of_forall₂_left hshown hx
    obtain ⟨hthread, hresource⟩ := Prod.mk.inj (hshows.name_eq.trans hkey)
    exact ⟨held, hheld, hshows.active_iff.mpr hopen, hthread, hresource⟩

theorem mem_waits_iff {nodes : List Node} {wait : SyncItem} (hactive : wait.active = true) :
    wait ∈ (passEffect nodes).waits ↔ ∃ node, Unfinished nodes node ∧ wait = waitItemOf node := by
  have hshown := forall₂_waits nodes
  simp only [Unfinished, Effects.unclosed_iff]
  constructor
  · intro hwait
    obtain ⟨x, hx, hshows⟩ : ∃ x ∈ waitEffects.run nodes, ShownBy waitItemOf nodes x wait :=
      exists_of_forall₂_left hshown.flip hwait
    have hopen := hshows.active_iff.mp hactive
    obtain ⟨node, hnode, hkey, heq⟩ := hshows
    refine ⟨node, ⟨x.opener, hnode, x, hx, rfl, hkey, hopen⟩, ?_⟩
    rw [heq, hopen, decide_eq_true rfl, ← waitItemOf_active node]
  · rintro ⟨node, ⟨i, hnode, x, hx, rfl, hkey, hopen⟩, rfl⟩
    obtain ⟨wait, hwait, opener, hopener, -, rfl⟩ := exists_of_forall₂_left hshown hx
    obtain rfl : node = opener := Option.some.inj (hnode.symm.trans hopener)
    rw [hopen, decide_eq_true rfl, ← waitItemOf_active node] at hwait
    exact hwait

end ToolEvent.ModelAnalysis