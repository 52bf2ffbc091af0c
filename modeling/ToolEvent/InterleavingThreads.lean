import ToolEvent.InterleavingCorrect

/-!
# The order of a thread in the schedules of the walk

The pass takes the process and context of a record for its thread. The walk compares the
metadata of two records instead when both have some, so that it may exchange two records
of one thread of the pass.
-/

namespace ToolEvent.ModelAnalysis

open Fallible World RunModel AdjacentSwaps Relation

variable {model : Model} {analysis : Analysis} {limit : ℕ} {outcomes : List Bool}

/-- The synchronization records of a thread, as the pass names it. -/
def isRecordOf (analysis : Analysis) (thread : EvidenceText) (x : ℕ) : Bool :=
  (analysis.orderedNodesAt x).any (fun node => isInterleavingNode node.node ∧ formatSyncThread node.node = thread)

def KeepsThreads (analysis : Analysis) (schedule : List ℕ) : Prop :=
  ∀ thread, schedule.filter (isRecordOf analysis thread) = analysis.observed.filter (isRecordOf analysis thread)

/-- From every record of a thread to every later one leads a chain of nodes, each observed
after the one before it and not exchanged with it. -/
def ThreadsTied (analysis : Analysis) : Prop :=
  ∀ thread x y, isRecordOf analysis thread x = true → isRecordOf analysis thread y = true →
    Before x y analysis.observed → Tied (FixedPair analysis) analysis.observed x y

theorem keepsThreads_iff {schedule : List ℕ} (hperm : schedule.Perm analysis.observed) :
    KeepsThreads analysis schedule ↔
      ∀ thread x y, isRecordOf analysis thread x = true → isRecordOf analysis thread y = true →
        Before x y analysis.observed → Before x y schedule :=
  forall_congr' fun _ => filter_eq_iff List.nodup_range hperm

theorem KeepsThreads.of_tied (h : ThreadsTied analysis) {schedule : List ℕ}
    (hreaches : ReflTransGen (Swap (FixedPair analysis)) analysis.observed schedule) :
    KeepsThreads analysis schedule := by
  have hperm := perm_of_reaches hreaches
  rw [keepsThreads_iff hperm]
  intro thread x y hx hy hxy
  exact (h thread x y hx hy hxy).before (hperm.nodup_iff.mpr List.nodup_range) (keeps_of_reaches hreaches)

/-- Exchanges lead to a schedule that reorders a thread that is not tied. -/
theorem threadsTied_of_keepsThreads
    (h : ∀ schedule, ReflTransGen (Swap (FixedPair analysis)) analysis.observed schedule →
      KeepsThreads analysis schedule) : ThreadsTied analysis := by
  intro thread x y hx hy hxy
  by_contra htied
  obtain ⟨schedule, hperm, hkeeps, hyx⟩ := exists_before_of_not_tied List.nodup_range hxy htied
  have hreaches := reaches_of_keeps hperm List.nodup_range hkeeps
  have hxy' := (keepsThreads_iff hperm).mp (h schedule hreaches) thread x y hx hy hxy
  exact hyx.asymm (hperm.nodup_iff.mpr List.nodup_range) hxy'

/-- A walk that leaves no schedule out keeps the order of every thread exactly when the threads are tied. -/
theorem keepsThreads_iff_threadsTied {v : World Walk} (hwalk : writeInterleaving analysis limit ⟨{}, outcomes⟩ = (.ok (), v))
    (hnone : v.state.counterexamples = []) {explored : ℕ} (hexplored : v.state.explored = some explored)
    (hlt : explored < limit) : (∀ schedule ∈ v.state.orders, KeepsThreads analysis schedule) ↔ ThreadsTied analysis := by
  obtain ⟨-, hreported⟩ := (ends_writeInterleaving analysis limit outcomes).ok hwalk
  obtain ⟨baseline, v', hbaseline, hv', hsearched, hclosed, rfl⟩ := hreported explored hexplored
  rw [← hv'] at hlt hnone hclosed ⊢
  constructor
  · exact fun hkeeps => threadsTied_of_keepsThreads fun schedule hreaches =>
      hkeeps schedule (hclosed.mem hsearched.stored hlt hnone hreaches)
  · intro htied schedule hschedule
    obtain ⟨item, hitem⟩ := List.mem_iff_getElem?.mp hschedule
    exact .of_tied htied (hsearched.stored.reaches hitem)

/-- An iteration of the loop over the neighbours that stores a schedule. -/
structure Exchanges (analysis : Analysis) (limit item index : ℕ) (walk : Walk) (current : List ℕ) (left right : ℕ) :
    Prop where
  room : walk.orders.length < limit
  unfound : walk.counterexamples = []
  stored : walk.orders[item]? = some current
  first : current[index]? = some left
  second : current[index + 1]? = some right
  exchangeable : Exchangeable analysis left right
  fresh : exchangeAt index current ∉ walk.orders

abbrev SameOrders (walk walk' : Walk) : Prop := walk'.orders = walk.orders

theorem evolves_orOutside {r : Walk → Walk → Prop} {α : Type} (element : Option α) :
    Evolves r (orOutside element : Routine Walk α) := by
  cases element with
  | none => exact evolves_fail _
  | some a => exact evolves_pure a

theorem run_orOutside_some_bind {α : Type} (a : α) (f : α → Routine Walk Unit) (w : World Walk) :
    (orOutside (some a) >>= f) w = f a w := rfl

theorem evolves_writeText (text : Text) : Evolves SameOrders (writeText text) :=
  evolves_allocate.bind fun _ => Evolves.ite (fun _ => .single rfl) (evolves_fail _)

theorem evolves_writeCounterexample (analysis : Analysis) (findings : List SyncKey) :
    Evolves SameOrders (writeCounterexample analysis findings) := by
  refine evolves_readState.bind fun _ => (evolves_orOutside _).bind fun _ => (evolves_orOutside _).bind fun _ => ?_
  exact (evolves_orOutside _).bind fun _ => (evolves_writeText _).bind fun _ _ => .single rfl

theorem evolves_collectPrefixSyncKeys (order : List OrderedNode) :
    Evolves SameOrders (collectPrefixSyncKeys order) := by
  intro w
  have hkept : Kept w (collectPrefixSyncKeys order w).2 :=
    ((ends_collectPrefixSyncKeys order w).imp (fun _ _ => And.left) fun _ => id).final
  rw [hkept.state]

theorem evolves_examine (analysis : Analysis) (baseline : List SyncKey) (candidate : List ℕ) :
    Evolves SameOrders (examine analysis baseline candidate) := by
  refine evolves_allocate.bind fun _ => Evolves.ite ?_ (evolves_fail _)
  refine (evolves_orOutside _).bind fun order => (evolves_collectPrefixSyncKeys order).bind fun _ => ?_
  exact Evolves.ite (evolves_pure _) (evolves_writeCounterexample _ _)

theorem orders_of_evolves {α : Type} {x : Routine Walk α} (h : Evolves SameOrders x) (w : World Walk) :
    (x w).2.state.orders = w.state.orders :=
  invariant_of_reaches (fun walk => walk.orders = w.state.orders) (fun _ _ hsame hw => hsame.trans hw) (h w) rfl

theorem evolves_writeSummary (analysis : Analysis) (limit : ℕ) : Evolves SameOrders (writeSummary analysis limit) :=
  evolves_readState.bind fun _ => (evolves_writeText _).bind fun _ _ => .single rfl

theorem orders_bind {x y : Routine Walk Unit} (hy : Evolves SameOrders y) {w : World Walk} :
    ((x >>= fun _ => y) w).2.state.orders = (x w).2.state.orders := by
  rw [run_bind]
  rcases x w with ⟨⟨e⟩ | ⟨⟨⟩⟩, w'⟩
  · rfl
  · exact orders_of_evolves hy w'

/-- What an iteration of the loop over the neighbours stores. -/
theorem exchange_cases (analysis : Analysis) (limit : ℕ) (baseline : List SyncKey) (item index : ℕ) (w : World Walk) :
    (∃ current left right, Exchanges analysis limit item index w.state current left right ∧
      (exchange analysis baseline limit item index w).2.state.orders =
        w.state.orders ++ [exchangeAt index current]) ∨
    (∀ current left right, ¬ Exchanges analysis limit item index w.state current left right) ∧
      (exchange analysis baseline limit item index w).2.state.orders = w.state.orders := by
  have hnone : ∀ {α : Type} {o : Option α} {a b : α}, o = some a → o = some b → a = b :=
    fun ha hb => Option.some.inj (ha.symm.trans hb)
  unfold exchange
  rw [run_readState_bind]
  by_cases hguard : w.state.orders.length < limit ∧ w.state.counterexamples = []
  swap
  · rw [if_neg hguard]
    exact .inr ⟨fun _ _ _ h => hguard ⟨h.room, h.unfound⟩, rfl⟩
  rw [if_pos hguard]
  cases hcurrent : w.state.orders[item]? with
  | none => exact .inr ⟨fun _ _ _ h => (by cases hcurrent.symm.trans h.stored), rfl⟩
  | some current =>
  rw [run_orOutside_some_bind]
  cases hfirst : current[index]? with
  | none =>
    refine .inr ⟨fun _ _ _ h => ?_, rfl⟩
    obtain rfl := hnone hcurrent h.stored
    cases hfirst.symm.trans h.first
  | some left =>
  rw [run_orOutside_some_bind]
  cases hsecond : current[index + 1]? with
  | none =>
    refine .inr ⟨fun _ _ _ h => ?_, rfl⟩
    obtain rfl := hnone hcurrent h.stored
    cases hsecond.symm.trans h.second
  | some right =>
  rw [run_orOutside_some_bind]
  have hunique : ∀ current' left' right', Exchanges analysis limit item index w.state current' left' right' →
      Exchanges analysis limit item index w.state current left right := by
    intro current' left' right' h
    obtain rfl := hnone hcurrent h.stored
    obtain rfl := hnone hfirst h.first
    obtain rfl := hnone hsecond h.second
    exact h
  cases hleftNode : analysis.orderedNodesAt left with
  | none =>
    refine .inr ⟨fun _ _ _ h => ?_, rfl⟩
    obtain ⟨leftNode, _, hnode, -⟩ := (hunique _ _ _ h).exchangeable
    cases hleftNode.symm.trans hnode
  | some leftNode =>
  rw [run_orOutside_some_bind]
  cases hrightNode : analysis.orderedNodesAt right with
  | none =>
    refine .inr ⟨fun _ _ _ h => ?_, rfl⟩
    obtain ⟨_, rightNode, -, hnode, -⟩ := (hunique _ _ _ h).exchangeable
    cases hrightNode.symm.trans hnode
  | some rightNode =>
  rw [run_orOutside_some_bind]
  have hexchangeable : Exchangeable analysis left right ↔ isExchangeable analysis leftNode rightNode = true := by
    simp [Exchangeable, hleftNode, hrightNode]
  by_cases hskip : isExchangeable analysis leftNode rightNode = false ∨ exchangeAt index current ∈ w.state.orders
  · rw [if_pos hskip]
    refine .inr ⟨fun _ _ _ h => ?_, rfl⟩
    have hthis := hunique _ _ _ h
    rcases hskip with hfixed | hold
    · exact ne_true_of_eq_false hfixed (hexchangeable.mp hthis.exchangeable)
    · exact hthis.fresh hold
  · rw [if_neg hskip]
    obtain ⟨hfree, hfresh⟩ := not_or.mp hskip
    refine .inl ⟨current, left, right, ⟨hguard.1, hguard.2, hcurrent, hfirst, hsecond, ?_, hfresh⟩, ?_⟩
    · exact hexchangeable.mpr (eq_true_of_ne_false hfree)
    · exact orders_of_evolves (evolves_examine analysis baseline (exchangeAt index current)) _

def threadAt (analysis : Analysis) (x : ℕ) : Option EvidenceText :=
  (analysis.orderedNodesAt x).map fun node => formatSyncThread node.node

/-- The iteration exchanges no two records of one thread: where `same_sync_thread` tells them apart, so do
their names. -/
def ExchangesThreads (analysis : Analysis) (limit item index : ℕ) (walk : Walk) : Prop :=
  ∀ current left right, Exchanges analysis limit item index walk current left right →
    threadAt analysis left ≠ threadAt analysis right

def KeepsAll (analysis : Analysis) (walk : Walk) : Prop := ∀ schedule ∈ walk.orders, KeepsThreads analysis schedule

theorem isRecordOf_iff {x : ℕ} {node : OrderedNode} (hx : analysis.orderedNodesAt x = some node)
    (hnode : isInterleavingNode node.node = true) (thread : EvidenceText) :
    isRecordOf analysis thread x = true ↔ threadAt analysis x = some thread := by
  simp [isRecordOf, threadAt, hx, hnode]

/-- An exchange of neighbours keeps the threads exactly when it exchanges two of them. -/
theorem keepsThreads_exchange_iff {front back : List ℕ} {left right : ℕ}
    (hnodup : (front ++ left :: right :: back).Nodup) (hkeeps : KeepsThreads analysis (front ++ left :: right :: back))
    (hexchangeable : Exchangeable analysis left right) :
    KeepsThreads analysis (front ++ right :: left :: back) ↔ threadAt analysis left ≠ threadAt analysis right := by
  obtain ⟨leftNode, rightNode, hleft, hright, hfree⟩ := hexchangeable
  obtain ⟨hleftNode, hrightNode, -⟩ := isExchangeable_iff.mp hfree
  have hleftOf := isRecordOf_iff hleft hleftNode
  have hrightOf := isRecordOf_iff hright hrightNode
  constructor
  · intro hexchanged hsame
    obtain ⟨thread, hthread⟩ : ∃ thread, threadAt analysis left = some thread :=
      ⟨_, by rw [threadAt, hleft, Option.map_some]⟩
    have hfilter := (hkeeps thread).trans (hexchanged thread).symm
    have hl := (hleftOf thread).mpr hthread
    have hr := (hrightOf thread).mpr (hsame ▸ hthread)
    simp only [List.filter_append, List.filter_cons, hl, hr, if_true, List.append_cancel_left_eq, List.cons.injEq] at hfilter
    refine (List.nodup_cons.mp (List.nodup_append.mp hnodup).2.1).1 ?_
    rw [hfilter.1]
    exact List.mem_cons_self
  · intro hdiffer thread
    rw [← hkeeps thread]
    have hone : ¬ (isRecordOf analysis thread left = true ∧ isRecordOf analysis thread right = true) := by
      rintro ⟨hl, hr⟩
      exact hdiffer (((hleftOf thread).mp hl).trans ((hrightOf thread).mp hr).symm)
    rw [List.filter_append, List.filter_append]
    congr 1
    cases hl : isRecordOf analysis thread left with
    | false => simp only [List.filter_cons, hl, Bool.false_eq_true, if_false]
    | true =>
      have hr := eq_false_of_ne_true fun hr => hone ⟨hl, hr⟩
      simp only [List.filter_cons, hr, Bool.false_eq_true, if_false]

/-- One iteration of the loop over the neighbours. -/
theorem keepsAll_exchange_iff {item index : ℕ} {w : World Walk} (hstored : Stored analysis limit w.state)
    (hkeeps : KeepsAll analysis w.state) :
    KeepsAll analysis (exchange analysis baseline limit item index w).2.state ↔
      ExchangesThreads analysis limit item index w.state := by
  rcases exchange_cases analysis limit baseline item index w with
    ⟨current, left, right, hexchanges, horders⟩ | ⟨hnone, horders⟩
  · have hcurrent := hstored.nodup_schedule hexchanges.stored
    obtain ⟨front, a, b, back, rfl, rfl⟩ := exists_neighbours (List.getElem?_eq_some_iff.mp hexchanges.second).1
    obtain rfl : a = left := by simpa using hexchanges.first
    obtain rfl : b = right := by simpa using hexchanges.second
    have hexchange := keepsThreads_exchange_iff hcurrent (hkeeps _ (List.mem_of_getElem? hexchanges.stored))
      hexchanges.exchangeable
    rw [KeepsAll, horders, exchangeAt_append]
    constructor
    · intro hall current left right h
      obtain rfl := Option.some.inj (hexchanges.stored.symm.trans h.stored)
      obtain rfl := Option.some.inj (hexchanges.first.symm.trans h.first)
      obtain rfl := Option.some.inj (hexchanges.second.symm.trans h.second)
      exact hexchange.mp (hall _ (List.mem_append_right _ List.mem_cons_self))
    · intro hthreads schedule hschedule
      rcases List.mem_append.mp hschedule with hold | hnew
      · exact hkeeps schedule hold
      · obtain rfl := List.mem_singleton.mp hnew
        exact hexchange.mpr (hthreads _ _ _ hexchanges)
  · rw [KeepsAll, horders]
    exact iff_of_true hkeeps fun current left right h => absurd h (hnone current left right)

abbrev Grows (walk walk' : Walk) : Prop := walk.orders <+: walk'.orders

theorem evolves_exchange (analysis : Analysis) (baseline : List SyncKey) (limit item index : ℕ) :
    Evolves Grows (exchange analysis baseline limit item index) := by
  intro w
  refine .single ?_
  rcases exchange_cases analysis limit baseline item index w with ⟨current, left, right, -, horders⟩ | ⟨-, horders⟩
  · rw [Grows, horders]
    exact List.prefix_append _ _
  · rw [Grows, horders]

theorem evolves_walkQueue (analysis : Analysis) (baseline : List SyncKey) (limit fuel item : ℕ) :
    Evolves Grows (walkQueue analysis baseline limit fuel item) := by
  induction fuel generalizing item with
  | zero => exact evolves_pure ()
  | succ fuel ih =>
    refine evolves_readState.bind fun _ => Evolves.ite ?_ (evolves_pure ())
    exact (evolves_forEach (evolves_exchange analysis baseline limit item) _).bind fun _ => ih (item + 1)

theorem KeepsAll.earlier {x : Routine Walk Unit} (hx : Evolves Grows x) {w : World Walk}
    (h : KeepsAll analysis (x w).2.state) : KeepsAll analysis w.state := by
  have hgrown : w.state.orders <+: (x w).2.state.orders :=
    invariant_of_reaches (fun walk : Walk => w.state.orders <+: walk.orders) (fun _ _ hgrows hw => hw.trans hgrows) (hx w)
      List.prefix_rfl
  exact fun schedule hschedule => h schedule (hgrown.subset hschedule)

/-- Every iteration of the loop over the neighbours that the loop over the queue comes to exchanges records of
different threads. -/
def EachExchange (analysis : Analysis) (baseline : List SyncKey) (limit : ℕ) : ℕ → ℕ → World Walk → Prop
  | 0, _, _ => True
  | fuel + 1, item, w =>
    item < w.state.orders.length ∧ w.state.orders.length < limit ∧ w.state.counterexamples = [] →
      EachRound (fun index w => ExchangesThreads analysis limit item index w.state)
          (exchange analysis baseline limit item) (List.range (analysis.orderedCount - 1)) w ∧
        ∀ w', forEach (exchange analysis baseline limit item) (List.range (analysis.orderedCount - 1)) w = (.ok (), w') →
          EachExchange analysis baseline limit fuel (item + 1) w'

/-- The loop over the neighbours in a schedule. -/
theorem keepsAll_exchanges_iff {item : ℕ} {w : World Walk} (h : Expanding analysis limit outcomes baseline item 0 w)
    (hkeeps : KeepsAll analysis w.state) :
    KeepsAll analysis (forEach (exchange analysis baseline limit item)
        (List.range (analysis.orderedCount - 1)) w).2.state ↔
      EachRound (fun index w => ExchangesThreads analysis limit item index w.state)
        (exchange analysis baseline limit item) (List.range (analysis.orderedCount - 1)) w := by
  refine eachRound_iff (P := fun w => KeepsAll analysis w.state)
    (I := fun before => Expanding analysis limit outcomes baseline item before.length) ?_ ?_ ?_ h hkeeps
  · exact fun before index after w _ hI hkeeps => keepsAll_exchange_iff hI.stored hkeeps
  · intro before index after w w' hsplit hI hrun
    obtain ⟨rfl, hlt⟩ := eq_length_of_range_split hsplit
    rw [List.length_append, List.length_singleton]
    exact (ends_exchange hlt hI).ok hrun
  · exact fun index w => KeepsAll.earlier (evolves_exchange analysis baseline limit item index)

theorem keepsAll_walkQueue_iff (fuel item : ℕ) {w : World Walk} (h : Searched analysis limit outcomes baseline w)
    (hbehind : Behind analysis limit item w.state) (hkeeps : KeepsAll analysis w.state) :
    KeepsAll analysis (walkQueue analysis baseline limit fuel item w).2.state ↔
      EachExchange analysis baseline limit fuel item w := by
  induction fuel generalizing item w with
  | zero => exact iff_of_true hkeeps trivial
  | succ fuel ih =>
    rw [walkQueue, run_readState_bind, EachExchange]
    by_cases hguard : item < w.state.orders.length ∧ w.state.orders.length < limit ∧ w.state.counterexamples = []
    swap
    · rw [if_neg hguard]
      exact iff_of_true hkeeps fun hrun => absurd hrun hguard
    rw [if_pos hguard, forall_prop_of_true hguard]
    have hexpanding := h.expanding hbehind hguard.1
    have hrounds := keepsAll_exchanges_iff hexpanding hkeeps
    have hends := ends_exchanges hexpanding
    rw [← hrounds]
    rcases hrun : forEach (exchange analysis baseline limit item) (List.range (analysis.orderedCount - 1)) w with
      ⟨⟨e⟩ | ⟨⟨⟩⟩, w'⟩
    · rw [run_bind_of_error hrun]
      exact (and_iff_left fun w' hok => by cases hok).symm
    · rw [run_bind_of_ok hrun]
      have hexpanded := hends.ok hrun
      have hrest := fun hkeeps' => ih (item + 1) hexpanded.toSearched hexpanded.behind hkeeps'
      constructor
      · intro hfinal
        have hkeeps' := hfinal.earlier (evolves_walkQueue analysis baseline limit fuel (item + 1))
        refine ⟨hkeeps', fun v hv => ?_⟩
        obtain ⟨-, rfl⟩ := Prod.mk.inj hv
        exact (hrest hkeeps').mp hfinal
      · rintro ⟨hkeeps', hall⟩
        exact (hrest hkeeps').mpr (hall w' rfl)

theorem Unwalked.keepsAll {w : World Walk} (h : Unwalked analysis w) : KeepsAll analysis w.state := by
  intro schedule hschedule
  rcases h with hempty | hobserved
  · rw [hempty] at hschedule
    cases hschedule
  · rw [hobserved] at hschedule
    obtain rfl := List.mem_singleton.mp hschedule
    exact fun _ => rfl

/-- The schedules that are stored keep the order of every thread exactly when every exchange is one of records
of different threads. -/
theorem storedSchedules_keepThreads_iff (analysis : Analysis) (limit : ℕ) (outcomes : List Bool) :
    (∀ schedule ∈ (writeInterleaving analysis limit ⟨{}, outcomes⟩).2.state.orders, KeepsThreads analysis schedule) ↔
      ∀ baseline w, startWalk analysis limit ⟨{}, outcomes⟩ = (.ok (some baseline), w) →
        EachExchange analysis baseline limit limit 0 w := by
  change KeepsAll analysis (writeInterleaving analysis limit ⟨{}, outcomes⟩).2.state ↔ _
  have hstarts := ends_startWalk analysis limit outcomes
  rcases hstart : startWalk analysis limit ⟨{}, outcomes⟩ with ⟨⟨e⟩ | ⟨_ | ⟨baseline⟩⟩, w⟩
  · rw [writeInterleaving, run_bind_of_error hstart]
    exact iff_of_true (hstarts.error hstart).1.keepsAll fun _ _ hok => by cases hok
  · rw [writeInterleaving, run_bind_of_ok hstart]
    exact iff_of_true (hstarts.ok hstart).1.keepsAll fun _ _ hok => by cases hok
  · obtain ⟨hunwalked, -, hsome⟩ := hstarts.ok hstart
    obtain ⟨-, hsearched⟩ := hsome baseline rfl
    have hqueue := keepsAll_walkQueue_iff limit 0 hsearched (.inr (.inr nofun)) hunwalked.keepsAll
    rw [KeepsAll, writeInterleaving, run_bind_of_ok hstart, orders_bind (evolves_writeSummary analysis limit)]
    refine hqueue.trans ⟨fun h baseline' w' hsame => ?_, fun h => h baseline w rfl⟩
    obtain ⟨hok, rfl⟩ := Prod.mk.inj hsame
    obtain rfl := Option.some.inj (Except.ok.inj hok)
    exact h

def remarkedMutexes : List EventRecord :=
  [{ heldMutex 1 1 .acquire "m" with metadata := some (.ofString "outer") },
    { heldMutex 1 2 .acquire "n" with metadata := some (.ofString "inner") }]

theorem remarkedMutexes_reordered :
    Finished .standard (modelOf .standard remarkedMutexes) ∧ (observedRun remarkedMutexes).1 = .ok () ∧
      ∃ schedule ∈ (writeInterleaving (observedRun remarkedMutexes).2.state 2 ⟨{}, []⟩).2.state.orders,
        ¬ KeepsThreads (observedRun remarkedMutexes).2.state schedule := by
  have horders : (writeInterleaving (observedRun remarkedMutexes).2.state 2 ⟨{}, []⟩).2.state.orders = [[0, 1], [1, 0]] := by
    decide +kernel
  have hthread : [1, 0].filter (isRecordOf (observedRun remarkedMutexes).2.state (.ofText (.ofString "1:1"))) ≠
      (observedRun remarkedMutexes).2.state.observed.filter
        (isRecordOf (observedRun remarkedMutexes).2.state (.ofText (.ofString "1:1"))) := by decide +kernel
  refine ⟨finished_modelOf _ (by decide), by decide +kernel, [1, 0], ?_, fun hkeeps => hthread (hkeeps _)⟩
  rw [horders]
  exact .tail _ (.head _)

end ToolEvent.ModelAnalysis
