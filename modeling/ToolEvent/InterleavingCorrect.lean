import ToolEvent.InterleavingSearch

/-!
# What the interleaving walk shows

For an analysis that ran, the exchanges of the walk reach exactly the permutations of the
ordered nodes that keep the observed order of every two nodes one of which is no
synchronization record, or that belong to one thread, or that an edge joins.
-/

namespace ToolEvent.ModelAnalysis

open Fallible World RunModel AdjacentSwaps Relation

variable {model : Model} {analysis : Analysis} {limit : ℕ} {outcomes : List Bool}

def Joined (model : Model) (left right : OrderedNode) : Prop :=
  ∃ edge ∈ model.edges, (edge.source = left.originalIndex ∧ edge.target = right.originalIndex) ∨
    (edge.source = right.originalIndex ∧ edge.target = left.originalIndex)

def KeepsOrder (model : Model) (left right : OrderedNode) : Prop :=
  isInterleavingNode left.node = false ∨ isInterleavingNode right.node = false ∨
    sameSyncThread left.node right.node = true ∨ Joined model left right

/-- A permutation of the ordered nodes that keeps the observed order of those nodes. -/
structure IsSchedule (analysis : Analysis) (schedule : List ℕ) : Prop where
  perm : schedule.Perm analysis.observed
  keeps : ∀ x y left right, x < y → analysis.orderedNodesAt x = some left →
    analysis.orderedNodesAt y = some right → KeepsOrder analysis.model left right → Before x y schedule

theorem lt_of_orderedNodesAt {x : ℕ} {node : OrderedNode} (h : analysis.orderedNodesAt x = some node) :
    x < analysis.orderedCount := by
  have hlt := (List.getElem?_eq_some_iff.mp h).1
  rw [List.length_take] at hlt
  omega

/-- The order of an analysis that ran, as far as it goes through it. -/
theorem Ran.isCausalOrder (h : Ran model analysis) (hpos : 0 < analysis.orderedCount) :
    IsCausalOrder model analysis.order ∧ analysis.orderedCount = model.nodes.length := by
  rcases h.order with horder | ⟨-, hzero⟩
  · exact horder
  · omega

theorem Ran.length_ordered (h : Ran model analysis) (hpos : 0 < analysis.orderedCount) :
    (analysis.ordered.getD []).length = analysis.orderedCount := by
  obtain ⟨horder, hcount⟩ := h.isCausalOrder hpos
  rw [hcount, length_ordered_of_isCausalOrder horder]

theorem Ran.orderedNodesAt_eq (h : Ran model analysis) (hpos : 0 < analysis.orderedCount) (x : ℕ) :
    analysis.orderedNodesAt x = (analysis.ordered.getD [])[x]? := by
  rw [Analysis.orderedNodesAt, List.take_of_length_le (h.length_ordered hpos).le]

theorem Ran.exists_node (h : Ran model analysis) {x : ℕ} (hx : x < analysis.orderedCount) :
    ∃ node, analysis.orderedNodesAt x = some node := by
  have hpos := Nat.zero_lt_of_lt hx
  rw [h.orderedNodesAt_eq hpos]
  exact ⟨_, List.getElem?_eq_getElem (h.length_ordered hpos ▸ hx)⟩

/-- A node stands in the order where it was observed. -/
theorem Ran.idxOf_eq (h : Ran model analysis) {x : ℕ} {node : OrderedNode}
    (hx : analysis.orderedNodesAt x = some node) : analysis.order.idxOf node.originalIndex = x := by
  have hpos := Nat.zero_lt_of_lt (lt_of_orderedNodesAt hx)
  rw [h.orderedNodesAt_eq hpos] at hx
  obtain ⟨hlt, rfl⟩ := List.getElem?_eq_some_iff.mp hx
  exact idxOf_originalIndex (h.isCausalOrder hpos).1 hlt

theorem directlyOrdered_iff {left right : ℕ} : directlyOrdered analysis left right = true ↔
    ∃ edge ∈ analysis.model.edges, edge.source = left ∧ edge.target = right := by
  simp [directlyOrdered]

/-- No edge leads from a node to one observed before it. -/
theorem Ran.not_directlyOrdered (h : Ran model analysis) {x y : ℕ} {left right : OrderedNode} (hxy : x < y)
    (hx : analysis.orderedNodesAt x = some left) (hy : analysis.orderedNodesAt y = some right) :
    ¬ ∃ edge ∈ analysis.model.edges, edge.source = right.originalIndex ∧ edge.target = left.originalIndex := by
  rintro ⟨edge, hedge, hsource, htarget⟩
  have hleft := h.idxOf_eq hx
  have hright := h.idxOf_eq hy
  have horder := (h.isCausalOrder (Nat.zero_lt_of_lt (lt_of_orderedNodesAt hx))).1
  rw [h.ofModel] at hedge
  have hne : edge.source ≠ edge.target := by
    intro heq
    rw [hsource, htarget] at heq
    rw [heq, hleft] at hright
    omega
  have hlt := horder.edges edge hedge hne
  rw [hsource, htarget, hleft, hright] at hlt
  omega

theorem isExchangeable_iff {left right : OrderedNode} : isExchangeable analysis left right = true ↔
    isInterleavingNode left.node = true ∧ isInterleavingNode right.node = true ∧
      sameSyncThread left.node right.node = false ∧
      ¬ ∃ edge ∈ analysis.model.edges, edge.source = left.originalIndex ∧ edge.target = right.originalIndex := by
  rw [← directlyOrdered_iff, isExchangeable]
  simp

/-- Of two nodes, the one observed first is exchanged with the other unless their order is kept. -/
theorem Ran.fixedPair_iff (h : Ran model analysis) {x y : ℕ} {left right : OrderedNode} (hxy : x < y)
    (hx : analysis.orderedNodesAt x = some left) (hy : analysis.orderedNodesAt y = some right) :
    FixedPair analysis x y ↔ KeepsOrder analysis.model left right := by
  have hexchangeable : Exchangeable analysis x y ↔ isExchangeable analysis left right = true := by
    constructor
    · rintro ⟨left', right', hx', hy', hex⟩
      obtain rfl := Option.some.inj (hx.symm.trans hx')
      obtain rfl := Option.some.inj (hy.symm.trans hy')
      exact hex
    · exact fun hex => ⟨left, right, hx, hy, hex⟩
  have hjoined : Joined analysis.model left right ↔
      ∃ edge ∈ analysis.model.edges, edge.source = left.originalIndex ∧ edge.target = right.originalIndex := by
    constructor
    · rintro ⟨edge, hedge, hforward | hbackward⟩
      · exact ⟨edge, hedge, hforward⟩
      · exact absurd ⟨edge, hedge, hbackward⟩ (h.not_directlyOrdered hxy hx hy)
    · rintro ⟨edge, hedge, hforward⟩
      exact ⟨edge, hedge, .inl hforward⟩
  rw [FixedPair, hexchangeable, isExchangeable_iff, KeepsOrder, hjoined, not_and_or, not_and_or, not_and_or, not_not,
    Bool.not_eq_true, Bool.not_eq_true, Bool.not_eq_false]

theorem Ran.isSchedule_iff (h : Ran model analysis) {schedule : List ℕ} : IsSchedule analysis schedule ↔
    schedule.Perm analysis.observed ∧ Keeps (FixedPair analysis) analysis.observed schedule := by
  constructor
  · rintro ⟨hperm, hkeeps⟩
    refine ⟨hperm, fun x y hfixed hbefore => ?_⟩
    obtain ⟨hxy, hy⟩ := before_range.mp hbefore
    obtain ⟨left, hleft⟩ := h.exists_node (Nat.lt_trans hxy hy)
    obtain ⟨right, hright⟩ := h.exists_node hy
    exact hkeeps x y left right hxy hleft hright ((h.fixedPair_iff hxy hleft hright).mp hfixed)
  · rintro ⟨hperm, hkeeps⟩
    refine ⟨hperm, fun x y left right hxy hleft hright hkeep => ?_⟩
    exact hkeeps x y ((h.fixedPair_iff hxy hleft hright).mpr hkeep)
      (before_range.mpr ⟨hxy, lt_of_orderedNodesAt hright⟩)

/-- Schedules are what exchanges of neighbours lead to. -/
theorem Ran.isSchedule_iff_reaches (h : Ran model analysis) {schedule : List ℕ} : IsSchedule analysis schedule ↔
    ReflTransGen (Swap (FixedPair analysis)) analysis.observed schedule := by
  rw [h.isSchedule_iff]
  constructor
  · exact fun ⟨hperm, hkeeps⟩ => reaches_of_keeps hperm List.nodup_range hkeeps
  · exact fun hreaches => ⟨perm_of_reaches hreaches, keeps_of_reaches hreaches⟩

/-- A node that is no synchronization record is not exchanged. -/
theorem fixedPair_of_not_interleaving {x : ℕ} {node : OrderedNode} (hx : analysis.orderedNodesAt x = some node)
    (hnode : isInterleavingNode node.node = false) (y : ℕ) : FixedPair analysis x y ∧ FixedPair analysis y x := by
  constructor
  · rintro ⟨left, right, hleft, -, hex⟩
    obtain rfl := Option.some.inj (hx.symm.trans hleft)
    exact absurd (isExchangeable_iff.mp hex).1 (by simp [hnode])
  · rintro ⟨left, right, -, hright, hex⟩
    obtain rfl := Option.some.inj (hx.symm.trans hright)
    exact absurd (isExchangeable_iff.mp hex).2.1 (by simp [hnode])

variable {lib : RecordLibrary}

/-- What a counterexample shows: its exchanges lead from the observed order to the schedule
stored last, and its keys are those of the calls of the pass on the prefixes of this schedule
that no call on a prefix of the observed order had. -/
structure Explains (analysis : Analysis) (limit : ℕ) (outcomes : List Bool) (walk : Walk)
    (counterexample : Counterexample) : Prop where
  chain : counterexample.chain.length ≤ limit
  written : ∃ nodes, analysis.swapNodes counterexample.swaps = some nodes ∧
    (counterexampleText nodes counterexample.findings).bytes <:+: walk.text.bytes
  findings : ∃ schedule keys baseline, walk.orders.getLast? = some schedule ∧
    applySwaps counterexample.swaps analysis.observed = some schedule ∧
    Collected outcomes (analysis.nodesAlong schedule) keys ∧
    Collected outcomes (analysis.nodesAlong analysis.observed) baseline ∧
    (∀ name, name ∈ counterexample.findings.map SyncKey.name ↔
      name ∈ keys.map SyncKey.name ∧ name ∉ baseline.map SyncKey.name) ∧
    (outcomes = [] → ∀ name, name ∈ counterexample.findings.map SyncKey.name ↔
      ReportedOn (analysis.nodesAlong schedule) name ∧
        ¬ ReportedOn (analysis.nodesAlong analysis.observed) name)

theorem mem_map_name_fresh {keys baseline : List SyncKey} {name : Text × Text × Text} :
    name ∈ (keys.filter fun key => !syncKeyPresent baseline key.name).map SyncKey.name ↔
      name ∈ keys.map SyncKey.name ∧ name ∉ baseline.map SyncKey.name := by
  simp only [List.mem_map, List.mem_filter, Bool.not_eq_true', ← Bool.not_eq_true, syncKeyPresent_iff]
  constructor
  · rintro ⟨key, ⟨hkey, hfresh⟩, rfl⟩
    exact ⟨⟨key, hkey, rfl⟩, hfresh⟩
  · rintro ⟨⟨key, hkey, rfl⟩, hfresh⟩
    exact ⟨key, ⟨hkey, hfresh⟩, rfl⟩

theorem Found.explains {baseline : List SyncKey} {walk : Walk} {counterexample : Counterexample}
    (h : Found analysis outcomes baseline walk counterexample) (hstored : Stored analysis limit walk)
    (hbaseline : Collected outcomes (analysis.nodesAlong analysis.observed) baseline) :
    Explains analysis limit outcomes walk counterexample := by
  obtain ⟨schedule, keys, hlast, happly, hkeys, hfindings⟩ := h.findings
  refine ⟨h.chain.trans hstored.bound, h.written, schedule, keys, baseline, hlast, happly, hkeys, hbaseline, ?_, ?_⟩
  · intro name
    rw [hfindings, mem_map_name_fresh]
  · rintro rfl name
    rw [hfindings, mem_map_name_fresh, hkeys.reportedOn, hbaseline.reportedOn]

/-- Whatever the answers to its requests, the walk stores different schedules, at most as many as
its limit, and what it writes about the last of them is so. -/
theorem writeInterleaving_stores (hmodel : Finished lib model) {file : Option SanitizerFile}
    {outcomes₀ : List Bool} {w : World Analysis}
    (hrun : runAnalysis file ⟨{ model := model }, outcomes₀⟩ = (.ok (), w)) (limit : ℕ) (outcomes : List Bool) :
    (∀ schedule ∈ (writeInterleaving w.state limit ⟨{}, outcomes⟩).2.state.orders,
      IsSchedule w.state schedule ∧ ∀ x node, w.state.orderedNodesAt x = some node →
        isInterleavingNode node.node = false → schedule[x]? = some x) ∧
    (writeInterleaving w.state limit ⟨{}, outcomes⟩).2.state.orders.Nodup ∧
    (writeInterleaving w.state limit ⟨{}, outcomes⟩).2.state.orders.length ≤ limit ∧
    ∀ counterexample ∈ (writeInterleaving w.state limit ⟨{}, outcomes⟩).2.state.counterexamples,
      Explains w.state limit outcomes (writeInterleaving w.state limit ⟨{}, outcomes⟩).2.state counterexample := by
  have hran := runAnalysis_ok hmodel hrun
  have hended : Ended w.state limit outcomes (writeInterleaving w.state limit ⟨{}, outcomes⟩).2 :=
    ((ends_writeInterleaving w.state limit outcomes).imp (fun _ _ h => h.1) fun _ => id).final
  generalize (writeInterleaving w.state limit ⟨{}, outcomes⟩).2 = v at hended ⊢
  rcases hended with hempty | ⟨baseline, hbaseline, hrecorded⟩
  · rw [hempty]
    exact ⟨nofun, List.nodup_nil, Nat.zero_le _, nofun⟩
  · have hstored := hrecorded.stored
    refine ⟨fun schedule hschedule => ?_, hstored.nodup, hstored.bound, fun counterexample hmem =>
      (hrecorded.found counterexample hmem).explains hstored hbaseline⟩
    obtain ⟨item, hitem⟩ := List.mem_iff_getElem?.mp hschedule
    have hreaches := hstored.reaches hitem
    refine ⟨hran.isSchedule_iff_reaches.mpr hreaches, fun x node hx hnode => ?_⟩
    refine getElem?_of_reaches hreaches (fixedPair_of_not_interleaving hx hnode) ?_
    rw [Analysis.observed, List.getElem?_range (lt_of_orderedNodesAt hx)]

def heldMutex (contextId sequence : ℕ) (kind : ResourceKind) (mutex : String) : EventRecord :=
  { recordKind := .resource, runId := some (.ofString "run"), pid := 1, contextId := contextId, sequence := sequence
    resourceKind := kind, resourceClass := some (.ofString "pthread-mutex-held")
    resourceId := some (.ofString mutex) }

/-- A thread locks and unlocks a mutex that another thread then destroys. -/
def destroyedMutex : List EventRecord :=
  [heldMutex 1 1 .acquire "m", heldMutex 1 2 .release "m",
    { heldMutex 2 1 .release "m" with resourceClass := some (.ofString "pthread-mutex") }]

theorem writeInterleaving_stores_destroyedMutex :
    ∃ counterexample,
      counterexample ∈ (writeInterleaving (observedRun destroyedMutex).2.state 4 ⟨{}, []⟩).2.state.counterexamples ∧
      counterexample.swaps = [(1, 2)] ∧
      Explains (observedRun destroyedMutex).2.state 4 []
        (writeInterleaving (observedRun destroyedMutex).2.state 4 ⟨{}, []⟩).2.state counterexample := by
  have hfinished : Finished .standard (modelOf .standard destroyedMutex) := finished_modelOf _ (by decide)
  have hrun := runAnalysis_eq_observedRun destroyedMutex (by decide +kernel)
  obtain ⟨-, -, -, hexplains⟩ := writeInterleaving_stores hfinished hrun 4 []
  have hswaps : (writeInterleaving (observedRun destroyedMutex).2.state 4 ⟨{}, []⟩).2.state.counterexamples.map
      Counterexample.swaps = [[(1, 2)]] := by decide +kernel
  obtain ⟨counterexample, hmem, hswap⟩ := List.mem_map.mp (hswaps ▸ List.mem_singleton_self [(1, 2)])
  exact ⟨counterexample, hmem, hswap, hexplains counterexample hmem⟩

/-- Schedules that are closed under exchanges are all schedules. -/
theorem Closed.mem {walk : Walk} (h : Closed analysis limit walk) (hstored : Stored analysis limit walk)
    (hroom : walk.orders.length < limit) (hnone : walk.counterexamples = []) {schedule : List ℕ}
    (hreaches : ReflTransGen (Swap (FixedPair analysis)) analysis.observed schedule) :
    schedule ∈ walk.orders := by
  have hexpanded := (h.resolve_left (by omega)).resolve_left (by simp [hnone])
  induction hreaches with
  | refl => exact List.mem_of_getElem? hstored.first
  | tail _ hswap ih =>
    obtain ⟨item, hitem⟩ := List.mem_iff_getElem?.mp ih
    obtain ⟨front, left, right, back, hfree, rfl, rfl⟩ := hswap.exists_append
    have hlength := (perm_of_reaches (hstored.reaches hitem)).length_eq
    rw [Analysis.observed, List.length_range, List.length_append, List.length_cons, List.length_cons] at hlength
    have hlt := (List.getElem?_eq_some_iff.mp hitem).1
    exact hexpanded item hlt front left right back hitem (by omega) (not_not.mp hfree)

/-- A walk that explores fewer schedules than its limit and finds no counterexample has run the
pass on every schedule, and found no key that the observed order has not. -/
theorem writeInterleaving_exhaustive (hmodel : Finished lib model) {file : Option SanitizerFile}
    {outcomes₀ : List Bool} {w : World Analysis}
    (hrun : runAnalysis file ⟨{ model := model }, outcomes₀⟩ = (.ok (), w)) {v : World Walk}
    (hwalk : writeInterleaving w.state limit ⟨{}, outcomes⟩ = (.ok (), v)) (hnone : v.state.counterexamples = [])
    {explored : ℕ} (hexplored : v.state.explored = some explored) (hlt : explored < limit) {schedule : List ℕ}
    (hschedule : IsSchedule w.state schedule) :
    schedule ∈ v.state.orders ∧
      (∃ keys baseline, Collected outcomes (w.state.nodesAlong schedule) keys ∧
        Collected outcomes (w.state.nodesAlong w.state.observed) baseline ∧
        ∀ name ∈ keys.map SyncKey.name, name ∈ baseline.map SyncKey.name) ∧
      (outcomes = [] → ∀ name, ReportedOn (w.state.nodesAlong schedule) name →
        ReportedOn (w.state.nodesAlong w.state.observed) name) := by
  have hran := runAnalysis_ok hmodel hrun
  obtain ⟨-, hreported⟩ := (ends_writeInterleaving w.state limit outcomes).ok hwalk
  obtain ⟨baseline, v', hbaseline, hv', hsearched, hclosed, rfl⟩ := hreported explored hexplored
  rw [← hv'] at hlt hnone hclosed ⊢
  have hmem := hclosed.mem hsearched.stored hlt hnone (hran.isSchedule_iff_reaches.mp hschedule)
  obtain ⟨keys, hkeys, hclear⟩ := hsearched.clear hnone schedule hmem
  have hsub : ∀ name ∈ keys.map SyncKey.name, name ∈ baseline.map SyncKey.name := by
    intro name hname
    obtain ⟨key, hkey, rfl⟩ := List.mem_map.mp hname
    exact syncKeyPresent_iff.mp (hclear key hkey)
  refine ⟨hmem, ⟨keys, baseline, hkeys, hbaseline, hsub⟩, ?_⟩
  rintro rfl name hname
  exact (hbaseline.reportedOn name).mp (hsub name ((hkeys.reportedOn name).mpr hname))

def lockedMutexes : List EventRecord := [heldMutex 1 1 .acquire "m", heldMutex 2 1 .acquire "n"]

theorem writeInterleaving_exhaustive_lockedMutexes :
    [1, 0] ∈ (writeInterleaving (observedRun lockedMutexes).2.state 3 ⟨{}, []⟩).2.state.orders := by
  have hfinished : Finished .standard (modelOf .standard lockedMutexes) := finished_modelOf _ (by decide)
  have hrun := runAnalysis_eq_observedRun lockedMutexes (by decide +kernel)
  have hok : (writeInterleaving (observedRun lockedMutexes).2.state 3 ⟨{}, []⟩).1 = .ok () := by decide +kernel
  have hnone : (writeInterleaving (observedRun lockedMutexes).2.state 3 ⟨{}, []⟩).2.state.counterexamples = [] := by
    decide +kernel
  have hexplored : (writeInterleaving (observedRun lockedMutexes).2.state 3 ⟨{}, []⟩).2.state.explored = some 2 := by
    decide +kernel
  have hschedule : IsSchedule (observedRun lockedMutexes).2.state [1, 0] := by
    have hcount : (observedRun lockedMutexes).2.state.observed = [0, 1] := by decide +kernel
    have hfree : Exchangeable (observedRun lockedMutexes).2.state 0 1 := by decide +kernel
    rw [(runAnalysis_ok hfinished hrun).isSchedule_iff_reaches, hcount]
    exact .single (.head (not_not.mpr hfree) [])
  generalize hwalk : writeInterleaving (observedRun lockedMutexes).2.state 3 ⟨{}, []⟩ = result at *
  obtain ⟨v, rfl⟩ := exists_of_fst_eq hok
  exact (writeInterleaving_exhaustive hfinished hrun hwalk hnone hexplored (by decide) hschedule).1

end ToolEvent.ModelAnalysis
