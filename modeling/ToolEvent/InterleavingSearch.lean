import ToolEvent.Library.AdjacentSwaps
import ToolEvent.InterleavingKeys

/-!
# What the interleaving walk stores

The schedules that the walk stores are reached from the observed order by exchanges of
neighbours, and a walk that stops below its limit without a counterexample has stored
every schedule that can be reached so.
-/

namespace ToolEvent.ModelAnalysis

open Fallible World RunModel AdjacentSwaps Relation

variable {analysis : Analysis} {limit : ℕ} {outcomes : List Bool} {baseline : List SyncKey}

/-- Two nodes that the walk exchanges where the first stands directly before the second. -/
def Exchangeable (analysis : Analysis) (x y : ℕ) : Prop :=
  ∃ left right, analysis.orderedNodesAt x = some left ∧ analysis.orderedNodesAt y = some right ∧
    isExchangeable analysis left right = true

instance (analysis : Analysis) (x y : ℕ) : Decidable (Exchangeable analysis x y) :=
  match hx : analysis.orderedNodesAt x, hy : analysis.orderedNodesAt y with
  | some left, some right => decidable_of_iff (isExchangeable analysis left right = true)
      (by simp [Exchangeable, hx, hy])
  | none, _ => isFalse (by simp [Exchangeable, hx])
  | _, none => isFalse (by simp [Exchangeable, hy])

def FixedPair (analysis : Analysis) (x y : ℕ) : Prop := ¬ Exchangeable analysis x y

def Analysis.observed (analysis : Analysis) : List ℕ := List.range analysis.orderedCount

def Analysis.nodesAlong (analysis : Analysis) (schedule : List ℕ) : List OrderedNode :=
  schedule.filterMap analysis.orderedNodesAt

/-- A schedule was derived from the one stored earlier that its entries name. -/
def Derived (analysis : Analysis) (walk : Walk) (item : ℕ) (schedule : List ℕ) : Prop :=
  ∃ parent front left right back, parent < item ∧
    walk.parents[item]? = some (some parent) ∧ walk.swapAt item = some (left, right) ∧
    Exchangeable analysis left right ∧
    walk.orders[parent]? = some (front ++ left :: right :: back) ∧
    schedule = front ++ right :: left :: back

structure Stored (analysis : Analysis) (limit : ℕ) (walk : Walk) : Prop where
  parents : walk.parents.length = walk.orders.length
  lefts : walk.swapLeft.length = walk.orders.length
  rights : walk.swapRight.length = walk.orders.length
  first : walk.orders[0]? = some analysis.observed
  root : walk.parents[0]? = some none
  derived : ∀ item schedule, walk.orders[item + 1]? = some schedule → Derived analysis walk (item + 1) schedule
  nodup : walk.orders.Nodup
  bound : walk.orders.length ≤ limit

theorem Stored.pos {walk : Walk} (h : Stored analysis limit walk) : 0 < walk.orders.length :=
  (List.getElem?_eq_some_iff.mp h.first).1

theorem getElem?_concat {α : Type} {l : List α} {i : ℕ} {a b : α} (h : l[i]? = some a) :
    (l ++ [b])[i]? = some a := by
  rwa [List.getElem?_append_left (List.getElem?_eq_some_iff.mp h).1]

theorem Walk.swapAt_store {walk : Walk} {item : ℕ} {swap : ℕ × ℕ} (h : walk.swapAt item = some swap)
    (schedule : List ℕ) (parent : Option ℕ) (left right : ℕ) :
    (walk.store schedule parent left right).swapAt item = some swap := by
  unfold Walk.swapAt at h ⊢
  cases hleft : walk.swapLeft[item]? with
  | none => simp [hleft] at h
  | some x =>
    cases hright : walk.swapRight[item]? with
    | none => simp [hleft, hright] at h
    | some y =>
      have hx : (walk.swapLeft ++ [left])[item]? = some x := getElem?_concat hleft
      have hy : (walk.swapRight ++ [right])[item]? = some y := getElem?_concat hright
      simpa [Walk.store, hx, hy, hleft, hright] using h

theorem Derived.store {walk : Walk} {item : ℕ} {schedule : List ℕ} (h : Derived analysis walk item schedule)
    (candidate : List ℕ) (parent : Option ℕ) (left right : ℕ) :
    Derived analysis (walk.store candidate parent left right) item schedule := by
  obtain ⟨parent', front, a, b, back, hlt, hparent, hswap, hab, horder, hschedule⟩ := h
  exact ⟨parent', front, a, b, back, hlt, getElem?_concat hparent, Walk.swapAt_store hswap _ _ _ _, hab,
    getElem?_concat horder, hschedule⟩

/-- A new schedule is stored behind the others. -/
theorem Stored.store {walk : Walk} (h : Stored analysis limit walk) {parent left right : ℕ}
    {front back : List ℕ} (hparent : walk.orders[parent]? = some (front ++ left :: right :: back))
    (hexchangeable : Exchangeable analysis left right) (hnew : front ++ right :: left :: back ∉ walk.orders)
    (hroom : walk.orders.length < limit) :
    Stored analysis limit (walk.store (front ++ right :: left :: back) (some parent) left right) where
  parents := by simp [Walk.store, h.parents]
  lefts := by simp [Walk.store, h.lefts]
  rights := by simp [Walk.store, h.rights]
  first := getElem?_concat h.first
  root := getElem?_concat h.root
  derived := by
    intro item schedule hitem
    have hlength : item + 1 < walk.orders.length + 1 := by
      have hlt := (List.getElem?_eq_some_iff.mp hitem).1
      simpa [Walk.store] using hlt
    rcases Nat.lt_succ_iff_lt_or_eq.mp hlength with hlt | heq
    · change (walk.orders ++ [_])[item + 1]? = some schedule at hitem
      rw [List.getElem?_append_left hlt] at hitem
      exact (h.derived item schedule hitem).store _ _ _ _
    · refine ⟨parent, front, left, right, back, ?_, ?_, ?_, hexchangeable, getElem?_concat hparent, ?_⟩
      · rw [heq]
        exact (List.getElem?_eq_some_iff.mp hparent).1
      · rw [heq, ← h.parents]
        exact List.getElem?_concat_length
      · have hleft : (walk.swapLeft ++ [left])[item + 1]? = some left := by
          rw [heq, ← h.lefts]
          exact List.getElem?_concat_length
        have hright : (walk.swapRight ++ [right])[item + 1]? = some right := by
          rw [heq, ← h.rights]
          exact List.getElem?_concat_length
        simp [Walk.swapAt, Walk.store, hleft, hright]
      · change (walk.orders ++ [_])[item + 1]? = some schedule at hitem
        rw [heq, List.getElem?_concat_length] at hitem
        exact (Option.some.inj hitem).symm
  nodup := List.nodup_append'.mpr ⟨h.nodup, List.nodup_singleton _, by simpa using hnew⟩
  bound := by
    simp only [Walk.store, List.length_append, List.length_singleton]
    omega

theorem stored_first (hlimit : 0 < limit) :
    Stored analysis limit (Walk.store analysis.observed none 0 0 {}) where
  parents := rfl
  lefts := rfl
  rights := rfl
  first := rfl
  root := rfl
  derived := by
    intro item schedule hitem
    cases hitem
  nodup := List.nodup_singleton _
  bound := hlimit

/-- Every stored schedule is reached from the observed order. -/
theorem Stored.reaches {walk : Walk} (h : Stored analysis limit walk) {item : ℕ} {schedule : List ℕ}
    (hitem : walk.orders[item]? = some schedule) :
    ReflTransGen (Swap (FixedPair analysis)) analysis.observed schedule := by
  induction item using Nat.strong_induction_on generalizing schedule with
  | _ item ih =>
    cases item with
    | zero =>
      obtain rfl := Option.some.inj (h.first.symm.trans hitem)
      exact .refl
    | succ item =>
      obtain ⟨parent, front, left, right, back, hlt, -, -, hab, horder, rfl⟩ :=
        h.derived item schedule hitem
      exact (ih parent hlt horder).tail (swap_append (not_not.mpr hab) front back)

theorem Stored.nodup_schedule {walk : Walk} (h : Stored analysis limit walk) {item : ℕ} {schedule : List ℕ}
    (hitem : walk.orders[item]? = some schedule) : schedule.Nodup :=
  (perm_of_reaches (h.reaches hitem)).nodup_iff.mpr List.nodup_range

/-- Following the parents from a schedule collects the exchanges that lead to it. -/
theorem Stored.chain {walk : Walk} (h : Stored analysis limit walk) {item : ℕ} {schedule : List ℕ}
    (hitem : walk.orders[item]? = some schedule) {fuel : ℕ} (hfuel : item < fuel) :
    ∃ chain swaps, chainFrom walk.parents fuel (some item) = some chain ∧ chain ≠ [] ∧
      chain.length ≤ item + 1 ∧ chain.dropLast.reverse.mapM walk.swapAt = some swaps ∧
      applySwaps swaps analysis.observed = some schedule := by
  induction item using Nat.strong_induction_on generalizing schedule fuel with
  | _ item ih =>
    obtain ⟨fuel, rfl⟩ := Nat.exists_eq_add_one_of_ne_zero (Nat.ne_zero_of_lt hfuel)
    cases item with
    | zero =>
      obtain rfl := Option.some.inj (h.first.symm.trans hitem)
      refine ⟨[0], [], ?_, by simp, Nat.le_refl 1, rfl, rfl⟩
      cases fuel <;> simp [chainFrom, h.root]
    | succ item =>
      obtain ⟨parent, front, left, right, back, hlt, hparent, hswap, hab, horder, rfl⟩ :=
        h.derived item schedule hitem
      obtain ⟨chain, swaps, hchain, hne, hlength, hswaps, happly⟩ := ih parent hlt horder (show parent < fuel by omega)
      refine ⟨(item + 1) :: chain, swaps ++ [(left, right)], ?_, by simp, ?_, ?_, ?_⟩
      · simp [chainFrom, hparent, hchain]
      · rw [List.length_cons]
        omega
      · rw [List.dropLast_cons_of_ne_nil hne, List.reverse_cons, List.mapM_append]
        simp [hswaps, hswap]
      · rw [applySwaps_concat happly, exchangePair_append (h.nodup_schedule horder)]

/-- A schedule on which nothing is reported that is not reported on the observed order. -/
def Clear (analysis : Analysis) (outcomes : List Bool) (baseline : List SyncKey) (schedule : List ℕ) : Prop :=
  ∃ keys, Collected outcomes (analysis.nodesAlong schedule) keys ∧
    ∀ key ∈ keys, syncKeyPresent baseline key.name = true

/-- What a counterexample says about the schedule stored last. -/
structure Found (analysis : Analysis) (outcomes : List Bool) (baseline : List SyncKey) (walk : Walk)
    (counterexample : Counterexample) : Prop where
  chain : counterexample.chain.length ≤ walk.orders.length
  findings : ∃ schedule keys, walk.orders.getLast? = some schedule ∧
    applySwaps counterexample.swaps analysis.observed = some schedule ∧
    Collected outcomes (analysis.nodesAlong schedule) keys ∧
    counterexample.findings = keys.filter (fun key => !syncKeyPresent baseline key.name)
  written : ∃ nodes, analysis.swapNodes counterexample.swaps = some nodes ∧
    (counterexampleText nodes counterexample.findings).bytes <:+: walk.text.bytes

/-- What holds however the walk ends. -/
structure Recorded (analysis : Analysis) (limit : ℕ) (outcomes : List Bool) (baseline : List SyncKey)
    (w : World Walk) : Prop where
  taken : w.outcomes <:+ outcomes
  stored : Stored analysis limit w.state
  found : ∀ counterexample ∈ w.state.counterexamples, Found analysis outcomes baseline w.state counterexample

/-- What holds as long as nothing fails. -/
structure Searched (analysis : Analysis) (limit : ℕ) (outcomes : List Bool) (baseline : List SyncKey)
    (w : World Walk) : Prop extends Recorded analysis limit outcomes baseline w where
  clear : w.state.counterexamples = [] → ∀ schedule ∈ w.state.orders, Clear analysis outcomes baseline schedule

theorem Stored.of_eq {walk walk' : Walk} (h : Stored analysis limit walk) (horders : walk'.orders = walk.orders)
    (hparents : walk'.parents = walk.parents) (hleft : walk'.swapLeft = walk.swapLeft)
    (hright : walk'.swapRight = walk.swapRight) : Stored analysis limit walk' := by
  obtain ⟨orders, parents, swapLeft, swapRight, _, _, _⟩ := walk
  obtain ⟨orders', parents', swapLeft', swapRight', _, _, _⟩ := walk'
  dsimp only at horders hparents hleft hright
  subst horders hparents hleft hright
  exact ⟨h.parents, h.lefts, h.rights, h.first, h.root, h.derived, h.nodup, h.bound⟩

theorem Recorded.of_kept {w w' : World Walk} (h : Recorded analysis limit outcomes baseline w) (hw' : Kept w w') :
    Recorded analysis limit outcomes baseline w' := by
  obtain ⟨hstate, hsuffix⟩ := hw'
  refine ⟨hsuffix.trans h.taken, ?_, ?_⟩ <;> rw [hstate]
  · exact h.stored
  · exact h.found

theorem ends_writeText (text : Text) (w : World Walk) :
    Ends (writeText text) w (fun _ w' => w'.outcomes <:+ w.outcomes ∧
      w'.state = { w.state with text := w.state.text ++ text }) (Kept w) := by
  refine (ends_allocate w).bind fun written w' hw' => Ends.ite (fun _ => ?_) fun _ => ends_fail hw'
  exact ends_updateState ⟨hw'.outcomes, by rw [hw'.state]⟩

/-- The schedule stored last is written with the exchanges that lead to it. -/
theorem ends_writeCounterexample {w : World Walk} (h : Recorded analysis limit outcomes baseline w)
    (hnone : w.state.counterexamples = []) {schedule : List ℕ} {keys : List SyncKey}
    (hlast : w.state.orders.getLast? = some schedule)
    (hkeys : Collected outcomes (analysis.nodesAlong schedule) keys) :
    Ends (writeCounterexample analysis (keys.filter fun key => !syncKeyPresent baseline key.name)) w
      (fun _ w' => Searched analysis limit outcomes baseline w' ∧ w'.state.orders = w.state.orders)
      (Recorded analysis limit outcomes baseline) := by
  have hitem : w.state.orders[w.state.parents.length - 1]? = some schedule := by
    rw [h.stored.parents, ← List.getLast?_eq_getElem?]
    exact hlast
  have hpos := h.stored.pos
  rw [← h.stored.parents] at hpos
  obtain ⟨chain, swaps, hchain, -, hlength, hswaps, happly⟩ :=
    h.stored.chain hitem (Nat.sub_one_lt_of_lt hpos)
  refine ends_readState_bind ?_
  rw [hchain]
  refine ends_pure_bind ?_
  rw [hswaps]
  refine ends_pure_bind ?_
  cases hnodes : analysis.swapNodes swaps with
  | none => exact ends_fail h
  | some nodes =>
    refine ends_pure_bind ?_
    have htext := (ends_writeText (counterexampleText nodes
      (keys.filter fun key => !syncKeyPresent baseline key.name)) w).imp (fun _ _ => id) fun w' => h.of_kept
    refine htext.bind fun _ w' ⟨hsuffix, hstate⟩ => ends_updateState ?_
    rw [hstate, hnone]
    refine ⟨⟨⟨hsuffix.trans h.taken, h.stored.of_eq rfl rfl rfl rfl, ?_⟩, ?_⟩, rfl⟩
    · intro counterexample hmem
      obtain rfl := List.mem_singleton.mp hmem
      refine ⟨?_, ⟨schedule, keys, hlast, happly, hkeys, rfl⟩, nodes, hnodes, List.suffix_append _ _ |>.isInfix⟩
      dsimp only
      rw [← h.stored.parents]
      omega
    · intro hempty
      cases hempty

theorem filterMap_of_mapM {α β : Type} {f : α → Option β} {l : List α} {l' : List β} (h : l.mapM f = some l') :
    l.filterMap f = l' := by
  induction l generalizing l' with
  | nil =>
    obtain rfl : [] = l' := by simpa using h
    rfl
  | cons a l ih =>
    rw [List.mapM_cons] at h
    obtain ⟨b, hb, hrest⟩ := Option.bind_eq_some_iff.mp h
    obtain ⟨bs, hbs, hl'⟩ := Option.bind_eq_some_iff.mp hrest
    obtain rfl : b :: bs = l' := by simpa using hl'
    rw [List.filterMap_cons_some hb, ih hbs]

theorem ends_examine {w : World Walk} (h : Recorded analysis limit outcomes baseline w)
    (hnone : w.state.counterexamples = []) {schedules : List (List ℕ)} {candidate : List ℕ}
    (horders : w.state.orders = schedules ++ [candidate])
    (hclear : ∀ schedule ∈ schedules, Clear analysis outcomes baseline schedule) :
    Ends (examine analysis baseline candidate) w
      (fun _ w' => Searched analysis limit outcomes baseline w' ∧ w'.state.orders = w.state.orders)
      (Recorded analysis limit outcomes baseline) := by
  have hkept : ∀ w', Kept w w' → Recorded analysis limit outcomes baseline w' := fun w' => h.of_kept
  refine ((ends_allocate w).imp (fun _ _ => id) hkept).bind fun allocated w₁ hw₁ => ?_
  refine Ends.ite (fun _ => ?_) fun _ => ends_fail (hkept w₁ hw₁)
  cases horder : candidate.mapM analysis.orderedNodesAt with
  | none => exact ends_fail (hkept w₁ hw₁)
  | some order =>
    refine ends_pure_bind ?_
    refine ((ends_collectPrefixSyncKeys order w₁).imp (fun _ _ => id) fun w' hw' =>
      hkept w' (hw₁.trans hw')).bind fun keys w₂ ⟨hw₂, reports, hreports, hkeys⟩ => ?_
    have hw := hw₁.trans hw₂
    have hcollected : Collected outcomes (analysis.nodesAlong candidate) keys := by
      rw [Analysis.nodesAlong, filterMap_of_mapM horder]
      refine ⟨reports, hreports.imp ?_, hkeys⟩
      rintro count findings ⟨taken, left, htaken, hrun⟩
      exact ⟨taken, left, htaken.trans (hw₁.outcomes.trans h.taken), hrun⟩
    refine Ends.ite (fun hfresh => ends_pure ⟨⟨hkept w₂ hw, ?_⟩, by rw [hw.state]⟩) fun _ => ?_
    · intro _ schedule hschedule
      rw [hw.state, horders, List.mem_append, List.mem_singleton] at hschedule
      rcases hschedule with hold | rfl
      · exact hclear schedule hold
      · refine ⟨keys, hcollected, fun key hkey => ?_⟩
        have hpresent := List.filter_eq_nil_iff.mp hfresh key hkey
        simpa using hpresent
    · have hnone₂ : w₂.state.counterexamples = [] := by rw [hw.state, hnone]
      have hlast : w₂.state.orders.getLast? = some candidate := by rw [hw.state, horders, List.getLast?_concat]
      exact (ends_writeCounterexample (hkept w₂ hw) hnone₂ hlast hcollected).imp
        (fun _ w' hw' => ⟨hw'.1, by rw [hw'.2, hw.state]⟩) fun _ => id

/-- The exchanges at the first places of a schedule lead to stored schedules. -/
def Expanded (analysis : Analysis) (walk : Walk) (item count : ℕ) : Prop :=
  ∀ front left right back, walk.orders[item]? = some (front ++ left :: right :: back) →
    front.length < count → Exchangeable analysis left right →
    front ++ right :: left :: back ∈ walk.orders

theorem Expanded.of_orders {walk walk' : Walk} {item count : ℕ} (h : Expanded analysis walk item count)
    (hitem : item < walk.orders.length) {schedules : List (List ℕ)}
    (horders : walk'.orders = walk.orders ++ schedules) : Expanded analysis walk' item count := by
  intro front left right back hschedule hcount hexchangeable
  rw [horders] at hschedule ⊢
  rw [List.getElem?_append_left hitem] at hschedule
  exact List.mem_append_left _ (h front left right back hschedule hcount hexchangeable)

theorem Expanded.succ {walk : Walk} {item left right : ℕ} {front back : List ℕ}
    (h : Expanded analysis walk item front.length)
    (hcurrent : walk.orders[item]? = some (front ++ left :: right :: back))
    (hnext : Exchangeable analysis left right → front ++ right :: left :: back ∈ walk.orders) :
    Expanded analysis walk item (front.length + 1) := by
  intro front' left' right' back' hschedule hlt hexchangeable
  rcases Nat.lt_succ_iff_lt_or_eq.mp hlt with hlt | heq
  · exact h front' left' right' back' hschedule hlt hexchangeable
  · obtain ⟨rfl, hcons⟩ := List.append_inj (Option.some.inj (hcurrent.symm.trans hschedule)) heq.symm
    obtain ⟨rfl, rfl, rfl⟩ : left = left' ∧ right = right' ∧ back = back' := by simpa using hcons
    exact hnext hexchangeable

theorem exchangeAt_append (front back : List ℕ) (left right : ℕ) :
    exchangeAt front.length (front ++ left :: right :: back) = front ++ right :: left :: back := by
  simp [exchangeAt]

theorem exists_neighbours {α : Type} {l : List α} {i : ℕ} (h : i + 1 < l.length) :
    ∃ front a b back, l = front ++ a :: b :: back ∧ front.length = i := by
  refine ⟨l.take i, l[i], l[i + 1], l.drop (i + 2), ?_, by simp; omega⟩
  rw [← List.drop_eq_getElem_cons h, ← List.drop_eq_getElem_cons (by omega), List.take_append_drop]

/-- What the loop over the neighbours in a schedule keeps. -/
structure Expanding (analysis : Analysis) (limit : ℕ) (outcomes : List Bool) (baseline : List SyncKey)
    (item count : ℕ) (w : World Walk) : Prop extends Searched analysis limit outcomes baseline w where
  item_lt : item < w.state.orders.length
  expanded : limit ≤ w.state.orders.length ∨ w.state.counterexamples ≠ [] ∨
    (∀ earlier < item, Expanded analysis w.state earlier (analysis.orderedCount - 1)) ∧
      Expanded analysis w.state item count

theorem ends_exchange {item count : ℕ} (hcount : count < analysis.orderedCount - 1) {w : World Walk}
    (h : Expanding analysis limit outcomes baseline item count w) :
    Ends (exchange analysis baseline limit item count) w
      (fun _ => Expanding analysis limit outcomes baseline item (count + 1))
      (Recorded analysis limit outcomes baseline) := by
  refine ends_readState_bind (Ends.ite (fun hguard => ?_) fun hguard => ends_pure ⟨h.toSearched, h.item_lt, ?_⟩)
  · obtain ⟨hroom, hnone⟩ := hguard
    obtain ⟨current, hcurrent⟩ : ∃ current, w.state.orders[item]? = some current :=
      ⟨_, List.getElem?_eq_getElem h.item_lt⟩
    have hlength : current.length = analysis.orderedCount := by
      rw [(perm_of_reaches (h.stored.reaches hcurrent)).length_eq, Analysis.observed, List.length_range]
    obtain ⟨front, left, right, back, rfl, rfl⟩ := exists_neighbours (l := current) (i := count) (by omega)
    have hleft : (front ++ left :: right :: back)[front.length]? = some left := by simp
    have hright : (front ++ left :: right :: back)[front.length + 1]? = some right := by simp
    have hexpanded : (∀ earlier < item, Expanded analysis w.state earlier (analysis.orderedCount - 1)) ∧
        Expanded analysis w.state item front.length :=
      (h.expanded.resolve_left (by omega)).resolve_left (by simp [hnone])
    rw [hcurrent]
    refine ends_pure_bind ?_
    rw [hleft, hright]
    refine ends_pure_bind (ends_pure_bind ?_)
    cases hleftNode : analysis.orderedNodesAt left with
    | none => exact ends_fail h.toRecorded
    | some leftNode =>
      cases hrightNode : analysis.orderedNodesAt right with
      | none => exact ends_fail h.toRecorded
      | some rightNode =>
        refine ends_pure_bind (ends_pure_bind ?_)
        rw [exchangeAt_append]
        refine Ends.ite (fun hskip => ends_pure ⟨h.toSearched, h.item_lt, ?_⟩) fun hnew => ?_
        · refine .inr (.inr ⟨hexpanded.1, hexpanded.2.succ hcurrent fun ⟨x, y, hx, hy, hxy⟩ => ?_⟩)
          obtain rfl := Option.some.inj (hleftNode.symm.trans hx)
          obtain rfl := Option.some.inj (hrightNode.symm.trans hy)
          exact hskip.resolve_left (by simp [hxy])
        · obtain ⟨hexchange, hfresh⟩ := not_or.mp hnew
          have hexchangeable : Exchangeable analysis left right :=
            ⟨leftNode, rightNode, hleftNode, hrightNode, by simpa using hexchange⟩
          have hstored := h.stored.store hcurrent hexchangeable hfresh hroom
          refine ends_updateState_bind ?_
          have hrecorded : Recorded analysis limit outcomes baseline
              { w with state := Walk.store (front ++ right :: left :: back) (some item) left right w.state } :=
            ⟨h.taken, hstored, fun c hc => by simp [Walk.store, hnone] at hc⟩
          refine (ends_examine hrecorded hnone rfl (h.clear hnone)).imp (fun _ w' hw' => ?_) fun _ => id
          obtain ⟨hsearched, horders⟩ := hw'
          have hitem := h.item_lt
          refine ⟨hsearched, ?_, .inr (.inr ⟨fun earlier hearlier => ?_, ?_⟩)⟩
          · rw [horders]
            exact Nat.lt_of_lt_of_le hitem (by simp [Walk.store])
          · exact (hexpanded.1 earlier hearlier).of_orders (hearlier.trans hitem) horders
          · have hcurrent' : w'.state.orders[item]? = some (front ++ left :: right :: back) := by
              rw [horders]
              exact getElem?_concat hcurrent
            refine (hexpanded.2.of_orders hitem horders).succ hcurrent' fun _ => ?_
            rw [horders]
            exact List.mem_append_right _ List.mem_cons_self
  · rcases not_and_or.mp hguard with hfull | hsome
    · exact .inl (by omega)
    · exact .inr (.inl hsome)

theorem eq_length_of_range_split {n i : ℕ} {before after : List ℕ} (h : List.range n = before ++ i :: after) :
    i = before.length ∧ before.length < n := by
  have hget : (List.range n)[before.length]? = some i := by
    rw [h]
    simp
  obtain ⟨hlt, hi⟩ := List.getElem?_eq_some_iff.mp hget
  rw [List.length_range] at hlt
  rw [List.getElem_range] at hi
  exact ⟨hi.symm, hlt⟩

/-- The schedules stored before one are expanded, unless the walk is over. -/
def Behind (analysis : Analysis) (limit item : ℕ) (walk : Walk) : Prop :=
  limit ≤ walk.orders.length ∨ walk.counterexamples ≠ [] ∨
    ∀ earlier < item, Expanded analysis walk earlier (analysis.orderedCount - 1)

theorem Searched.expanding {item : ℕ} {w : World Walk} (h : Searched analysis limit outcomes baseline w)
    (hbehind : Behind analysis limit item w.state) (hitem : item < w.state.orders.length) :
    Expanding analysis limit outcomes baseline item 0 w :=
  ⟨h, hitem, hbehind.imp_right (Or.imp_right fun hall => ⟨hall, fun _ _ _ _ _ hlt => absurd hlt (Nat.not_lt_zero _)⟩)⟩

theorem Expanding.behind {item : ℕ} {w : World Walk}
    (h : Expanding analysis limit outcomes baseline item (analysis.orderedCount - 1) w) :
    Behind analysis limit (item + 1) w.state := by
  refine h.expanded.imp_right (Or.imp_right fun hall earlier hlt => ?_)
  rcases Nat.lt_succ_iff_lt_or_eq.mp hlt with hlt | rfl
  · exact hall.1 earlier hlt
  · exact hall.2

/-- The loop over the neighbours in a schedule. -/
theorem ends_exchanges {item : ℕ} {w : World Walk} (h : Expanding analysis limit outcomes baseline item 0 w) :
    Ends (forEach (exchange analysis baseline limit item) (List.range (analysis.orderedCount - 1))) w
      (fun _ => Expanding analysis limit outcomes baseline item (analysis.orderedCount - 1))
      (Recorded analysis limit outcomes baseline) := by
  have hloop : Ends (forEach (exchange analysis baseline limit item) (List.range (analysis.orderedCount - 1))) w
      (fun _ => Expanding analysis limit outcomes baseline item (List.range (analysis.orderedCount - 1)).length)
      (Recorded analysis limit outcomes baseline) := by
    refine ends_forEach (fun before => Expanding analysis limit outcomes baseline item before.length) ?_ h
    intro before count after w hsplit hbefore
    obtain ⟨rfl, hlt⟩ := eq_length_of_range_split hsplit
    rw [List.length_append, List.length_singleton]
    exact ends_exchange hlt hbefore
  rwa [List.length_range] at hloop

/-- When the walk stopped for want of schedules, those stored are closed under exchanges. -/
def Closed (analysis : Analysis) (limit : ℕ) (walk : Walk) : Prop :=
  Behind analysis limit walk.orders.length walk

theorem ends_walkQueue {fuel item : ℕ} (hfuel : fuel + item = limit) {w : World Walk}
    (h : Searched analysis limit outcomes baseline w) (hbehind : Behind analysis limit item w.state) :
    Ends (walkQueue analysis baseline limit fuel item) w
      (fun _ w' => Searched analysis limit outcomes baseline w' ∧ Closed analysis limit w'.state)
      (Recorded analysis limit outcomes baseline) := by
  induction fuel generalizing item w with
  | zero =>
    have hbound := h.stored.bound
    refine ends_pure ⟨h, hbehind.imp_right (Or.imp_right fun hall earlier hearlier => hall earlier ?_)⟩
    omega
  | succ fuel ih =>
    refine ends_readState_bind (Ends.ite (fun hguard => ?_) fun hguard => ends_pure ⟨h, ?_⟩)
    · exact (ends_exchanges (h.expanding hbehind hguard.1)).bind fun _ w' hw' =>
        ih (by omega) hw'.toSearched hw'.behind
    · rcases Nat.lt_or_ge item w.state.orders.length with hlt | hge
      · rcases Nat.lt_or_ge w.state.orders.length limit with hroom | hfull
        · exact .inr (.inl fun hnone => hguard ⟨hlt, hroom, hnone⟩)
        · exact .inl hfull
      · exact hbehind.imp_right (Or.imp_right fun hall earlier hearlier => hall earlier (by omega))

theorem filterMap_getElem?_range {α : Type} (l : List α) {n : ℕ} (h : l.length ≤ n) :
    (List.range n).filterMap (l[·]?) = l := by
  induction l generalizing n with
  | nil => simp
  | cons a l ih =>
    rw [List.length_cons] at h
    obtain ⟨n, rfl⟩ := Nat.exists_eq_add_one_of_ne_zero (Nat.ne_zero_of_lt h)
    have hhead : (fun i => (a :: l)[i]?) 0 = some a := rfl
    rw [List.range_succ_eq_map, List.filterMap_cons_some hhead, List.filterMap_map]
    exact congrArg (a :: ·) (ih (Nat.le_of_succ_le_succ h))

/-- The observed order is the one that the passes go through. -/
theorem nodesAlong_observed (analysis : Analysis) :
    analysis.nodesAlong analysis.observed = (analysis.ordered.getD []).take analysis.orderedCount :=
  filterMap_getElem?_range _ (List.length_take_le _ _)

theorem Searched.of_text {w w' : World Walk} (h : Searched analysis limit outcomes baseline w)
    (hsuffix : w'.outcomes <:+ w.outcomes) (text : Text) (explored : Option ℕ)
    (hstate : w'.state = { w.state with text := w.state.text ++ text, explored := explored }) :
    Searched analysis limit outcomes baseline w' := by
  refine ⟨⟨hsuffix.trans h.taken, ?_, ?_⟩, ?_⟩ <;> rw [hstate]
  · exact h.stored.of_eq rfl rfl rfl rfl
  · intro counterexample hmem
    obtain ⟨hchain, hfindings, nodes, hnodes, hinfix⟩ := h.found counterexample hmem
    exact ⟨hchain, hfindings, nodes, hnodes, hinfix.trans (List.prefix_append _ _).isInfix⟩
  · exact h.clear

/-- What is stored and found however the walk ends, for the keys of the observed order. -/
def Ended (analysis : Analysis) (limit : ℕ) (outcomes : List Bool) (w : World Walk) : Prop :=
  w.state = {} ∨ ∃ baseline, Collected outcomes (analysis.nodesAlong analysis.observed) baseline ∧
    Recorded analysis limit outcomes baseline w

/-- What a walk leaves that reports how many schedules it explored. -/
def Explored (analysis : Analysis) (limit : ℕ) (outcomes : List Bool) (walk : Walk) (explored : ℕ) : Prop :=
  ∃ baseline w, Collected outcomes (analysis.nodesAlong analysis.observed) baseline ∧ w.state = walk ∧
    Searched analysis limit outcomes baseline w ∧ Closed analysis limit walk ∧ explored = walk.orders.length

theorem ends_writeSummary {w : World Walk} (h : Searched analysis limit outcomes baseline w)
    (hbaseline : Collected outcomes (analysis.nodesAlong analysis.observed) baseline)
    (hclosed : Closed analysis limit w.state) :
    Ends (writeSummary analysis limit) w
      (fun _ w' => Ended analysis limit outcomes w' ∧ ∀ explored, w'.state.explored = some explored →
        Explored analysis limit outcomes w'.state explored)
      (Ended analysis limit outcomes) := by
  refine ends_readState_bind ?_
  refine ((ends_writeText _ w).imp (fun _ _ => id) fun w' hw' => .inr ⟨baseline, hbaseline, h.of_kept hw'⟩).bind
    fun _ w' ⟨hsuffix, hstate⟩ => ends_updateState ?_
  have hsearched : Searched analysis limit outcomes baseline
      ⟨{ w'.state with explored := some w.state.orders.length }, w'.outcomes⟩ :=
    h.of_text hsuffix _ (some w.state.orders.length) (by rw [hstate])
  rw [hstate] at hsearched ⊢
  refine ⟨.inr ⟨baseline, hbaseline, hsearched.toRecorded⟩, fun explored hexplored => ?_⟩
  exact ⟨baseline, _, hbaseline, rfl, hsearched, hclosed, (Option.some.inj hexplored).symm⟩

/-- Nothing is stored yet, or the observed order alone. -/
def Unwalked (analysis : Analysis) (w : World Walk) : Prop :=
  w.state.orders = [] ∨ w.state.orders = [analysis.observed]

theorem ends_startWalk (analysis : Analysis) (limit : ℕ) (outcomes : List Bool) :
    Ends (startWalk analysis limit) ⟨{}, outcomes⟩
      (fun start w' => Unwalked analysis w' ∧ (start = none → w'.state = {}) ∧ ∀ baseline, start = some baseline →
        Collected outcomes (analysis.nodesAlong analysis.observed) baseline ∧
          Searched analysis limit outcomes baseline w')
      (fun w' => Unwalked analysis w' ∧ Ended analysis limit outcomes w') := by
  have hnone : ∀ {w' : World Walk}, w'.state = {} → Unwalked analysis w' ∧ Ended analysis limit outcomes w' :=
    fun hempty => ⟨.inl (by rw [hempty]), .inl hempty⟩
  refine Ends.ite (fun _ => ends_fail (hnone rfl)) fun hlimit => Ends.ite (fun _ => ends_fail (hnone rfl)) fun _ => ?_
  refine ((ends_collectPrefixSyncKeys _ _).imp (fun _ _ => id) fun w' hw' => hnone hw'.state).bind
    fun baseline w₁ ⟨hw₁, hcollected⟩ => ?_
  rw [← nodesAlong_observed] at hcollected
  have hgranted := (obeys_allocateAll (r := Eq) 6 : Obeys Eq (allocateAll 6 : Routine Walk Bool)).ends w₁
  refine (hgranted.imp (fun _ _ => id) fun w' hw' => hnone (hw'.1.symm.trans hw₁.state)).bind
    fun granted w₂ ⟨hstate, hsuffix, _⟩ => ?_
  have hempty : w₂.state = {} := hstate.symm.trans hw₁.state
  refine Ends.ite (fun _ => ends_updateState_bind ?_) fun _ => ends_pure ⟨(hnone hempty).1, fun _ => hempty, ?_⟩
  · have hpos : 0 < limit := by
      rcases Nat.eq_zero_or_pos limit with hzero | hpos
      · exact absurd (.inl hzero) hlimit
      · exact hpos
    rw [hempty]
    have hsearched : Searched analysis limit outcomes baseline
        ⟨Walk.store analysis.observed none 0 0 {}, w₂.outcomes⟩ := by
      refine ⟨⟨hsuffix.trans hw₁.outcomes, stored_first hpos, nofun⟩, fun _ schedule hschedule => ?_⟩
      obtain rfl := List.mem_singleton.mp hschedule
      refine ⟨baseline, hcollected, fun key hkey => syncKeyPresent_iff.mpr (List.mem_map_of_mem hkey)⟩
    refine ((ends_writeText _ _).imp (fun _ _ => id) fun w' hw' =>
      ⟨.inr (by rw [hw'.state]; rfl), .inr ⟨baseline, hcollected, hsearched.of_kept hw'⟩⟩).bind
        fun _ w₃ ⟨hsuffix₃, hstate₃⟩ => ends_pure ⟨.inr (by rw [hstate₃]; rfl), nofun, ?_⟩
    intro _ hsome
    obtain rfl := Option.some.inj hsome
    exact ⟨hcollected, hsearched.of_text hsuffix₃ _ none hstate₃⟩
  · intro _ hsome
    cases hsome

theorem ends_writeInterleaving (analysis : Analysis) (limit : ℕ) (outcomes : List Bool) :
    Ends (writeInterleaving analysis limit) ⟨{}, outcomes⟩
      (fun _ w' => Ended analysis limit outcomes w' ∧ ∀ explored, w'.state.explored = some explored →
        Explored analysis limit outcomes w'.state explored)
      (Ended analysis limit outcomes) := by
  refine ((ends_startWalk analysis limit outcomes).imp (fun _ _ => id) fun _ => And.right).bind fun start w hw => ?_
  obtain ⟨-, hempty, hstart⟩ := hw
  cases start with
  | none =>
    refine ends_pure ⟨.inl (hempty rfl), fun explored hexplored => ?_⟩
    rw [hempty rfl] at hexplored
    cases hexplored
  | some baseline =>
    obtain ⟨hcollected, hsearched⟩ := hstart baseline rfl
    refine ((ends_walkQueue (Nat.add_zero limit) hsearched (.inr (.inr nofun))).imp (fun _ _ => id)
      fun w' hw' => .inr ⟨baseline, hcollected, hw'⟩).bind fun _ w' ⟨hsearched', hclosed⟩ => ?_
    exact ends_writeSummary hsearched' hcollected hclosed

end ToolEvent.ModelAnalysis
