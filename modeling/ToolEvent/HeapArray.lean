import ToolEvent.CausalOrder
import Mathlib.Data.Multiset.Basic

/-!
# The heap of the causal order as an array

`heap_push` and `heap_pop` of `src/analysis.c` on the array they are given, of which only
the first cells are in use. A sequence of calls serves the values as a priority queue does.
-/

namespace ToolEvent.ModelAnalysis

open Fallible World BinaryHeap Cells

/-- The array and the number of its cells in use. -/
structure HeapArray where
  cells : List ℕ
  size : ℕ
  deriving DecidableEq

/-- `heap_push`: its result, and the array after it. -/
def HeapArray.heapPush (capacity value : ℕ) (heap : HeapArray) : Option (ℤ × HeapArray) :=
  if capacity ≤ heap.size then some (-1, heap)
  else do
    let cells ← siftUp value heap.size heap.size heap.cells
    return (0, ⟨cells, heap.size + 1⟩)

/-- The child the loop of `heap_pop` looks at. -/
def childWithin (size index : ℕ) (cells : List ℕ) : Option ℕ :=
  if 2 * index + 1 + 1 < size then do
    let left ← cells[2 * index + 1]?
    let right ← cells[2 * index + 1 + 1]?
    return if right < left then 2 * index + 1 + 1 else 2 * index + 1
  else some (2 * index + 1)

/-- The loop of `heap_pop`, and the write after it. -/
def heapPopLoop (size value : ℕ) : ℕ → ℕ → List ℕ → Option (List ℕ)
  | 0, _, _ => none
  | fuel + 1, index, cells =>
    if 2 * index + 1 < size then do
      let child ← childWithin size index cells
      let below ← cells[child]?
      if value ≤ below then store cells index value
      else do
        let cells ← store cells index below
        heapPopLoop size value fuel child cells
    else store cells index value

/-- `heap_pop`: its result, and the array after it. -/
def HeapArray.heapPop (heap : HeapArray) : Option (ℕ × HeapArray) := do
  let root ← heap.cells[0]?
  let size := heap.size - 1
  let value ← heap.cells[size]?
  let cells ← if size = 0 then some heap.cells else heapPopLoop size value size 0 heap.cells
  return (root, ⟨cells, size⟩)

def HeapArray.used (heap : HeapArray) : List ℕ := heap.cells.take heap.size

/-- The array has a number of cells, and those in use are ordered. -/
structure HeapArray.Ordered (capacity : ℕ) (heap : HeapArray) : Prop where
  room : heap.cells.length = capacity
  within : heap.size ≤ capacity
  isHeap : IsHeap heap.used

theorem HeapArray.Ordered.length_used {capacity : ℕ} {heap : HeapArray} (h : heap.Ordered capacity) :
    heap.used.length = heap.size := by
  have hroom := h.room
  have hwithin := h.within
  rw [used, List.length_take]
  omega

theorem HeapArray.used_append (used free : List ℕ) : HeapArray.used ⟨used ++ free, used.length⟩ = used :=
  List.take_left

/-- A push onto an array that is not full pushes onto the cells in use. -/
theorem HeapArray.Ordered.heapPush_eq {capacity : ℕ} {heap : HeapArray} (h : heap.Ordered capacity)
    (hroom : heap.size < capacity) (value : ℕ) :
    ∃ next, heap.heapPush capacity value = some (0, next) ∧ BinaryHeap.push heap.used value = some next.used ∧
      next.Ordered capacity := by
  obtain ⟨result, hpush, hperm, hheap⟩ := push_spec h.isHeap value
  have hlength : result.length = heap.size + 1 := by
    rw [hperm.length_eq, List.length_cons, h.length_used]
  have hin : heap.size < heap.cells.length := by rw [h.room]; exact hroom
  have hsplit : heap.cells = heap.used ++ heap.cells[heap.size] :: heap.cells.drop (heap.size + 1) := by
    rw [List.getElem_cons_drop hin]
    exact (List.take_append_drop heap.size heap.cells).symm
  have hsift : siftUp value heap.size heap.size heap.cells = some (result ++ heap.cells.drop (heap.size + 1)) := by
    have heq := siftUp_eq_push heap.used value heap.cells[heap.size] (heap.cells.drop (heap.size + 1))
    rw [← hsplit, h.length_used, hpush] at heq
    exact heq
  refine ⟨⟨result ++ heap.cells.drop (heap.size + 1), heap.size + 1⟩, ?_, ?_, ?_, hroom, ?_⟩
  · rw [HeapArray.heapPush, if_neg (Nat.not_le_of_lt hroom), hsift]
    rfl
  · rw [hpush, ← hlength, used_append]
  · rw [List.length_append, hlength, List.length_drop, h.room]
    omega
  · rw [← hlength, used_append]
    exact hheap

theorem childWithin_append {used : List ℕ} {index : ℕ} (h : 2 * index + 1 < used.length) (free : List ℕ) :
    childWithin used.length index (used ++ free) = some (smallerChild used index) := by
  unfold childWithin
  by_cases hright : 2 * index + 1 + 1 < used.length
  · rw [if_pos hright, List.getElem?_append_left h, List.getElem?_append_left hright,
      List.getElem?_eq_getElem h, List.getElem?_eq_getElem hright,
      smallerChild_of_some (List.getElem?_eq_getElem h) (List.getElem?_eq_getElem hright)]
    rfl
  · rw [if_neg hright, smallerChild_of_none (List.getElem?_eq_none_iff.mpr (by omega))]

/-- The loop of `heap_pop` sifts down within the cells in use, and ends. -/
theorem heapPopLoop_append {value fuel index : ℕ} {used : List ℕ} (hin : index < used.length)
    (hfuel : used.length ≤ index + fuel) (free : List ℕ) :
    heapPopLoop used.length value fuel index (used ++ free) =
      (siftDown value fuel index used).map (· ++ free) := by
  induction fuel generalizing index used with
  | zero => omega
  | succ fuel ih =>
    have hchild := lt_smallerChild used index
    simp only [heapPopLoop, siftDown]
    by_cases hleft : 2 * index + 1 < used.length
    · have hinner := smallerChild_lt hleft
      rw [if_pos hleft, childWithin_append hleft]
      simp only [Option.bind_eq_bind, Option.bind_some]
      rw [List.getElem?_append_left hinner, List.getElem?_eq_getElem hinner]
      simp only [Option.bind_some]
      split
      · rw [store_append hin]
      · rw [store_append hin, store_of_lt hin]
        simp only [Option.map_some, Option.bind_some]
        have hlength : (used.set index used[smallerChild used index]).length = used.length := List.length_set
        have hrest := @ih (smallerChild used index) (used.set index used[smallerChild used index])
          (by omega) (by omega)
        rw [hlength] at hrest
        exact hrest
    · rw [if_neg hleft, getElem?_smallerChild_eq_none (by omega), store_append hin]

/-- A pop of an array in use pops the cells in use. -/
theorem HeapArray.Ordered.heapPop_eq {capacity : ℕ} {heap : HeapArray} (h : heap.Ordered capacity)
    (hne : 0 < heap.size) :
    ∃ root next, heap.heapPop = some (root, next) ∧ BinaryHeap.pop heap.used = some (root, next.used) ∧
      next.Ordered capacity := by
  have hlength := h.length_used
  have hused : heap.used ≠ [] := List.ne_nil_of_length_pos (by omega)
  obtain ⟨root, rest, hpop, hperm, hheap, -⟩ := pop_spec h.isHeap hused
  have hdrop : heap.used.dropLast = heap.cells.take (heap.size - 1) := by
    rw [List.dropLast_eq_take, hlength, used, List.take_take, Nat.min_eq_left (Nat.sub_le _ 1)]
  have hfewer : heap.used.dropLast.length = heap.size - 1 := by
    rw [List.length_dropLast, hlength]
  have hcells : heap.cells = heap.used.dropLast ++ heap.cells.drop (heap.size - 1) := by
    rw [hdrop, List.take_append_drop]
  have hlast : heap.used.getLast? = heap.cells[heap.size - 1]? := by
    rw [List.getLast?_eq_getElem?, hlength, used, List.getElem?_take_of_lt (by omega)]
  have hroot : heap.cells[0]? = heap.used.head? := by
    rw [List.head?_eq_getElem?, used, List.getElem?_take_of_lt hne]
  have hin : heap.size - 1 < heap.cells.length := by
    have := h.room
    have := h.within
    omega
  have hvalue : heap.cells[heap.size - 1]? = some heap.cells[heap.size - 1] := List.getElem?_eq_getElem hin
  obtain ⟨first, others, hfirst⟩ := List.exists_cons_of_ne_nil hused
  have hstart : heap.cells[0]? = some first := by
    rw [hroot, hfirst]
    rfl
  have hwithin : heap.size - 1 ≤ capacity := by
    have := h.within
    omega
  have hmodel : BinaryHeap.pop heap.used =
      if heap.used.dropLast = [] then some (first, [])
      else (siftDown heap.cells[heap.size - 1] heap.used.dropLast.length 0 heap.used.dropLast).map
        (fun cells => (first, cells)) := by
    rw [hvalue, hfirst] at hlast
    rw [hfirst]
    simp only [pop, hlast]
  rw [hpop] at hmodel
  by_cases hone : heap.size - 1 = 0
  · have hnothing : heap.used.dropLast = [] := List.eq_nil_of_length_eq_zero (hfewer.trans hone)
    rw [if_pos hnothing] at hmodel
    cases hmodel
    refine ⟨root, ⟨heap.cells, heap.size - 1⟩, ?_, ?_, h.room, hwithin, ?_⟩
    · simp only [HeapArray.heapPop, hstart, hone, Option.bind_eq_bind, Option.bind_some, if_true]
      rfl
    · rw [hpop, hone]
      rfl
    · rw [hone]
      exact hheap
  · have hsome : heap.used.dropLast ≠ [] := by
      intro hnil
      rw [hnil] at hfewer
      exact hone hfewer.symm
    rw [if_neg hsome] at hmodel
    obtain ⟨cells, hsift, hpair⟩ := Option.map_eq_some_iff.mp hmodel.symm
    cases hpair
    have hloop := @heapPopLoop_append heap.cells[heap.size - 1] heap.used.dropLast.length 0 heap.used.dropLast
      (List.length_pos_iff.mpr hsome) (Nat.le_add_left _ 0) (heap.cells.drop (heap.size - 1))
    rw [hsift, hfewer, ← hcells] at hloop
    have hrest : rest.length = heap.size - 1 := by
      have hcount := hperm.length_eq
      rw [List.length_cons, hlength] at hcount
      omega
    refine ⟨root, ⟨rest ++ heap.cells.drop (heap.size - 1), heap.size - 1⟩, ?_, ?_, ?_, hwithin, ?_⟩
    · simp only [HeapArray.heapPop, hstart, hvalue, Option.bind_eq_bind, Option.bind_some, if_neg hone, hloop]
      rfl
    · rw [hpop, ← hrest, used_append]
    · rw [List.length_append, List.length_drop, hrest, h.room]
      omega
    · rw [← hrest, used_append]
      exact hheap

inductive HeapCall
  | push (value : ℕ)
  | pop

inductive HeapAnswer
  | status (result : ℤ)
  | value (root : ℕ)
  deriving DecidableEq

def HeapArray.call (capacity : ℕ) (heap : HeapArray) : HeapCall → Option (HeapAnswer × HeapArray)
  | .push value => (heap.heapPush capacity value).map (fun r => (.status r.1, r.2))
  | .pop => heap.heapPop.map (fun r => (.value r.1, r.2))

def HeapArray.calls (capacity : ℕ) (heap : HeapArray) : List HeapCall → Option HeapArray
  | [] => some heap
  | call :: rest => do
    let (_, next) ← heap.call capacity call
    next.calls capacity rest

/-- No call pops an empty heap, when so many values are stored before the first one. -/
def NeverPopsEmpty (capacity : ℕ) : ℕ → List HeapCall → Prop
  | _, [] => True
  | stored, .push _ :: rest => NeverPopsEmpty capacity (if stored < capacity then stored + 1 else stored) rest
  | stored, .pop :: rest => 0 < stored ∧ NeverPopsEmpty capacity (stored - 1) rest

def HeapArray.stored (heap : HeapArray) : Multiset ℕ := heap.used

/-- What a priority queue does with a call. A push onto a full heap fails, and changes nothing. -/
def Serves (capacity : ℕ) (heap : HeapArray) (answer : HeapAnswer) (next : HeapArray) : HeapCall → Prop
  | .push value =>
    if heap.size < capacity then answer = .status 0 ∧ next.stored = value ::ₘ heap.stored
    else answer = .status (-1) ∧ next = heap
  | .pop =>
    ∃ root, answer = .value root ∧ root ∈ heap.stored ∧ (∀ x ∈ heap.stored, root ≤ x) ∧
      next.stored = heap.stored.erase root

def sizeAfter (capacity stored : ℕ) : HeapCall → ℕ
  | .push _ => if stored < capacity then stored + 1 else stored
  | .pop => stored - 1

/-- A call that does not pop an empty heap is served, and keeps the order. -/
theorem HeapArray.Ordered.call_serves {capacity : ℕ} {heap : HeapArray} (h : heap.Ordered capacity)
    (call : HeapCall) (hpop : call = .pop → 0 < heap.size) :
    ∃ answer next, heap.call capacity call = some (answer, next) ∧ Serves capacity heap answer next call ∧
      next.Ordered capacity ∧ next.size = sizeAfter capacity heap.size call := by
  cases call with
  | push value =>
    by_cases hroom : heap.size < capacity
    · obtain ⟨next, hpush, hmodel, hnext⟩ := h.heapPush_eq hroom value
      obtain ⟨result, hresult, hperm, -⟩ := push_spec h.isHeap value
      obtain rfl := Option.some.inj (hmodel.symm.trans hresult)
      have hlength := hperm.length_eq
      rw [List.length_cons, hnext.length_used, h.length_used] at hlength
      refine ⟨.status 0, next, by rw [call, hpush]; rfl, ?_, hnext, ?_⟩
      · rw [Serves, if_pos hroom]
        exact ⟨rfl, Multiset.coe_eq_coe.mpr hperm⟩
      · rw [sizeAfter, if_pos hroom, hlength]
    · refine ⟨.status (-1), heap, ?_, ?_, h, ?_⟩
      · rw [HeapArray.call, HeapArray.heapPush, if_pos (Nat.le_of_not_lt hroom)]
        rfl
      · rw [Serves, if_neg hroom]
        exact ⟨rfl, rfl⟩
      · rw [sizeAfter, if_neg hroom]
  | pop =>
    have hsize := hpop rfl
    obtain ⟨root, next, hcall, hmodel, hnext⟩ := h.heapPop_eq hsize
    have hused : heap.used ≠ [] := by
      have := h.length_used
      exact List.ne_nil_of_length_pos (by omega)
    obtain ⟨least, rest, hresult, hperm, -, hmin⟩ := pop_spec h.isHeap hused
    obtain ⟨rfl, rfl⟩ := Prod.mk.inj (Option.some.inj (hmodel.symm.trans hresult))
    have hlength := hperm.length_eq
    rw [List.length_cons, hnext.length_used, h.length_used] at hlength
    refine ⟨.value root, next, by rw [HeapArray.call, hcall]; rfl, ?_, hnext, ?_⟩
    · refine ⟨root, rfl, hperm.mem_iff.mpr List.mem_cons_self, hmin, ?_⟩
      have hstored : heap.stored = root ::ₘ next.stored := Multiset.coe_eq_coe.mpr hperm
      rw [hstored, Multiset.erase_cons_head]
    · rw [sizeAfter]
      omega

theorem HeapArray.Ordered.calls_ordered {capacity : ℕ} {heap : HeapArray} (h : heap.Ordered capacity)
    {before : List HeapCall} {call : HeapCall} (hpops : NeverPopsEmpty capacity heap.size (before ++ [call])) :
    ∃ now, heap.calls capacity before = some now ∧ now.Ordered capacity ∧ (call = .pop → 0 < now.size) := by
  induction before generalizing heap with
  | nil =>
    refine ⟨heap, rfl, h, ?_⟩
    rintro rfl
    exact hpops.1
  | cons first rest ih =>
    have hfirst : (first = .pop → 0 < heap.size) ∧
        NeverPopsEmpty capacity (sizeAfter capacity heap.size first) (rest ++ [call]) := by
      cases first with
      | push value => exact ⟨HeapCall.noConfusion, hpops⟩
      | pop => exact ⟨fun _ => hpops.1, hpops.2⟩
    obtain ⟨answer, next, hcall, -, hnext, hsize⟩ := h.call_serves first hfirst.1
    rw [← hsize] at hfirst
    obtain ⟨now, hcalls, hnow⟩ := ih hnext hfirst.2
    refine ⟨now, ?_, hnow⟩
    rw [HeapArray.calls, hcall]
    exact hcalls

/-- After any sequence of calls on an empty heap that never pops an empty one, the cells are
in heap order, and the next call is served as by a priority queue and leaves them in order. -/
theorem heapCalls_serve {capacity : ℕ} {cells : List ℕ} (hroom : cells.length = capacity)
    {before : List HeapCall} {call : HeapCall} (hpops : NeverPopsEmpty capacity 0 (before ++ [call])) :
    ∃ now answer next, HeapArray.calls capacity ⟨cells, 0⟩ before = some now ∧
      now.call capacity call = some (answer, next) ∧ Serves capacity now answer next call ∧
      now.Ordered capacity ∧ next.Ordered capacity := by
  have hempty : HeapArray.Ordered capacity ⟨cells, 0⟩ :=
    ⟨hroom, Nat.zero_le _, fun c _ x y hx => by cases hx⟩
  obtain ⟨now, hcalls, hnow, hnonempty⟩ := hempty.calls_ordered hpops
  obtain ⟨answer, next, hcall, hserves, hnext, -⟩ := hnow.call_serves call hnonempty
  exact ⟨now, answer, next, hcalls, hcall, hserves, hnow, hnext⟩

/-- Four values are pushed onto a heap with room for three, and the least one is popped. -/
theorem heapCalls_fullHeap :
    ∃ now answer next,
      HeapArray.calls 3 ⟨[7, 7, 7], 0⟩ [.push 5, .push 2, .push 4, .push 1] = some now ∧
      now.call 3 .pop = some (answer, next) ∧ Serves 3 now answer next .pop ∧ now.Ordered 3 ∧
      next.Ordered 3 :=
  @heapCalls_serve 3 [7, 7, 7] rfl [.push 5, .push 2, .push 4, .push 1] .pop ⟨by decide, trivial⟩

/-- The causal order pushes onto the cells in use. -/
theorem heapPush_of_array {capacity : ℕ} {heap : HeapArray} (h : heap.Ordered capacity) (value : ℕ)
    (analysis : Analysis) (locals : OrderLocals) (hheap : locals.heap = heap.used) (outcomes : List Bool) :
    ∃ result next, heap.heapPush capacity value = some (result, next) ∧
      ModelAnalysis.heapPush capacity value ⟨(analysis, locals), outcomes⟩ =
        (if result = 0 then .ok () else .error (.errno .eoverflow),
          ⟨(analysis, ({ locals with heap := next.used }).withStatus result), outcomes⟩) := by
  by_cases hroom : heap.size < capacity
  · obtain ⟨next, hpush, hmodel, -⟩ := h.heapPush_eq hroom value
    refine ⟨0, next, hpush, ?_⟩
    unfold ModelAnalysis.heapPush
    rw [run_readState_bind]
    simp only [hheap, h.length_used, if_neg (Nat.not_le_of_lt hroom), hmodel]
    rfl
  · refine ⟨-1, heap, if_pos (Nat.le_of_not_lt hroom), ?_⟩
    unfold ModelAnalysis.heapPush
    rw [run_readState_bind]
    simp only [hheap, h.length_used, if_pos (Nat.le_of_not_lt hroom)]
    rw [← hheap]
    rfl

end ToolEvent.ModelAnalysis
