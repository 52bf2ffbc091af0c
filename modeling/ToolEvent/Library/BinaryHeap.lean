import ToolEvent.Library.Cells
import Mathlib.Order.Nat
import Mathlib.Order.Lattice

/-!
# Binary heaps kept in a list of cells

A heap is sifted by moving a hole: the cells passed on the way move by one step, and
the value is stored where the hole stops. An access outside the cells has no result.
-/

namespace BinaryHeap

open Cells

variable {α : Type*}

def parent (i : ℕ) : ℕ := (i - 1) / 2

theorem parent_lt {i : ℕ} (h : i ≠ 0) : parent i < i := by
  unfold parent
  omega

theorem parent_left (i : ℕ) : parent (2 * i + 1) = i := by
  unfold parent
  omega

theorem parent_right (i : ℕ) : parent (2 * i + 1 + 1) = i := by
  unfold parent
  omega

theorem eq_child_of_parent_eq {c i : ℕ} (hc : 0 < c) (h : parent c = i) :
    c = 2 * i + 1 ∨ c = 2 * i + 1 + 1 := by
  unfold parent at h
  omega

/-- The value at `j` moves into the hole at `i`, and the hole is then at `j`. -/
theorem move_perm {cells : List α} {i j : ℕ} {x value : α} (hi : i < cells.length)
    (hj : cells[j]? = some x) (hne : i ≠ j) :
    ((cells.set i x).set j value).Perm (cells.set i value) := by
  obtain ⟨hjl, rfl⟩ := List.getElem?_eq_some_iff.mp hj
  have h := @List.set_set_perm _ (cells.set i value) i j (by simpa) (by simpa)
  simpa [List.getElem_set, hne] using h

theorem getElem?_move {cells : List α} {i j : ℕ} {x value : α} (hi : i < cells.length)
    (hj : cells[j]? = some x) (k : ℕ) :
    ((cells.set i x).set j value)[k]? =
      if k = j then some value else if k = i then some x else (cells.set i value)[k]? := by
  obtain ⟨hjl, -⟩ := List.getElem?_eq_some_iff.mp hj
  grind

variable [LinearOrder α]

/-- Move the hole up while the value above it is larger than the one to store. -/
def siftUp (value : α) : ℕ → ℕ → List α → Option (List α)
  | 0, hole, cells => store cells hole value
  | fuel + 1, hole, cells =>
    if hole = 0 then store cells hole value
    else
      match cells[parent hole]? with
      | none => none
      | some above =>
        if above ≤ value then store cells hole value
        else (store cells hole above).bind (siftUp value fuel (parent hole))

/-- Add a value to a heap: the new cell is the first hole. -/
def push (heap : List α) (value : α) : Option (List α) :=
  siftUp value heap.length heap.length (heap ++ [value])

/-- The smaller of the children of a cell with at least one child. -/
def smallerChild (cells : List α) (hole : ℕ) : ℕ :=
  let left := 2 * hole + 1
  match cells[left]?, cells[left + 1]? with
  | some x, some y => if y < x then left + 1 else left
  | _, _ => left

/-- Move the hole down while the smaller value below it is smaller than the one to store. -/
def siftDown (value : α) : ℕ → ℕ → List α → Option (List α)
  | 0, hole, cells => store cells hole value
  | fuel + 1, hole, cells =>
    match cells[smallerChild cells hole]? with
    | none => store cells hole value
    | some below =>
      if value ≤ below then store cells hole value
      else (store cells hole below).bind (siftDown value fuel (smallerChild cells hole))

/-- Take the root of a heap: the last cell is dropped, and its value is stored again from
the root downward. -/
def pop (heap : List α) : Option (α × List α) :=
  match heap, heap.getLast? with
  | root :: _, some value =>
    if heap.dropLast = [] then some (root, [])
    else (siftDown value heap.dropLast.length 0 heap.dropLast).map (fun cells => (root, cells))
  | _, _ => none

/-- The values of two cells, where there are such cells, are in order. -/
def CellsLe (cells : List α) (i j : ℕ) : Prop :=
  ∀ x y, cells[i]? = some x → cells[j]? = some y → x ≤ y

def IsHeap (cells : List α) : Prop := ∀ c, 0 < c → CellsLe cells (parent c) c

/-- All is in order but the hole with its parent, which is in order with the cells below
the hole. -/
structure UpReady (cells : List α) (hole : ℕ) : Prop where
  except : ∀ c, 0 < c → c ≠ hole → CellsLe cells (parent c) c
  grand : ∀ c, 0 < c → 0 < hole → parent c = hole → CellsLe cells (parent hole) c

/-- All is in order but the hole with its children, which are in order with the parent of
the hole. -/
structure DownReady (cells : List α) (hole : ℕ) : Prop where
  except : ∀ c, 0 < c → parent c ≠ hole → CellsLe cells (parent c) c
  grand : ∀ c, 0 < c → 0 < hole → parent c = hole → CellsLe cells (parent hole) c

theorem UpReady.isHeap {cells : List α} {hole : ℕ} (h : UpReady cells hole)
    (hstop : 0 < hole → CellsLe cells (parent hole) hole) : IsHeap cells := by
  intro c hc
  rcases eq_or_ne c hole with rfl | hne
  · exact hstop hc
  · exact h.except c hc hne

theorem DownReady.isHeap {cells : List α} {hole : ℕ} (h : DownReady cells hole)
    (hstop : ∀ c, 0 < c → parent c = hole → CellsLe cells hole c) : IsHeap cells := by
  intro c hc
  rcases eq_or_ne (parent c) hole with rfl | hne
  · exact hstop c hc rfl
  · exact h.except c hc hne

theorem UpReady.move {cells : List α} {hole : ℕ} {above value : α}
    (h : UpReady (cells.set hole value) hole) (hlt : hole < cells.length) (hne : hole ≠ 0)
    (habove : cells[parent hole]? = some above) (hmove : value < above) :
    UpReady ((cells.set hole above).set (parent hole) value) (parent hole) := by
  have hpar := parent_lt hne
  have hkept : (cells.set hole value)[parent hole]? = some above := by
    rw [List.getElem?_set_ne (Nat.ne_of_gt hpar)]
    exact habove
  constructor
  · intro c hc hcp x y hx hy
    rw [getElem?_move hlt habove] at hx hy
    rw [if_neg hcp] at hy
    have hexcept := h.except c hc
    have hgrand := h.grand c hc
    unfold CellsLe at hexcept hgrand
    grind
  · intro c hc hpos hcp x y hx hy
    have hparpar := parent_lt (Nat.ne_of_gt hpos)
    rw [getElem?_move hlt habove] at hx hy
    have hexcept := h.except c hc
    have habove := h.except (parent hole) hpos (Nat.ne_of_lt hpar)
    unfold CellsLe at hexcept habove
    grind

theorem smallerChild_cases (cells : List α) (hole : ℕ) :
    smallerChild cells hole = 2 * hole + 1 ∨ smallerChild cells hole = 2 * hole + 1 + 1 := by
  unfold smallerChild
  dsimp only
  split
  · split
    · exact .inr rfl
    · exact .inl rfl
  · exact .inl rfl

theorem parent_smallerChild (cells : List α) (hole : ℕ) : parent (smallerChild cells hole) = hole := by
  rcases smallerChild_cases cells hole with h | h <;> rw [h]
  · exact parent_left hole
  · exact parent_right hole

theorem lt_smallerChild (cells : List α) (hole : ℕ) : hole < smallerChild cells hole := by
  rcases smallerChild_cases cells hole with h | h <;> omega

/-- The smaller child is at most every child. -/
theorem smallerChild_le (cells : List α) {hole c : ℕ} (hc : 0 < c) (hpar : parent c = hole) :
    CellsLe cells (smallerChild cells hole) c := by
  intro x y hx hy
  unfold smallerChild at hx
  dsimp only at hx
  rcases eq_child_of_parent_eq hc hpar with rfl | rfl
  · split at hx
    · split at hx <;> grind
    · grind
  · split at hx
    · split at hx <;> grind
    · grind

theorem DownReady.move {cells : List α} {hole : ℕ} {below value : α}
    (h : DownReady (cells.set hole value) hole) (hlt : hole < cells.length)
    (hbelow : cells[smallerChild cells hole]? = some below) (hmove : below < value) :
    DownReady ((cells.set hole below).set (smallerChild cells hole) value)
      (smallerChild cells hole) := by
  have hchild := lt_smallerChild cells hole
  have hpar := parent_smallerChild cells hole
  constructor
  · intro c hc hcp x y hx hy
    have hexcept := h.except c hc
    have hgrand := h.grand (smallerChild cells hole) (by omega)
    have hsmaller : parent c = hole → CellsLe cells (smallerChild cells hole) c :=
      smallerChild_le cells hc
    have hparc := parent_lt (Nat.ne_of_gt hc)
    rw [getElem?_move hlt hbelow] at hx hy
    unfold CellsLe at hexcept hgrand hsmaller
    grind
  · intro c hc hpos hcp x y hx hy
    have hparc := parent_lt (Nat.ne_of_gt hc)
    have hexcept := h.except c hc
    rw [getElem?_move hlt hbelow] at hx hy
    unfold CellsLe at hexcept
    grind

theorem siftUp_spec {value : α} {fuel hole : ℕ} {cells : List α} (hlt : hole < cells.length)
    (hfuel : hole ≤ fuel) (h : UpReady (cells.set hole value) hole) :
    ∃ result, siftUp value fuel hole cells = some result ∧
      result.Perm (cells.set hole value) ∧ IsHeap result := by
  induction fuel generalizing hole cells with
  | zero =>
    obtain rfl : hole = 0 := by omega
    exact ⟨_, store_of_lt hlt value, .refl _, h.isHeap fun hpos => absurd hpos (by omega)⟩
  | succ fuel ih =>
    rcases eq_or_ne hole 0 with rfl | hne
    · exact ⟨_, by rw [siftUp, if_pos rfl, store_of_lt hlt], .refl _,
        h.isHeap fun hpos => absurd hpos (by omega)⟩
    · have hpar := parent_lt hne
      obtain ⟨above, habove⟩ : ∃ above, cells[parent hole]? = some above :=
        ⟨_, List.getElem?_eq_getElem (hpar.trans hlt)⟩
      simp only [siftUp, if_neg hne, habove, store_of_lt hlt, Option.bind_some]
      split
      · next hle =>
        refine ⟨_, rfl, .refl _, h.isHeap fun _ x y hx hy => ?_⟩
        grind
      · next hgt =>
        obtain ⟨result, hrun, hperm, hheap⟩ := ih (by simpa using hpar.trans hlt) (by omega)
          (h.move hlt hne habove (lt_of_not_ge hgt))
        exact ⟨result, hrun, hperm.trans (move_perm hlt habove (Nat.ne_of_gt hpar)), hheap⟩

theorem upReady_append {heap : List α} (h : IsHeap heap) (value : α) :
    UpReady ((heap ++ [value]).set heap.length value) heap.length := by
  constructor
  · intro c hc hne x y hx hy
    have := h c hc
    have := parent_lt (Nat.ne_of_gt hc)
    unfold CellsLe at *
    grind
  · intro c hc _ hpar x y hx hy
    have := parent_lt (Nat.ne_of_gt hc)
    grind

/-- Pushing a value always succeeds, adds it, and keeps the order. -/
theorem push_spec {heap : List α} (h : IsHeap heap) (value : α) :
    ∃ result, push heap value = some result ∧ result.Perm (value :: heap) ∧ IsHeap result := by
  obtain ⟨result, hrun, hperm, hheap⟩ :=
    siftUp_spec (by simp) (le_refl heap.length) (upReady_append h value)
  refine ⟨result, hrun, hperm.trans ?_, hheap⟩
  rw [List.set_append_right _ _ le_rfl]
  simp

theorem siftDown_spec {value : α} {fuel hole : ℕ} {cells : List α} (hlt : hole < cells.length)
    (hfuel : cells.length ≤ hole + fuel) (h : DownReady (cells.set hole value) hole) :
    ∃ result, siftDown value fuel hole cells = some result ∧
      result.Perm (cells.set hole value) ∧ IsHeap result := by
  induction fuel generalizing hole cells with
  | zero => omega
  | succ fuel ih =>
    have hchild := lt_smallerChild cells hole
    have hle : ∀ c, 0 < c → parent c = hole → CellsLe cells (smallerChild cells hole) c :=
      fun c hc hpar => smallerChild_le cells hc hpar
    cases hbelow : cells[smallerChild cells hole]? with
    | none =>
      simp only [siftDown, hbelow]
      refine ⟨_, store_of_lt hlt value, .refl _, h.isHeap fun c hc hpar x y hx hy => ?_⟩
      have := smallerChild_cases cells hole
      have := eq_child_of_parent_eq hc hpar
      unfold smallerChild at *
      grind
    | some below =>
      simp only [siftDown, hbelow, store_of_lt hlt, Option.bind_some]
      split
      · next hstop =>
        refine ⟨_, rfl, .refl _, h.isHeap fun c hc hpar x y hx hy => ?_⟩
        have hc' := hle c hc hpar below y hbelow
        have := parent_lt (Nat.ne_of_gt hc)
        grind
      · next hgt =>
        obtain ⟨result, hrun, hperm, hheap⟩ := ih
          (by simpa using (List.getElem?_eq_some_iff.mp hbelow).1) (by simp; omega)
          (h.move hlt hbelow (lt_of_not_ge hgt))
        exact ⟨result, hrun, hperm.trans (move_perm hlt hbelow (Nat.ne_of_lt hchild)), hheap⟩

theorem IsHeap.root_le {cells : List α} (h : IsHeap cells) {root : α} (hroot : cells[0]? = some root)
    (i : ℕ) : ∀ x, cells[i]? = some x → root ≤ x := by
  induction i using Nat.strongRecOn with
  | ind i ih =>
    intro x hx
    rcases Nat.eq_zero_or_pos i with rfl | hpos
    · exact le_of_eq (Option.some.inj (hroot ▸ hx))
    · have hpar := parent_lt (Nat.ne_of_gt hpos)
      have hlt := (List.getElem?_eq_some_iff.mp hx).1
      have hy := List.getElem?_eq_getElem (hpar.trans hlt)
      exact (ih _ hpar _ hy).trans (h i hpos _ _ hy hx)

/-- Popping a non-empty heap takes its least value and keeps the order. -/
theorem pop_spec {heap : List α} (h : IsHeap heap) (hne : heap ≠ []) :
    ∃ root rest, pop heap = some (root, rest) ∧ heap.Perm (root :: rest) ∧ IsHeap rest ∧
      ∀ x ∈ heap, root ≤ x := by
  obtain ⟨root, tail, rfl⟩ := List.exists_cons_of_ne_nil hne
  have hmin : ∀ x ∈ root :: tail, root ≤ x := fun x hx => by
    obtain ⟨i, hi⟩ := List.mem_iff_getElem?.mp hx
    exact h.root_le rfl i x hi
  rcases List.eq_nil_or_concat tail with rfl | ⟨cells, value, rfl⟩
  · exact ⟨root, [], by simp [pop], .refl _, fun c _ x y hx => by simp at hx, hmin⟩
  · rw [List.concat_eq_append] at *
    have hready : DownReady ((root :: cells).set 0 value) 0 := by
      constructor
      · intro c hc hpar x y hx hy
        have := h c hc
        unfold CellsLe at this
        grind
      · exact fun c _ hpos => absurd hpos (by omega)
    obtain ⟨result, hrun, hperm, hheap⟩ :=
      @siftDown_spec _ _ value (root :: cells).length 0 (root :: cells) (by simp) (by simp) hready
    refine ⟨root, result, ?_, ?_, hheap, hmin⟩
    · have hdrop : (root :: (cells ++ [value])).dropLast = root :: cells := by
        rw [← List.cons_append, List.dropLast_concat]
      have hlast : (root :: (cells ++ [value])).getLast? = some value := by
        rw [← List.cons_append, List.getLast?_concat]
      simp only [pop, hdrop, hlast, reduceCtorEq, if_false, hrun, Option.map_some]
    · refine List.Perm.cons root ?_
      exact (List.perm_append_singleton value cells).trans hperm.symm

/-- The cells behind the heap are left alone. -/
theorem siftUp_append {value : α} {fuel hole : ℕ} {cells : List α} (h : hole < cells.length) (free : List α) :
    siftUp value fuel hole (cells ++ free) = (siftUp value fuel hole cells).map (· ++ free) := by
  induction fuel generalizing hole cells with
  | zero => exact store_append h value free
  | succ fuel ih =>
    simp only [siftUp]
    by_cases hroot : hole = 0
    · rw [if_pos hroot, if_pos hroot, store_append h]
    · have hpar := (parent_lt hroot).trans h
      rw [if_neg hroot, if_neg hroot, List.getElem?_append_left hpar, List.getElem?_eq_getElem hpar]
      simp only
      split
      · rw [store_append h]
      · rw [store_of_lt h, store_append h, store_of_lt h]
        exact ih (by rwa [List.length_set])

/-- What stands in the first hole does not matter. -/
theorem siftUp_set {value x : α} {fuel hole : ℕ} {cells : List α} (h : hole < cells.length) :
    siftUp value fuel hole (cells.set hole x) = siftUp value fuel hole cells := by
  have hset : hole < (cells.set hole x).length := by rwa [List.length_set]
  cases fuel with
  | zero => rw [siftUp, siftUp, store_of_lt h, store_of_lt hset, List.set_set]
  | succ fuel =>
    simp only [siftUp]
    by_cases hroot : hole = 0
    · rw [if_pos hroot, if_pos hroot, store_of_lt h, store_of_lt hset, List.set_set]
    · have hne := Nat.ne_of_gt (parent_lt hroot)
      rw [if_neg hroot, if_neg hroot, List.getElem?_set_ne hne]
      simp only [store_of_lt h, store_of_lt hset, List.set_set]

/-- A value is pushed onto the heap that is followed by a free cell. -/
theorem siftUp_eq_push (heap : List α) (value x : α) (free : List α) :
    siftUp value heap.length heap.length (heap ++ x :: free) = (push heap value).map (· ++ free) := by
  have hcells : heap ++ [value] = (heap ++ [x]).set heap.length value := by
    rw [List.set_append_right _ _ le_rfl, Nat.sub_self]
    rfl
  have hlast : heap.length < (heap ++ [x]).length := by
    rw [List.length_append]
    exact Nat.lt_succ_self _
  rw [push, hcells, siftUp_set hlast, List.append_cons, siftUp_append hlast]

theorem smallerChild_of_some {cells : List α} {hole : ℕ} {x y : α} (hleft : cells[2 * hole + 1]? = some x)
    (hright : cells[2 * hole + 1 + 1]? = some y) :
    smallerChild cells hole = if y < x then 2 * hole + 1 + 1 else 2 * hole + 1 := by
  simp only [smallerChild, hleft, hright]

theorem smallerChild_of_none {cells : List α} {hole : ℕ} (hright : cells[2 * hole + 1 + 1]? = none) :
    smallerChild cells hole = 2 * hole + 1 := by
  simp only [smallerChild, hright]
  cases cells[2 * hole + 1]? <;> rfl

theorem smallerChild_lt {cells : List α} {hole : ℕ} (h : 2 * hole + 1 < cells.length) :
    smallerChild cells hole < cells.length := by
  by_cases hright : 2 * hole + 1 + 1 < cells.length
  · rcases smallerChild_cases cells hole with hchild | hchild <;> omega
  · rw [smallerChild_of_none (List.getElem?_eq_none_iff.mpr (by omega))]
    exact h

theorem getElem?_smallerChild_eq_none {cells : List α} {hole : ℕ} (h : cells.length ≤ 2 * hole + 1) :
    cells[smallerChild cells hole]? = none := by
  rw [List.getElem?_eq_none_iff]
  rcases smallerChild_cases cells hole with hchild | hchild <;> omega

end BinaryHeap
