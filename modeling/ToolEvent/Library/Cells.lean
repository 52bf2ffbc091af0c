import Mathlib.Data.List.Basic

/-!
# Lists as arrays of cells

A write to a cell outside the list has no result. The first cells of an array hold what
was written to them one after the other.
-/

namespace Cells

universe u

variable {α : Type u}

def store (cells : List α) (i : ℕ) (x : α) : Option (List α) :=
  if i < cells.length then some (cells.set i x) else none

theorem store_of_lt {cells : List α} {i : ℕ} (h : i < cells.length) (x : α) :
    store cells i x = some (cells.set i x) := if_pos h

theorem store_append {cells : List α} {i : ℕ} (h : i < cells.length) (x : α) (free : List α) :
    store (cells ++ free) i x = (store cells i x).map (· ++ free) := by
  have hlonger : i < (cells ++ free).length := by
    rw [List.length_append]
    omega
  rw [store_of_lt hlonger, store_of_lt h, List.set_append_left _ _ h]
  rfl

/-- The cells up to the one written to. -/
theorem take_set_self {cells : List α} {i : ℕ} (h : i < cells.length) (x : α) :
    (cells.set i x).take (i + 1) = cells.take i ++ [x] := by
  rw [List.take_add_one, List.getElem?_set_self h, List.take_set_of_le (Nat.le_refl _)]
  rfl

/-- An array of which the first cells are in use. -/
structure Holds (cells : List α) (count : ℕ) (used : List α) : Prop where
  within : count ≤ cells.length
  take : cells.take count = used

theorem Holds.length {cells used : List α} {count : ℕ} (h : Holds cells count used) : used.length = count := by
  rw [← h.take, List.length_take, Nat.min_eq_left h.within]

theorem holds_nil (cells : List α) : Holds cells 0 [] := ⟨Nat.zero_le _, rfl⟩

/-- A write behind the cells in use takes one more into use. -/
theorem Holds.store {cells used : List α} {count : ℕ} (h : Holds cells count used)
    (hroom : count < cells.length) (x : α) :
    ∃ next, store cells count x = some next ∧ next.length = cells.length ∧
      Holds next (count + 1) (used ++ [x]) := by
  refine ⟨cells.set count x, store_of_lt hroom x, List.length_set, ?_, ?_⟩
  · rw [List.length_set]
    omega
  · rw [take_set_self hroom, h.take]

/-- The last cell in use is given up. -/
theorem Holds.pop {cells used : List α} {count : ℕ} {x : α} (h : Holds cells (count + 1) (used ++ [x])) :
    cells[count]? = some x ∧ Holds cells count used := by
  have hin : count < cells.length := h.within
  have hlast : cells.take count ++ [cells[count]] = used ++ [x] := by
    rw [← h.take, List.take_succ_eq_append_getElem hin]
  obtain ⟨hused, hx⟩ := List.append_inj' hlast rfl
  refine ⟨?_, Nat.le_of_lt hin, hused⟩
  rw [List.getElem?_eq_getElem hin]
  exact congrArg some (List.cons.inj hx).1

end Cells
