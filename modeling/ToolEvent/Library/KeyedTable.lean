import Mathlib.Data.List.Basic
import Mathlib.Data.List.Induction
import Mathlib.Data.List.Nodup
import Mathlib.Data.List.Perm.Basic
import Mathlib.Algebra.BigOperators.Group.List.Basic
import Mathlib.Algebra.Ring.Nat

/-!
# Tables of accumulators found or added by key

A table is a list of rows. Updating it with an item changes the row of the
item's key, after adding a fresh row when no row has that key. Folding a list of
items into a table is folding, for each key, the items of that key into its row.
-/

namespace KeyedTable

variable {K R A : Type*} [DecidableEq K]

/-- Update the first row with the given key, adding the fresh row if there is none. -/
def update (key : R → K) (fresh : K → R) (k : K) (f : R → R) : List R → List R
  | [] => [f (fresh k)]
  | row :: rows => if key row = k then f row :: rows else row :: update key fresh k f rows

variable {key : R → K} {fresh : K → R} {k : K} {f : R → R}

theorem find?_update_self (hfresh : key (fresh k) = k) (hf : ∀ row, key (f row) = key row)
    (rows : List R) :
    (update key fresh k f rows).find? (fun row => key row = k) =
      some (f ((rows.find? (fun row => key row = k)).getD (fresh k))) := by
  induction rows with
  | nil => simp [update, hf, hfresh]
  | cons row rows ih =>
    by_cases h : key row = k
    · simp [update, h, hf]
    · simp [update, h, ih]

theorem find?_update_of_ne (hfresh : key (fresh k) = k) (hf : ∀ row, key (f row) = key row)
    {j : K} (hj : j ≠ k) (rows : List R) :
    (update key fresh k f rows).find? (fun row => key row = j) =
      rows.find? (fun row => key row = j) := by
  induction rows with
  | nil => simp [update, hf, hfresh, hj.symm]
  | cons row rows ih =>
    by_cases h : key row = k
    · simp [update, h, hf, hj.symm]
    · by_cases h' : key row = j
      · subst h'
        simp [update, h]
      · simp [update, h, h', ih]

theorem map_key_update (hfresh : key (fresh k) = k) (hf : ∀ row, key (f row) = key row)
    (rows : List R) :
    (update key fresh k f rows).map key =
      if k ∈ rows.map key then rows.map key else rows.map key ++ [k] := by
  induction rows with
  | nil => simp [update, hf, hfresh]
  | cons row rows ih =>
    by_cases h : key row = k
    · simp [update, h, hf]
    · have hk : k ≠ key row := Ne.symm h
      simp only [update, if_neg h, List.map_cons, ih, List.mem_cons, hk, false_or]
      split <;> simp

/-- The row an update acts on: the first row of the key, or the fresh one. -/
def rowOf (key : R → K) (fresh : K → R) (k : K) (rows : List R) : R :=
  (rows.find? (fun row => key row = k)).getD (fresh k)

variable (key fresh k f) in
/-- A quantity summed over the rows changes by what changes in the updated row. -/
theorem sum_map_update (g : R → ℕ) (rows : List R) (hg : g (fresh k) = 0) :
    ((update key fresh k f rows).map g).sum + g (rowOf key fresh k rows) =
      (rows.map g).sum + g (f (rowOf key fresh k rows)) := by
  induction rows with
  | nil => simp [update, rowOf, hg]
  | cons row rows ih =>
    by_cases h : key row = k
    · simp [update, rowOf, h]
      omega
    · have hrow : rowOf key fresh k (row :: rows) = rowOf key fresh k rows := by simp [rowOf, h]
      simp only [update, if_neg h, List.map_cons, List.sum_cons, hrow]
      omega

/-- What the rows list grows by what the list of the updated row grows by. -/
theorem flatMap_update_perm {B : Type*} (g : R → List B) {rows : List R} {added : List B} (hg : g (fresh k) = [])
    (hf : (g (f (rowOf key fresh k rows))).Perm (g (rowOf key fresh k rows) ++ added)) :
    ((update key fresh k f rows).flatMap g).Perm (rows.flatMap g ++ added) := by
  induction rows with
  | nil =>
    have hrow : rowOf key fresh k [] = fresh k := rfl
    rw [hrow, hg] at hf
    simpa [update] using hf
  | cons row rows ih =>
    by_cases h : key row = k
    · have hrow : rowOf key fresh k (row :: rows) = row := by simp [rowOf, h]
      rw [hrow] at hf
      rw [update, if_pos h, List.flatMap_cons, List.flatMap_cons, List.append_assoc]
      refine (hf.append_right _).trans ?_
      rw [List.append_assoc]
      exact List.perm_append_comm.append_left _
    · have hrow : rowOf key fresh k (row :: rows) = rowOf key fresh k rows := by simp [rowOf, h]
      rw [hrow] at hf
      rw [update, if_neg h, List.flatMap_cons, List.flatMap_cons, List.append_assoc]
      exact (ih hf).append_left _

variable (fresh f) in
theorem update_of_findIdx?_eq_some {rows : List R} {i : ℕ}
    (h : rows.findIdx? (fun row => key row = k) = some i) :
    update key fresh k f rows = rows.modify i f ∧
      ∀ default, rows.getD i default = rowOf key fresh k rows := by
  induction rows generalizing i with
  | nil => simp at h
  | cons row rows ih =>
    by_cases hk : key row = k
    · obtain rfl : 0 = i := by simpa [List.findIdx?_cons, hk] using h
      simp [update, rowOf, hk]
    · simp only [List.findIdx?_cons, hk, decide_false, Bool.false_eq_true, if_false,
        Option.map_eq_some_iff] at h
      obtain ⟨j, hj, rfl⟩ := h
      obtain ⟨hm, hg⟩ := ih hj
      refine ⟨by simp [update, hk, hm], fun default => ?_⟩
      have hrow : rowOf key fresh k (row :: rows) = rowOf key fresh k rows := by simp [rowOf, hk]
      simpa [hrow] using hg default

variable (fresh f) in
theorem update_of_findIdx?_eq_none {rows : List R}
    (h : rows.findIdx? (fun row => key row = k) = none) :
    update key fresh k f rows = rows ++ [f (fresh k)] ∧ rowOf key fresh k rows = fresh k := by
  have hne : ∀ row ∈ rows, key row ≠ k := by simpa [List.findIdx?_eq_none_iff] using h
  constructor
  · clear h
    induction rows with
    | nil => rfl
    | cons row rows ih =>
      have hrow := hne row List.mem_cons_self
      simp [update, hrow, ih (fun r hr => hne r (List.mem_cons_of_mem _ hr))]
  · have hfind : rows.find? (fun row => key row = k) = none := by
      simpa [List.find?_eq_none] using hne
    simp [rowOf, hfind]

section Fold

variable (key : R → K) (fresh : K → R) (itemKey : A → K) (step : A → R → R)

/-- Fold items into a table, each into the row of its key. -/
def fold (rows : List R) (items : List A) : List R :=
  items.foldl (fun rows a => update key fresh (itemKey a) (step a) rows) rows

def foldRow (k : K) (items : List A) : R :=
  (items.filter (fun a => itemKey a = k)).foldl (fun row a => step a row) (fresh k)

variable {key fresh itemKey step}

theorem fold_concat (rows : List R) (items : List A) (a : A) :
    fold key fresh itemKey step rows (items ++ [a]) =
      update key fresh (itemKey a) (step a) (fold key fresh itemKey step rows items) := by
  simp [fold, List.foldl_append]

theorem foldRow_concat_self (items : List A) (a : A) :
    foldRow fresh itemKey step (itemKey a) (items ++ [a]) =
      step a (foldRow fresh itemKey step (itemKey a) items) := by
  simp [foldRow, List.filter_append, List.foldl_append]

theorem foldRow_concat_of_ne {k : K} (items : List A) {a : A} (h : itemKey a ≠ k) :
    foldRow fresh itemKey step k (items ++ [a]) = foldRow fresh itemKey step k items := by
  simp [foldRow, List.filter_append, h]

/-- After folding items into the empty table, a key has a row exactly when some
item has that key, and the row is the fold of the items of that key. -/
theorem find?_fold (hfresh : ∀ k, key (fresh k) = k) (hstep : ∀ a row, key (step a row) = key row)
    (items : List A) (k : K) :
    (fold key fresh itemKey step [] items).find? (fun row => key row = k) =
      if k ∈ items.map itemKey then some (foldRow fresh itemKey step k items) else none := by
  induction items using List.reverseRecOn with
  | nil => simp [fold]
  | append_singleton items a ih =>
    rw [fold_concat]
    by_cases h : itemKey a = k
    · subst h
      rw [find?_update_self (hfresh _) (hstep a), ih, foldRow_concat_self]
      by_cases hmem : itemKey a ∈ items.map itemKey
      · simp [hmem]
      · have hempty : items.filter (fun b => decide (itemKey b = itemKey a)) = [] := by
          refine List.filter_eq_nil_iff.mpr fun b hb => ?_
          have hne : itemKey b ≠ itemKey a := fun he => hmem (he ▸ List.mem_map_of_mem hb)
          simpa using hne
        simp only [hmem, if_false, Option.getD_none, foldRow, hempty, List.foldl_nil]
        simp
    · rw [find?_update_of_ne (hfresh _) (hstep a) (Ne.symm h), ih, foldRow_concat_of_ne items h]
      simp [Ne.symm h]

theorem nodup_map_key_fold (hfresh : ∀ k, key (fresh k) = k)
    (hstep : ∀ a row, key (step a row) = key row) (items : List A) :
    ((fold key fresh itemKey step [] items).map key).Nodup := by
  induction items using List.reverseRecOn with
  | nil => simp [fold]
  | append_singleton items a ih =>
    rw [fold_concat, map_key_update (hfresh _) (hstep a)]
    split
    · exact ih
    · next h => exact List.nodup_append.mpr ⟨ih, by simp, by simpa using h⟩

/-- The rows of a folded table are the folds of the keys that occur. -/
theorem mem_fold_iff (hfresh : ∀ k, key (fresh k) = k)
    (hstep : ∀ a row, key (step a row) = key row) (items : List A) (row : R) :
    row ∈ fold key fresh itemKey step [] items ↔
      ∃ k ∈ items.map itemKey, row = foldRow fresh itemKey step k items := by
  have hfind : ∀ k, (fold key fresh itemKey step [] items).find? (fun row => key row = k) =
      if k ∈ items.map itemKey then some (foldRow fresh itemKey step k items) else none :=
    find?_fold hfresh hstep items
  constructor
  · intro hrow
    have hsome : ((fold key fresh itemKey step [] items).find?
        (fun r => key r = key row)).isSome := by
      exact List.find?_isSome.mpr ⟨row, hrow, by simp⟩
    rw [hfind] at hsome
    split at hsome
    · next hk =>
      refine ⟨key row, hk, ?_⟩
      have hsome' := hfind (key row)
      rw [if_pos hk] at hsome'
      have hmem := List.mem_of_find?_eq_some hsome'
      have hkey : key (foldRow fresh itemKey step (key row) items) = key row := by
        simpa using List.find?_some hsome'
      exact List.inj_on_of_nodup_map (nodup_map_key_fold hfresh hstep items) hrow hmem hkey.symm
    · simp at hsome
  · rintro ⟨k, hk, rfl⟩
    have hsome := hfind k
    rw [if_pos hk] at hsome
    exact List.mem_of_find?_eq_some hsome

end Fold

end KeyedTable
