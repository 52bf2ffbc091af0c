import Mathlib.Data.List.Basic

/-!
# Stacks linked by indices

Several stacks share one array. An entry of the array holds a value and the index of the entry
below it, so that a stack is given by the index of its top. The array only grows, and an entry
always lies behind the one below it.
-/

namespace LinkedStacks

universe u

variable {α : Type u}

/-- Read from the given top on, the array holds these values, the top first. -/
inductive Holds (read : ℕ → Option (α × Option ℕ)) : Option ℕ → List α → Prop
  | nil : Holds read none []
  | cons {top : ℕ} {value : α} {below : Option ℕ} {values : List α} (here : read top = some (value, below))
      (earlier : ∀ i ∈ below, i < top) (rest : Holds read below values) :
      Holds read (some top) (value :: values)

variable {read read' : ℕ → Option (α × Option ℕ)} {top : Option ℕ} {values : List α}

theorem Holds.mono (hgrows : ∀ i entry, read i = some entry → read' i = some entry)
    (h : Holds read top values) : Holds read' top values := by
  induction h with
  | nil => exact .nil
  | cons here earlier _ ih => exact .cons (hgrows _ _ here) earlier ih

theorem Holds.eq_nil (h : Holds read none values) : values = [] := by
  cases h
  rfl

/-- The top entry of a stack with a top. -/
theorem Holds.exists_cons {i : ℕ} (h : Holds read (some i) values) :
    ∃ value below rest, read i = some (value, below) ∧ values = value :: rest ∧ Holds read below rest := by
  cases h with
  | cons here _ rest => exact ⟨_, _, _, here, rfl, rest⟩

/-- A stack is no higher than the part of the array up to its top. -/
theorem Holds.length_le {bound : ℕ} (h : Holds read top values) (hbound : ∀ i ∈ top, i < bound) :
    values.length ≤ bound := by
  induction h generalizing bound with
  | nil => exact Nat.zero_le bound
  | @cons top _ _ _ _ earlier _ ih =>
    have hrest := ih earlier
    have htop := hbound top rfl
    rw [List.length_cons]
    omega

theorem Holds.lt_of_read {bound : ℕ} (hread : ∀ i entry, read i = some entry → i < bound) (h : Holds read top values) :
    ∀ i ∈ top, i < bound := by
  cases h with
  | nil => exact fun i hi => absurd hi (Option.not_mem_none i)
  | cons here _ _ =>
    rintro i hi
    rw [Option.mem_some] at hi
    exact hread i _ (hi ▸ here)

/-- A value is pushed by a new entry behind all others. -/
theorem Holds.push {i : ℕ} {value : α} (h : Holds read top values)
    (hgrows : ∀ i entry, read i = some entry → read' i = some entry) (hnew : read' i = some (value, top))
    (hbound : ∀ j ∈ top, j < i) : Holds read' (some i) (value :: values) :=
  .cons hnew hbound (h.mono hgrows)

end LinkedStacks
