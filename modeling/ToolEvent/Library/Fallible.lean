import Mathlib.Data.List.Basic
import Mathlib.Logic.Relation

/-!
# Fallible routines over a state

A routine changes a state and returns a value or an error; the state it reached is
kept in both cases, as when a C function returns early. Allocation requests are
answered by a list of outcomes, and succeed once the list is used up.
-/

universe u

/-- A fallible routine. An error keeps the state in which it was raised. -/
def Fallible (ε σ α : Type u) : Type u := σ → Except ε α × σ

namespace Fallible

variable {ε σ τ α β : Type u}

def andThen (x : Fallible ε σ α) (f : α → Fallible ε σ β) : Fallible ε σ β := fun s =>
  match x s with
  | (.ok a, t) => f a t
  | (.error e, t) => (.error e, t)

instance : Monad (Fallible ε σ) where
  pure a := fun s => (.ok a, s)
  bind := andThen

def read : Fallible ε σ σ := fun s => (.ok s, s)

def update (f : σ → σ) : Fallible ε σ PUnit := fun s => (.ok ⟨⟩, f s)

def fail (e : ε) : Fallible ε σ α := fun s => (.error e, s)

/-- Run a routine for every element in order, stopping at the first error. -/
def forEach {ι : Type*} (f : ι → Fallible ε σ PUnit) : List ι → Fallible ε σ PUnit
  | [] => pure ⟨⟩
  | i :: is => do
    f i
    forEach f is

@[simp] theorem run_pure (a : α) (s : σ) : (pure a : Fallible ε σ α) s = (.ok a, s) := rfl

@[simp] theorem run_read (s : σ) : (read : Fallible ε σ σ) s = (.ok s, s) := rfl

@[simp] theorem run_update (f : σ → σ) (s : σ) :
    (update f : Fallible ε σ PUnit) s = (.ok ⟨⟩, f s) := rfl

@[simp] theorem run_fail (e : ε) (s : σ) : (fail e : Fallible ε σ α) s = (.error e, s) := rfl

theorem run_bind (x : Fallible ε σ α) (f : α → Fallible ε σ β) (s : σ) :
    (x >>= f) s = match x s with
      | (.ok a, t) => f a t
      | (.error e, t) => (.error e, t) := rfl

theorem run_bind_of_ok {x : Fallible ε σ α} {f : α → Fallible ε σ β} {s t : σ} {a : α}
    (h : x s = (.ok a, t)) : (x >>= f) s = f a t := by rw [run_bind, h]

theorem run_bind_of_error {x : Fallible ε σ α} {f : α → Fallible ε σ β} {s t : σ} {e : ε}
    (h : x s = (.error e, t)) : (x >>= f) s = (.error e, t) := by rw [run_bind, h]

@[simp] theorem run_read_bind (f : σ → Fallible ε σ β) (s : σ) : (read >>= f) s = f s s := rfl

@[simp] theorem run_update_bind (g : σ → σ) (f : PUnit → Fallible ε σ β) (s : σ) :
    (update g >>= f) s = f ⟨⟩ (g s) := rfl

/-- The state a run with a known result ends in. -/
theorem exists_of_fst_eq {γ δ : Type*} {p : γ × δ} {c : γ} (h : p.1 = c) : ∃ d, p = (c, d) :=
  ⟨p.2, Prod.ext h rfl⟩

theorem run_bind_eq_ok {x : Fallible ε σ α} {f : α → Fallible ε σ β} {s u : σ} {b : β} :
    (x >>= f) s = (.ok b, u) ↔ ∃ a t, x s = (.ok a, t) ∧ f a t = (.ok b, u) := by
  rw [run_bind]
  rcases x s with ⟨⟨e⟩ | ⟨a⟩, t⟩ <;> simp

theorem forEach_map {ι κ : Type*} (f : κ → Fallible ε σ PUnit) (g : ι → κ) (is : List ι) :
    forEach f (is.map g) = forEach (fun i => f (g i)) is := by
  induction is with
  | nil => rfl
  | cons i is ih => simp only [List.map_cons, forEach, ih]

theorem forEach_congr {ι : Type*} {f g : ι → Fallible ε σ PUnit} {is : List ι}
    (h : ∀ i ∈ is, f i = g i) : forEach f is = forEach g is := by
  induction is with
  | nil => rfl
  | cons i is ih =>
    rw [forEach, forEach, h i List.mem_cons_self, ih (fun j hj => h j (List.mem_cons_of_mem _ hj))]

theorem run_forEach_append {ι : Type*} (f : ι → Fallible ε σ PUnit) (is js : List ι) (s : σ) :
    forEach f (is ++ js) s = (forEach f is >>= fun _ => forEach f js) s := by
  induction is generalizing s with
  | nil => rfl
  | cons i is ih =>
    simp only [List.cons_append, forEach, run_bind]
    rcases f i s with ⟨⟨e⟩ | ⟨⟨⟩⟩, t⟩
    · rfl
    · exact ih t

theorem forEach_append_eq_ok {ι : Type*} {f : ι → Fallible ε σ PUnit} {is js : List ι} {s u : σ} :
    forEach f (is ++ js) s = (.ok ⟨⟩, u) ↔
      ∃ t, forEach f is s = (.ok ⟨⟩, t) ∧ forEach f js t = (.ok ⟨⟩, u) := by
  induction is generalizing s with
  | nil => simp [forEach]
  | cons i is ih =>
    rw [List.cons_append, forEach, forEach, run_bind_eq_ok]
    simp only [ih, run_bind_eq_ok]
    constructor
    · rintro ⟨⟨⟩, t₁, hfirst, t₂, hrest, hjs⟩
      exact ⟨t₂, ⟨⟨⟩, t₁, hfirst, hrest⟩, hjs⟩
    · rintro ⟨t₂, ⟨⟨⟩, t₁, hfirst, hrest⟩, hjs⟩
      exact ⟨⟨⟩, t₁, hfirst, t₂, hrest, hjs⟩

/-- An invariant of the elements processed so far makes a loop succeed. -/
theorem forEach_run {ι : Type*} (f : ι → Fallible ε σ PUnit) (is : List ι)
    (I : List ι → σ → Prop) (hstep : ∀ pre i post s, is = pre ++ i :: post → I pre s →
      ∃ s', f i s = (.ok ⟨⟩, s') ∧ I (pre ++ [i]) s') {s : σ} (hs : I [] s) :
    ∃ s', forEach f is s = (.ok ⟨⟩, s') ∧ I is s' := by
  suffices h : ∀ post pre s, is = pre ++ post → I pre s →
      ∃ s', forEach f post s = (.ok ⟨⟩, s') ∧ I is s' from h is [] s rfl hs
  intro post
  induction post with
  | nil =>
    rintro pre s rfl hI
    exact ⟨s, rfl, by simpa using hI⟩
  | cons i post ih =>
    intro pre s his hI
    obtain ⟨t, hrun, ht⟩ := hstep pre i post s his hI
    obtain ⟨u, hrest, hu⟩ := ih (pre ++ [i]) t (by simpa using his) ht
    refine ⟨u, ?_, hu⟩
    change (f i >>= fun _ => forEach f post) s = _
    rw [run_bind_of_ok hrun]
    exact hrest

/-- Run in a state, the routine produces an optional abstract state: a value is
reached by success in a related state, and no value means an error. -/
def Produces (R : σ → τ → Prop) (x : Fallible ε σ PUnit) (s : σ) : Option τ → Prop
  | some t' => ∃ s', x s = (.ok ⟨⟩, s') ∧ R s' t'
  | none => ∃ e s', x s = (.error e, s')

/-- The routine computes a partial function of the abstract state. -/
def Implements (R : σ → τ → Prop) (x : Fallible ε σ PUnit) (f : τ → Option τ) : Prop :=
  ∀ s t, R s t → Produces R x s (f t)

section Implements

variable {R : σ → τ → Prop}

theorem produces_pure {s : σ} {t : τ} (h : R s t) :
    Produces R (pure ⟨⟩ : Fallible ε σ PUnit) s (some t) := ⟨s, rfl, h⟩

theorem produces_fail (e : ε) (s : σ) :
    Produces R (fail e : Fallible ε σ PUnit) s none := ⟨e, s, rfl⟩

theorem Produces.bind_of {x y : Fallible ε σ PUnit} {s : σ} {o : Option τ} {g : τ → Option τ}
    (hx : Produces R x s o) (hy : ∀ t s', o = some t → R s' t → Produces R y s' (g t)) :
    Produces R (x >>= fun _ => y) s (o.bind g) := by
  cases o with
  | none =>
    obtain ⟨e, s', he⟩ := hx
    exact ⟨e, s', run_bind_of_error he⟩
  | some t =>
    obtain ⟨s', hs, hR⟩ := hx
    have hrun : (x >>= fun _ => y) s = y s' := run_bind_of_ok hs
    simpa only [Option.bind_some, Produces, hrun] using hy t s' rfl hR

theorem Produces.bind {x y : Fallible ε σ PUnit} {s : σ} {o : Option τ} {g : τ → Option τ}
    (hx : Produces R x s o) (hy : Implements R y g) :
    Produces R (x >>= fun _ => y) s (o.bind g) := hx.bind_of fun t s' _ => hy s' t

theorem Implements.forEach {ι : Type*} {f : ι → Fallible ε σ PUnit} {g : ι → τ → Option τ}
    (h : ∀ i, Implements R (f i) (g i)) (is : List ι) :
    Implements R (forEach f is) (fun t => is.foldlM (fun t i => g i t) t) := by
  induction is with
  | nil => exact fun s t hR => produces_pure hR
  | cons i is ih => exact fun s t hR => (h i s t hR).bind ih

/-- A success of the routine is a value of the function. -/
theorem Produces.of_ok {x : Fallible ε σ PUnit} {s s' : σ} {o : Option τ}
    (h : Produces R x s o) (hx : x s = (.ok ⟨⟩, s')) : ∃ t, o = some t ∧ R s' t := by
  cases o with
  | none =>
    obtain ⟨e, u, he⟩ := h
    simp [hx] at he
  | some t =>
    obtain ⟨u, hu, hR⟩ := h
    obtain rfl : s' = u := by simpa [hx] using hu
    exact ⟨t, rfl, hR⟩

end Implements

end Fallible

/-- An invariant of the steps of a partial fold. -/
theorem foldlM_invariant {α β : Type*} (I : β → Prop) {step : β → α → Option β} {xs : List α}
    {start result : β} (h : xs.foldlM step start = some result)
    (hstep : ∀ x ∈ xs, ∀ b b', I b → step b x = some b' → I b') (hstart : I start) : I result := by
  induction xs generalizing start with
  | nil =>
    obtain rfl : start = result := by simpa using h
    exact hstart
  | cons x xs ih =>
    rw [List.foldlM_cons] at h
    obtain ⟨middle, hx, hxs⟩ := Option.bind_eq_some_iff.mp h
    exact ih hxs (fun y hy => hstep y (List.mem_cons_of_mem _ hy))
      (hstep x List.mem_cons_self _ _ hstart hx)

/-- A state together with the outcomes of the allocation requests to come. -/
structure World (σ : Type u) where
  state : σ
  outcomes : List Bool

namespace World

open Fallible

variable {ε σ : Type}

/-- One allocation request: whether it succeeded. -/
def allocate : Fallible ε (World σ) Bool := fun w =>
  match w.outcomes with
  | [] => (.ok true, w)
  | b :: bs => (.ok b, { w with outcomes := bs })

/-- Requests made one after the other whatever their outcomes: whether all succeeded. -/
def allocateAll : ℕ → Fallible ε (World σ) Bool
  | 0 => pure true
  | n + 1 => do
    let first ← allocate
    let rest ← allocateAll n
    pure (first && rest)

def readState : Fallible ε (World σ) σ := fun w => (.ok w.state, w)

def updateState (f : σ → σ) : Fallible ε (World σ) Unit := update (fun w => { w with state := f w.state })

/-- Run a routine on an object of its own and return the state the object reached. -/
def call {τ : Type} (s : τ) (x : Fallible ε (World τ) Unit) : Fallible ε (World σ) τ := fun w =>
  match x ⟨s, w.outcomes⟩ with
  | (.ok (), v) => (.ok v.state, { w with outcomes := v.outcomes })
  | (.error e, v) => (.error e, { w with outcomes := v.outcomes })

/-- Run a routine with local variables, which are gone when it returns. -/
def withLocals {τ α : Type} (locals : τ) (x : Fallible ε (World (σ × τ)) α) :
    Fallible ε (World σ) α := fun w =>
  let result := x ⟨(w.state, locals), w.outcomes⟩
  (result.1, ⟨result.2.state.1, result.2.outcomes⟩)

/-- Run a routine on the first component of a state. -/
def onFirst {τ α : Type} (x : Fallible ε (World σ) α) : Fallible ε (World (σ × τ)) α := fun w =>
  let result := x ⟨w.state.1, w.outcomes⟩
  (result.1, ⟨(result.2.state, w.state.2), result.2.outcomes⟩)

/-- Undo part of the state when the routine failed. -/
def onError {α : Type} (f : σ → σ) (x : Fallible ε (World σ) α) : Fallible ε (World σ) α := fun w =>
  match x w with
  | (.ok a, v) => (.ok a, v)
  | (.error e, v) => (.error e, { v with state := f v.state })

@[simp] theorem run_readState_bind {β : Type} (f : σ → Fallible ε (World σ) β) (w : World σ) :
    (readState >>= f) w = f w.state w := rfl

@[simp] theorem run_readState (w : World σ) :
    (readState : Fallible ε (World σ) σ) w = (.ok w.state, w) := rfl

@[simp] theorem run_updateState (f : σ → σ) (w : World σ) :
    (updateState f : Fallible ε (World σ) Unit) w = (.ok (), { w with state := f w.state }) := rfl

@[simp] theorem run_allocate_nil (s : σ) :
    (allocate : Fallible ε (World σ) Bool) ⟨s, []⟩ = (.ok true, ⟨s, []⟩) := rfl

@[simp] theorem run_allocateAll_nil (n : ℕ) (s : σ) :
    (allocateAll n : Fallible ε (World σ) Bool) ⟨s, []⟩ = (.ok true, ⟨s, []⟩) := by
  induction n with
  | zero => rfl
  | succ n ih => simp [allocateAll, run_bind, ih]

theorem run_allocate (s : σ) (outcomes : List Bool) :
    (allocate : Fallible ε (World σ) Bool) ⟨s, outcomes⟩ =
      (.ok (outcomes.headD true), ⟨s, outcomes.tail⟩) := by
  cases outcomes <;> rfl

/-- Requests that were all granted take as many outcomes. -/
theorem run_allocateAll (n : ℕ) (s : σ) (outcomes : List Bool) :
    (allocateAll n : Fallible ε (World σ) Bool) ⟨s, outcomes⟩ =
      (.ok (decide (false ∉ outcomes.take n)), ⟨s, outcomes.drop n⟩) := by
  induction n generalizing outcomes with
  | zero => simp [allocateAll]
  | succ n ih =>
    cases outcomes with
    | nil => simp [allocateAll, run_bind]
    | cons b outcomes => cases b <;> simp [allocateAll, run_bind, run_allocate, ih]

theorem onError_eq_ok {α : Type} {f : σ → σ} {x : Fallible ε (World σ) α} {w w' : World σ} {a : α} :
    onError f x w = (.ok a, w') ↔ x w = (.ok a, w') := by
  rcases h : x w with ⟨⟨e⟩ | ⟨b⟩, v⟩ <;> simp [onError, h]

/-- A routine that ends in an update fails only before it. -/
theorem eq_error_of_bind_updateState {α : Type} {x : Fallible ε (World σ) α} {f : σ → σ}
    {w w' : World σ} {e : ε} (h : (x >>= fun _ => updateState f) w = (.error e, w')) :
    x w = (.error e, w') := by
  rw [run_bind] at h
  rcases hrun : x w with ⟨⟨e'⟩ | ⟨a⟩, w₁⟩
  · simpa [hrun] using h
  · simp [hrun] at h

theorem call_eq_ok {τ : Type} {s t : τ} {x : Fallible ε (World τ) Unit} {w w' : World σ} :
    call s x w = (.ok t, w') ↔
      ∃ v, x ⟨s, w.outcomes⟩ = (.ok (), v) ∧ t = v.state ∧ w' = ⟨w.state, v.outcomes⟩ := by
  rcases h : x ⟨s, w.outcomes⟩ with ⟨⟨e⟩ | ⟨⟨⟩⟩, v⟩ <;> simp [call, h, eq_comm]

theorem withLocals_eq_ok {τ α : Type} {locals : τ} {x : Fallible ε (World (σ × τ)) α}
    {w w' : World σ} {a : α} :
    withLocals locals x w = (.ok a, w') ↔
      ∃ v, x ⟨(w.state, locals), w.outcomes⟩ = (.ok a, v) ∧ w' = ⟨v.state.1, v.outcomes⟩ := by
  constructor
  · intro h
    obtain ⟨hok, rfl⟩ := Prod.mk.inj h
    exact ⟨_, Prod.ext hok rfl, rfl⟩
  · rintro ⟨v, hrun, rfl⟩
    simp only [withLocals, hrun]

theorem onFirst_eq_ok {τ α : Type} {x : Fallible ε (World σ) α} {w w' : World (σ × τ)} {a : α} :
    onFirst x w = (.ok a, w') ↔
      ∃ v, x ⟨w.state.1, w.outcomes⟩ = (.ok a, v) ∧ w' = ⟨(v.state, w.state.2), v.outcomes⟩ := by
  constructor
  · intro h
    obtain ⟨hok, rfl⟩ := Prod.mk.inj h
    exact ⟨_, Prod.ext hok rfl, rfl⟩
  · rintro ⟨v, hrun, rfl⟩
    simp only [onFirst, hrun]

theorem produces_readState_bind {τ : Type} {R : World σ → τ → Prop}
    {f : σ → Fallible ε (World σ) Unit} {w : World σ} {o : Option τ} :
    Produces R (readState >>= f) w o ↔ Produces R (f w.state) w o := Iff.rfl

/-- Whatever its outcome, the routine makes a sequence of elementary changes of the state. -/
def Evolves {α : Type} (r : σ → σ → Prop) (x : Fallible ε (World σ) α) : Prop :=
  ∀ w, Relation.ReflTransGen r w.state (x w).2.state

section Evolves

variable {r : σ → σ → Prop} {α β : Type}

theorem evolves_pure (a : α) : Evolves r (pure a : Fallible ε (World σ) α) := fun _ => .refl

theorem evolves_fail (e : ε) : Evolves r (fail e : Fallible ε (World σ) α) := fun _ => .refl

theorem evolves_readState : Evolves r (readState : Fallible ε (World σ) σ) := fun _ => .refl

theorem evolves_allocate : Evolves r (allocate : Fallible ε (World σ) Bool) := by
  rintro ⟨s, _ | ⟨b, bs⟩⟩ <;> exact .refl

theorem reaches_updateState {f : σ → σ} {w : World σ} (h : r w.state (f w.state)) :
    Relation.ReflTransGen r w.state (updateState f w : Except ε Unit × World σ).2.state := .single h

theorem reaches_bind {x : Fallible ε (World σ) α} {f : α → Fallible ε (World σ) β} {w : World σ}
    (hx : Relation.ReflTransGen r w.state (x w).2.state)
    (hf : ∀ a w', x w = (.ok a, w') → Relation.ReflTransGen r w'.state (f a w').2.state) :
    Relation.ReflTransGen r w.state ((x >>= f) w).2.state := by
  rw [run_bind]
  rcases h : x w with ⟨⟨e⟩ | ⟨a⟩, w'⟩ <;> rw [h] at hx
  · exact hx
  · exact hx.trans (hf a w' h)

theorem Evolves.bind {x : Fallible ε (World σ) α} {f : α → Fallible ε (World σ) β}
    (hx : Evolves r x) (hf : ∀ a, Evolves r (f a)) : Evolves r (x >>= f) :=
  fun w => reaches_bind (hx w) fun a w' _ => hf a w'

theorem Evolves.ite {p : Prop} [Decidable p] {x y : Fallible ε (World σ) α} (hx : Evolves r x)
    (hy : Evolves r y) : Evolves r (if p then x else y) := by
  split
  · exact hx
  · exact hy

theorem evolves_allocateAll (n : ℕ) :
    Evolves r (allocateAll n : Fallible ε (World σ) Bool) := by
  induction n with
  | zero => exact evolves_pure _
  | succ n ih => exact evolves_allocate.bind fun _ => ih.bind fun _ => evolves_pure _

theorem evolves_forEach {ι : Type*} {f : ι → Fallible ε (World σ) Unit}
    (hf : ∀ i, Evolves r (f i)) (is : List ι) : Evolves r (forEach f is) := by
  induction is with
  | nil => exact evolves_pure _
  | cons i is ih => exact (hf i).bind fun _ => ih

theorem evolves_call {τ : Type} (s : τ) (x : Fallible ε (World τ) Unit) :
    Evolves r (call s x : Fallible ε (World σ) τ) := by
  intro w
  unfold call
  split <;> exact .refl

theorem Evolves.onError {f : σ → σ} (hf : ∀ s, Relation.ReflTransGen r s (f s))
    {x : Fallible ε (World σ) α} (hx : Evolves r x) : Evolves r (onError f x) := by
  intro w
  have h := hx w
  unfold World.onError
  split
  · next hw =>
    rw [hw] at h
    exact h
  · next hw =>
    rw [hw] at h
    exact h.trans (hf _)

/-- A routine that evolves under every relation keeps the state. -/
theorem state_eq_of_evolves {x : Fallible ε (World σ) α} (hx : ∀ r : σ → σ → Prop, Evolves r x)
    (w : World σ) : (x w).2.state = w.state := by
  have h := hx (fun _ _ => False) w
  generalize (x w).2.state = t at h
  induction h with
  | refl => rfl
  | tail _ hstep _ => exact hstep.elim

end Evolves

/-- What every elementary change keeps is kept by a sequence of them. -/
theorem invariant_of_reaches {r : σ → σ → Prop} (I : σ → Prop)
    (hI : ∀ s t, r s t → I s → I t) {s t : σ} (h : Relation.ReflTransGen r s t) (hs : I s) : I t := by
  induction h with
  | refl => exact hs
  | tail _ hstep ih => exact hI _ _ hstep ih

end World
