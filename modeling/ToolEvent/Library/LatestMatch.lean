import Mathlib.Data.List.Basic
import Mathlib.Data.List.TakeDrop
import Mathlib.Data.List.Forall2
import Mathlib.Data.List.Induction

/-!
# The latest match in a list that grows at the end

Searching backward for the last element with a property, and changing it in
place. A result is described by the split of the list at the element found.
-/

namespace LatestMatch

variable {α β : Type*}

theorem modify_append_cons (f : α → α) (pre : List α) (x : α) (post : List α) :
    (pre ++ x :: post).modify pre.length f = pre ++ f x :: post := by
  rw [List.modify_eq_take_cons_drop (by simp)]
  simp

theorem getElem?_middle (pre : List α) (x : α) (post : List α) :
    (pre ++ x :: post)[pre.length]? = some x := by simp

theorem getElem?_of_ne_middle {pre : List α} {i : ℕ} (h : i ≠ pre.length) (x y : α)
    (post : List α) : (pre ++ y :: post)[i]? = (pre ++ x :: post)[i]? := by
  rw [← modify_append_cons (fun _ => y) pre x post, List.getElem?_modify]
  simp [Ne.symm h]

/-- The index of the last element with property `p`, searching from the end. -/
def latestIndex (p : α → Bool) : List α → Option ℕ
  | [] => none
  | x :: xs =>
    match latestIndex p xs with
    | some i => some (i + 1)
    | none => if p x then some 0 else none

theorem latestIndex_eq_none_iff {p : α → Bool} {xs : List α} :
    latestIndex p xs = none ↔ ∀ x ∈ xs, p x = false := by
  induction xs with
  | nil => simp [latestIndex]
  | cons x xs ih =>
    cases h : latestIndex p xs with
    | some i => simp [latestIndex, h, ← ih]
    | none =>
      have hxs := ih.mp h
      simpa [latestIndex, h] using fun _ => hxs

/-- The list split at its last element with property `p`. -/
structure SplitAt (p : α → Bool) (xs pre : List α) (x : α) (post : List α) : Prop where
  eq : xs = pre ++ x :: post
  holds : p x = true
  later : ∀ y ∈ post, p y = false

theorem exists_split_of_latestIndex {p : α → Bool} {xs : List α} {i : ℕ}
    (h : latestIndex p xs = some i) :
    ∃ pre x post, SplitAt p xs pre x post ∧ pre.length = i := by
  induction xs generalizing i with
  | nil => simp [latestIndex] at h
  | cons x xs ih =>
    cases hxs : latestIndex p xs with
    | some j =>
      simp only [latestIndex, hxs, Option.some.injEq] at h
      obtain ⟨pre, y, post, hs, rfl⟩ := ih hxs
      exact ⟨x :: pre, y, post, ⟨by rw [hs.eq, List.cons_append], hs.holds, hs.later⟩, by simpa using h⟩
    | none =>
      simp only [latestIndex, hxs] at h
      split at h
      · next hx => exact ⟨[], x, xs, ⟨rfl, hx, latestIndex_eq_none_iff.mp hxs⟩, by simpa using h⟩
      · simp at h

theorem SplitAt.latestIndex_eq {p : α → Bool} {xs pre : List α} {x : α} {post : List α}
    (h : SplitAt p xs pre x post) : latestIndex p xs = some pre.length := by
  obtain ⟨rfl, hx, hpost⟩ := h
  have hnone : latestIndex p post = none := latestIndex_eq_none_iff.mpr hpost
  induction pre with
  | nil => simp [latestIndex, hnone, hx]
  | cons y pre ih => simp [latestIndex, ih]

theorem SplitAt.getElem? {p : α → Bool} {xs pre : List α} {x : α} {post : List α}
    (h : SplitAt p xs pre x post) : xs[pre.length]? = some x := by
  rw [h.eq]
  simp

theorem SplitAt.modify {p : α → Bool} {xs pre : List α} {x : α} {post : List α}
    (h : SplitAt p xs pre x post) (f : α → α) : xs.modify pre.length f = pre ++ f x :: post := by
  rw [h.eq, modify_append_cons]

theorem SplitAt.mem {p : α → Bool} {xs pre : List α} {x : α} {post : List α}
    (h : SplitAt p xs pre x post) : x ∈ xs := by
  rw [h.eq]
  simp

/-- A map that fixes the property keeps the split. -/
theorem SplitAt.map {p : α → Bool} {q : β → Bool} {g : α → β} {xs pre : List α} {x : α}
    {post : List α} (h : SplitAt p xs pre x post) (hg : ∀ y ∈ xs, q (g y) = p y) :
    SplitAt q (xs.map g) (pre.map g) (g x) (post.map g) := by
  have heq := h.eq
  refine ⟨by simp [heq], by rw [hg x h.mem, h.holds], ?_⟩
  intro y hy
  obtain ⟨z, hz, rfl⟩ := List.mem_map.mp hy
  rw [hg z (by simp [heq, hz]), h.later z hz]

theorem latestIndex_map {p : α → Bool} {q : β → Bool} {g : α → β} {xs : List α}
    (hg : ∀ y ∈ xs, q (g y) = p y) : latestIndex q (xs.map g) = latestIndex p xs := by
  cases h : latestIndex p xs with
  | none =>
    refine latestIndex_eq_none_iff.mpr fun y hy => ?_
    obtain ⟨z, hz, rfl⟩ := List.mem_map.mp hy
    rw [hg z hz, latestIndex_eq_none_iff.mp h z hz]
  | some i =>
    obtain ⟨pre, x, post, hs, rfl⟩ := exists_split_of_latestIndex h
    simpa using (hs.map hg).latestIndex_eq

theorem latestIndex_eq_of_forall₂ {r : α → β → Prop} {p : α → Bool} {q : β → Bool}
    (hpq : ∀ x y, r x y → p x = q y) {xs : List α} {ys : List β} (h : List.Forall₂ r xs ys) :
    latestIndex p xs = latestIndex q ys := by
  induction h with
  | nil => rfl
  | cons hxy _ ih => rw [latestIndex, latestIndex, ih, hpq _ _ hxy]

theorem forall₂_modify_at {r : α → β → Prop} {f : α → α} {g : β → β} {xs : List α} {ys : List β} {i : ℕ}
    (h : List.Forall₂ r xs ys)
    (hfg : ∀ x y, xs[i]? = some x → ys[i]? = some y → r x y → r (f x) (g y)) :
    List.Forall₂ r (xs.modify i f) (ys.modify i g) := by
  induction h generalizing i with
  | nil => simp
  | cons hxy hrest ih =>
    cases i with
    | zero => exact .cons (hfg _ _ rfl rfl hxy) hrest
    | succ i => exact .cons hxy (ih hfg)

theorem forall₂_modify {r : α → β → Prop} {f : α → α} {g : β → β}
    (hfg : ∀ x y, r x y → r (f x) (g y)) {xs : List α} {ys : List β} (h : List.Forall₂ r xs ys)
    (i : ℕ) : List.Forall₂ r (xs.modify i f) (ys.modify i g) :=
  forall₂_modify_at h fun x y _ _ => hfg x y

/-- Functions that agree on related elements have the same values along the lists. -/
theorem map_eq_of_forall₂ {γ : Type*} {r : α → β → Prop} {f : α → γ} {g : β → γ} {xs : List α} {ys : List β}
    (h : List.Forall₂ r xs ys) (hfg : ∀ x y, r x y → f x = g y) : xs.map f = ys.map g := by
  induction h with
  | nil => rfl
  | cons hxy _ ih => rw [List.map_cons, List.map_cons, hfg _ _ hxy, ih]

theorem countP_eq_of_forall₂ {r : α → β → Prop} {p : α → Bool} {q : β → Bool} {xs : List α} {ys : List β}
    (h : List.Forall₂ r xs ys) (hpq : ∀ x y, r x y → p x = q y) : xs.countP p = ys.countP q := by
  induction h with
  | nil => rfl
  | cons hxy _ ih => rw [List.countP_cons, List.countP_cons, ih, hpq _ _ hxy]

theorem exists_of_forall₂_left {r : α → β → Prop} {xs : List α} {ys : List β} (h : List.Forall₂ r xs ys) {x : α}
    (hx : x ∈ xs) : ∃ y ∈ ys, r x y := by
  induction h with
  | nil => cases hx
  | cons hxy _ ih =>
    rcases List.mem_cons.mp hx with rfl | hx
    · exact ⟨_, List.mem_cons_self, hxy⟩
    · obtain ⟨y, hy, hr⟩ := ih hx
      exact ⟨y, List.mem_cons_of_mem _ hy, hr⟩

theorem exists_getElem?_of_forall₂ {r : α → β → Prop} {xs : List α} {ys : List β} {i : ℕ} {y : β}
    (h : List.Forall₂ r xs ys) (hy : ys[i]? = some y) : ∃ x, xs[i]? = some x ∧ r x y := by
  induction h generalizing i with
  | nil => cases hy
  | cons hxy _ ih =>
    cases i with
    | zero =>
      obtain rfl := Option.some.inj hy
      exact ⟨_, rfl, hxy⟩
    | succ i => exact ih hy

/-- A filter that keeps the element keeps the split. -/
theorem SplitAt.filter {p q : α → Bool} {xs pre : List α} {x : α} {post : List α} (h : SplitAt p xs pre x post)
    (hx : q x = true) : SplitAt p (xs.filter q) (pre.filter q) x (post.filter q) := by
  refine ⟨?_, h.holds, fun y hy => h.later y (List.mem_of_mem_filter hy)⟩
  rw [h.eq, List.filter_append, List.filter_cons_of_pos hx]

/-- A filter that keeps all elements with the property keeps whether there is one. -/
theorem latestIndex_filter_eq_none_iff {p q : α → Bool} {xs : List α} (h : ∀ x ∈ xs, p x = true → q x = true) :
    latestIndex p (xs.filter q) = none ↔ latestIndex p xs = none := by
  rw [latestIndex_eq_none_iff, latestIndex_eq_none_iff]
  constructor
  · intro hnone x hx
    cases hp : p x with
    | true => exact absurd (hnone x (List.mem_filter.mpr ⟨hx, h x hx hp⟩)) (by simp [hp])
    | false => rfl
  · exact fun hnone x hx => hnone x (List.mem_of_mem_filter hx)

theorem filter_modify_hidden {p : α → Bool} {f : α → α} {xs pre : List α} {x : α} {post : List α} {q : α → Bool}
    (h : SplitAt q xs pre x post) (hx : p x = false) (hf : p (f x) = false) :
    (xs.modify pre.length f).filter p = xs.filter p := by
  rw [h.modify f, h.eq, List.filter_append, List.filter_append, List.filter_cons_of_neg (by simp [hf]),
    List.filter_cons_of_neg (by simp [hx])]

/-- The last element that is shown is the one a search from the end finds. -/
theorem getLast?_filter (p : α → Bool) (xs : List α) :
    (xs.filter p).getLast? = (latestIndex p xs).bind (fun i => xs[i]?) := by
  cases hfound : latestIndex p xs with
  | none =>
    have hnone : xs.filter p = [] :=
      List.filter_eq_nil_iff.mpr fun x hx => by simp [latestIndex_eq_none_iff.mp hfound x hx]
    rw [hnone]
    rfl
  | some i =>
    obtain ⟨pre, x, post, hs, rfl⟩ := exists_split_of_latestIndex hfound
    have hpost : post.filter p = [] := List.filter_eq_nil_iff.mpr fun y hy => by simp [hs.later y hy]
    rw [Option.bind_some, hs.getElem?, hs.eq, List.filter_append, List.filter_cons_of_pos hs.holds, hpost,
      List.getLast?_concat]

section Erase

variable [DecidableEq β]

def eraseLatest (y : β) (ys : List β) : List β := (ys.reverse.erase y).reverse

theorem eraseLatest_of_not_mem {y : β} {ys : List β} (h : y ∉ ys) : eraseLatest y ys = ys := by
  rw [eraseLatest, List.erase_of_not_mem (by simpa using h), List.reverse_reverse]

theorem eraseLatest_append_cons {y : β} {post : List β} (h : y ∉ post) (pre : List β) :
    eraseLatest y (pre ++ y :: post) = pre ++ post := by
  have hpost : y ∉ post.reverse := by simpa using h
  rw [eraseLatest, List.reverse_append, List.reverse_cons, List.append_assoc, List.erase_append_right _ hpost,
    List.singleton_append, List.erase_cons_head, List.reverse_append, List.reverse_reverse, List.reverse_reverse]

/-- Hiding the latest element shown with a name removes the last occurrence of the name. -/
theorem map_filter_modify {p : α → Bool} {name : α → β} {f : α → α} {y : β} {xs pre : List α} {x : α}
    {post : List α} (h : SplitAt (fun z => p z ∧ name z = y) xs pre x post) (hf : p (f x) = false) :
    ((xs.modify pre.length f).filter p).map name = eraseLatest y ((xs.filter p).map name) := by
  obtain ⟨hshown, hname⟩ := of_decide_eq_true h.holds
  have hlater : y ∉ (post.filter p).map name := by
    intro hmem
    obtain ⟨z, hz, hzname⟩ := List.mem_map.mp hmem
    obtain ⟨hpost, hp⟩ := List.mem_filter.mp hz
    exact of_decide_eq_false (h.later z hpost) ⟨hp, hzname⟩
  rw [h.modify f, h.eq, List.filter_append, List.filter_append, List.filter_cons_of_neg (by simp [hf]),
    List.filter_cons_of_pos hshown, List.map_append, List.map_append, List.map_cons, hname,
    eraseLatest_append_cons hlater]

theorem eraseLatest_of_latestIndex {p : α → Bool} {name : α → β} {y : β} {xs : List α}
    (h : latestIndex (fun z => p z ∧ name z = y) xs = none) :
    eraseLatest y ((xs.filter p).map name) = (xs.filter p).map name := by
  apply eraseLatest_of_not_mem
  intro hmem
  obtain ⟨z, hz, hname⟩ := List.mem_map.mp hmem
  obtain ⟨hxs, hp⟩ := List.mem_filter.mp hz
  exact of_decide_eq_false (latestIndex_eq_none_iff.mp h z hxs) ⟨hp, hname⟩

end Erase

theorem latestIndex_concat (p : α → Bool) (xs : List α) (x : α) :
    latestIndex p (xs ++ [x]) = if p x then some xs.length else latestIndex p xs := by
  induction xs with
  | nil => simp [latestIndex]
  | cons y xs ih =>
    rw [List.cons_append, latestIndex, ih]
    cases hx : p x with
    | true => rfl
    | false => rfl

theorem latestIndex_eq_some_iff {p : α → Bool} {xs : List α} {i : ℕ} :
    latestIndex p xs = some i ↔
      (∃ x, xs[i]? = some x ∧ p x = true) ∧ ∀ j y, i < j → xs[j]? = some y → p y = false := by
  constructor
  · intro h
    obtain ⟨pre, x, post, hsplit, rfl⟩ := exists_split_of_latestIndex h
    refine ⟨⟨x, hsplit.getElem?, hsplit.holds⟩, fun j y hj hy => ?_⟩
    rw [hsplit.eq, List.getElem?_append_right (Nat.le_of_lt hj)] at hy
    obtain ⟨k, hk⟩ : ∃ k, j - pre.length = k + 1 := ⟨j - pre.length - 1, by omega⟩
    rw [hk, List.getElem?_cons_succ] at hy
    exact hsplit.later y (List.mem_of_getElem? hy)
  · rintro ⟨⟨x, hx, hp⟩, hlater⟩
    obtain ⟨hi, rfl⟩ := List.getElem?_eq_some_iff.mp hx
    have hsplit : SplitAt p xs (xs.take i) xs[i] (xs.drop (i + 1)) := by
      refine ⟨?_, hp, fun y hy => ?_⟩
      · rw [← List.drop_eq_getElem_cons hi, List.take_append_drop]
      · obtain ⟨k, hk⟩ := List.mem_iff_getElem?.mp hy
        rw [List.getElem?_drop] at hk
        exact hlater _ y (by omega) hk
    rw [hsplit.latestIndex_eq, List.length_take_of_le (Nat.le_of_lt hi)]

/-- A search for the latest match finds the first of the matches in a list of them that begins with
the last. -/
theorem latestIndex_eq_head? {p : α → Bool} {xs : List α} {matching : List ℕ}
    (hsorted : matching.Pairwise (fun i j => j < i)) (hmem : ∀ i, i ∈ matching ↔ ∃ x, xs[i]? = some x ∧ p x = true) :
    latestIndex p xs = matching.head? := by
  cases matching with
  | nil =>
    rw [List.head?_nil, latestIndex_eq_none_iff]
    intro x hx
    obtain ⟨i, hi⟩ := List.mem_iff_getElem?.mp hx
    apply eq_false_of_ne_true
    exact fun hp => absurd ((hmem i).mpr ⟨x, hi, hp⟩) List.not_mem_nil
  | cons i matching =>
    rw [List.head?_cons, latestIndex_eq_some_iff]
    refine ⟨(hmem i).mp List.mem_cons_self, fun j y hj hy => ?_⟩
    apply eq_false_of_ne_true
    intro hp
    rcases List.mem_cons.mp ((hmem j).mpr ⟨y, hy, hp⟩) with rfl | hrest
    · exact Nat.lt_irrefl _ hj
    · exact Nat.lt_asymm hj (List.rel_of_pairwise_cons hsorted hrest)

/-- A search for the largest of the numbers of the matches finds the latest match, when the numbers
of the matches increase. -/
theorem foldl_largest {p : α → Bool} {number : α → ℕ} {numberAt : ℕ → ℕ} (xs : List α)
    (hat : ∀ i x, xs[i]? = some x → numberAt i = number x)
    (hsorted : xs.Pairwise (fun x y => p x = true → p y = true → number x < number y)) :
    xs.zipIdx.foldl (fun best x => if p x.1 = true ∧ (∀ index ∈ best, numberAt index < number x.1) then some x.2
      else best) none = latestIndex p xs := by
  induction xs using List.reverseRecOn with
  | nil => rfl
  | append_singleton xs x ih =>
    obtain ⟨hbefore, -, hlast⟩ := List.pairwise_append.mp hsorted
    have hgrow : ∀ i y, xs[i]? = some y → (xs ++ [x])[i]? = some y := fun i y hy => by
      rw [List.getElem?_append_left (List.getElem?_eq_some_iff.mp hy).1, hy]
    rw [List.zipIdx_append, List.foldl_append, ih (fun i y hy => hat i y (hgrow i y hy)) hbefore, latestIndex_concat]
    change (if p x = true ∧ _ then some (0 + xs.length) else _) = _
    rw [Nat.zero_add]
    cases hp : p x with
    | false => simp
    | true =>
      apply if_pos
      refine ⟨rfl, fun index hindex => ?_⟩
      obtain ⟨⟨y, hy, hpy⟩, -⟩ := latestIndex_eq_some_iff.mp hindex
      rw [hat index y (hgrow index y hy)]
      exact hlast y (List.mem_of_getElem? hy) x List.mem_cons_self hpy hp

/-- The indices of the elements with property `p`, the last one first. -/
def latestFirst (p : α → Bool) (xs : List α) : List ℕ :=
  (List.range xs.length).reverse.filter (fun i => xs[i]?.any p)

theorem mem_latestFirst {p : α → Bool} {xs : List α} {i : ℕ} :
    i ∈ latestFirst p xs ↔ ∃ x, xs[i]? = some x ∧ p x = true := by
  rw [latestFirst, List.mem_filter, List.mem_reverse, List.mem_range, Option.any_eq_true]
  constructor
  · rintro ⟨-, x, hx, hp⟩
    exact ⟨x, hx, hp⟩
  · rintro ⟨x, hx, hp⟩
    exact ⟨(List.getElem?_eq_some_iff.mp hx).1, x, hx, hp⟩

theorem pairwise_latestFirst (p : α → Bool) (xs : List α) : (latestFirst p xs).Pairwise (fun i j => j < i) := by
  apply List.Pairwise.filter
  rw [List.pairwise_reverse]
  exact List.pairwise_lt_range

theorem latestIndex_eq_head?_latestFirst (p : α → Bool) (xs : List α) :
    latestIndex p xs = (latestFirst p xs).head? :=
  latestIndex_eq_head? (pairwise_latestFirst p xs) (fun _ => mem_latestFirst)

/-- Changing the last match into an element without the property leaves the matches before it. -/
theorem latestFirst_modify {p : α → Bool} {f : α → α} {xs : List α} {i : ℕ} {rest : List ℕ}
    (h : latestFirst p xs = i :: rest) (hf : ∀ x, p (f x) = false) : latestFirst p (xs.modify i f) = rest := by
  have hsorted : (i :: rest).Pairwise (fun i j => j < i) := h ▸ pairwise_latestFirst p xs
  have hbefore : ∀ j ∈ rest, j < i := fun j hj => List.rel_of_pairwise_cons hsorted hj
  have hkept : ∀ j, (xs.modify i f)[j]?.any p = (decide (j ≠ i) && xs[j]?.any p) := by
    intro j
    rw [List.getElem?_modify]
    by_cases hj : i = j
    · cases xs[j]? <;> simp [hj, hf]
    · simp [hj, Ne.symm hj]
  have hfilter : latestFirst p (xs.modify i f) = (latestFirst p xs).filter (fun j => j ≠ i) := by
    rw [latestFirst, latestFirst, List.filter_filter, List.length_modify]
    apply List.filter_congr
    exact fun j _ => hkept j
  rw [hfilter, h, List.filter_cons_of_neg (by simp)]
  apply List.filter_eq_self.mpr
  exact fun j hj => by simpa using Nat.ne_of_lt (hbefore j hj)

end LatestMatch
