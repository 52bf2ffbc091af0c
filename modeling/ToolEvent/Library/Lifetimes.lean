import ToolEvent.Library.LatestMatch
import Mathlib.Data.List.Induction
import Mathlib.Data.List.Nodup
import Mathlib.Order.Basic

/-!
# Lifetimes in a list of events

An event may close the latest open lifetime of a key and then open one itself. Such a
replay is compared with a search that takes, for each event that begins a lifetime, the
first later event that ends it.
-/

namespace Lifetimes

open LatestMatch

variable {E K : Type*}

/-- The key whose latest open lifetime an event closes, and the key it opens one of. -/
structure Effects (E K : Type*) where
  closes : E → Option K
  opens : E → Option K

namespace Effects

def closesAt (fx : Effects E K) (events : List E) (index : ℕ) : Option K := events[index]?.bind fx.closes

def opensAt (fx : Effects E K) (events : List E) (index : ℕ) : Option K := events[index]?.bind fx.opens

theorem closesAt_lt {fx : Effects E K} {events : List E} {j : ℕ} {k : K}
    (h : fx.closesAt events j = some k) : j < events.length := by
  obtain ⟨e, he, -⟩ := Option.bind_eq_some_iff.mp h
  exact (List.getElem?_eq_some_iff.mp he).1

theorem opensAt_lt {fx : Effects E K} {events : List E} {i : ℕ} {k : K}
    (h : fx.opensAt events i = some k) : i < events.length := by
  obtain ⟨e, he, -⟩ := Option.bind_eq_some_iff.mp h
  exact (List.getElem?_eq_some_iff.mp he).1

theorem closesAt_take {fx : Effects E K} {events : List E} {j l : ℕ} (h : l < j) :
    fx.closesAt (events.take j) l = fx.closesAt events l := by
  rw [closesAt, closesAt, List.getElem?_take_of_lt h]

theorem opensAt_take {fx : Effects E K} {events : List E} {i j : ℕ} {k : K} :
    fx.opensAt (events.take j) i = some k ↔ i < j ∧ fx.opensAt events i = some k := by
  by_cases h : i < j
  · simp [opensAt, List.getElem?_take_of_lt h, h]
  · rw [opensAt, List.getElem?_take_eq_none (Nat.le_of_not_lt h)]
    exact iff_of_false (Option.some_ne_none k).symm fun hopens => h hopens.1

end Effects

/-- A lifetime, with the indices of the events that opened and closed it. -/
structure Lifetime (K : Type*) where
  key : K
  opener : ℕ
  closer : Option ℕ := none

variable [DecidableEq K]

def Lifetime.isOpen (key : K) (lifetime : Lifetime K) : Bool :=
  lifetime.key = key ∧ lifetime.closer = none

def Lifetime.closeAt (index : ℕ) (lifetime : Lifetime K) : Lifetime K :=
  { lifetime with closer := some index }

def close (index : ℕ) (key : K) (lifetimes : List (Lifetime K)) : List (Lifetime K) :=
  match latestIndex (Lifetime.isOpen key) lifetimes with
  | some i => lifetimes.modify i (Lifetime.closeAt index)
  | none => lifetimes

def latestOpen (key : K) (lifetimes : List (Lifetime K)) : Option ℕ :=
  (latestIndex (Lifetime.isOpen key) lifetimes).bind (fun i => lifetimes[i]?.map Lifetime.opener)

namespace Effects

variable (fx : Effects E K)

def step (lifetimes : List (Lifetime K)) (index : ℕ) (e : E) : List (Lifetime K) :=
  let lifetimes := (fx.closes e).elim lifetimes (fun key => close index key lifetimes)
  (fx.opens e).elim lifetimes (fun key => lifetimes ++ [{ key := key, opener := index }])

def run (events : List E) : List (Lifetime K) :=
  events.zipIdx.foldl (fun lifetimes e => fx.step lifetimes e.2 e.1) []

theorem run_concat (events : List E) (e : E) :
    fx.run (events ++ [e]) = fx.step (fx.run events) events.length e := by
  simp [run, List.zipIdx_append, List.foldl_append]

/-- The event `i` opened a lifetime that the event `j` closed. -/
def Closed (events : List E) (i j : ℕ) : Prop :=
  ∃ lifetime ∈ fx.run events, lifetime.opener = i ∧ lifetime.closer = some j

end Effects

theorem latestOpen_eq_some {key : K} {lifetimes : List (Lifetime K)} {i : ℕ} :
    latestOpen key lifetimes = some i ↔
      ∃ pre x post, SplitAt (Lifetime.isOpen key) lifetimes pre x post ∧ x.opener = i := by
  unfold latestOpen
  constructor
  · intro h
    obtain ⟨n, hn, hi⟩ := Option.bind_eq_some_iff.mp h
    obtain ⟨pre, x, post, hsplit, rfl⟩ := exists_split_of_latestIndex hn
    rw [hsplit.getElem?] at hi
    exact ⟨pre, x, post, hsplit, Option.some.inj hi⟩
  · rintro ⟨pre, x, post, hsplit, rfl⟩
    rw [hsplit.latestIndex_eq, Option.bind_some, hsplit.getElem?]
    rfl

/-- Closing changes the closer of the latest open lifetime only. -/
theorem close_cases (index : ℕ) (key : K) (lifetimes : List (Lifetime K)) :
    (close index key lifetimes = lifetimes ∧ latestOpen key lifetimes = none) ∨
      ∃ pre x post, SplitAt (Lifetime.isOpen key) lifetimes pre x post ∧
        close index key lifetimes = pre ++ x.closeAt index :: post := by
  unfold close latestOpen
  cases h : latestIndex (Lifetime.isOpen key) lifetimes with
  | none => exact .inl ⟨rfl, rfl⟩
  | some n =>
    obtain ⟨pre, x, post, hsplit, rfl⟩ := exists_split_of_latestIndex h
    exact .inr ⟨pre, x, post, hsplit, hsplit.modify _⟩

theorem map_opener_close (index : ℕ) (key : K) (lifetimes : List (Lifetime K)) :
    (close index key lifetimes).map (fun x => (x.opener, x.key)) =
      lifetimes.map (fun x => (x.opener, x.key)) := by
  rcases close_cases index key lifetimes with ⟨h, -⟩ | ⟨pre, x, post, hsplit, h⟩
  · rw [h]
  · rw [h, hsplit.eq]
    simp [Lifetime.closeAt]

/-- The pairs of openers and closers after closing. -/
theorem mem_close {index : ℕ} {key : K} {lifetimes : List (Lifetime K)} {i j : ℕ} :
    (∃ x ∈ close index key lifetimes, x.opener = i ∧ x.closer = some j) ↔
      (∃ x ∈ lifetimes, x.opener = i ∧ x.closer = some j) ∨
        (j = index ∧ latestOpen key lifetimes = some i) := by
  rcases close_cases index key lifetimes with ⟨h, hnone⟩ | ⟨pre, x, post, hsplit, h⟩
  · rw [h, hnone]
    simp
  · have hlatest : latestOpen key lifetimes = some x.opener :=
      latestOpen_eq_some.mpr ⟨pre, x, post, hsplit, rfl⟩
    have hopen : x.closer = none := by
      have hholds := hsplit.holds
      simp only [Lifetime.isOpen, decide_eq_true_eq] at hholds
      exact hholds.2
    rw [h, hlatest, hsplit.eq]
    simp only [List.mem_append, List.mem_cons, Lifetime.closeAt]
    constructor
    · rintro ⟨y, hy | rfl | hy, hi, hj⟩
      · exact .inl ⟨y, .inl hy, hi, hj⟩
      · exact .inr ⟨(Option.some.inj hj).symm, congrArg some hi⟩
      · exact .inl ⟨y, .inr (.inr hy), hi, hj⟩
    · rintro (⟨y, hy | rfl | hy, hi, hj⟩ | ⟨rfl, hi⟩)
      · exact ⟨y, .inl hy, hi, hj⟩
      · rw [hopen] at hj
        cases hj
      · exact ⟨y, .inr (.inr hy), hi, hj⟩
      · exact ⟨_, .inr (.inl rfl), Option.some.inj hi, rfl⟩

namespace Effects

variable {fx : Effects E K} {events : List E}

theorem closed_concat (e : E) {i j : ℕ} :
    fx.Closed (events ++ [e]) i j ↔ fx.Closed events i j ∨
      (j = events.length ∧ ∃ k, fx.closes e = some k ∧ latestOpen k (fx.run events) = some i) := by
  unfold Closed
  rw [run_concat, step]
  have hopens : ∀ lifetimes : List (Lifetime K),
      (∃ x ∈ (fx.opens e).elim lifetimes (fun key => lifetimes ++ [{ key := key, opener := events.length }]),
        x.opener = i ∧ x.closer = some j) ↔ ∃ x ∈ lifetimes, x.opener = i ∧ x.closer = some j := by
    intro lifetimes
    cases fx.opens e with
    | none => exact Iff.rfl
    | some key =>
      constructor
      · rintro ⟨x, hx, hi, hj⟩
        rcases List.mem_append.mp hx with hx | hx
        · exact ⟨x, hx, hi, hj⟩
        · rw [List.mem_singleton.mp hx] at hj
          cases hj
      · rintro ⟨x, hx, hij⟩
        exact ⟨x, List.mem_append_left _ hx, hij⟩
  rw [hopens]
  cases hcloses : fx.closes e with
  | none => simp
  | some k =>
    rw [Option.elim_some, mem_close]
    simp

/-- An event closes the lifetime that was the latest open one of its key. -/
theorem closed_iff {i j : ℕ} :
    fx.Closed events i j ↔
      ∃ k, fx.closesAt events j = some k ∧ latestOpen k (fx.run (events.take j)) = some i := by
  induction events using List.reverseRecOn with
  | nil => simp [Closed, run, closesAt]
  | append_singleton events e ih =>
    rw [closed_concat, ih]
    rcases Nat.lt_trichotomy j events.length with hlt | rfl | hgt
    · have hat : fx.closesAt (events ++ [e]) j = fx.closesAt events j := by
        rw [closesAt, closesAt, List.getElem?_append_left hlt]
      rw [hat, List.take_append_of_le_length (Nat.le_of_lt hlt)]
      constructor
      · rintro (h | ⟨rfl, -⟩)
        · exact h
        · exact absurd hlt (Nat.lt_irrefl _)
      · exact .inl
    · have hat : fx.closesAt (events ++ [e]) events.length = fx.closes e := by
        simp [closesAt]
      rw [hat, List.take_left']
      constructor
      · rintro (⟨k, hk, -⟩ | ⟨-, h⟩)
        · exact absurd (closesAt_lt hk) (Nat.lt_irrefl _)
        · exact h
      · exact fun h => .inr ⟨rfl, h⟩
      · rfl
    · constructor
      · rintro (⟨k, hk, -⟩ | ⟨rfl, -⟩)
        · exact absurd (closesAt_lt hk) (Nat.not_lt_of_gt hgt)
        · exact absurd hgt (Nat.lt_irrefl _)
      · rintro ⟨k, hk, -⟩
        have hlt := closesAt_lt hk
        rw [List.length_append, List.length_singleton] at hlt
        omega

/-- The lifetimes are those of the events that open one, in order. -/
theorem map_run (events : List E) :
    (fx.run events).map (fun x => (x.opener, x.key)) =
      events.zipIdx.filterMap (fun e => (fx.opens e.1).map (fun key => (e.2, key))) := by
  induction events using List.reverseRecOn with
  | nil => rfl
  | append_singleton events e ih =>
    rw [run_concat, step, List.zipIdx_append, List.filterMap_append, ← ih]
    have hclose : ((fx.closes e).elim (fx.run events) (fun key => close events.length key
        (fx.run events))).map (fun x => (x.opener, x.key)) =
          (fx.run events).map (fun x => (x.opener, x.key)) := by
      cases fx.closes e with
      | none => rfl
      | some k => exact map_opener_close _ _ _
    cases hopens : fx.opens e with
    | none => simp [hclose, hopens]
    | some k => simp [hclose, hopens]

theorem length_run_le (events : List E) : (fx.run events).length ≤ events.length := by
  rw [← List.length_map (fun x : Lifetime K => (x.opener, x.key)), map_run]
  refine Nat.le_trans (List.length_filterMap_le _ _) ?_
  exact Nat.le_of_eq List.length_zipIdx

theorem exists_mem_run {i : ℕ} {k : K} :
    (∃ x ∈ fx.run events, x.opener = i ∧ x.key = k) ↔ fx.opensAt events i = some k := by
  have hmap : (∃ x ∈ fx.run events, x.opener = i ∧ x.key = k) ↔
      (i, k) ∈ (fx.run events).map (fun x => (x.opener, x.key)) := by
    simp [List.mem_map, Prod.ext_iff]
  rw [hmap, map_run, List.mem_filterMap, opensAt]
  constructor
  · rintro ⟨⟨e, n⟩, hmem, hpair⟩
    obtain ⟨key, hkey, hpair⟩ := Option.map_eq_some_iff.mp hpair
    obtain ⟨rfl, rfl⟩ := Prod.mk.inj hpair
    rw [List.mem_zipIdx_iff_getElem?] at hmem
    rw [hmem]
    exact hkey
  · intro h
    obtain ⟨e, he, hk⟩ := Option.bind_eq_some_iff.mp h
    exact ⟨(e, i), List.mem_zipIdx_iff_getElem?.mpr he, by rw [hk]; rfl⟩

theorem pairwise_opener : (fx.run events).Pairwise (fun x y => x.opener < y.opener) := by
  have hmap : ((fx.run events).map (fun x => (x.opener, x.key))).Pairwise (fun x y => x.1 < y.1) := by
    rw [map_run, List.pairwise_filterMap]
    have hindex : events.zipIdx.Pairwise (fun x y => x.2 < y.2) := by
      have hsnd : (events.zipIdx.map Prod.snd).Pairwise (· < ·) := by
        rw [List.zipIdx_map_snd]
        exact List.pairwise_lt_range'
      exact List.pairwise_map.mp hsnd
    apply hindex.imp
    intro x y hxy p hp q hq
    obtain ⟨k, -, rfl⟩ := Option.map_eq_some_iff.mp hp
    obtain ⟨l, -, rfl⟩ := Option.map_eq_some_iff.mp hq
    exact hxy
  rw [List.pairwise_map] at hmap
  exact hmap

theorem eq_of_opener_eq {x y : Lifetime K} (hx : x ∈ fx.run events) (hy : y ∈ fx.run events)
    (h : x.opener = y.opener) : x = y := by
  have hnodup : ((fx.run events).map Lifetime.opener).Nodup := by
    rw [List.Nodup, List.pairwise_map]
    exact pairwise_opener.imp Nat.ne_of_lt
  exact List.inj_on_of_nodup_map hnodup hx hy h

theorem closed_take {i j l : ℕ} (h : l < j) : fx.Closed (events.take j) i l ↔ fx.Closed events i l := by
  rw [closed_iff, closed_iff, closesAt_take h, List.take_take, Nat.min_eq_left (Nat.le_of_lt h)]

/-- The latest open lifetime of a key was opened by an event of the key and not closed. -/
theorem of_latestOpen {i j : ℕ} {k : K} (h : latestOpen k (fx.run (events.take j)) = some i) :
    i < j ∧ fx.opensAt events i = some k ∧ ∀ l < j, ¬ fx.Closed events i l := by
  obtain ⟨pre, x, post, hsplit, rfl⟩ := latestOpen_eq_some.mp h
  have hopen := hsplit.holds
  simp only [Lifetime.isOpen, decide_eq_true_eq] at hopen
  obtain ⟨hlt, hopens⟩ := opensAt_take.mp (exists_mem_run.mp ⟨x, hsplit.mem, rfl, hopen.1⟩)
  refine ⟨hlt, hopens, fun l hl hclosed => ?_⟩
  obtain ⟨y, hy, hopener, hcloser⟩ := (closed_take hl).mpr hclosed
  obtain rfl := eq_of_opener_eq hy hsplit.mem hopener
  rw [hopen.2] at hcloser
  cases hcloser

/-- A lifetime that was opened and not closed is not later than the latest open one of its key. -/
theorem exists_latestOpen {i j : ℕ} {k : K} (hij : i < j) (hopens : fx.opensAt events i = some k)
    (hopen : ∀ l < j, ¬ fx.Closed events i l) :
    ∃ l, latestOpen k (fx.run (events.take j)) = some l ∧ i ≤ l := by
  obtain ⟨x, hx, rfl, rfl⟩ := exists_mem_run.mpr (opensAt_take.mpr ⟨hij, hopens⟩)
  have hxopen : x.isOpen x.key = true := by
    rw [Lifetime.isOpen, decide_eq_true_eq]
    refine ⟨rfl, Option.eq_none_iff_forall_ne_some.mpr fun l hl => ?_⟩
    have hclosed : fx.Closed (events.take j) x.opener l := ⟨x, hx, rfl, hl⟩
    obtain ⟨k, hk, -⟩ := closed_iff.mp hclosed
    have hlt : l < j := Nat.lt_of_lt_of_le (closesAt_lt hk) (List.length_take_le j events)
    exact hopen l hlt ((closed_take hlt).mp hclosed)
  cases hlatest : latestIndex (Lifetime.isOpen x.key) (fx.run (events.take j)) with
  | none =>
    rw [latestIndex_eq_none_iff.mp hlatest x hx] at hxopen
    cases hxopen
  | some n =>
    obtain ⟨pre, y, post, hsplit, -⟩ := exists_split_of_latestIndex hlatest
    refine ⟨y.opener, latestOpen_eq_some.mpr ⟨pre, y, post, hsplit, rfl⟩, ?_⟩
    have horder : (fx.run (events.take j)).Pairwise (fun x y => x.opener < y.opener) := pairwise_opener
    rw [hsplit.eq] at horder hx
    rcases List.mem_append.mp hx with hx | hx
    · exact Nat.le_of_lt ((List.pairwise_append.mp horder).2.2 x hx y List.mem_cons_self)
    · rcases List.mem_cons.mp hx with rfl | hx
      · exact Nat.le_refl _
      · rw [hsplit.later x hx] at hxopen
        cases hxopen

def Unclosed (fx : Effects E K) (events : List E) (i : ℕ) (k : K) : Prop :=
  fx.opensAt events i = some k ∧ ∀ j, ¬ fx.Closed events i j

theorem unclosed_iff {i : ℕ} {k : K} :
    fx.Unclosed events i k ↔ ∃ x ∈ fx.run events, x.opener = i ∧ x.key = k ∧ x.closer = none := by
  unfold Unclosed
  rw [← exists_mem_run]
  constructor
  · rintro ⟨⟨x, hx, rfl, rfl⟩, hopen⟩
    exact ⟨x, hx, rfl, rfl, Option.eq_none_iff_forall_ne_some.mpr fun j hj => hopen j ⟨x, hx, rfl, hj⟩⟩
  · rintro ⟨x, hx, rfl, rfl, hopen⟩
    refine ⟨⟨x, hx, rfl, rfl⟩, fun j => ?_⟩
    rintro ⟨y, hy, hopener, hcloser⟩
    obtain rfl := eq_of_opener_eq hy hx hopener
    rw [hopen] at hcloser
    cases hcloser

end Effects

section Shown

variable {α : Type*} {shows : Lifetime K → α → Prop}

/-- Closing the latest open lifetime changes the latest element that shows an open one. -/
theorem forall₂_close {p : α → Bool} {f : α → α} {index : ℕ} {key : K}
    (hopen : ∀ x a, shows x a → x.isOpen key = p a) (hclose : ∀ x a, shows x a → shows (x.closeAt index) (f a))
    {lifetimes : List (Lifetime K)} {items : List α} (h : List.Forall₂ shows lifetimes items) :
    List.Forall₂ shows (close index key lifetimes) ((latestIndex p items).elim items (items.modify · f)) := by
  unfold close
  rw [latestIndex_eq_of_forall₂ hopen h]
  cases latestIndex p items with
  | none => exact h
  | some i => exact forall₂_modify hclose h i

end Shown

/-- The two tests of the search: whether an event begins a lifetime, and whether a later one
ends it. -/
structure Search (E : Type*) where
  begins : E → Bool
  ends : E → E → Bool

/-- The search is about the lifetimes of the replay. -/
structure Search.Covers (search : Search E) (fx : Effects E K) : Prop where
  begins_of_opens : ∀ b, fx.opens b ≠ none → search.begins b
  same_key : ∀ b d k l, fx.opens b = some k → search.ends b d → fx.closes d = some l → l = k
  same_ends : ∀ b c d e, search.ends b d → search.ends c d → search.ends b e = search.ends c e

namespace Search

variable (search : Search E)

/-- The event `j` is the first one after `i` that ends the lifetime `i` begins. -/
structure FirstEnd (events : List E) (i j : ℕ) (b d : E) : Prop where
  lt : i < j
  beginning : events[i]? = some b
  ending : events[j]? = some d
  begins : search.begins b = true
  ends : search.ends b d = true
  first : ∀ l e, i < l → l < j → events[l]? = some e → search.ends b e = false

/-- The search finds the event `j` for `i`. -/
def Finds (events : List E) (i j : ℕ) : Prop := ∃ b d, search.FirstEnd events i j b d

/-- The events are regular: what begins a lifetime opens one if it is ended at all, what ends
one first closes one and ends no other one opened since, and what closes a lifetime ends it. -/
structure Regular (fx : Effects E K) (events : List E) : Prop where
  opened : ∀ (i j : ℕ) (b d : E), i < j → events[i]? = some b → events[j]? = some d → search.begins b = true →
    search.ends b d = true → fx.opens b ≠ none
  closing : ∀ i j b d, search.FirstEnd events i j b d → fx.opens b ≠ none → fx.closes d ≠ none
  single : ∀ i j b d, search.FirstEnd events i j b d → fx.opens b ≠ none → ∀ (l : ℕ) (c : E),
    i < l → l < j → events[l]? = some c → fx.opens c ≠ none → search.ends c d = false
  own : ∀ (i j : ℕ) (b d : E) (k : K), events[i]? = some b → events[j]? = some d → fx.closes d = some k →
    latestOpen k (fx.run (events.take j)) = some i → search.ends b d = true

variable {search} {fx : Effects E K} {events : List E}

/-- Of the events that end a lifetime, one is the first. -/
theorem exists_firstEnd {i j : ℕ} {b d : E} (hij : i < j) (hb : events[i]? = some b)
    (hd : events[j]? = some d) (hbegins : search.begins b = true) (hends : search.ends b d = true) :
    ∃ l e, l ≤ j ∧ search.FirstEnd events i l b e := by
  induction j using Nat.strongRecOn generalizing d with
  | ind j ih =>
    by_cases hfirst : ∀ l e, i < l → l < j → events[l]? = some e → search.ends b e = false
    · exact ⟨j, d, Nat.le_refl j, hij, hb, hd, hbegins, hends, hfirst⟩
    · push Not at hfirst
      obtain ⟨l, e, hil, hlj, he, hle⟩ := hfirst
      obtain ⟨m, f, hml, hm⟩ := ih l hlj hil he (by simpa using hle)
      exact ⟨m, f, Nat.le_trans hml (Nat.le_of_lt hlj), hm⟩

/-- The first end of a lifetime is its only one. -/
theorem FirstEnd.unique {i j l : ℕ} {b d c e : E} (h : search.FirstEnd events i j b d)
    (h' : search.FirstEnd events i l c e) : j = l := by
  have hbc : b = c := Option.some.inj (h.beginning.symm.trans h'.beginning)
  subst hbc
  rcases Nat.lt_trichotomy j l with hlt | rfl | hlt
  · have hfalse := h'.first j d h.lt hlt h.ending
    rw [h.ends] at hfalse
    cases hfalse
  · rfl
  · have hfalse := h.first l e h'.lt hlt h'.ending
    rw [h'.ends] at hfalse
    cases hfalse

/-- What closes a lifetime closes the latest open one of its key. -/
theorem closed_iff_latestOpen {i j : ℕ} {d : E} (hd : events[j]? = some d) :
    fx.Closed events i j ↔
      ∃ k, fx.closes d = some k ∧ latestOpen k (fx.run (events.take j)) = some i := by
  rw [Effects.closed_iff, Effects.closesAt, hd]
  rfl

theorem Regular.closed_of_firstEnd (h : search.Regular fx events) (hcovers : search.Covers fx)
    {i j : ℕ} {b d : E} (hfirst : search.FirstEnd events i j b d) : fx.Closed events i j := by
  have hopens := h.opened i j b d hfirst.lt hfirst.beginning hfirst.ending hfirst.begins hfirst.ends
  obtain ⟨k, hk⟩ := Option.ne_none_iff_exists'.mp hopens
  obtain ⟨l, hl⟩ := Option.ne_none_iff_exists'.mp (h.closing i j b d hfirst hopens)
  obtain rfl := hcovers.same_key b d k l hk hfirst.ends hl
  have hopensAt : fx.opensAt events i = some l := by
    rw [Effects.opensAt, hfirst.beginning]
    exact hk
  -- the lifetime is still open: what closes it would end it, before its first end
  have hopen : ∀ m < j, ¬ fx.Closed events i m := by
    intro m hm hclosed
    obtain ⟨key, hkey, hlatest⟩ := Effects.closed_iff.mp hclosed
    obtain ⟨e, he, hcloses⟩ := Option.bind_eq_some_iff.mp hkey
    have hends := h.own i m b e key hfirst.beginning he hcloses hlatest
    rw [hfirst.first m e (Effects.of_latestOpen hlatest).1 hm he] at hends
    cases hends
  obtain ⟨m, hlatest, him⟩ := Effects.exists_latestOpen hfirst.lt hopensAt hopen
  obtain ⟨hmj, hmopens, -⟩ := Effects.of_latestOpen hlatest
  obtain ⟨c, hc, hcopens⟩ := Option.bind_eq_some_iff.mp hmopens
  have hends := h.own m j c d l hc hfirst.ending hl hlatest
  have hmi : m = i := by
    rcases Nat.lt_or_eq_of_le him with hlt | heq
    · have hsingle := h.single i j b d hfirst hopens m c hlt hmj hc (by simp [hcopens])
      rw [hsingle] at hends
      cases hends
    · exact heq.symm
  exact (closed_iff_latestOpen hfirst.ending).mpr ⟨l, hl, hmi ▸ hlatest⟩

/-- The search agrees with the replay exactly when the events are regular. -/
theorem finds_iff_closed_iff_regular (hcovers : search.Covers fx) :
    (∀ i j, search.Finds events i j ↔ fx.Closed events i j) ↔ search.Regular fx events := by
  constructor
  · intro h
    have hopens_of_closed : ∀ {i j b}, events[i]? = some b → fx.Closed events i j → fx.opens b ≠ none := by
      intro i j b hb hclosed
      obtain ⟨k, -, hlatest⟩ := Effects.closed_iff.mp hclosed
      have hopens := (Effects.of_latestOpen hlatest).2.1
      rw [Effects.opensAt, hb] at hopens
      exact Option.ne_none_iff_exists'.mpr ⟨k, hopens⟩
    constructor
    · intro i j b d hij hb hd hbegins hends
      obtain ⟨l, e, -, hfirst⟩ := exists_firstEnd hij hb hd hbegins hends
      exact hopens_of_closed hb ((h i l).mp ⟨b, e, hfirst⟩)
    · intro i j b d hfirst _
      obtain ⟨k, hk, -⟩ := (closed_iff_latestOpen hfirst.ending).mp ((h i j).mp ⟨b, d, hfirst⟩)
      exact Option.ne_none_iff_exists'.mpr ⟨k, hk⟩
    · intro i j b d hfirst _ l c hil hlj hc hcopens
      by_contra hends
      rw [Bool.not_eq_false] at hends
      have hlfirst : search.FirstEnd events l j c d :=
        ⟨hlj, hc, hfirst.ending, hcovers.begins_of_opens c hcopens, hends, fun m e hlm hmj he =>
          (hcovers.same_ends c b d e hends hfirst.ends).trans
            (hfirst.first m e (Nat.lt_trans hil hlm) hmj he)⟩
      obtain ⟨k, hk, hi⟩ := (closed_iff_latestOpen hfirst.ending).mp ((h i j).mp ⟨b, d, hfirst⟩)
      obtain ⟨k', hk', hl⟩ := (closed_iff_latestOpen hfirst.ending).mp ((h l j).mp ⟨c, d, hlfirst⟩)
      obtain rfl : k = k' := Option.some.inj (hk.symm.trans hk')
      have hli : i = l := Option.some.inj (hi.symm.trans hl)
      omega
    · intro i j b d k hb hd hk hlatest
      obtain ⟨c, e, hfirst⟩ := (h i j).mpr ((closed_iff_latestOpen hd).mpr ⟨k, hk, hlatest⟩)
      obtain rfl : b = c := Option.some.inj (hb.symm.trans hfirst.beginning)
      obtain rfl : d = e := Option.some.inj (hd.symm.trans hfirst.ending)
      exact hfirst.ends
  · intro h i j
    constructor
    · rintro ⟨b, d, hfirst⟩
      exact h.closed_of_firstEnd hcovers hfirst
    · intro hclosed
      obtain ⟨k, hkey, hlatest⟩ := Effects.closed_iff.mp hclosed
      obtain ⟨d, hd, hk⟩ := Option.bind_eq_some_iff.mp hkey
      obtain ⟨hij, hopensAt, hopen⟩ := Effects.of_latestOpen hlatest
      obtain ⟨b, hb, hopens⟩ := Option.bind_eq_some_iff.mp hopensAt
      have hends := h.own i j b d k hb hd hk hlatest
      have hbegins := hcovers.begins_of_opens b (by simp [hopens])
      obtain ⟨l, e, hlj, hfirst⟩ := exists_firstEnd hij hb hd hbegins hends
      rcases Nat.lt_or_eq_of_le hlj with hlt | rfl
      · exact absurd (h.closed_of_firstEnd hcovers hfirst) (hopen l hlt)
      · exact ⟨b, e, hfirst⟩

end Search

end Lifetimes
