import Mathlib.Data.List.Basic

/-!
# Members that are taken once

A record that is filled in from a list of named values: every field has a name of its own and is
set by the one member of that name, and the other members change nothing.
-/

namespace TakenOnce

variable {κ ν φ σ : Type}

/-- The members change the state one after the other. -/
inductive Handles (H : κ → ν → σ → σ → Prop) : List (κ × ν) → σ → σ → Prop
  | nil {s : σ} : Handles H [] s s
  | cons {name : κ} {value : ν} {members : List (κ × ν)} {s t s' : σ} (hmember : H name value s t)
      (hrest : Handles H members t s') : Handles H ((name, value) :: members) s s'

/-- What every member keeps is kept by all of them. -/
theorem Handles.related {H : κ → ν → σ → σ → Prop} {R : σ → σ → Prop} (hrefl : ∀ s, R s s)
    (htrans : ∀ {s t u}, R s t → R t u → R s u) (hmember : ∀ {name value s t}, H name value s t → R s t)
    {members : List (κ × ν)} {s s' : σ} (h : Handles H members s s') : R s s' := by
  induction h with
  | nil => exact hrefl _
  | cons hfirst _ ih => exact htrans (hmember hfirst) ih

variable [DecidableEq κ]

def valuesOf (name : κ) (members : List (κ × ν)) : List ν := (members.filter (fun member => member.1 = name)).map Prod.snd

theorem valuesOf_cons_self (name : κ) (value : ν) (members : List (κ × ν)) :
    valuesOf name ((name, value) :: members) = value :: valuesOf name members := by
  simp [valuesOf]

theorem valuesOf_cons_of_ne {name name' : κ} (h : name' ≠ name) (value : ν) (members : List (κ × ν)) :
    valuesOf name ((name', value) :: members) = valuesOf name members := by
  simp [valuesOf, h]

/-- A member of the name of a field is taken if the field was not seen before, and its value is held
from then on; another member needs a value of its own kind. -/
structure TakesOnce (name : φ → κ) (seen : σ → φ → Prop) (Holds : φ → ν → σ → Prop) (IsOther : ν → Prop)
    (H : κ → ν → σ → σ → Prop) : Prop where
  takes : ∀ {f value s s'}, H (name f) value s s' → ¬ seen s f ∧ seen s' f ∧ Holds f value s'
  keeps : ∀ {f key value s s'}, H key value s s' → key ≠ name f → (seen s' f ↔ seen s f) ∧ ∀ v, Holds f v s' ↔ Holds f v s
  other : ∀ {key value s s'}, H key value s s' → (∀ f, key ≠ name f) → IsOther value
  able : ∀ {f value s s₀}, ¬ seen s f → Holds f value s₀ → ∃ s', H (name f) value s s'
  able_other : ∀ {key value s}, (∀ f, key ≠ name f) → IsOther value → ∃ s', H key value s s'

section TakesOnce

variable {name : φ → κ} {seen : σ → φ → Prop} {Holds : φ → ν → σ → Prop} {IsOther : ν → Prop}
  {H : κ → ν → σ → σ → Prop} {members : List (κ × ν)} {s s' : σ} {f : φ}

/-- A field that was seen occurs no more. -/
theorem TakesOnce.not_taken (h : TakesOnce name seen Holds IsOther H) (hhandles : Handles H members s s') (hseen : seen s f) :
    valuesOf (name f) members = [] ∧ seen s' f ∧ ∀ v, Holds f v s' ↔ Holds f v s := by
  induction hhandles with
  | nil => exact ⟨rfl, hseen, fun _ => Iff.rfl⟩
  | @cons key value members s t s' hmember _ ih =>
    by_cases hkey : key = name f
    · subst hkey
      exact absurd hseen (h.takes hmember).1
    · obtain ⟨hseen', hholds⟩ := h.keeps hmember hkey
      obtain ⟨hvalues, hlast, hheld⟩ := ih (hseen'.mpr hseen)
      rw [valuesOf_cons_of_ne hkey]
      exact ⟨hvalues, hlast, fun v => (hheld v).trans (hholds v)⟩

/-- A field that comes to be seen occurs in one member, whose value is held. -/
theorem TakesOnce.taken (h : TakesOnce name seen Holds IsOther H) (hhandles : Handles H members s s') (hseen : ¬ seen s f)
    (hseen' : seen s' f) : ∃ value, valuesOf (name f) members = [value] ∧ Holds f value s' := by
  induction hhandles with
  | nil => exact absurd hseen' hseen
  | @cons key value members s t s' hmember hrest ih =>
    by_cases hkey : key = name f
    · subst hkey
      obtain ⟨-, htaken, hholds⟩ := h.takes hmember
      obtain ⟨hvalues, -, hheld⟩ := h.not_taken hrest htaken
      rw [valuesOf_cons_self, hvalues]
      exact ⟨value, rfl, (hheld value).mpr hholds⟩
    · rw [valuesOf_cons_of_ne hkey]
      exact ih (fun hthen => hseen ((h.keeps hmember hkey).1.mp hthen)) hseen'

/-- A field that occurs comes to be seen. -/
theorem TakesOnce.seen_of_occurs (h : TakesOnce name seen Holds IsOther H) (hhandles : Handles H members s s')
    (hvalues : valuesOf (name f) members ≠ []) : seen s' f := by
  induction hhandles with
  | nil => exact absurd rfl hvalues
  | @cons key value members s t s' hmember hrest ih =>
    by_cases hkey : key = name f
    · subst hkey
      exact (h.not_taken hrest (h.takes hmember).2.1).2.1
    · rw [valuesOf_cons_of_ne hkey] at hvalues
      exact ih hvalues

omit [DecidableEq κ] in
theorem TakesOnce.others (h : TakesOnce name seen Holds IsOther H) (hhandles : Handles H members s s') :
    ∀ member ∈ members, (∀ f, member.1 ≠ name f) → IsOther member.2 := by
  induction hhandles with
  | nil => exact fun _ hmember => absurd hmember List.not_mem_nil
  | cons hmember _ ih => exact List.forall_mem_cons.mpr ⟨h.other hmember, ih⟩

/-- Members are handled if no field occurs twice or was seen before, and every value can be held. -/
theorem TakesOnce.exists_handles (h : TakesOnce name seen Holds IsOther H)
    (hfields : ∀ f, valuesOf (name f) members = [] ∨
      ¬ seen s f ∧ ∃ value s₀, valuesOf (name f) members = [value] ∧ Holds f value s₀)
    (hothers : ∀ member ∈ members, (∀ f, member.1 ≠ name f) → IsOther member.2) : ∃ s', Handles H members s s' := by
  induction members generalizing s with
  | nil => exact ⟨s, .nil⟩
  | cons member members ih =>
    obtain ⟨key, value⟩ := member
    obtain ⟨hother, hothers⟩ := List.forall_mem_cons.mp hothers
    -- the first member is handled, and the fields it does not name are left as they are
    have hfirst : ∃ t, H key value s t := by
      by_cases hknown : ∃ f, key = name f
      · obtain ⟨f, rfl⟩ := hknown
        rcases hfields f with hnil | ⟨hunseen, value', s₀, hvalues, hholds⟩
        · rw [valuesOf_cons_self] at hnil
          cases hnil
        · rw [valuesOf_cons_self] at hvalues
          obtain ⟨rfl, -⟩ := List.cons.inj hvalues
          exact h.able hunseen hholds
      · exact h.able_other (not_exists.mp hknown) (hother (not_exists.mp hknown))
    obtain ⟨t, hmember⟩ := hfirst
    have hrest : ∃ s', Handles H members t s' := by
      apply ih (s := t) _ hothers
      intro f
      have hfield := hfields f
      by_cases hkey : key = name f
      · rw [hkey, valuesOf_cons_self] at hfield
        rcases hfield with hnil | ⟨-, _, _, hvalues, -⟩
        · cases hnil
        · exact .inl (List.cons.inj hvalues).2
      · rw [valuesOf_cons_of_ne hkey, ← (h.keeps hmember hkey).1] at hfield
        exact hfield
    obtain ⟨s', hhandles⟩ := hrest
    exact ⟨s', .cons hmember hhandles⟩

/-- The fields that are seen in the end are those that occur once, if none was seen at first. -/
theorem TakesOnce.handles_iff (h : TakesOnce name seen Holds IsOther H) (hunseen : ∀ f, ¬ seen s f) :
    (∃ s', Handles H members s s' ∧ ∀ f, seen s' f) ↔
      (∀ f, ∃ value s₀, valuesOf (name f) members = [value] ∧ Holds f value s₀) ∧
        ∀ member ∈ members, (∀ f, member.1 ≠ name f) → IsOther member.2 := by
  constructor
  · rintro ⟨s', hhandles, hseen⟩
    refine ⟨fun f => ?_, h.others hhandles⟩
    obtain ⟨value, hvalues, hholds⟩ := h.taken hhandles (hunseen f) (hseen f)
    exact ⟨value, s', hvalues, hholds⟩
  · rintro ⟨hfields, hothers⟩
    obtain ⟨s', hhandles⟩ := h.exists_handles (s := s) (fun f => .inr ⟨hunseen f, hfields f⟩) hothers
    refine ⟨s', hhandles, fun f => h.seen_of_occurs hhandles ?_⟩
    obtain ⟨_, _, hvalues, -⟩ := hfields f
    rw [hvalues]
    exact List.cons_ne_nil _ _

end TakesOnce

end TakenOnce
