import Mathlib.Data.List.Basic

/-!
# Systems that keep accounts

A system takes partial steps, and each of its keys has an account. An event of the system posts
deeds to the accounts, and which ones it posts may depend on all accounts. The accounts of a run
are kept by these postings alone. Where the deeds of an event do not depend on other accounts, each
account is what its own history of deeds makes of it.
-/

namespace Accounts

variable {S K A D E : Type*} {I : S → Prop} {account : S → K → A} {post : A → D → A}

/-- A step keeps the invariant and posts its deeds to each account. -/
def Posts (I : S → Prop) (account : S → K → A) (post : A → D → A) (deeds : K → List D) (step : S → Option S) : Prop :=
  ∀ s s', I s → step s = some s' → I s' ∧ ∀ key, account s' key = (deeds key).foldl post (account s key)

theorem posts_some : Posts I account post (fun _ => []) some := by
  intro s s' hs h
  obtain rfl := Option.some.inj h
  exact ⟨hs, fun _ => rfl⟩

theorem posts_none (deeds : K → List D) : Posts I account post deeds (fun _ => none) := nofun

theorem Posts.bind {deeds deeds' : K → List D} {f g : S → Option S} (hf : Posts I account post deeds f)
    (hg : Posts I account post deeds' g) :
    Posts I account post (fun key => deeds key ++ deeds' key) (fun s => (f s).bind g) := by
  intro s s' hs h
  obtain ⟨middle, hmiddle, hlast⟩ := Option.bind_eq_some_iff.mp h
  obtain ⟨hkept, hfirst⟩ := hf s middle hs hmiddle
  obtain ⟨hkept', hrest⟩ := hg middle s' hkept hlast
  refine ⟨hkept', fun key => ?_⟩
  rw [hrest, hfirst, List.foldl_append]

theorem Posts.ite {c : Prop} [Decidable c] {deeds : K → List D} {f g : S → Option S}
    (hf : c → Posts I account post deeds f) (hg : ¬ c → Posts I account post deeds g) :
    Posts I account post deeds (fun s => if c then f s else g s) := by
  split
  · next h => exact hf h
  · next h => exact hg h

def enter (post : A → D → A) (deeds : (K → A) → E → K → List D) (books : K → A) (event : E) : K → A :=
  fun key => (deeds books event key).foldl post (books key)

/-- The accounts of a run are those of its events. -/
theorem account_run {step : S → E → Option S} {deeds : (K → A) → E → K → List D} {events : List E}
    (hstep : ∀ event ∈ events, ∀ s s', I s → step s event = some s' → I s' ∧ account s' = enter post deeds (account s) event)
    {s s' : S} (hs : I s) (h : events.foldlM step s = some s') :
    I s' ∧ account s' = events.foldl (enter post deeds) (account s) := by
  induction events generalizing s with
  | nil =>
    obtain rfl := Option.some.inj h
    exact ⟨hs, rfl⟩
  | cons event events ih =>
    rw [List.foldlM_cons] at h
    obtain ⟨middle, hmiddle, hlast⟩ := Option.bind_eq_some_iff.mp h
    obtain ⟨hkept, hfirst⟩ := hstep event List.mem_cons_self s middle hs hmiddle
    have hrest := ih (fun e he => hstep e (List.mem_cons_of_mem _ he)) hkept hlast
    rw [List.foldl_cons, ← hfirst]
    exact hrest

/-- If no deed depends on the accounts, each account is what its own history makes of it. -/
theorem foldl_enter_eq_history {deeds : (K → A) → E → K → List D} {own : E → K → List D} {events : List E}
    (hown : ∀ event ∈ events, ∀ books, deeds books event = own event) (books : K → A) (key : K) :
    events.foldl (enter post deeds) books key = (events.flatMap fun event => own event key).foldl post (books key) := by
  induction events generalizing books with
  | nil => rfl
  | cons event events ih =>
    rw [List.foldl_cons, ih fun e he => hown e (List.mem_cons_of_mem _ he), List.flatMap_cons, List.foldl_append, enter,
      hown event List.mem_cons_self]

end Accounts
