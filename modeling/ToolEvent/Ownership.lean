import Mathlib.Data.List.Basic

/-!
# The shared ownership tables

The transition tables of `src/ownership.c` and the classifications read off them.
-/

namespace ToolEvent

inductive OwnershipState
  | never | live | released
  deriving DecidableEq

inductive OwnershipEvent
  | release | replaceNull | replaceLive | execClose | execKeep
  deriving DecidableEq

/-- `p101_tool_event_ownership_release_result`. -/
inductive ReleaseResult
  | ok | stray | duplicate
  deriving DecidableEq

/-- `p101_tool_event_ownership_replace_result`. -/
inductive ReplaceResult
  | ok | new | bad
  deriving DecidableEq

/-- `struct p101_transition_rule`, with the enumeration its values are taken from. -/
structure TransitionRule (Value : Type) where
  state : OwnershipState
  event : OwnershipEvent
  next : OwnershipState
  value : Value
  deriving DecidableEq

/-- What the repository uses of `p101_transition`, which is not part of it: the search of a
table returns a rule with the given state and event when there is one. -/
structure TransitionLibrary where
  /-- `p101_transition_rules_find`. -/
  rulesFind {Value : Type} : List (TransitionRule Value) → OwnershipState → OwnershipEvent → Option (TransitionRule Value)
  rulesFind_sound {Value : Type} {rules : List (TransitionRule Value)} {state : OwnershipState}
    {event : OwnershipEvent} {rule : TransitionRule Value} (h : rulesFind rules state event = some rule) :
    rule ∈ rules ∧ rule.state = state ∧ rule.event = event
  rulesFind_complete {Value : Type} {rules : List (TransitionRule Value)} {rule : TransitionRule Value}
    (h : rule ∈ rules) : (rulesFind rules rule.state rule.event).isSome

namespace TransitionLibrary

/-- The first rule with the state and the event. -/
def standard : TransitionLibrary where
  rulesFind rules state event := rules.find? (fun rule => rule.state = state ∧ rule.event = event)
  rulesFind_sound h := by
    refine ⟨List.mem_of_find?_eq_some h, ?_⟩
    simpa using List.find?_some h
  rulesFind_complete h := by
    rw [List.find?_isSome]
    exact ⟨_, h, by simp⟩

def releaseRules : List (TransitionRule ReleaseResult) :=
  [⟨.never, .release, .never, .stray⟩,
    ⟨.live, .release, .released, .ok⟩,
    ⟨.released, .release, .released, .duplicate⟩]

def replaceRules : List (TransitionRule ReplaceResult) :=
  [⟨.never, .replaceNull, .live, .new⟩,
    ⟨.live, .replaceNull, .live, .new⟩,
    ⟨.released, .replaceNull, .live, .new⟩,
    ⟨.never, .replaceLive, .never, .bad⟩,
    ⟨.live, .replaceLive, .live, .ok⟩,
    ⟨.released, .replaceLive, .released, .bad⟩]

def execRules : List (TransitionRule ℕ) :=
  [⟨.never, .execClose, .never, 0⟩,
    ⟨.live, .execClose, .released, 0⟩,
    ⟨.released, .execClose, .released, 0⟩,
    ⟨.never, .execKeep, .never, 0⟩,
    ⟨.live, .execKeep, .live, 1⟩,
    ⟨.released, .execKeep, .released, 0⟩]

variable (tables : TransitionLibrary)

/-- `p101_tool_event_ownership_classify_release`. -/
def classifyRelease (state : OwnershipState) : ReleaseResult :=
  match tables.rulesFind releaseRules state .release with
  | some rule => rule.value
  | none => .stray

/-- `p101_tool_event_ownership_classify_replace`. -/
def classifyReplace (sourceIsNull : Bool) (sourceState : OwnershipState) : ReplaceResult :=
  match tables.rulesFind replaceRules sourceState (if sourceIsNull then .replaceNull else .replaceLive) with
  | some rule => rule.value
  | none => .bad

/-- `p101_tool_event_ownership_exec_inherits`. -/
def execInherits (state : OwnershipState) (closeOnExec : Bool) : Bool :=
  match tables.rulesFind execRules state (if closeOnExec then .execClose else .execKeep) with
  | some rule => rule.value ≠ 0
  | none => false

/-- In a table with one rule for each state and event, the search finds that rule. -/
theorem rulesFind_eq {Value : Type} {rules : List (TransitionRule Value)} (rule : TransitionRule Value)
    (h : rule ∈ rules) (hunique : ∀ r ∈ rules, r.state = rule.state → r.event = rule.event → r = rule) :
    tables.rulesFind rules rule.state rule.event = some rule := by
  obtain ⟨found, hfound⟩ := Option.isSome_iff_exists.mp (tables.rulesFind_complete h)
  obtain ⟨hmem, hstate, hevent⟩ := tables.rulesFind_sound hfound
  rw [hfound, hunique found hmem hstate hevent]

theorem classifyRelease_of_rule (rule : TransitionRule ReleaseResult) (h : rule ∈ releaseRules) :
    tables.classifyRelease rule.state = rule.value := by
  have hevent : ∀ r ∈ releaseRules, r.event = .release := by decide
  have hunique : ∀ r ∈ releaseRules, ∀ r' ∈ releaseRules, r'.state = r.state → r'.event = r.event → r' = r := by
    decide
  have hfound := tables.rulesFind_eq rule h (hunique rule h)
  rw [hevent rule h] at hfound
  rw [classifyRelease, hfound]

@[simp] theorem classifyRelease_never : tables.classifyRelease .never = .stray :=
  tables.classifyRelease_of_rule ⟨.never, .release, .never, .stray⟩ (by decide)

@[simp] theorem classifyRelease_live : tables.classifyRelease .live = .ok :=
  tables.classifyRelease_of_rule ⟨.live, .release, .released, .ok⟩ (by decide)

@[simp] theorem classifyRelease_released : tables.classifyRelease .released = .duplicate :=
  tables.classifyRelease_of_rule ⟨.released, .release, .released, .duplicate⟩ (by decide)

theorem classifyReplace_of_rule (rule : TransitionRule ReplaceResult) (h : rule ∈ replaceRules)
    (sourceIsNull : Bool) (hevent : rule.event = if sourceIsNull then .replaceNull else .replaceLive) :
    tables.classifyReplace sourceIsNull rule.state = rule.value := by
  have hunique : ∀ r ∈ replaceRules, ∀ r' ∈ replaceRules, r'.state = r.state → r'.event = r.event → r' = r := by
    decide
  have hfound := tables.rulesFind_eq rule h (hunique rule h)
  rw [hevent] at hfound
  rw [classifyReplace, hfound]

/-- A replacement is bad when it has a source and the source is not live. -/
theorem classifyReplace_eq_bad_iff (sourceIsNull : Bool) (state : OwnershipState) :
    tables.classifyReplace sourceIsNull state = .bad ↔ sourceIsNull = false ∧ state ≠ .live := by
  cases sourceIsNull with
  | true =>
    have hnew : tables.classifyReplace true state = .new :=
      tables.classifyReplace_of_rule ⟨state, .replaceNull, .live, .new⟩ (by cases state <;> decide) true rfl
    simp [hnew]
  | false =>
    cases state with
    | never =>
      have hbad := tables.classifyReplace_of_rule ⟨.never, .replaceLive, .never, .bad⟩ (by decide) false rfl
      simpa using hbad
    | live =>
      have hok := tables.classifyReplace_of_rule ⟨.live, .replaceLive, .live, .ok⟩ (by decide) false rfl
      simp [hok]
    | released =>
      have hbad := tables.classifyReplace_of_rule ⟨.released, .replaceLive, .released, .bad⟩ (by decide) false rfl
      simpa using hbad

theorem execInherits_of_rule (rule : TransitionRule ℕ) (h : rule ∈ execRules) (closeOnExec : Bool)
    (hevent : rule.event = if closeOnExec then .execClose else .execKeep) :
    tables.execInherits rule.state closeOnExec = decide (rule.value ≠ 0) := by
  have hunique : ∀ r ∈ execRules, ∀ r' ∈ execRules, r'.state = r.state → r'.event = r.event → r' = r := by
    decide
  have hfound := tables.rulesFind_eq rule h (hunique rule h)
  rw [hevent] at hfound
  rw [execInherits, hfound]

/-- A new image inherits what is live and not closed on exec. -/
theorem execInherits_iff (state : OwnershipState) (closeOnExec : Bool) :
    tables.execInherits state closeOnExec = true ↔ state = .live ∧ closeOnExec = false := by
  cases closeOnExec with
  | true =>
    have hclosed : ∃ next, (⟨state, .execClose, next, 0⟩ : TransitionRule ℕ) ∈ execRules := by
      cases state
      · exact ⟨.never, by decide⟩
      · exact ⟨.released, by decide⟩
      · exact ⟨.released, by decide⟩
    obtain ⟨next, hrule⟩ := hclosed
    have hvalue := tables.execInherits_of_rule _ hrule true rfl
    simp [hvalue]
  | false =>
    have hkept : ∀ value, (⟨state, .execKeep, state, value⟩ : TransitionRule ℕ) ∈ execRules →
        tables.execInherits state false = decide (value ≠ 0) :=
      fun value hrule => tables.execInherits_of_rule _ hrule false rfl
    cases state with
    | never => simp [hkept 0 (by decide)]
    | live => simp [hkept 1 (by decide)]
    | released => simp [hkept 0 (by decide)]

end TransitionLibrary

end ToolEvent
