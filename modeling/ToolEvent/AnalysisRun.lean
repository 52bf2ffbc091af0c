import ToolEvent.Library.Triple
import ToolEvent.AnalysisPasses
import ToolEvent.CausalOrderCorrect

/-!
# What a run of the passes leaves

The passes after `build_causal_order` keep the order it left, and add findings that the
counts of the policies go along with.
-/

namespace ToolEvent.ModelAnalysis

open Fallible World RunModel LatestMatch

def Analysis.Counted (analysis : Analysis) : Prop :=
  ∀ policy, analysis.policyCounts policy =
    (analysis.findings.filter (fun finding => finding.policy = policy)).length

/-- The findings fit their storage, and its size in bytes fits `SIZE_MAX`. -/
structure Analysis.Bounded (analysis : Analysis) : Prop where
  findings : analysis.findings.length ≤ analysis.findingCapacity
  capacity : analysis.findingCapacity ≤ sizeMax / findingSize

theorem Analysis.Bounded.length_le {analysis : Analysis} (h : analysis.Bounded) :
    analysis.findings.length ≤ sizeMax :=
  h.findings.trans (h.capacity.trans (Nat.div_le_self _ _))

structure PassChange (a a' : Analysis) : Prop where
  model : a'.model = a.model
  ordered : a'.ordered = a.ordered
  orderedCount : a'.orderedCount = a.orderedCount
  findings : a.findings <+: a'.findings
  counted : a.Counted → a'.Counted
  bounded : a.Bounded → a'.Bounded
  trouble : a.trouble = true → a'.trouble = true

instance : IsPreorder Analysis PassChange where
  refl := fun _ => ⟨rfl, rfl, rfl, List.prefix_rfl, id, id, id⟩
  trans := fun _ _ _ h h' => ⟨h'.model.trans h.model, h'.ordered.trans h.ordered,
    h'.orderedCount.trans h.orderedCount, h.findings.trans h'.findings, h'.counted ∘ h.counted,
    h'.bounded ∘ h.bounded, h'.trouble ∘ h.trouble⟩

/-- A change of what is neither a finding nor the order. -/
theorem PassChange.of_eq {a a' : Analysis} (model : a'.model = a.model) (ordered : a'.ordered = a.ordered)
    (orderedCount : a'.orderedCount = a.orderedCount) (findings : a'.findings = a.findings)
    (findingCapacity : a'.findingCapacity = a.findingCapacity) (policyCounts : a'.policyCounts = a.policyCounts)
    (trouble : a.trouble = true → a'.trouble = true) : PassChange a a' := by
  refine ⟨model, ordered, orderedCount, findings ▸ List.prefix_rfl, fun h policy => ?_, fun h => ?_, trouble⟩
  · rw [policyCounts, findings]
    exact h policy
  · constructor <;> rw [findingCapacity]
    · rw [findings]
      exact h.findings
    · exact h.capacity

theorem Analysis.Counted.withFinding {a : Analysis} (h : a.Counted) (finding : Finding) :
    (a.withFinding finding).Counted := by
  intro policy
  have hcount := h policy
  simp only [Analysis.withFinding, List.filter_append, List.length_append, List.filter_singleton]
  by_cases hpolicy : finding.policy = policy
  · subst hpolicy
    simp [hcount]
  · rw [Function.update_of_ne (Ne.symm hpolicy)]
    simp [hcount, hpolicy]

theorem ends_reserveFindings (w : World Analysis) :
    Ends reserveFindings w (fun _ w' => w'.outcomes <:+ w.outcomes ∧
        ∃ capacity, w'.state = { w.state with findingCapacity := capacity } ∧
          (w.state.Bounded → w.state.findings.length < capacity ∧ capacity ≤ sizeMax / findingSize))
      (fun w' => w'.outcomes <:+ w.outcomes ∧ w'.state = w.state) := by
  refine ends_readState_bind (Ends.ite (fun hroom => ?_) fun hfull => Ends.ite (fun _ => ?_) fun hsize => ?_)
  · exact ends_pure ⟨List.suffix_rfl, _, rfl, fun h => ⟨hroom, h.capacity⟩⟩
  · exact ends_fail ⟨List.suffix_rfl, rfl⟩
  · have hallocate := (obeys_allocate (r := Eq) : Obeys Eq (allocate : Routine Analysis Bool)).ends w
    refine (hallocate.imp (fun _ _ h => h) fun w' h => ⟨h.2, h.1.symm⟩).bind fun grown w' ⟨hstate, hsuffix, _⟩ => ?_
    refine Ends.ite (fun _ => ends_updateState ⟨hsuffix, _, ?_, fun h => ⟨?_, Nat.le_of_not_lt hsize⟩⟩)
      fun _ => ends_fail ⟨hsuffix, hstate.symm⟩
    · rw [← hstate]
    · have hlength := h.findings
      split
      · next hzero =>
        rw [hzero, Nat.le_zero] at hlength
        rw [hlength]
        decide
      · omega

theorem obeys_addFinding (identifier : Text) (policy : Policy) (message : Text) (node : Option Node)
    (source target detail : Option Text) :
    Obeys PassChange (addFinding identifier policy message node source target detail) := by
  intro w
  refine Ends.final (P := fun w' => PassChange w.state w'.state ∧ w'.outcomes <:+ w.outcomes) ?_
  refine ((ends_reserveFindings w).imp (fun _ _ h => h) fun w' ⟨hsuffix, hstate⟩ => ?failed).bind
    fun _ w' ⟨hsuffix, capacity, hstate, hcapacity⟩ =>
      Ends.ite (fun _ => ends_updateState ?added) fun _ => ends_fail ?unfit
  case failed =>
    rw [hstate]
    exact ⟨refl_of PassChange _, hsuffix⟩
  case added =>
    rw [hstate]
    refine ⟨⟨rfl, rfl, rfl, List.prefix_append _ _, fun h => h.withFinding _, fun h => ⟨?_, (hcapacity h).2⟩, id⟩,
      hsuffix⟩
    rw [Analysis.withFinding, List.length_append, List.length_singleton]
    exact (hcapacity h).1
  case unfit =>
    rw [hstate]
    exact ⟨⟨rfl, rfl, rfl, List.prefix_rfl, fun h => h, fun h => ⟨(hcapacity h).1.le, (hcapacity h).2⟩, id⟩, hsuffix⟩

/-- A relation that holds whatever room is made, and whatever finding of the policy is added. -/
theorem obeys_addFinding_of {r : Analysis → Analysis → Prop} [IsPreorder Analysis r] {policy : Policy}
    (hroom : ∀ (a : Analysis) (capacity : ℕ), r a { a with findingCapacity := capacity })
    (hadd : ∀ (a : Analysis) (finding : Finding), finding.policy = policy → r a (a.withFinding finding))
    (identifier message : Text) (node : Option Node) (source target detail : Option Text) :
    Obeys r (addFinding identifier policy message node source target detail) := by
  intro w
  refine Ends.final (P := fun w' => r w.state w'.state ∧ w'.outcomes <:+ w.outcomes) ?_
  refine ((ends_reserveFindings w).imp (fun _ _ h => h) fun w' ⟨hsuffix, hstate⟩ => ?failed).bind
    fun _ w' ⟨hsuffix, capacity, hstate, _⟩ => Ends.ite (fun _ => ends_updateState ?added) fun _ => ends_fail ?unfit
  case failed =>
    rw [hstate]
    exact ⟨refl_of r _, hsuffix⟩
  case added =>
    rw [hstate]
    exact ⟨trans_of r (hroom w.state capacity) (hadd _ _ rfl), hsuffix⟩
  case unfit =>
    rw [hstate]
    exact ⟨hroom w.state capacity, hsuffix⟩

/-- A relation that holds whatever findings of the policy are added, and whatever is counted. -/
class AdmitsFindings (policy : Policy) (r : Analysis → Analysis → Prop) : Prop extends IsPreorder Analysis r where
  addFinding : ∀ identifier message node source target detail,
    Obeys r (ModelAnalysis.addFinding identifier policy message node source target detail)
  counts : ∀ (a : Analysis) (resource synchronization edges sanitizer : ℕ) (reports : Fin 4 → ℕ), r a { a with
    resourceRecords := resource, synchronizationRecords := synchronization, lockOrderEdges := edges
    sanitizerRecords := sanitizer, sanitizerCounts := reports }

/-- A relation that holds also when trouble is noted. -/
class Admits (policy : Policy) (r : Analysis → Analysis → Prop) : Prop extends AdmitsFindings policy r where
  trouble : ∀ a : Analysis, r a { a with trouble := true }

instance (policy : Policy) : Admits policy PassChange where
  addFinding := fun _ _ _ _ _ _ => obeys_addFinding _ _ _ _ _ _ _
  counts := fun _ _ _ _ _ _ => .of_eq rfl rfl rfl rfl rfl rfl id
  trouble := fun _ => .of_eq rfl rfl rfl rfl rfl rfl fun _ => rfl

def OnlyCounts (policy : Policy) (a a' : Analysis) : Prop :=
  ∀ other, other ≠ policy → a'.policyCounts other = a.policyCounts other

instance (policy : Policy) : IsPreorder Analysis (OnlyCounts policy) where
  refl := fun _ _ _ => rfl
  trans := fun _ _ _ h h' other hother => (h' other hother).trans (h other hother)

instance (policy : Policy) : Admits policy (OnlyCounts policy) where
  addFinding := obeys_addFinding_of (fun _ _ _ _ => rfl) fun _ _ hfinding _ hother =>
    Function.update_of_ne (hfinding ▸ hother) _ _
  counts := fun _ _ _ _ _ _ _ _ => rfl
  trouble := fun _ _ _ => rfl

def SameTrouble (a a' : Analysis) : Prop := a'.trouble = a.trouble

instance : IsPreorder Analysis SameTrouble where
  refl := fun _ => rfl
  trans := fun _ _ _ h h' => Eq.trans h' h

instance (policy : Policy) : AdmitsFindings policy SameTrouble where
  addFinding := obeys_addFinding_of (fun _ _ => rfl) fun _ _ _ => rfl
  counts := fun _ _ _ _ _ _ => rfl

/-- A pass with local variables changes the object as a pass does. -/
abbrev OnObject (r : Analysis → Analysis → Prop) {τ : Type} (s t : Analysis × τ) : Prop := r s.1 t.1

theorem obeys_analyzeResourceNode {r : Analysis → Analysis → Prop} [AdmitsFindings .resource r] (node : Node) :
    Obeys r (analyzeResourceNode node) := by
  refine Obeys.bind ?_ fun _ => Obeys.ite (AdmitsFindings.addFinding _ _ _ _ _ _) (obeys_pure _)
  exact Obeys.ite (obeys_updateState fun a => AdmitsFindings.counts .resource a _ _ _ _ _) (obeys_pure _)

theorem obeys_analyzeLifecycleFinding {r : Analysis → Analysis → Prop} [AdmitsFindings .resource r]
    (finding : Lifecycle.Finding) : Obeys r (analyzeLifecycleFinding finding) :=
  obeys_readState.bind fun _ => AdmitsFindings.addFinding _ _ _ _ _ _

theorem obeys_analyzeResources {r : Analysis → Analysis → Prop} [AdmitsFindings .resource r] :
    Obeys r analyzeResources := by
  refine Obeys.bind (obeys_updateState fun a => AdmitsFindings.counts .resource a _ _ _ _ _) fun _ => ?_
  exact obeys_readState.bind fun a => Obeys.bind (obeys_forEach obeys_analyzeResourceNode _) fun _ =>
    obeys_forEach obeys_analyzeLifecycleFinding _

section Synchronization

variable {r : Analysis → Analysis → Prop} [AdmitsFindings .synchronization r]

theorem obeys_updateSync (f : SyncLocals → SyncLocals) : Obeys (OnObject r) (updateSync f) :=
  obeys_updateState fun s => refl_of r s.1

theorem obeys_syncReaches (edges : List SyncEdge) (start target : EvidenceText) :
    Obeys (OnObject r) (syncReaches edges start target) := by
  refine (obeys_allocateAll 2).bind fun _ => Obeys.ite (obeys_pure _) ?_
  split
  · exact obeys_fail _
  · exact obeys_pure _

theorem obeys_addSyncFinding (identifier : String) (node : Node) (source target : EvidenceText) :
    Obeys (OnObject r) (addSyncFinding identifier node source target) :=
  obeys_readState.bind fun _ => Obeys.ite (obeys_pure _) (AdmitsFindings.addFinding _ _ _ _ _ _).onFirst

/-- A finding that is added under a condition. -/
theorem obeys_findingIf {p : Prop} [Decidable p] (identifier : String) (node : Node)
    (source target : EvidenceText) :
    Obeys (OnObject r) (if p then addSyncFinding identifier node source target else pure ()) :=
  Obeys.ite (obeys_addSyncFinding _ _ _ _) (obeys_pure _)

theorem obeys_reportLastHeld (identifier : String) (node : Node) (thread resource : EvidenceText) :
    Obeys (OnObject r) (reportLastHeld identifier node thread resource) := by
  refine obeys_readState.bind fun s => ?_
  dsimp only
  split
  · exact obeys_addSyncFinding _ _ _ _
  · exact obeys_pure _

theorem obeys_acquireLock (node : Node) (thread resource : EvidenceText) :
    Obeys (OnObject r) (acquireLock node thread resource) := by
  refine obeys_readState.bind fun s => Obeys.bind (obeys_forEach (fun item => ?_) _) fun _ => obeys_updateSync _
  refine Obeys.ite (obeys_readState.bind fun s => (obeys_syncReaches _ _ _).bind fun cycle => ?_) (obeys_pure _)
  exact (obeys_findingIf _ _ _ _).bind fun _ => obeys_updateSync _

theorem obeys_releaseLock (node : Node) (thread resource : EvidenceText) :
    Obeys (OnObject r) (releaseLock node thread resource) := by
  refine obeys_readState.bind fun s => Obeys.bind ?_ fun _ => obeys_updateSync _
  cases lastHeld s.2.held thread with
  | none => exact obeys_pure _
  | some item => exact obeys_findingIf _ _ _ _

theorem obeys_beginWait (node : Node) (thread resource : EvidenceText) :
    Obeys (OnObject r) (beginWait node thread resource) := by
  refine Obeys.bind (Obeys.ite (obeys_reportLastHeld _ _ _ _) (obeys_pure _)) fun _ => ?_
  refine obeys_readState.bind fun s => (obeys_updateSync _).bind fun _ => Obeys.bind ?_ fun _ => obeys_updateSync _
  exact Obeys.ite (obeys_forEach (fun prior => obeys_findingIf _ _ _ _) _) (obeys_pure _)

theorem obeys_destroyMutex (node : Node) (resource : EvidenceText) :
    Obeys (OnObject r) (destroyMutex node resource) :=
  obeys_readState.bind fun _ => (obeys_forEach (fun _ => obeys_findingIf _ _ _ _) _).bind fun _ =>
    obeys_forEach (fun _ => obeys_findingIf _ _ _ _) _

theorem obeys_synchronizeRecord (node : Node) : Obeys (OnObject r) (synchronizeRecord node) := by
  unfold synchronizeRecord
  refine Obeys.ite (obeys_destroyMutex _ _) (Obeys.ite (obeys_pure _) (Obeys.ite ?_ ?_))
  · exact obeys_readState.bind fun _ => obeys_forEach (fun _ => obeys_findingIf _ _ _ _) _
  · refine Obeys.ite (obeys_updateSync _) (Obeys.ite (obeys_pure _) ?_)
    refine Obeys.ite (obeys_reportLastHeld _ _ _ _) (Obeys.ite (obeys_acquireLock _ _ _) ?_)
    refine Obeys.ite (obeys_releaseLock _ _ _) (Obeys.ite (obeys_beginWait _ _ _) ?_)
    exact Obeys.ite (obeys_updateSync _) (obeys_pure _)

theorem obeys_reportDeadlock (wait : SyncItem) (edges : List SyncEdge) :
    Obeys (OnObject r) (reportDeadlock wait edges) := by
  induction edges with
  | nil => exact obeys_pure _
  | cons edge edges ih =>
    refine Obeys.ite ih (obeys_readState.bind fun _ => (obeys_syncReaches _ _ _).bind fun _ => ?_)
    exact Obeys.ite (obeys_addSyncFinding _ _ _ _) ih

theorem obeys_reportWait (wait : SyncItem) : Obeys (OnObject r) (reportWait wait) := by
  refine Obeys.ite (obeys_pure _) (obeys_readState.bind fun _ => Obeys.ite ?_ (obeys_reportDeadlock _ _))
  exact (obeys_syncReaches _ _ _).bind fun _ => obeys_findingIf _ _ _ _

theorem obeys_analyzeSynchronization : Obeys r analyzeSynchronization := by
  refine Obeys.withLocals ((obeys_allocateAll 6).bind fun _ => Obeys.ite ?_ (obeys_fail _))
  refine obeys_readState.bind fun s => Obeys.bind (obeys_forEach (fun node => ?_) _) fun _ => ?_
  · refine Obeys.ite (Obeys.bind (obeys_updateState fun s => ?_) fun _ => obeys_synchronizeRecord node)
      (obeys_pure _)
    exact AdmitsFindings.counts .synchronization _ _ _ _ _ _
  · refine (obeys_updateSync _).bind fun _ => obeys_readState.bind fun s => ?_
    refine (obeys_forEach obeys_reportWait _).bind fun _ => obeys_updateState fun s => ?_
    exact AdmitsFindings.counts .synchronization _ _ _ _ _ _

end Synchronization

structure TraceChange (a a' : Analysis) : Prop extends PassChange a a' where
  counts : OnlyCounts .trace a a'
  sameTrouble : SameTrouble a a'

instance : IsPreorder Analysis TraceChange where
  refl := fun a => ⟨refl_of PassChange a, refl_of (OnlyCounts .trace) a, refl_of SameTrouble a⟩
  trans := fun _ _ _ h h' => ⟨trans_of PassChange h.toPassChange h'.toPassChange,
    trans_of (OnlyCounts .trace) h.counts h'.counts, trans_of SameTrouble h.sameTrouble h'.sameTrouble⟩

/-- A change of what is neither a finding nor the order. -/
theorem TraceChange.of_eq {a a' : Analysis} (model : a'.model = a.model) (ordered : a'.ordered = a.ordered)
    (orderedCount : a'.orderedCount = a.orderedCount) (findings : a'.findings = a.findings)
    (findingCapacity : a'.findingCapacity = a.findingCapacity) (policyCounts : a'.policyCounts = a.policyCounts)
    (trouble : a'.trouble = a.trouble) : TraceChange a a' where
  toPassChange := .of_eq model ordered orderedCount findings findingCapacity policyCounts trouble.trans
  counts := fun policy _ => congrFun policyCounts policy
  sameTrouble := trouble

theorem obeys_addFinding_trace (identifier message : Text) (node : Option Node)
    (source target detail : Option Text) :
    Obeys TraceChange (addFinding identifier .trace message node source target detail) := by
  have hchange := obeys_addFinding identifier .trace message node source target detail
  have hcounts : Obeys (OnlyCounts .trace) (addFinding identifier .trace message node source target detail) :=
    AdmitsFindings.addFinding identifier message node source target detail
  have htrouble : Obeys SameTrouble (addFinding identifier .trace message node source target detail) :=
    AdmitsFindings.addFinding identifier message node source target detail
  exact fun w => ⟨⟨(hchange w).1, (hcounts w).1, (htrouble w).1⟩, (hchange w).2⟩

theorem obeys_appendTrace (text : Text) : Obeys TraceChange (appendTrace text) := by
  have hquiet : ∀ f : Analysis → Analysis, (∀ a, TraceChange a (f a)) →
      Obeys TraceChange (updateState f : Routine Analysis Unit) := fun _ hf => obeys_updateState hf
  refine obeys_readState.bind fun a => Obeys.ite (obeys_fail _) (Obeys.bind (Obeys.ite ?_ (obeys_pure _))
    fun _ => hquiet _ fun a => .of_eq rfl rfl rfl rfl rfl rfl rfl)
  refine Obeys.ite (obeys_fail _) (obeys_allocate.bind fun _ => Obeys.ite ?_ (obeys_fail _))
  exact hquiet _ fun a => .of_eq rfl rfl rfl rfl rfl rfl rfl

/-- A relation that holds whatever the trace pass does to the object alone. -/
class AdmitsObject {τ : Type} (r : Analysis × τ → Analysis × τ → Prop) : Prop
    extends IsPreorder (Analysis × τ) r where
  object : ∀ s t, TraceChange s.1 t.1 → t.2 = s.2 → r s t

instance {τ : Type} : AdmitsObject (fun s t : Analysis × τ => OnObject TraceChange s t) where
  object := fun _ _ h _ => h

theorem obeys_onObject {τ α : Type} {r : Analysis × τ → Analysis × τ → Prop} [AdmitsObject r]
    {x : Routine Analysis α} (hx : Obeys TraceChange x) : Obeys r (onFirst x : Routine (Analysis × τ) α) :=
  fun w => ⟨AdmitsObject.object _ _ (hx ⟨w.state.1, w.outcomes⟩).1 rfl, (hx ⟨w.state.1, w.outcomes⟩).2⟩

section Object

variable {r : TraceState → TraceState → Prop} [AdmitsObject r]

theorem obeys_appendTraceLine (node : Node) (depth : ℕ) (entering : Bool) :
    Obeys r (appendTraceLine node depth entering) :=
  Obeys.ite (obeys_onObject (obeys_appendTrace _)) (obeys_fail _)

theorem obeys_traceContext (pid : ℤ) (context : ℕ) : Obeys r (traceContext pid context) := by
  refine obeys_readState.bind fun s => ?_
  dsimp only
  split
  · exact obeys_pure _
  · refine Obeys.ite (obeys_fail _) (Obeys.bind (obeys_updateState fun s => ?_) fun _ => obeys_pure _)
    exact AdmitsObject.object _ _ (.of_eq rfl rfl rfl rfl rfl rfl rfl) rfl

theorem obeys_updateContext (index : ℕ) (f : TraceContext → TraceContext) :
    Obeys r (updateContext index f) :=
  obeys_updateState fun _ => AdmitsObject.object _ _ (.of_eq rfl rfl rfl rfl rfl rfl rfl) rfl

theorem obeys_addTraceFinding (identifier message : String) (node : Node) :
    Obeys r (addTraceFinding identifier message node) :=
  obeys_onObject (obeys_addFinding_trace _ _ _ _ _ _)

theorem obeys_traceFork (node : Node) : Obeys r (traceFork node) := by
  refine (obeys_traceContext _ _).bind fun parent => (obeys_traceContext _ _).bind fun child => ?_
  refine obeys_readState.bind fun s => ?_
  cases s.1.traceContexts[parent]? with
  | none => exact obeys_fail _
  | some p =>
    refine (obeys_updateContext _ _).bind fun _ => ?_
    cases p.top with
    | none => exact obeys_pure _
    | some top =>
      dsimp only
      cases stackedNode s top with
      | none => exact obeys_fail _
      | some x => exact Obeys.ite (obeys_updateContext _ _) (obeys_pure _)

theorem obeys_traceExit (node : Node) (context : ℕ) (c : TraceContext) :
    Obeys r (traceExit node context c) := by
  refine (obeys_appendTraceLine _ _ _).bind fun _ => obeys_readState.bind fun s => ?_
  cases c.top with
  | none => exact (obeys_updateContext _ _).bind fun _ => obeys_addTraceFinding _ _ _
  | some top =>
    dsimp only
    cases stackedNode s top with
    | none => exact obeys_fail _
    | some x =>
      refine Obeys.ite ?_ (obeys_updateContext _ _)
      exact (obeys_updateContext _ _).bind fun _ => obeys_addTraceFinding _ _ _

theorem obeys_reportOpenCalls (fuel : ℕ) (top : Option ℕ) : Obeys r (reportOpenCalls fuel top) := by
  induction fuel generalizing top with
  | zero =>
    cases top with
    | none => exact obeys_pure _
    | some top => exact obeys_fail _
  | succ fuel ih =>
    cases top with
    | none => exact obeys_pure _
    | some top =>
      refine obeys_readState.bind fun s => ?_
      cases stackedNode s top with
      | none => exact obeys_fail _
      | some x => exact (obeys_addTraceFinding _ _ _).bind fun _ => ih _

end Object

theorem obeys_traceEnter (index : ℕ) (node : Node) (context : ℕ) (c : TraceContext) :
    Obeys (OnObject TraceChange) (traceEnter index node context c) := by
  refine (obeys_appendTraceLine _ _ _).bind fun _ => obeys_readState.bind fun s => ?_
  refine Obeys.bind (obeys_updateState fun s => ?_) fun _ => obeys_updateContext _ _
  exact refl_of TraceChange s.1

theorem obeys_traceNode (x : Node × ℕ) : Obeys (OnObject TraceChange) (traceNode x) := by
  refine Obeys.ite (obeys_traceFork _) (Obeys.ite (obeys_pure _) ?_)
  refine Obeys.bind (obeys_updateState fun s => .of_eq rfl rfl rfl rfl rfl rfl rfl) fun _ => ?_
  refine (obeys_traceContext _ _).bind fun context => obeys_readState.bind fun s => ?_
  dsimp only
  cases s.1.traceContexts[context]? with
  | none => exact obeys_fail _
  | some c => exact Obeys.ite (obeys_traceEnter _ _ _ _) (obeys_traceExit _ _ _)

theorem obeys_analyzeTrace : Obeys TraceChange analyzeTrace := by
  refine Obeys.withLocals ((obeys_allocateAll 2).bind fun _ => Obeys.ite ?_ (obeys_fail _))
  refine obeys_readState.bind fun s => (obeys_forEach obeys_traceNode _).bind fun _ => ?_
  exact obeys_readState.bind fun s => obeys_forEach (fun c => obeys_reportOpenCalls _ _) _

theorem obeys_sanitizeLine {r : Analysis → Analysis → Prop} [AdmitsFindings .sanitizer r] (x : Text × ℕ) :
    Obeys r (sanitizeLine x) := by
  refine Obeys.bind (obeys_updateState fun a => AdmitsFindings.counts .sanitizer a _ _ _ _ _) fun _ => ?_
  cases findReport x.1 with
  | none => exact obeys_pure _
  | some report =>
    refine (AdmitsFindings.addFinding _ _ _ _ _ _).bind fun _ => obeys_updateState fun a => ?_
    exact AdmitsFindings.counts .sanitizer a _ _ _ _ _

theorem obeys_analyzeSanitizer {r : Analysis → Analysis → Prop} [Admits .sanitizer r]
    (file : Option SanitizerFile) : Obeys r (analyzeSanitizer file) := by
  cases file with
  | none => exact obeys_pure _
  | some file =>
    refine Obeys.ite ?_ (Obeys.bind (obeys_forEach obeys_sanitizeLine _) fun _ =>
      Obeys.ite (obeys_fail _) (Obeys.ite (obeys_fail _) (obeys_pure _)))
    exact Obeys.bind (obeys_updateState fun a => Admits.trouble .sanitizer a) fun _ => obeys_fail _

/-- The passes after `build_causal_order`. -/
def passes (file : Option SanitizerFile) : Routine Analysis Unit := do
  analyzeResources
  analyzeSynchronization
  analyzeTrace
  analyzeSanitizer file

theorem obeys_passes (file : Option SanitizerFile) : Obeys PassChange (passes file) := by
  have htrace : Obeys PassChange analyzeTrace := fun w => (obeys_analyzeTrace w).imp TraceChange.toPassChange id
  exact obeys_analyzeResources.bind fun _ => obeys_analyzeSynchronization.bind fun _ =>
    htrace.bind fun _ => obeys_analyzeSanitizer file

variable {lib : RecordLibrary}

/-- What a successful run leaves of the order: all nodes in the causal order, or no node when
the causal graph has a cycle. -/
structure Ran (model : Model) (analysis : Analysis) : Prop where
  ofModel : analysis.model = model
  counted : analysis.Counted
  bounded : analysis.Bounded
  ordered : ∀ x ∈ analysis.ordered.getD [], model.nodes[x.originalIndex]? = some x.node
  order : IsCausalOrder model analysis.order ∧ analysis.orderedCount = model.nodes.length ∨
    ¬ IsAcyclic model ∧ analysis.orderedCount = 0

theorem length_ordered_of_isCausalOrder {model : Model} {analysis : Analysis}
    (horder : IsCausalOrder model analysis.order) : (analysis.ordered.getD []).length = model.nodes.length := by
  have hperm := horder.perm.length_eq
  rwa [Analysis.order, List.length_map, List.length_range] at hperm

/-- A node stands in the order where it was put. -/
theorem idxOf_originalIndex {model : Model} {analysis : Analysis} (horder : IsCausalOrder model analysis.order) {k : ℕ}
    (hk : k < (analysis.ordered.getD []).length) :
    analysis.order.idxOf ((analysis.ordered.getD [])[k]).originalIndex = k := by
  have hnodup : analysis.order.Nodup := horder.perm.nodup_iff.mpr List.nodup_range
  have hlt : k < analysis.order.length := by rwa [Analysis.order, List.length_map]
  have hget : analysis.order[k] = ((analysis.ordered.getD [])[k]).originalIndex := by simp [Analysis.order]
  rw [← hget, hnodup.idxOf_getElem]

theorem buildCausalOrder_ok {model : Model} (hsound : Sound model) {outcomes : List Bool} {w : World Analysis}
    (h : buildCausalOrder ⟨{ model := model }, outcomes⟩ = (.ok (), w)) : Ran model w.state := by
  by_cases hrefused : false ∈ outcomes.take 6
  · rw [buildCausalOrder_refused { model := model } outcomes hsound hrefused] at h
    cases h
  · obtain ⟨order, hemitted, hrun⟩ := buildCausalOrder_granted { model := model } outcomes hsound hrefused
    rw [hrun] at h
    obtain ⟨-, rfl⟩ := Prod.mk.inj h
    have hlength := hemitted.length_eq_iff hsound
    unfold Analysis.concluded
    dsimp only
    split
    · next hall =>
      have horder := hemitted.isCausalOrder hsound (hemitted.mem_of_length hall)
      refine ⟨rfl, fun policy => rfl, ⟨Nat.le_refl 0, Nat.zero_le _⟩, fun x hx => mem_orderedOf hx, .inl ⟨?_, rfl⟩⟩
      have hindices : Analysis.order { ({ model := model } : Analysis).withOrder order with
          orderedCount := model.nodes.length } = order := map_originalIndex_orderedOf hemitted.lt_length
      rw [hindices]
      exact horder.1
    · next hshort =>
      have hcyclic : ¬ IsAcyclic model := fun h => hshort (hlength.mpr h)
      exact ⟨rfl, fun policy => rfl, ⟨Nat.le_refl 0, Nat.zero_le _⟩, fun x hx => mem_orderedOf hx, .inr ⟨hcyclic, rfl⟩⟩

theorem PassChange.ran {model : Model} {a a' : Analysis} (h : PassChange a a') (hran : Ran model a) :
    Ran model a' := by
  have horder : a'.order = a.order := by rw [Analysis.order, Analysis.order, h.ordered]
  refine ⟨h.model.trans hran.ofModel, h.counted hran.counted, h.bounded hran.bounded, ?_, ?_⟩
  · rw [h.ordered]
    exact hran.ordered
  · rw [horder, h.orderedCount]
    exact hran.order

theorem runAnalysis_ok {model : Model} (hmodel : Finished lib model) {file : Option SanitizerFile}
    {outcomes : List Bool} {w : World Analysis}
    (h : runAnalysis file ⟨{ model := model }, outcomes⟩ = (.ok (), w)) : Ran model w.state := by
  change (buildCausalOrder >>= fun _ => passes file) ⟨{ model := model }, outcomes⟩ = (.ok (), w) at h
  obtain ⟨⟨⟩, w₁, hbuild, hpasses⟩ := run_bind_eq_ok.mp h
  have hchange := (obeys_passes file w₁).1
  rw [hpasses] at hchange
  exact hchange.ran (buildCausalOrder_ok hmodel.reachable.sound hbuild)

def observedRun (records : List EventRecord) : Except Raised Unit × World Analysis :=
  runAnalysis none ⟨{ model := modelOf .standard records }, []⟩

theorem runAnalysis_eq_observedRun (records : List EventRecord) (h : (observedRun records).1 = .ok ()) :
    runAnalysis none ⟨{ model := modelOf .standard records }, []⟩ = (.ok (), (observedRun records).2) :=
  Prod.ext h rfl

end ToolEvent.ModelAnalysis
