import ToolEvent.AnalysisHistory
import ToolEvent.FindingCauses
import ToolEvent.ResourceAccounts
import ToolEvent.ResourceReports

/-!
# What a run reports of each policy

A run of the analysis that succeeds reports of the resources every allocation of size zero in its order and
every finding of the lifecycle, and of the sanitizers every line that announces a report, each once. The
status of the resource policy is that of a clean model exactly if the causal graph has no cycle, no
allocation is of size zero and the account of every resource is clean.
-/

namespace ToolEvent.ModelAnalysis

open Fallible World RunModel Lifecycle

variable {lib : RecordLibrary} {model : RunModel.Model} {a b c : Analysis} {w : World Analysis}

theorem ends_addFinding_reported (identifier : Text) (policy : Policy) (message : Text) (node : Option Node)
    (source target detail : Option Text) (w : World Analysis) :
    Ends (addFinding identifier policy message node source target detail) w
      (fun _ w' => Reported w.state [newFinding identifier policy message node source target detail] w'.state)
      fun _ => True := by
  refine ((ends_reserveFindings w).imp (fun _ _ h => h) fun _ _ => trivial).bind fun _ w' ⟨_, _, hstate, _⟩ =>
    Ends.ite (fun _ => ends_updateState ?_) fun _ => ends_fail trivial
  rw [hstate]
  exact ⟨rfl, rfl, rfl, rfl⟩

theorem ends_forEach_reported {ι : Type} {f : ι → Routine Analysis Unit} {fs : ι → List Finding} {is : List ι}
    (h : ∀ i gs v, Reported w.state gs v.state → Ends (f i) v (fun _ v' => Reported v.state (fs i) v'.state) fun _ => True) :
    Ends (forEach f is) w (fun _ v => Reported w.state (is.flatMap fs) v.state) fun _ => True := by
  apply ends_forEach (fun before v => Reported w.state (before.flatMap fs) v.state)
  · intro before i after v _ hv
    refine (h i _ v hv).imp (fun _ v' hv' => ?_) fun _ _ => trivial
    rw [List.flatMap_append, List.flatMap_singleton]
    exact hv.trans hv'
  · exact .refl _

theorem ends_sanitizeLine_reported (x : Text × ℕ) (w : World Analysis) :
    Ends (sanitizeLine x) w (fun _ w' => Reported w.state (lineReport x).toList w'.state) fun _ => True := by
  apply ends_updateState_bind
  rw [lineReport]
  cases hreport : findReport x.1 with
  | none => exact ends_pure ⟨rfl, rfl, rfl, (List.append_nil _).symm⟩
  | some report =>
    refine (ends_addFinding_reported _ _ _ _ _ _ _ _).bind fun _ v hv => ends_updateState ?_
    exact ⟨hv.model, hv.ordered, hv.orderedCount, hv.findings⟩

theorem ends_analyzeSanitizer (file : Option SanitizerFile) (w : World Analysis) :
    Ends (analyzeSanitizer file) w
      (fun _ w' => Reported w.state (sanitizerFindings file) w'.state ∧ w'.state.trouble = w.state.trouble)
      fun _ => True := by
  cases file with
  | none => exact ends_pure ⟨.refl _, rfl⟩
  | some file =>
    refine Ends.ite (fun _ => ends_updateState_bind (ends_fail trivial)) fun _ => ?_
    have hlines := @ends_forEach_reported w (Text × ℕ) sanitizeLine (fun x => (lineReport x).toList) file.lines.zipIdx
      fun x _ v _ => ends_sanitizeLine_reported x v
    have htrouble : Obeys SameTrouble (forEach sanitizeLine file.lines.zipIdx) := obeys_forEach obeys_sanitizeLine _
    have hboth := hlines.and (htrouble.ends w)
    refine (hboth.imp (fun _ _ h => h) fun _ _ => trivial).bind fun _ v hv =>
      Ends.ite (fun _ => ends_fail trivial) fun _ => Ends.ite (fun _ => ends_fail trivial) fun _ => ends_pure ?_
    have hreports : file.lines.zipIdx.flatMap (fun x => (lineReport x).toList) = sanitizerFindings (some file) := by
      rw [sanitizerFindings, List.filterMap_eq_flatMap_toList]
      rfl
    rw [← hreports]
    exact ⟨hv.1, hv.2.1⟩

/-- Findings of other policies leave those of the policy. -/
theorem filter_findings_eq (hchange : PassChange a b) (hcounted : a.Counted) {policy : Policy}
    (hcount : b.policyCounts policy = a.policyCounts policy) :
    (b.findings.filter fun finding => finding.policy = policy) = a.findings.filter fun finding => finding.policy = policy := by
  have hsame := hchange.findings.filter fun finding => decide (finding.policy = policy)
  have hlength := hchange.counted hcounted policy
  rw [hcount, hcounted policy] at hlength
  exact (hsame.eq_of_length hlength).symm

theorem policy_of_mem_resourceFindings {analysis : Analysis} : ∀ finding ∈ resourceFindings analysis,
    finding.policy = .resource := by
  intro finding hfinding
  rcases List.mem_append.mp hfinding with hempty | hlifecycle
  · obtain ⟨node, -, rfl⟩ := List.mem_map.mp hempty
    rfl
  · obtain ⟨cause, -, rfl⟩ := List.mem_map.mp hlifecycle
    rfl

theorem policy_of_mem_sanitizerFindings {file : Option SanitizerFile} : ∀ finding ∈ sanitizerFindings file,
    finding.policy = .sanitizer := by
  intro finding hfinding
  obtain ⟨x, -, hx⟩ := List.mem_filterMap.mp hfinding
  obtain ⟨report, -, rfl⟩ := Option.map_eq_some_iff.mp hx
  rfl

theorem filter_policy {policy : Policy} {findings : List Finding} (h : ∀ finding ∈ findings, finding.policy = policy)
    (other : Policy) : (findings.filter fun finding => finding.policy = other) = if policy = other then findings else [] := by
  split
  · next hsame =>
    apply List.filter_eq_self.mpr
    intro finding hfinding
    exact decide_eq_true ((h finding hfinding).trans hsame)
  · next hother =>
    apply List.filter_eq_nil_iff.mpr
    intro finding hfinding hpolicy
    exact hother ((h finding hfinding).symm.trans (of_decide_eq_true hpolicy))

/-- What `build_causal_order` leaves when it returns 0. -/
structure OrderBuilt (model : RunModel.Model) (outcomes : List Bool) (w : World Analysis) : Prop where
  ran : Ran model w.state
  findings : w.state.findings = []
  doubled : w.state.Doubled
  trouble : w.state.trouble = false ↔ IsAcyclic model
  suffix : w.outcomes <:+ outcomes

theorem orderBuilt_of_ok (hsound : Sound model) {outcomes : List Bool}
    (h : buildCausalOrder ⟨{ model := model }, outcomes⟩ = (.ok (), w)) : OrderBuilt model outcomes w := by
  have hran := buildCausalOrder_ok hsound h
  by_cases hrefused : false ∈ outcomes.take 6
  · rw [buildCausalOrder_refused { model := model } outcomes hsound hrefused] at h
    cases h
  · obtain ⟨order, hemitted, hrun⟩ := buildCausalOrder_granted { model := model } outcomes hsound hrefused
    rw [hrun] at h
    obtain ⟨-, rfl⟩ := Prod.mk.inj h
    have hlength : order.length = model.nodes.length ↔ IsAcyclic model := hemitted.length_eq_iff hsound
    have hsuffix := List.drop_suffix 6 outcomes
    rw [Analysis.concluded] at hran ⊢
    dsimp only at hran ⊢
    split
    · next hall =>
      rw [if_pos hall] at hran
      exact ⟨hran, rfl, ⟨Nat.le_refl 0, .inl rfl⟩, iff_of_true rfl (hlength.mp hall), hsuffix⟩
    · next hshort =>
      rw [if_neg hshort] at hran
      exact ⟨hran, rfl, ⟨Nat.le_refl 0, .inl rfl⟩, iff_of_false (by simp) (mt hlength.mpr hshort), hsuffix⟩

/-- What the passes of the other policies keep of the findings of a policy. -/
structure Leaves (policy : Policy) (a b : Analysis) : Prop extends PassChange a b where
  count : b.policyCounts policy = a.policyCounts policy

theorem Leaves.trans {policy : Policy} (h : Leaves policy a b) (h' : Leaves policy b c) : Leaves policy a c :=
  ⟨trans_of PassChange h.toPassChange h'.toPassChange, h'.count.trans h.count⟩

theorem PassChange.resourceFindings_eq (h : PassChange a b) : resourceFindings b = resourceFindings a := by
  rw [resourceFindings, resourceFindings, h.orderedNodes_eq, h.model, lifecycleReport_congr h.ordered h.orderedCount]

/-- The worlds that a run that succeeds goes through: its order is built, and then the passes over the
resources, the synchronization, the trace and the sanitizers follow. -/
structure Stages (model : RunModel.Model) (file : Option SanitizerFile) (outcomes : List Bool)
    (w₁ w₂ w₃ w₄ w : World Analysis) : Prop where
  built : OrderBuilt model outcomes w₁
  resources : analyzeResources w₁ = (.ok (), w₂)
  synchronization : analyzeSynchronization w₂ = (.ok (), w₃)
  trace : analyzeTrace w₃ = (.ok (), w₄)
  sanitizer : analyzeSanitizer file w₄ = (.ok (), w)

theorem exists_stages (hmodel : Finished lib model) {file : Option SanitizerFile} {outcomes : List Bool}
    (h : runAnalysis file ⟨{ model := model }, outcomes⟩ = (.ok (), w)) :
    ∃ w₁ w₂ w₃ w₄, Stages model file outcomes w₁ w₂ w₃ w₄ w := by
  change (buildCausalOrder >>= fun _ => passes file) ⟨{ model := model }, outcomes⟩ = (.ok (), w) at h
  obtain ⟨⟨⟩, w₁, hbuild, hpasses⟩ := run_bind_eq_ok.mp h
  obtain ⟨⟨⟩, w₂, hfirst, hrest⟩ := run_bind_eq_ok.mp hpasses
  obtain ⟨⟨⟩, w₃, hsecond, hrest⟩ := run_bind_eq_ok.mp hrest
  obtain ⟨⟨⟩, w₄, hthird, hlast⟩ := run_bind_eq_ok.mp hrest
  exact ⟨w₁, w₂, w₃, w₄, orderBuilt_of_ok hmodel.reachable.sound hbuild, hfirst, hsecond, hthird, hlast⟩

namespace Stages

variable {file : Option SanitizerFile} {outcomes : List Bool} {w₁ w₂ w₃ w₄ : World Analysis} {policy : Policy}

/-- The resource pass reports what it looks at. -/
theorem reported (h : Stages model file outcomes w₁ w₂ w₃ w₄ w) :
    Reported w₁.state (resourceFindings w₁.state) w₂.state := (Ends.ok (addsInTurn_analyzeResources h.built.doubled) h.resources).reported

theorem change (h : Stages model file outcomes w₁ w₂ w₃ w₄ w) : PassChange w₁.state w₂.state := by
  have hchange := (obeys_analyzeResources (r := PassChange) w₁).1
  rwa [h.resources] at hchange

theorem counted (h : Stages model file outcomes w₁ w₂ w₃ w₄ w) : w₂.state.Counted := h.change.counted h.built.ran.counted

theorem leaves_synchronization (h : Stages model file outcomes w₁ w₂ w₃ w₄ w) (hother : policy ≠ .synchronization) :
    Leaves policy w₂.state w₃.state := by
  have hchange := (obeys_analyzeSynchronization (r := PassChange) w₂).1
  have hcounts := (obeys_analyzeSynchronization (r := OnlyCounts .synchronization) w₂).1 policy hother
  rw [h.synchronization] at hchange hcounts
  exact ⟨hchange, hcounts⟩

theorem leaves_trace (h : Stages model file outcomes w₁ w₂ w₃ w₄ w) (hother : policy ≠ .trace) :
    Leaves policy w₃.state w₄.state := by
  have hchange := (obeys_analyzeTrace w₃).1
  rw [h.trace] at hchange
  exact ⟨hchange.toPassChange, hchange.counts policy hother⟩

theorem leaves_sanitizer (h : Stages model file outcomes w₁ w₂ w₃ w₄ w) (hother : policy ≠ .sanitizer) :
    Leaves policy w₄.state w.state := by
  have hchange := (obeys_analyzeSanitizer (r := PassChange) file w₄).1
  have hcounts := (obeys_analyzeSanitizer (r := OnlyCounts .sanitizer) file w₄).1 policy hother
  rw [h.sanitizer] at hchange hcounts
  exact ⟨hchange, hcounts⟩

theorem trouble (h : Stages model file outcomes w₁ w₂ w₃ w₄ w) : w.state.trouble = false ↔ IsAcyclic model := by
  have hfirst := (obeys_analyzeResources (r := SameTrouble) w₁).1
  have hsecond := (obeys_analyzeSynchronization (r := SameTrouble) w₂).1
  have hthird := (obeys_analyzeTrace w₃).1.sameTrouble
  have hlast := ((ends_analyzeSanitizer file w₄).ok h.sanitizer).2
  rw [h.resources] at hfirst
  rw [h.synchronization] at hsecond
  rw [h.trace] at hthird
  have hsame : w.state.trouble = w₁.state.trouble := ((hlast.trans hthird).trans hsecond).trans hfirst
  rw [hsame, h.built.trouble]

end Stages

/-- What a run that succeeds reports of the resources and of the sanitizers. -/
structure PolicyReports (file : Option SanitizerFile) (a : Analysis) : Prop where
  resource : (a.findings.filter fun finding => finding.policy = .resource) = resourceFindings a
  sanitizer : (a.findings.filter fun finding => finding.policy = .sanitizer) = sanitizerFindings file

theorem Stages.policyReports {file : Option SanitizerFile} {outcomes : List Bool} {w₁ w₂ w₃ w₄ : World Analysis}
    (h : Stages model file outcomes w₁ w₂ w₃ w₄ w) : PolicyReports file w.state where
  resource := by
    have hlater : Leaves .resource w₂.state w.state :=
      ((h.leaves_synchronization (by decide)).trans (h.leaves_trace (by decide))).trans (h.leaves_sanitizer (by decide))
    rw [filter_findings_eq hlater.toPassChange h.counted hlater.count, h.reported.findings, h.built.findings,
      List.nil_append, filter_policy policy_of_mem_resourceFindings, if_pos rfl]
    exact ((trans_of PassChange h.change hlater.toPassChange).resourceFindings_eq).symm
  sanitizer := by
    have hmiddle : Leaves .sanitizer w₂.state w₄.state :=
      (h.leaves_synchronization (by decide)).trans (h.leaves_trace (by decide))
    have hsanitizer := ((ends_analyzeSanitizer file w₄).ok h.sanitizer).1
    rw [hsanitizer.findings, List.filter_append, filter_policy policy_of_mem_sanitizerFindings, if_pos rfl,
      filter_findings_eq hmiddle.toPassChange h.counted hmiddle.count, h.reported.findings, h.built.findings,
      List.nil_append, filter_policy policy_of_mem_resourceFindings, if_neg (by decide), List.nil_append]

/-- A run that succeeds reports of the resources the allocations of size zero in their order and then the
findings of the lifecycle, and of the sanitizers the lines that announce a report, each once. -/
theorem reports_of_run (hmodel : Finished lib model) (file : Option SanitizerFile) (outcomes : List Bool)
    (w : World Analysis) (h : runAnalysis file ⟨{ model := model }, outcomes⟩ = (.ok (), w)) :
    PolicyReports file w.state := by
  obtain ⟨w₁, w₂, w₃, w₄, hstages⟩ := exists_stages hmodel h
  exact hstages.policyReports

def oneReport : SanitizerFile := { lines := ["start", "==1==ERROR: AddressSanitizer: heap"].map Text.ofString }

/-- The run of the passes on the model of some records, with a sanitizer file. -/
def sanitizedRun (file : SanitizerFile) (records : List EventRecord) : Except Raised Unit × World Analysis :=
  runAnalysis (some file) ⟨{ model := modelOf .standard records }, []⟩

theorem runAnalysis_eq_sanitizedRun (file : SanitizerFile) (records : List EventRecord)
    (h : (sanitizedRun file records).1 = .ok ()) :
    runAnalysis (some file) ⟨{ model := modelOf .standard records }, []⟩ =
      (.ok (), (sanitizedRun file records).2) :=
  Prod.ext h rfl

theorem reports_of_run_zeroAllocation :
    PolicyReports (some oneReport) (sanitizedRun oneReport [zeroAllocation]).2.state :=
  reports_of_run (finished_modelOf _ (by decide +kernel)) (some oneReport) [] _
    (runAnalysis_eq_sanitizedRun oneReport [zeroAllocation] (by decide +kernel))

def replayedRecords (nodes : List Node) : List EventRecord := (nodes.filter isReplayed).map recordFromNode

/-- The lifecycle of a finished model has no finding exactly if all accounts are clean. -/
theorem lifecycleFindings_eq_nil_iff (hmodel : Finished lib model) :
    lifecycleFindings model = [] ↔ ∀ key, (books lib (replayedRecords model.nodes) key).IsClean := by
  obtain ⟨outcomes, v, hreplay, hlifecycle⟩ := hmodel.finishedFrom.lifecycle
  obtain ⟨⟨⟩, u, hingest, hfinish⟩ := run_bind_eq_ok.mp hreplay
  have hsound : Lifecycle.Sound {} := (Lifecycle.Reachable.create : Lifecycle.Reachable lib {}).sound
  obtain ⟨hstore, hopened⟩ := ingestNodes_store hsound hingest
  have hend : v.state.store = u.state.store.finished := store_finish (hopened rfl) hfinish
  have hfindings : lifecycleFindings model = u.state.store.finished.findings := by
    rw [lifecycleFindings, hlifecycle, ← hend]
    rfl
  have hbooks : u.state.store.account = books lib (replayedRecords model.nodes) := Store.account_ingestAll hstore
  rw [hfindings, findings_finished_eq_nil_iff, hbooks]

/-- After a run that succeeds, the resource policy is clean exactly if the causal graph has no cycle, no
allocation is of size zero and the account of every resource is clean. -/
theorem resourceStatus_eq_zero_iff (hmodel : Finished lib model) (file : Option SanitizerFile) (outcomes : List Bool)
    (w : World Analysis) (h : runAnalysis file ⟨{ model := model }, outcomes⟩ = (.ok (), w)) :
    analysisPolicyStatus w.state .resource = 0 ↔
      IsAcyclic model ∧ (∀ node ∈ model.nodes, isZeroAllocation node = false) ∧
        ∀ key, (books lib (replayedRecords model.nodes) key).IsClean := by
  obtain ⟨w₁, w₂, w₃, w₄, hstages⟩ := exists_stages hmodel h
  have hran := runAnalysis_ok hmodel h
  rw [analysisPolicyStatus_eq_zero_iff, hstages.trouble]
  apply and_congr_right
  intro hacyclic
  have hcount := hran.counted .resource
  rw [hstages.policyReports.resource] at hcount
  have hnodes : (∀ node ∈ model.nodes, isZeroAllocation node = false) ↔
      w.state.orderedNodes.filter isZeroAllocation = [] := by
    rw [List.filter_eq_nil_iff]
    simp only [(hran.orderedNodes_perm hacyclic).mem_iff, Bool.not_eq_true]
  rw [hcount, List.length_eq_zero_iff, resourceFindings, List.append_eq_nil_iff, List.map_eq_nil_iff, List.map_eq_nil_iff,
    hnodes, hran.ofModel, lifecycleFindings_eq_nil_iff hmodel]

theorem resourceStatus_eq_zero_iff_failedExec :
    analysisPolicyStatus (observedRun failedExec).2.state .resource = 0 ↔
      IsAcyclic (modelOf .standard failedExec) ∧
        (∀ node ∈ (modelOf .standard failedExec).nodes, isZeroAllocation node = false) ∧
          ∀ key, (books .standard (replayedRecords (modelOf .standard failedExec).nodes) key).IsClean :=
  resourceStatus_eq_zero_iff (finished_modelOf _ (by decide +kernel)) none [] _
    (runAnalysis_eq_observedRun failedExec (by decide +kernel))

end ToolEvent.ModelAnalysis
