import ToolEvent.TraceRuns

/-!
# Texts that do not fit

The passes copy some texts of the model to buffers of fixed sizes. The evidence of the
synchronization pass is cut to its buffer, while a text that is too long for one of the other
buffers stops the run. Granted its requests, a run stops for no other reason unless something is
used up.
-/

namespace ToolEvent.ModelAnalysis

open Fallible World RunModel

def isZeroAllocation (node : Node) : Bool :=
  node.recordKind = .alloc ∧ node.size = 0 ∧ (node.allocKind = .alloc ∨ node.allocKind = .realloc)

def ShortText (text : Text) : Prop := text.length < evidenceTextSize

instance (text : Text) : Decidable (ShortText text) := inferInstanceAs (Decidable (_ < _))

def lifecycleFindings (model : Model) : List Lifecycle.Finding :=
  (model.lifecycle.map Lifecycle.Model.findings).getD []

structure ResourceFits (nodes : List Node) (findings : List Lifecycle.Finding) : Prop where
  allocations : ∀ node ∈ nodes, isZeroAllocation node = true → ShortText node.ptr ∧ ShortText node.newPtr
  lifecycle : ∀ finding ∈ findings, ShortText finding.resourceClass ∧ ShortText finding.resourceId

/-- The nodes in the order that `build_causal_order` leaves. -/
def causalNodes (model : Model) : List Node := (buildCausalOrder ⟨{ model := model }, []⟩).2.state.orderedNodes

/-- The texts that the passes copy to buffers of fixed sizes fit. -/
structure TextsFit (model : Model) : Prop where
  resources : ResourceFits (causalNodes model) (lifecycleFindings model)
  calls : TraceFits (causalNodes model)

theorem fitsEvidence_some {text : Text} : fitsEvidence (some text) = true ↔ ShortText text := by
  rw [fitsEvidence, Option.all_some, decide_eq_true_iff, ShortText]

/-- A routine that goes on only when the texts fit and, granted its requests, stops for no other
reason unless something is used up. -/
def Copies (x : Routine Analysis Unit) (w : World Analysis) (fits : Prop) : Prop :=
  Ends x w (fun _ w' => fits ∧ w'.outcomes <:+ w.outcomes) (fun w' => w.outcomes = [] → ¬ fits ∨ Stuck w'.state)

theorem copies_addFinding (identifier : Text) (policy : Policy) (message : Text) (node : Option Node)
    (source target : Text) (w : World Analysis) :
    Copies (addFinding identifier policy message node (some source) (some target) none) w
      (ShortText source ∧ ShortText target) := by
  have hfits : (fitsEvidence (some source) ∧ fitsEvidence (some target) ∧ fitsEvidence none) ↔
      ShortText source ∧ ShortText target := by
    rw [fitsEvidence_some, fitsEvidence_some]
    exact and_congr_right fun _ => and_iff_left rfl
  refine (ends_addFinding identifier policy message node (some source) (some target) none w).imp
    (fun _ w' hw' => ⟨hfits.mp hw'.1, hw'.2.1⟩) fun w' hw' hgranted => ?_
  rw [hfits] at hw'
  exact (hw' hgranted).imp id .inl

/-- A run that copies after a part that asked for something. -/
theorem Copies.after {x : Routine Analysis Unit} {w w' : World Analysis} {fits : Prop} (h : Copies x w' fits)
    (hsuffix : w'.outcomes <:+ w.outcomes) :
    Ends x w' (fun _ v => fits ∧ v.outcomes <:+ w.outcomes) (fun v => w.outcomes = [] → ¬ fits ∨ Stuck v.state) :=
  Ends.imp h (fun _ _ hv => ⟨hv.1, hv.2.trans hsuffix⟩) fun _ hv hgranted =>
    hv (List.suffix_nil.mp (hgranted ▸ hsuffix))

theorem Copies.bind {x y : Routine Analysis Unit} {w : World Analysis} {fits fits' : Prop} (hx : Copies x w fits)
    (hy : ∀ w', Copies y w' fits') : Copies (x >>= fun _ => y) w (fits ∧ fits') := by
  refine (Ends.imp hx (fun _ _ h => h) fun w' hw' hgranted => (hw' hgranted).imp (fun hnot h => hnot h.1) id).bind
    fun _ w' hw' => ?_
  exact ((hy w').after hw'.2).imp (fun _ v hv => ⟨⟨hw'.1, hv.1⟩, hv.2⟩) fun v hv hgranted =>
    (hv hgranted).imp (fun hnot h => hnot h.2) id

theorem copies_forEach {ι : Type} {f : ι → Routine Analysis Unit} {fits : ι → Prop}
    (h : ∀ i w, Copies (f i) w (fits i)) (is : List ι) (w : World Analysis) :
    Copies (forEach f is) w (∀ i ∈ is, fits i) := by
  induction is generalizing w with
  | nil => exact ends_pure ⟨fun i hi => absurd hi List.not_mem_nil, List.suffix_rfl⟩
  | cons i is ih =>
    have hboth := (h i w).bind ih
    rwa [← List.forall_mem_cons] at hboth

theorem copies_analyzeResourceNode (node : Node) (w : World Analysis) :
    Copies (analyzeResourceNode node) w
      (isZeroAllocation node = true → ShortText node.ptr ∧ ShortText node.newPtr) := by
  unfold Copies analyzeResourceNode
  refine Ends.bind (R := fun _ w' => w'.outcomes <:+ w.outcomes) ?_ fun _ w' hsuffix => ?_
  · exact Ends.ite (fun _ => ends_updateState List.suffix_rfl) fun _ => ends_pure List.suffix_rfl
  · refine Ends.ite (fun hzero => ?_) fun hother => ?_
    · have hfits : (isZeroAllocation node = true → ShortText node.ptr ∧ ShortText node.newPtr) ↔
          ShortText node.ptr ∧ ShortText node.newPtr := forall_prop_of_true (decide_eq_true hzero)
      rw [hfits]
      exact (copies_addFinding _ _ _ _ _ _ w').after hsuffix
    · exact ends_pure ⟨fun hzero => absurd (of_decide_eq_true hzero) hother, hsuffix⟩

theorem copies_analyzeLifecycleFinding (finding : Lifecycle.Finding) (w : World Analysis) :
    Copies (analyzeLifecycleFinding finding) w (ShortText finding.resourceClass ∧ ShortText finding.resourceId) :=
  ends_readState_bind (copies_addFinding _ _ _ _ _ _ w)

theorem copies_analyzeResources (w : World Analysis) : Copies analyzeResources w
    (ResourceFits w.state.orderedNodes (lifecycleFindings w.state.model)) := by
  have hloops := (copies_forEach copies_analyzeResourceNode w.state.orderedNodes
    ⟨{ w.state with resourceRecords := 0 }, w.outcomes⟩).bind
      (copies_forEach copies_analyzeLifecycleFinding (lifecycleFindings w.state.model))
  have hfits : ResourceFits w.state.orderedNodes (lifecycleFindings w.state.model) ↔ _ :=
    ⟨fun h => And.intro h.allocations h.lifecycle, fun h => ⟨h.1, h.2⟩⟩
  rw [hfits]
  exact ends_updateState_bind (ends_readState_bind hloops)

theorem PassChange.orderedNodes_eq {a a' : Analysis} (h : PassChange a a') : a'.orderedNodes = a.orderedNodes := by
  rw [Analysis.orderedNodes, Analysis.orderedNodes, h.ordered, h.orderedCount]

/-- The synchronization pass cuts its texts, so that it stops only when the findings do not fit. -/
theorem analyzeSynchronization_stuck {analysis : Analysis} {e : Raised} {w : World Analysis}
    (h : analyzeSynchronization ⟨analysis, []⟩ = (.error e, w)) : Stuck w.state :=
  .inl (Ends.error (inserts_analyzeSynchronization analysis) h).1

variable {lib : RecordLibrary} {model : Model}

/-- What the passes after `build_causal_order` come to when nothing is refused. -/
theorem ends_passes {analysis : Analysis} (hempty : analysis.traceContexts = []) :
    Ends (passes none) ⟨analysis, []⟩
      (fun _ _ => ResourceFits analysis.orderedNodes (lifecycleFindings analysis.model) ∧
        TraceFits analysis.orderedNodes)
      (fun w => ¬ (ResourceFits analysis.orderedNodes (lifecycleFindings analysis.model) ∧
        TraceFits analysis.orderedNodes) ∨ Stuck w.state) := by
  have hresources := copies_analyzeResources ⟨analysis, []⟩
  refine Ends.bind (R := fun _ w' => ResourceFits analysis.orderedNodes (lifecycleFindings analysis.model) ∧
    w'.outcomes = [] ∧ PassChange analysis w'.state ∧ Untraced analysis w'.state) ?_ fun _ w₂ hw₂ => ?_
  · refine ends_of (fun _ w' hrun => ?_) fun e w' hrun => ?_
    · have hchange := (obeys_analyzeResources (r := PassChange) ⟨analysis, []⟩).1
      have huntraced := (obeys_analyzeResources (r := Untraced) ⟨analysis, []⟩).1
      rw [hrun] at hchange huntraced
      obtain ⟨hfits, hsuffix⟩ := Ends.ok hresources hrun
      exact ⟨hfits, List.suffix_nil.mp hsuffix, hchange, huntraced⟩
    · exact (Ends.error hresources hrun rfl).imp (fun hnot h => hnot h.1) id
  · obtain ⟨hfits, hgranted, hchange, huntraced⟩ := hw₂
    obtain ⟨a₂, outcomes⟩ := w₂
    obtain rfl : outcomes = [] := hgranted
    refine Ends.bind (R := fun _ w' => w'.outcomes = [] ∧ PassChange analysis w'.state ∧
      Untraced analysis w'.state) ?_ fun _ w₃ hw₃ => ?_
    · refine ends_of (fun _ w' hrun => ?_) fun e w' hrun => .inr (analyzeSynchronization_stuck hrun)
      have hchange₂ := obeys_analyzeSynchronization (r := PassChange) ⟨a₂, []⟩
      have huntraced₂ := (obeys_analyzeSynchronization (r := Untraced) ⟨a₂, []⟩).1
      rw [hrun] at hchange₂ huntraced₂
      exact ⟨List.suffix_nil.mp hchange₂.2, trans_of PassChange hchange hchange₂.1,
        trans_of Untraced huntraced huntraced₂⟩
    · obtain ⟨hgranted₃, hchange₃, huntraced₃⟩ := hw₃
      obtain ⟨a₃, outcomes⟩ := w₃
      obtain rfl : outcomes = [] := hgranted₃
      have htrace := ends_analyzeTrace (huntraced₃.1.trans hempty) []
      rw [hchange₃.orderedNodes_eq] at htrace
      refine (htrace.imp (fun _ _ h => h) fun w' hw' => (hw' rfl).imp (fun hnot h => hnot h.2) id).bind
        fun _ w₄ hw₄ => ?_
      exact ends_pure ⟨hfits, hw₄.1⟩

/-- Granted its requests, a run without a sanitizer file succeeds only when the texts fit their
buffers, and fails only when one of them does not or something is used up. -/
theorem runAnalysis_texts (hmodel : Finished lib model) :
    (∀ w, runAnalysis none ⟨{ model := model }, []⟩ = (.ok (), w) → TextsFit model) ∧
      ∀ e w, runAnalysis none ⟨{ model := model }, []⟩ = (.error e, w) → ¬ TextsFit model ∨ Stuck w.state := by
  obtain ⟨order, -, hbuild⟩ := buildCausalOrder_granted { model := model } [] hmodel.reachable.sound List.not_mem_nil
  have huntraced := buildCausalOrder_untraced hmodel.reachable.sound hbuild
  have hran := buildCausalOrder_ok hmodel.reachable.sound hbuild
  have hnodes : causalNodes model = (Analysis.concluded { model := model } order).orderedNodes := by
    rw [causalNodes, hbuild]
  have hrun : runAnalysis none ⟨{ model := model }, []⟩ =
      passes none ⟨Analysis.concluded { model := model } order, []⟩ := run_bind_of_ok hbuild
  have hpasses : Ends (passes none) ⟨Analysis.concluded { model := model } order, []⟩ _ _ := ends_passes huntraced.1
  have hmodelKept : (Analysis.concluded { model := model } order).model = model := hran.ofModel
  have hfits : TextsFit model ↔ ResourceFits (Analysis.concluded { model := model } order).orderedNodes
      (lifecycleFindings (Analysis.concluded { model := model } order).model) ∧
        TraceFits (Analysis.concluded { model := model } order).orderedNodes := by
    rw [hmodelKept, ← hnodes]
    exact ⟨fun h => ⟨h.resources, h.calls⟩, fun h => ⟨h.1, h.2⟩⟩
  rw [hrun, hfits]
  exact ⟨fun w hok => Ends.ok hpasses hok, fun e w herror => Ends.error hpasses herror⟩

theorem runAnalysis_texts_leftTwice :
    (∀ w, runAnalysis none ⟨{ model := modelOf .standard leftTwice }, []⟩ = (.ok (), w) →
        TextsFit (modelOf .standard leftTwice)) ∧
      ∀ e w, runAnalysis none ⟨{ model := modelOf .standard leftTwice }, []⟩ = (.error e, w) →
        ¬ TextsFit (modelOf .standard leftTwice) ∨ Stuck w.state :=
  runAnalysis_texts (finished_modelOf _ (by decide))

theorem runAnalysis_eq_failedRun (records : List EventRecord) {e : Raised} (h : (observedRun records).1 = .error e) :
    runAnalysis none ⟨{ model := modelOf .standard records }, []⟩ = (.error e, (observedRun records).2) :=
  Prod.ext h rfl

/-- An allocation of size zero whose pointer has as many bytes as the buffer. -/
def longPointer : EventRecord :=
  { recordKind := .alloc, runId := some (.ofString "run"), pid := 1, contextId := 1, sequence := 1
    ptr := some ⟨List.replicate 192 102, by decide⟩ }

theorem runAnalysis_longPointer :
    Finished .standard (modelOf .standard [longPointer]) ∧ IsAcyclic (modelOf .standard [longPointer]) ∧
      (observedRun [longPointer]).1 = .error (.errno .eoverflow) ∧ ¬ TextsFit (modelOf .standard [longPointer]) ∧
      ¬ Stuck (observedRun [longPointer]).2.state := by
  have hfinished : Finished .standard (modelOf .standard [longPointer]) := finished_modelOf _ (by decide +kernel)
  have hacyclic : IsAcyclic (modelOf .standard [longPointer]) := isAcyclic_of_edges_eq_nil (by decide +kernel)
  have hfails : (observedRun [longPointer]).1 = .error (.errno .eoverflow) := by decide +kernel
  have hcapacity : (observedRun [longPointer]).2.state.findingCapacity = 16 := by decide +kernel
  have htree : (observedRun [longPointer]).2.state.traceTree = .empty := by decide +kernel
  have hslots : (observedRun [longPointer]).2.state.orderedCount = 1 := by decide +kernel
  have htable : (observedRun [longPointer]).2.state.traceContexts = [] := by decide +kernel
  have hstuck : ¬ Stuck (observedRun [longPointer]).2.state := by
    rintro (hexhausted | hfull | ⟨node, -, key, -, -, hrefused⟩)
    · rw [Analysis.Exhausted, hcapacity] at hexhausted
      exact absurd hexhausted (by decide)
    · rw [Analysis.TreeFull, htree] at hfull
      exact absurd hfull (by decide)
    · rw [hslots, htable] at hrefused
      exact absurd hrefused (by decide)
  have hlong := (runAnalysis_texts hfinished).2 _ _ (runAnalysis_eq_failedRun [longPointer] hfails)
  exact ⟨hfinished, hacyclic, hfails, hlong.resolve_right hstuck, hstuck⟩

end ToolEvent.ModelAnalysis
