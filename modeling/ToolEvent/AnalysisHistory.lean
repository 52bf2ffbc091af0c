import Mathlib.Data.List.Permutation
import ToolEvent.IncompleteOrder
import ToolEvent.RunDemands

/-!
# Verdicts over the calls on an object

The verdict of an analysis object is read from its trouble flag and its findings, whatever the
calls of `p101_tool_analysis_run` on it returned. Most failing exits leave neither trouble nor a
finding of every policy, so that an object whose run failed can be reported as clean.
-/

namespace ToolEvent.ModelAnalysis

open Fallible World RunModel

/-- A call of `p101_tool_analysis_run`: the sanitizer file, and the outcomes of the requests. -/
structure RunCall where
  file : Option SanitizerFile := none
  outcomes : List Bool := []

/-- An analysis object, and whether a call on it has returned 0. -/
structure History where
  analysis : Analysis
  returned : Bool

def History.after (returned : Bool) (run : Except Raised Unit × World Analysis) : History :=
  ⟨run.2.state, returned || run.1.toBool⟩

def History.call (h : History) (c : RunCall) : History :=
  History.after h.returned (runAnalysis c.file ⟨h.analysis, c.outcomes⟩)

def neverRun (model : Model) : History := ⟨{ model := model }, false⟩

def historyOf (model : Model) (calls : List RunCall) : History := calls.foldl History.call (neverRun model)

/-- Clean, as a whole or for one policy, is said only after a call has returned 0. -/
def CleanAfterRun (h : History) : Prop :=
  (analysisStatus h.analysis = 0 ∨ ∃ policy, analysisPolicyStatus h.analysis policy = 0) → h.returned = true

/-- The call gets the array of the order, which makes every later call fail at once. -/
def RunCall.orders (c : RunCall) : Bool := c.outcomes.headD true

structure IsLeastCausalOrder (model : Model) (order : List ℕ) : Prop where
  causal : IsCausalOrder model order
  least : ∀ other, IsCausalOrder model other → order ≤ other

/-- An object that has the nodes in an order, and nothing else yet. -/
def orderedBy (model : Model) (order : List ℕ) : Analysis :=
  { ({ model := model } : Analysis).withOrder order with orderedCount := model.nodes.length }

def FirstAdded (findings : List Finding) (left : Supply) : Prop :=
  ∃ finding, findings.head? = some finding ∧ finding.Fits ∧ (left.hold finding).isSome = true

/-- With what the other passes have left, `analyze_sanitizer` does not take a failing exit that goes unnoticed. -/
inductive SanitizerSettles (left : Supply) : Option SanitizerFile → Prop
  | absent : SanitizerSettles left none
  | closed (file : SanitizerFile) (hopens : file.opens = false) : SanitizerSettles left (some file)
  | read (file : SanitizerFile) (hfits : ∀ finding ∈ sanitizerFindings (some file), finding.Fits)
      (hmet : (((sanitizerFindings (some file)).map .finding).foldlM Supply.meet left).isSome = true)
      (herrors : ¬ (file.readError ∨ file.closeError)) : SanitizerSettles left (some file)
  | reported (file : SanitizerFile)
      (hothers : ∀ policy, policy ≠ .sanitizer → ∃ finding ∈ left.room.findings, finding.policy = policy)
      (hfirst : FirstAdded (sanitizerFindings (some file)) left) : SanitizerSettles left (some file)

/-- The requests for the arrays of the order are granted, and if the graph has no cycle, the demands of the other
passes are met and their texts fit, up to the sanitizer file. -/
structure RunCall.Settles (model : Model) (c : RunCall) : Prop where
  granted : false ∉ c.outcomes.take 6
  settled : ∀ order, IsLeastCausalOrder model order → PassesFit (orderedBy model order) ∧
    ∃ left, (passDemands (orderedBy model order)).foldlM Supply.meet ⟨{}, c.outcomes.drop 6⟩ = some left ∧
      SanitizerSettles left c.file

variable {lib : RecordLibrary} {model : Model} {a a' : Analysis} {u w : World Analysis}

theorem analysisStatus_eq_zero_iff : analysisStatus a = 0 ↔ a.trouble = false ∧ a.findings = [] := by
  unfold analysisStatus
  cases a.trouble with
  | true => simp
  | false => rw [if_neg Bool.false_ne_true, ← List.length_eq_zero_iff]; split <;> simp_all

theorem analysisPolicyStatus_eq_zero_iff (policy : Policy) :
    analysisPolicyStatus a policy = 0 ↔ a.trouble = false ∧ a.policyCounts policy = 0 := by
  unfold analysisPolicyStatus
  cases a.trouble with
  | true => simp
  | false => rw [if_neg Bool.false_ne_true]; split <;> simp_all

theorem Analysis.Counted.ne_zero_iff (h : a.Counted) (policy : Policy) :
    a.policyCounts policy ≠ 0 ↔ ∃ finding ∈ a.findings, finding.policy = policy := by
  rw [h policy, Nat.ne_zero_iff_zero_lt, List.length_filter_pos_iff]
  simp only [decide_eq_true_eq]

/-- A failed run is not taken for a clean one when there is trouble or every policy has a finding. -/
theorem cleanAfterRun_failed_iff (h : a.Counted) :
    CleanAfterRun ⟨a, false⟩ ↔ (a.trouble = false → ∀ policy, a.policyCounts policy ≠ 0) := by
  simp only [CleanAfterRun, analysisStatus_eq_zero_iff, analysisPolicyStatus_eq_zero_iff, Bool.false_eq_true, imp_false]
  constructor
  · intro hclean htrouble policy hzero
    exact hclean (.inr ⟨policy, htrouble, hzero⟩)
  · rintro hcounts (⟨htrouble, hempty⟩ | ⟨policy, htrouble, hzero⟩)
    · apply hcounts htrouble .resource
      rw [h .resource, hempty]
      rfl
    · exact hcounts htrouble policy hzero

theorem History.after_error (e : Raised) (w : World Analysis) : History.after false (.error e, w) = ⟨w.state, false⟩ := rfl

theorem cleanAfterRun_returned : CleanAfterRun ⟨a, true⟩ := fun _ => rfl

/-- An object whose order was allocated takes no further run. -/
theorem call_of_ordered {h : History} (hordered : h.analysis.ordered.isSome = true) (c : RunCall) : h.call c = h := by
  have hrun : runAnalysis c.file ⟨h.analysis, c.outcomes⟩ = (.error (.errno .einval), ⟨h.analysis, c.outcomes⟩) := by
    rw [runAnalysis, run_readState_bind, if_pos hordered]
    rfl
  rw [History.call, hrun, History.after]
  exact congrArg (History.mk h.analysis) (Bool.or_false _)

theorem foldl_call_of_ordered {h : History} (hordered : h.analysis.ordered.isSome = true) (calls : List RunCall) :
    calls.foldl History.call h = h := by
  induction calls with
  | nil => rfl
  | cons c calls ih => rw [List.foldl_cons, call_of_ordered hordered, ih]

theorem runAnalysis_eq_passes (file : Option SanitizerFile) (outcomes : List Bool) :
    runAnalysis file ⟨{ model := model }, outcomes⟩ =
      (buildCausalOrder >>= fun _ => passes file) ⟨{ model := model }, outcomes⟩ := rfl

/-- A call that fails because one of the arrays of the order is refused. -/
theorem call_of_refused (hsound : Sound model) {c : RunCall} (hrefused : false ∈ c.outcomes.take 6) :
    (neverRun model).call c =
      ⟨{ model := model, ordered := if c.outcomes.headD true then some [] else none }, false⟩ := by
  have hbuild := buildCausalOrder_refused { model := model } c.outcomes hsound hrefused
  rw [History.call, neverRun, runAnalysis_eq_passes, run_bind_of_error hbuild]
  rfl

/-- Without the array of the order a call leaves the object as it was. -/
theorem call_of_not_orders (hsound : Sound model) {c : RunCall} (horders : c.orders = false) :
    (neverRun model).call c = neverRun model := by
  obtain ⟨file, outcomes⟩ := c
  obtain ⟨rest, rfl⟩ : ∃ rest, outcomes = false :: rest := by
    cases outcomes with
    | nil => cases horders
    | cons first rest => exact ⟨rest, congrArg (· :: rest) horders⟩
  exact call_of_refused hsound List.mem_cons_self

/-- With it, the object takes no further call. -/
theorem ordered_of_orders (hsound : Sound model) {c : RunCall} (horders : c.orders = true) :
    ((neverRun model).call c).analysis.ordered.isSome = true := by
  by_cases hrefused : false ∈ c.outcomes.take 6
  · rw [call_of_refused hsound hrefused]
    exact congrArg Option.isSome (if_pos horders)
  · obtain ⟨order, -, hbuild⟩ := buildCausalOrder_granted { model := model } c.outcomes hsound hrefused
    have hchange := (obeys_passes c.file ⟨Analysis.concluded { model := model } order, c.outcomes.drop 6⟩).1
    rw [History.call, neverRun, runAnalysis_eq_passes, run_bind_of_ok hbuild, History.after]
    dsimp only
    rw [hchange.ordered, Analysis.concluded]
    split <;> rfl

/-- The first call that gets the array of the order decides. -/
theorem historyOf_eq (hsound : Sound model) (calls : List RunCall) :
    historyOf model calls = ((calls.find? RunCall.orders).map (neverRun model).call).getD (neverRun model) := by
  unfold historyOf
  induction calls with
  | nil => rfl
  | cons c calls ih =>
    rw [List.foldl_cons]
    cases horders : c.orders with
    | false => rw [call_of_not_orders hsound horders, ih, List.find?_cons_of_neg (by rw [horders]; decide)]
    | true =>
      rw [foldl_call_of_ordered (ordered_of_orders hsound horders), List.find?_cons_of_pos horders]
      rfl

/-- What the passes before `analyze_sanitizer` may change. -/
structure MiddleChange (a a' : Analysis) : Prop extends PassChange a a' where
  sameTrouble : SameTrouble a a'
  sanitizer : a'.policyCounts .sanitizer = a.policyCounts .sanitizer

instance : IsPreorder Analysis MiddleChange where
  refl := fun a => ⟨refl_of PassChange a, refl_of SameTrouble a, rfl⟩
  trans := fun _ _ _ h h' => ⟨trans_of PassChange h.toPassChange h'.toPassChange,
    trans_of SameTrouble h.sameTrouble h'.sameTrouble, h'.sanitizer.trans h.sanitizer⟩

theorem obeys_middlePasses : Obeys MiddleChange middlePasses := by
  have hresources : Obeys MiddleChange analyzeResources := fun w =>
    ⟨⟨(obeys_analyzeResources w).1, (obeys_analyzeResources w).1,
      (obeys_analyzeResources (r := OnlyCounts .resource) w).1 _ (by decide)⟩,
      (obeys_analyzeResources (r := PassChange) w).2⟩
  have hsynchronization : Obeys MiddleChange analyzeSynchronization := fun w =>
    ⟨⟨(obeys_analyzeSynchronization w).1, (obeys_analyzeSynchronization w).1,
      (obeys_analyzeSynchronization (r := OnlyCounts .synchronization) w).1 _ (by decide)⟩,
      (obeys_analyzeSynchronization (r := PassChange) w).2⟩
  have htrace : Obeys MiddleChange analyzeTrace := fun w => (obeys_analyzeTrace w).imp
    (fun h => ⟨h.toPassChange, h.sameTrouble, h.counts _ (by decide)⟩) id
  exact hresources.bind fun _ => hsynchronization.bind fun _ => htrace

theorem passes_eq (file : Option SanitizerFile) (w : World Analysis) :
    passes file w = (middlePasses >>= fun _ => analyzeSanitizer file) w := by
  simp only [passes, middlePasses, run_bind]
  rcases analyzeResources w with ⟨⟨e⟩ | ⟨⟨⟩⟩, w₁⟩
  · rfl
  · dsimp only
    rcases analyzeSynchronization w₁ with ⟨⟨e⟩ | ⟨⟨⟩⟩, w₂⟩ <;> rfl

theorem ends_addFinding_count (identifier : Text) (policy : Policy) (message : Text) (node : Option Node)
    (source target detail : Option Text) (w : World Analysis) :
    Ends (addFinding identifier policy message node source target detail) w
      (fun _ w' => w'.state.policyCounts policy = w.state.policyCounts policy + 1)
      (fun w' => w'.state.policyCounts = w.state.policyCounts) := by
  refine ((ends_reserveFindings w).imp (fun _ _ h => h) fun w' ⟨_, hstate⟩ => by rw [hstate]).bind
    fun _ w' ⟨_, capacity, hstate, _⟩ => Ends.ite (fun _ => ends_updateState ?_) fun _ => ends_fail (by rw [hstate])
  rw [Analysis.withFinding, hstate]
  exact Function.update_self policy _ w.state.policyCounts

theorem Analysis.Counted.count_le (h : a.Counted) (hchange : PassChange a a') (policy : Policy) :
    a.policyCounts policy ≤ a'.policyCounts policy := by
  rw [h policy, hchange.counted h policy]
  exact (hchange.findings.sublist.filter _).length_le

theorem ends_sanitizeLine {x : Text × ℕ} {finding : Finding} (hreport : lineReport x = some finding) (u : World Analysis) :
    Ends (sanitizeLine x) u
      (fun _ w => (finding.Fits ∧ (Supply.hold finding (supplyOf u)).isSome = true) ∧
        w.state.policyCounts .sanitizer = u.state.policyCounts .sanitizer + 1)
      (fun w => ¬ (finding.Fits ∧ (Supply.hold finding (supplyOf u)).isSome = true) ∧
        w.state.policyCounts = u.state.policyCounts) := by
  have hmeet : ∀ s, [Demand.finding finding].foldlM Supply.meet s = (Supply.hold finding s).bind some := fun s => rfl
  have hdemands := demands_sanitizeLine x u
  have hcount : Ends (sanitizeLine x) u (fun _ w => w.state.policyCounts .sanitizer = u.state.policyCounts .sanitizer + 1)
      (fun w => w.state.policyCounts = u.state.policyCounts) := by
    obtain ⟨report, hfind, -⟩ := Option.map_eq_some_iff.mp hreport
    apply ends_updateState_bind
    rw [hfind]
    exact (ends_addFinding_count _ _ _ _ _ _ _ _).bind fun _ w hw => ends_updateState hw
  rw [hreport, Option.toList_some, List.map_singleton] at hdemands
  refine (Ends.and hdemands hcount).imp (fun _ w hw => ⟨⟨?_, ?_⟩, hw.2⟩) fun w hw => ⟨fun h => ?_, hw.2⟩
  · exact hw.1.1 finding List.mem_cons_self
  · have hmet := hw.1.2
    rw [hmeet, Option.bind_fun_some] at hmet
    rw [hmet]
    rfl
  · have hunmet := hw.1 (List.forall_mem_singleton.mpr h.1)
    rw [hmeet, Option.bind_fun_some] at hunmet
    rw [hunmet] at h
    cases h.2

/-- After the lines are read, a report is counted exactly when the first one was added. -/
theorem count_of_sanitizeLines (hcounted : u.state.Counted) (hnone : u.state.policyCounts .sanitizer = 0)
    (lines : List (Text × ℕ)) :
    (forEach sanitizeLine lines u).2.state.policyCounts .sanitizer ≠ 0 ↔
      FirstAdded (lines.filterMap lineReport) (supplyOf u) := by
  induction lines generalizing u with
  | nil =>
    refine iff_of_false (fun h => h hnone) fun h => ?_
    obtain ⟨finding, hfinding, -⟩ := h
    cases hfinding
  | cons line lines ih =>
    rw [forEach]
    cases hreport : lineReport line with
    | none =>
      have hline : sanitizeLine line u =
          (.ok (), ⟨{ u.state with sanitizerRecords := u.state.sanitizerRecords + 1 }, u.outcomes⟩) := by
        simp only [sanitizeLine, Option.map_eq_none_iff.mp hreport]
        rfl
      have hrest := ih (u := ⟨{ u.state with sanitizerRecords := u.state.sanitizerRecords + 1 }, u.outcomes⟩)
        hcounted hnone
      rw [run_bind_of_ok hline, List.filterMap_cons_none hreport]
      exact hrest
    | some finding =>
      have hfirst : FirstAdded ((line :: lines).filterMap lineReport) (supplyOf u) ↔
          finding.Fits ∧ (Supply.hold finding (supplyOf u)).isSome = true := by
        simp only [FirstAdded, List.filterMap_cons_some hreport, List.head?_cons, Option.some.injEq, exists_eq_left']
      have hline := ends_sanitizeLine hreport u
      rw [hfirst]
      rcases hrun : sanitizeLine line u with ⟨⟨e⟩ | ⟨⟨⟩⟩, w⟩
      · obtain ⟨hnot, hcounts⟩ := hline.error hrun
        rw [run_bind_of_error hrun]
        refine iff_of_false (fun h => h ?_) hnot
        rw [hcounts, hnone]
      · obtain ⟨hadded, hcount⟩ := hline.ok hrun
        have hchange := (obeys_sanitizeLine (r := PassChange) line u).1
        rw [hrun] at hchange
        have hrest := (obeys_forEach (obeys_sanitizeLine (r := PassChange)) lines w).1
        have hle := (hchange.counted hcounted).count_le hrest .sanitizer
        rw [hcount] at hle
        rw [run_bind_of_ok hrun]
        exact iff_of_true (Nat.ne_of_gt (lt_of_lt_of_le (Nat.succ_pos _) hle)) hadded

/-- What the state before `analyze_sanitizer` has of the verdict. -/
structure Untouched (a : Analysis) : Prop where
  counted : a.Counted
  sound : a.trouble = false
  none : a.policyCounts .sanitizer = 0

/-- A run that ends while the file is read goes unnoticed unless every policy has a finding. -/
theorem cleanAfterRun_lines_iff (h : Untouched u.state) (lines : List (Text × ℕ)) :
    CleanAfterRun ⟨(forEach sanitizeLine lines u).2.state, false⟩ ↔
      (∀ policy, policy ≠ .sanitizer → ∃ finding ∈ u.state.findings, finding.policy = policy) ∧
        FirstAdded (lines.filterMap lineReport) (supplyOf u) := by
  have hchange := (obeys_forEach (obeys_sanitizeLine (r := PassChange)) lines u).1
  have htrouble := (obeys_forEach (obeys_sanitizeLine (r := SameTrouble)) lines u).1
  have hothers := (obeys_forEach (obeys_sanitizeLine (r := OnlyCounts .sanitizer)) lines u).1
  rw [cleanAfterRun_failed_iff (hchange.counted h.counted), forall_prop_of_true (htrouble.trans h.sound),
    ← count_of_sanitizeLines h.counted h.none lines]
  simp only [← h.counted.ne_zero_iff]
  constructor
  · intro hcounts
    refine ⟨fun policy hpolicy => ?_, hcounts .sanitizer⟩
    rw [← hothers policy hpolicy]
    exact hcounts policy
  · rintro ⟨hcounts, hsanitizer⟩ policy
    by_cases hpolicy : policy = .sanitizer
    · rwa [hpolicy]
    · rw [hothers policy hpolicy]
      exact hcounts policy hpolicy

theorem cleanAfterRun_of_trouble (h : a.trouble = true) (returned : Bool) : CleanAfterRun ⟨a, returned⟩ := by
  simp only [CleanAfterRun, analysisStatus_eq_zero_iff, analysisPolicyStatus_eq_zero_iff, h, Bool.true_eq_false,
    false_and, exists_false, or_self, false_imp_iff]

theorem cleanAfterRun_sanitizer_iff (h : Untouched u.state) (file : Option SanitizerFile) :
    CleanAfterRun (History.after false (analyzeSanitizer file u)) ↔ SanitizerSettles (supplyOf u) file := by
  cases file with
  | none => exact iff_of_true cleanAfterRun_returned .absent
  | some file =>
    by_cases hopens : file.opens = false
    · have hrun : analyzeSanitizer (some file) u =
          (.error (.errno file.openErrno), ⟨{ u.state with trouble := true }, u.outcomes⟩) := congrFun (if_pos hopens) u
      rw [hrun]
      exact iff_of_true (cleanAfterRun_of_trouble rfl false) (.closed file hopens)
    · have hreads : (∃ a w, forEach sanitizeLine file.lines.zipIdx u = (.ok a, w)) ↔
          (∀ finding ∈ sanitizerFindings (some file), finding.Fits) ∧
            (((sanitizerFindings (some file)).map .finding).foldlM Supply.meet (supplyOf u)).isSome = true :=
        (demands_sanitizeLines file.lines.zipIdx u).ok_iff
      have hsettles : ∀ w, (∀ v, forEach sanitizeLine file.lines.zipIdx u = (.ok (), v) →
          file.readError ∨ file.closeError) → (forEach sanitizeLine file.lines.zipIdx u).2 = w →
          (CleanAfterRun ⟨w.state, false⟩ ↔ SanitizerSettles (supplyOf u) (some file)) := by
        rintro w hfails rfl
        rw [cleanAfterRun_lines_iff h file.lines.zipIdx]
        constructor
        · rintro ⟨hothers, hfirst⟩
          exact .reported file hothers hfirst
        · intro hsettled
          cases hsettled with
          | closed _ hclosed => exact absurd hclosed hopens
          | read _ hfits hmet herrors =>
            obtain ⟨⟨⟩, v, hv⟩ := hreads.mpr ⟨hfits, hmet⟩
            exact absurd (hfails v hv) herrors
          | reported _ hothers hfirst => exact ⟨hothers, hfirst⟩
      have hbody : analyzeSanitizer (some file) u = (forEach sanitizeLine file.lines.zipIdx >>= fun _ =>
          if file.readError then fail (.errno (if file.readErrno = .unset then .eio else file.readErrno))
          else if file.closeError then fail (.errno file.closeErrno) else pure ()) u := congrFun (if_neg hopens) u
      rw [hbody]
      rcases hrun : forEach sanitizeLine file.lines.zipIdx u with ⟨⟨e⟩ | ⟨⟨⟩⟩, w⟩
      · rw [run_bind_of_error hrun]
        refine hsettles w (fun v hv => ?_) (by rw [hrun])
        rw [hrun] at hv
        cases hv
      · rw [run_bind_of_ok hrun]
        by_cases hread : file.readError = true
        · rw [if_pos hread]
          exact hsettles w (fun _ _ => .inl hread) (by rw [hrun])
        · rw [if_neg hread]
          by_cases hclose : file.closeError = true
          · rw [if_pos hclose]
            exact hsettles w (fun _ _ => .inr hclose) (by rw [hrun])
          · rw [if_neg hclose]
            obtain ⟨hfits, hmet⟩ := hreads.mp ⟨(), w, hrun⟩
            exact iff_of_true cleanAfterRun_returned (.read file hfits hmet fun h => h.elim hread hclose)

/-- Without a cycle the least order is the only one that the condition is about. -/
theorem settles_iff {order : List ℕ} (hleast : IsLeastCausalOrder model order) {c : RunCall}
    (hgranted : false ∉ c.outcomes.take 6) :
    c.Settles model ↔ PassesFit (orderedBy model order) ∧
      ∃ left, (passDemands (orderedBy model order)).foldlM Supply.meet ⟨{}, c.outcomes.drop 6⟩ = some left ∧
        SanitizerSettles left c.file := by
  refine ⟨fun h => h.settled order hleast, fun h => ⟨hgranted, fun other hother => ?_⟩⟩
  rwa [le_antisymm (hother.least order hleast.causal) (hleast.least other hother.causal)]

theorem cleanAfterRun_passes_iff (h : Untouched u.state) (hempty : u.state.traceContexts = []) (file : Option SanitizerFile) :
    CleanAfterRun (History.after false (passes file u)) ↔ PassesFit u.state ∧
      ∃ left, (passDemands u.state).foldlM Supply.meet (supplyOf u) = some left ∧ SanitizerSettles left file := by
  have hchange := (obeys_middlePasses u).1
  have hdemands := demands_middlePasses hempty
  rw [passes_eq]
  rcases hmiddle : middlePasses u with ⟨⟨e⟩ | ⟨⟨⟩⟩, v⟩ <;> rw [hmiddle] at hchange
  · rw [run_bind_of_error hmiddle, History.after_error, cleanAfterRun_failed_iff (hchange.counted h.counted)]
    refine iff_of_false (fun hclean => ?_) fun ⟨hfits, left, hleft, _⟩ => ?_
    · exact hclean (hchange.sameTrouble.trans h.sound) .sanitizer (hchange.sanitizer.trans h.none)
    · rw [Ends.error hdemands hmiddle hfits] at hleft
      cases hleft
  · obtain ⟨hfits, hmet⟩ := Ends.ok hdemands hmiddle
    have hreached : Untouched v.state := ⟨hchange.counted h.counted,
      hchange.sameTrouble.trans h.sound, hchange.sanitizer.trans h.none⟩
    rw [run_bind_of_ok hmiddle, cleanAfterRun_sanitizer_iff hreached]
    refine ⟨fun hsettles => ⟨hfits, supplyOf v, hmet, hsettles⟩, fun ⟨_, left, hleft, hsettles⟩ => ?_⟩
    rw [hmet] at hleft
    obtain rfl := Option.some.inj hleft
    exact hsettles

theorem cleanAfterRun_call_iff (hsound : Sound model) {c : RunCall} :
    CleanAfterRun ((neverRun model).call c) ↔ c.Settles model := by
  by_cases hrefused : false ∈ c.outcomes.take 6
  · rw [call_of_refused hsound hrefused, cleanAfterRun_failed_iff fun _ => rfl]
    exact iff_of_false (fun h => h rfl .resource rfl) fun h => h.granted hrefused
  · obtain ⟨order, hemitted, hbuild⟩ := buildCausalOrder_granted { model := model } c.outcomes hsound hrefused
    have hcall : (neverRun model).call c =
        History.after false (passes c.file ⟨Analysis.concluded { model := model } order, c.outcomes.drop 6⟩) := by
      rw [History.call, neverRun, runAnalysis_eq_passes, run_bind_of_ok hbuild]
    have hlength := hemitted.length_eq_iff hsound
    rw [hcall]
    by_cases hacyclic : IsAcyclic model
    · obtain ⟨hcausal, hleast⟩ := hemitted.isCausalOrder hsound (hemitted.mem_of_length (hlength.mpr hacyclic))
      rw [Analysis.concluded, if_pos (hlength.mpr hacyclic), settles_iff ⟨hcausal, hleast⟩ hrefused]
      exact cleanAfterRun_passes_iff ⟨fun _ => rfl, rfl, rfl⟩ rfl c.file
    · have htrouble : (Analysis.concluded { model := model } order).trouble = true := by
        rw [Analysis.concluded, if_neg fun hall => hacyclic (hlength.mp hall)]
      have hkept := (obeys_passes c.file ⟨Analysis.concluded { model := model } order, c.outcomes.drop 6⟩).1.trouble
      refine iff_of_true (cleanAfterRun_of_trouble (hkept htrouble) _) ⟨hrefused, fun order horder => ?_⟩
      exact absurd horder.causal.isAcyclic hacyclic

/-- Whatever calls are made on the object, clean is said only after one that returned 0 exactly
when a call gets the array of the order, and the first such call settles the verdict. -/
theorem cleanAfterRun_iff (hmodel : Finished lib model) (calls : List RunCall) :
    CleanAfterRun (historyOf model calls) ↔ ∃ c, calls.find? RunCall.orders = some c ∧ c.Settles model := by
  have hsound := hmodel.reachable.sound
  rw [historyOf_eq hsound]
  cases hfind : calls.find? RunCall.orders with
  | none =>
    refine iff_of_false (fun h => ?_) fun h => ?_
    · exact (cleanAfterRun_failed_iff fun _ => rfl).mp h rfl .resource rfl
    · obtain ⟨c, hc, -⟩ := h
      cases hc
  | some c =>
    refine (cleanAfterRun_call_iff hsound).trans ⟨fun h => ⟨c, rfl, h⟩, fun h => ?_⟩
    obtain ⟨c', hc', h⟩ := h
    cases hc'
    exact h

/-- The first call does not get the array of the order, and the second one succeeds. -/
theorem cleanAfterRun_secondCall :
    CleanAfterRun (historyOf (modelOf .standard leftTwice) [{ outcomes := [false] }, {}]) := by
  have hleast : ∀ other ∈ (List.range 4).permutations', [0, 1, 2, 3] ≤ other := by decide
  have hnodes : (modelOf .standard leftTwice).nodes.length = 4 := by decide
  have horder : IsLeastCausalOrder (modelOf .standard leftTwice) [0, 1, 2, 3] :=
    ⟨by decide, fun other hother => hleast other (List.mem_permutations'.mpr (hnodes ▸ hother.perm))⟩
  have hrun : (middlePasses ⟨orderedBy (modelOf .standard leftTwice) [0, 1, 2, 3], []⟩).1 = .ok () := by decide +kernel
  obtain ⟨hfits, hmet⟩ := (demands_middlePasses rfl).ok_iff.mp ⟨(), _, Prod.ext hrun rfl⟩
  obtain ⟨left, hleft⟩ := Option.isSome_iff_exists.mp hmet
  refine (cleanAfterRun_iff (finished_modelOf _ (by decide)) _).mpr ⟨{}, rfl, (settles_iff horder (by decide)).mpr ?_⟩
  exact ⟨hfits, left, hleft, .absent⟩

def zeroAllocation : EventRecord :=
  { recordKind := .alloc, runId := some (.ofString "run"), pid := 1, contextId := 1, sequence := 1
    ptr := some (.ofString "p") }

/-- The six arrays of the order are granted, and the storage of the findings is refused. -/
def findingsRefused : RunCall := { outcomes := [true, true, true, true, true, true, false] }

/-- An object that was never run is clean, and so is one whose run failed before its only finding was added. -/
theorem zeroAllocation_cleanAfterFailure :
    Finished .standard (modelOf .standard [zeroAllocation]) ∧
      ¬ CleanAfterRun (historyOf (modelOf .standard [zeroAllocation]) []) ∧
      ¬ CleanAfterRun (historyOf (modelOf .standard [zeroAllocation]) [findingsRefused]) := by
  refine ⟨finished_modelOf _ (by decide +kernel), fun h => ?_, fun h => ?_⟩
  · cases h (.inl rfl)
  · have hstatus : analysisStatus (historyOf (modelOf .standard [zeroAllocation]) [findingsRefused]).analysis = 0 := by
      decide +kernel
    have hreturned : (historyOf (modelOf .standard [zeroAllocation]) [findingsRefused]).returned = false := by
      decide +kernel
    rw [h (.inl hstatus)] at hreturned
    cases hreturned

end ToolEvent.ModelAnalysis
