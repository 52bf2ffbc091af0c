import ToolEvent.TraceWords

/-!
# Runs that come to the trace pass

The passes before and after the trace pass leave the table of the contexts and the findings of the
trace pass alone, so that the findings of a whole run are those of the words of its contexts.
-/

namespace ToolEvent.ModelAnalysis

open Fallible World RunModel Brackets

def traceOnly (findings : List Finding) : List Finding :=
  findings.filter (fun finding => finding.policy = .trace)

/-- Nothing of the trace pass changes. -/
def Untraced (a a' : Analysis) : Prop :=
  a'.traceContexts = a.traceContexts ∧ traceOnly a'.findings = traceOnly a.findings

instance : IsPreorder Analysis Untraced where
  refl := fun _ => ⟨rfl, rfl⟩
  trans := fun _ _ _ h h' => ⟨h'.1.trans h.1, h'.2.trans h.2⟩

theorem traceOnly_concat {findings : List Finding} {finding : Finding} (h : finding.policy ≠ .trace) :
    traceOnly (findings ++ [finding]) = traceOnly findings := by
  rw [traceOnly, List.filter_append, List.filter_cons_of_neg (by simpa using h), List.filter_nil, List.append_nil]
  rfl

theorem admits_untraced {policy : Policy} (h : policy ≠ .trace) : Admits policy Untraced where
  addFinding := obeys_addFinding_of (fun _ _ => ⟨rfl, rfl⟩) fun _ _ hfinding =>
    ⟨rfl, traceOnly_concat (hfinding ▸ h)⟩
  counts := fun _ _ _ _ _ _ => ⟨rfl, rfl⟩
  trouble := fun _ => ⟨rfl, rfl⟩

instance : Admits .resource Untraced := admits_untraced (by decide)

instance : Admits .synchronization Untraced := admits_untraced (by decide)

instance : Admits .sanitizer Untraced := admits_untraced (by decide)

/-- The passes before `analyze_trace`. -/
def passesBeforeTrace : Routine Analysis Unit := do
  buildCausalOrder
  analyzeResources
  analyzeSynchronization

/-- A run on the model has come to `analyze_trace`. -/
def ReachesTrace (model : Model) (outcomes : List Bool) (w : World Analysis) : Prop :=
  passesBeforeTrace ⟨{ model := model }, outcomes⟩ = (.ok (), w)

variable {lib : RecordLibrary} {model : Model} {outcomes : List Bool} {w : World Analysis}

theorem buildCausalOrder_untraced (hsound : Sound model)
    (h : buildCausalOrder ⟨{ model := model }, outcomes⟩ = (.ok (), w)) : Untraced { model := model } w.state := by
  by_cases hrefused : false ∈ outcomes.take 6
  · rw [buildCausalOrder_refused { model := model } outcomes hsound hrefused] at h
    cases h
  · obtain ⟨order, -, hrun⟩ := buildCausalOrder_granted { model := model } outcomes hsound hrefused
    rw [hrun] at h
    obtain ⟨-, rfl⟩ := Prod.mk.inj h
    unfold Analysis.concluded
    dsimp only
    split <;> exact ⟨rfl, rfl⟩

/-- The table of the contexts is empty when a run comes to the trace pass, and no finding is one
of that pass. -/
theorem ReachesTrace.untraced (hmodel : Finished lib model) (h : ReachesTrace model outcomes w) :
    Ran model w.state ∧ w.state.traceContexts = [] ∧ traceOnly w.state.findings = [] := by
  obtain ⟨⟨⟩, w₁, hbuild, hrest⟩ := run_bind_eq_ok.mp h
  obtain ⟨⟨⟩, w₂, hresources, hsynchronization⟩ := run_bind_eq_ok.mp hrest
  have hran := buildCausalOrder_ok hmodel.reachable.sound hbuild
  have hfirst := buildCausalOrder_untraced hmodel.reachable.sound hbuild
  have hchange₁ := (obeys_analyzeResources (r := PassChange) w₁).1
  have hchange₂ := (obeys_analyzeSynchronization (r := PassChange) w₂).1
  have hsecond := (obeys_analyzeResources (r := Untraced) w₁).1
  have hthird := (obeys_analyzeSynchronization (r := Untraced) w₂).1
  rw [hresources] at hchange₁ hsecond
  rw [hsynchronization] at hchange₂ hthird
  refine ⟨hchange₂.ran (hchange₁.ran hran), ?_, ?_⟩
  · rw [hthird.1, hsecond.1, hfirst.1]
  · rw [hthird.2, hsecond.2, hfirst.2]
    rfl

/-- A run is one that comes to the trace pass, goes through it and through the sanitizer pass. -/
theorem runAnalysis_eq_ok {file : Option SanitizerFile} :
    runAnalysis file ⟨{ model := model }, outcomes⟩ = (.ok (), w) ↔
      ∃ v u, ReachesTrace model outcomes v ∧ analyzeTrace v = (.ok (), u) ∧ analyzeSanitizer file u = (.ok (), w) := by
  change (buildCausalOrder >>= fun _ => passes file) ⟨{ model := model }, outcomes⟩ = (.ok (), w) ↔ _
  simp only [passes, ReachesTrace, passesBeforeTrace, run_bind_eq_ok]
  constructor
  · rintro ⟨⟨⟩, w₁, hbuild, ⟨⟩, w₂, hresources, ⟨⟩, v, hsynchronization, ⟨⟩, u, htrace, hsanitizer⟩
    exact ⟨v, u, ⟨⟨⟩, w₁, hbuild, ⟨⟩, w₂, hresources, hsynchronization⟩, htrace, hsanitizer⟩
  · rintro ⟨v, u, ⟨⟨⟩, w₁, hbuild, ⟨⟩, w₂, hresources, hsynchronization⟩, htrace, hsanitizer⟩
    exact ⟨⟨⟩, w₁, hbuild, ⟨⟩, w₂, hresources, ⟨⟩, v, hsynchronization, ⟨⟩, u, htrace, hsanitizer⟩

def reportedCalls (findings : List Finding) (identifier : String) : List Finding :=
  (traceOnly findings).filter (fun finding => finding.diagnosticId = .ofString identifier)

structure TraceAccount (words : ℤ × ℕ → List Node) (contexts : List (ℤ × ℕ)) (findings : List Finding) : Prop where
  /-- Every exit is matched, unmatched or mismatched. -/
  exits : ∀ key, ((words key).filter fun node => !opensCall node).Perm
    ((readCalls (words key)).matched.map Prod.snd ++ (readCalls (words key)).unmatched ++
      (readCalls (words key)).mismatched)
  unmatched : (reportedCalls findings "P101-TRACE-001").Perm
    ((contexts.flatMap fun key => (readCalls (words key)).unmatched).map unmatchedFinding)
  mismatched : (reportedCalls findings "P101-TRACE-002").Perm
    ((contexts.flatMap fun key => (readCalls (words key)).mismatched).map mismatchedFinding)
  pending : (reportedCalls findings "P101-TRACE-003").Perm
    ((contexts.flatMap fun key => (readCalls (words key)).pending).map openFinding)
  silent : traceOnly findings = [] ↔ ∀ key, WellNested opensCall leavesCall (words key)

def wordFindings (words : ℤ × ℕ → List Node) (contexts : List (ℤ × ℕ)) : List Finding :=
  (contexts.flatMap fun key => (readCalls (words key)).unmatched).map unmatchedFinding ++
    (contexts.flatMap fun key => (readCalls (words key)).mismatched).map mismatchedFinding ++
    (contexts.flatMap fun key => (readCalls (words key)).pending).map openFinding

def callContexts (model : Model) : List (ℤ × ℕ) := ((model.nodes.filter isCallRecord).map contextKey).dedup

def rowOfWord (words : ℤ × ℕ → List Node) (key : ℤ × ℕ) : ContextReplay :=
  { pid := key.1, context := key.2, calls := readCalls (words key) }

section Account

variable {analysis : Analysis}

theorem traceRows_perm (hran : Ran model analysis) (hacyclic : IsAcyclic model)
    (hforks : ∀ node ∈ analysis.orderedNodes, isForkRecord node = false) :
    (traceRows analysis.orderedNodes).Perm ((callContexts model).map (rowOfWord (contextCalls model))) := by
  have hinjective : Function.Injective (rowOfWord (contextCalls model)) := fun key key' h =>
    Prod.ext (congrArg ContextReplay.pid h) (congrArg ContextReplay.context h)
  refine (List.perm_ext_iff_of_nodup (nodup_key_traceRows hforks).of_map
    ((List.nodup_dedup _).map hinjective)).mpr fun row => ?_
  have hkeys : ∀ key, key ∈ (analysis.orderedNodes.filter isCallRecord).map contextKey ↔ key ∈ callContexts model :=
    fun key => by
      rw [callContexts, List.mem_dedup]
      exact (((hran.orderedNodes_perm hacyclic).filter isCallRecord).map contextKey).mem_iff
  rw [mem_traceRows_iff hforks]
  simp only [hran.callsOf_orderedNodes hacyclic, hkeys, List.mem_map]
  exact exists_congr fun key => and_congr_right fun _ => eq_comm

/-- The pass adds the findings of the words. -/
theorem traceFindings_perm (hran : Ran model analysis) (hacyclic : IsAcyclic model)
    (hforks : ∀ node ∈ analysis.orderedNodes, isForkRecord node = false) :
    (traceFindings analysis.orderedNodes).Perm (wordFindings (contextCalls model) (callContexts model)) := by
  have hrows := traceRows_perm hran hacyclic hforks
  have hfaults := (findingsFrom_perm hforks).trans (hrows.flatMap_right fun row => faultFindings row.calls)
  have hopen := (hrows.flatMap_right fun row => row.calls.pending).map openFinding
  rw [List.flatMap_map] at hfaults hopen
  refine (hfaults.append hopen).trans (List.Perm.append_right _ ?_)
  rw [List.map_flatMap, List.map_flatMap]
  exact List.flatMap_append_perm _ _ _ |>.symm

end Account

theorem filter_traceFindings (identifier message : String) (calls : List Node) (name : String) :
    (calls.map (traceFinding identifier message)).filter (fun finding => finding.diagnosticId = .ofString name) =
      if Text.ofString identifier = .ofString name then calls.map (traceFinding identifier message) else [] := by
  split
  · next h =>
    refine List.filter_eq_self.mpr fun finding hfinding => ?_
    obtain ⟨node, -, rfl⟩ := List.mem_map.mp hfinding
    exact decide_eq_true h
  · next h =>
    refine List.filter_eq_nil_iff.mpr fun finding hfinding heq => ?_
    obtain ⟨node, -, rfl⟩ := List.mem_map.mp hfinding
    exact h (of_decide_eq_true heq)

theorem wordFindings_eq_nil_iff {words : ℤ × ℕ → List Node} {contexts : List (ℤ × ℕ)}
    (hcontexts : ∀ key, key ∉ contexts → words key = []) :
    wordFindings words contexts = [] ↔ ∀ key, WellNested opensCall leavesCall (words key) := by
  simp only [wordFindings, List.append_eq_nil_iff, List.map_eq_nil_iff, List.flatMap_eq_nil_iff]
  constructor
  · rintro ⟨⟨hunmatched, hmismatched⟩, hpending⟩ key
    by_cases hkey : key ∈ contexts
    · exact wellNested_iff.mpr ⟨hpending key hkey, hunmatched key hkey, hmismatched key hkey⟩
    · rw [hcontexts key hkey]
      exact .nil
  · intro h
    have hword := fun key => wellNested_iff.mp (h key)
    exact ⟨⟨fun key _ => (hword key).2.1, fun key _ => (hword key).2.2⟩, fun key _ => (hword key).1⟩

/-- Findings of the trace pass that are those of the words, up to their order. -/
theorem traceAccount_of_perm {words : ℤ × ℕ → List Node} {contexts : List (ℤ × ℕ)} {findings : List Finding}
    (hcontexts : ∀ key, key ∉ contexts → words key = [])
    (hperm : (traceOnly findings).Perm (wordFindings words contexts)) : TraceAccount words contexts findings := by
  have hreported : ∀ name, (reportedCalls findings name).Perm ((wordFindings words contexts).filter
      fun finding => finding.diagnosticId = .ofString name) := fun name => hperm.filter _
  have hfirst : Text.ofString "P101-TRACE-001" ≠ .ofString "P101-TRACE-002" := by decide
  have hsecond : Text.ofString "P101-TRACE-002" ≠ .ofString "P101-TRACE-003" := by decide
  have hthird : Text.ofString "P101-TRACE-003" ≠ .ofString "P101-TRACE-001" := by decide
  simp only [wordFindings, List.filter_append, unmatchedFinding, mismatchedFinding, openFinding,
    filter_traceFindings] at hreported
  refine ⟨fun key => closing_perm (words key), ?_, ?_, ?_, ?_⟩
  · simpa [hfirst.symm, hthird, unmatchedFinding] using hreported "P101-TRACE-001"
  · simpa [hfirst, hsecond.symm, mismatchedFinding] using hreported "P101-TRACE-002"
  · simpa [hsecond, hthird.symm, openFinding] using hreported "P101-TRACE-003"
  · rw [← wordFindings_eq_nil_iff hcontexts]
    constructor
    · intro hnil
      exact List.nil_perm.mp (hnil ▸ hperm)
    · intro hnil
      exact List.perm_nil.mp (hnil ▸ hperm)

theorem traceOnly_wordFindings (words : ℤ × ℕ → List Node) (contexts : List (ℤ × ℕ)) :
    traceOnly (wordFindings words contexts) = wordFindings words contexts := by
  refine List.filter_eq_self.mpr fun finding hfinding => decide_eq_true ?_
  simp only [wordFindings, List.mem_append, List.mem_map] at hfinding
  obtain (⟨node, -, rfl⟩ | ⟨node, -, rfl⟩) | ⟨node, -, rfl⟩ := hfinding <;> rfl

theorem contextCalls_eq_nil {key : ℤ × ℕ} (h : key ∉ callContexts model) : contextCalls model key = [] := by
  refine List.filter_eq_nil_iff.mpr fun node hnode hcall => h ?_
  obtain ⟨hrecord, rfl⟩ := of_decide_eq_true hcall
  have hmem := (map_node_sortedByContext_perm model.nodes).mem_iff.mp hnode
  exact List.mem_dedup.mpr (List.mem_map_of_mem (List.mem_filter.mpr ⟨hmem, hrecord⟩))

/-- Every entry of a call is left or still open in the word of its context. -/
theorem sum_entered {analysis : Analysis} (hran : Ran model analysis) (hacyclic : IsAcyclic model)
    (hforks : ∀ node ∈ analysis.orderedNodes, isForkRecord node = false) :
    ((callContexts model).map fun key => (readCalls (contextCalls model key)).matched.length).sum +
        ((callContexts model).map fun key => (readCalls (contextCalls model key)).pending.length).sum =
      (model.nodes.filter fun node => isCallRecord node && opensCall node).length := by
  have hrows := ((traceRows_perm hran hacyclic hforks).map enteredCount).sum_eq
  rw [sum_enteredCount hforks, List.map_map] at hrows
  rw [← ((hran.orderedNodes_perm hacyclic).filter _).length_eq, hrows, ← List.sum_map_add]
  rfl

/-- For a finished model without forks, whose causal graph has no cycle, the findings of a run are
those of the words that its contexts make of their calls in sequence order. -/
theorem traceAccount_of_run (hmodel : Finished lib model) (hacyclic : IsAcyclic model)
    (hforks : ∀ node ∈ model.nodes, isForkRecord node = false) {file : Option SanitizerFile}
    (hrun : runAnalysis file ⟨{ model := model }, outcomes⟩ = (.ok (), w)) :
    TraceAccount (contextCalls model) (callContexts model) w.state.findings ∧
      (reportedCalls w.state.findings "P101-TRACE-003").length +
          ((callContexts model).map fun key => (readCalls (contextCalls model key)).matched.length).sum =
        (model.nodes.filter fun node => isCallRecord node && opensCall node).length := by
  obtain ⟨v, u, hreaches, htrace, hsanitizer⟩ := runAnalysis_eq_ok.mp hrun
  obtain ⟨hran, hempty, hnone⟩ := hreaches.untraced hmodel
  have hforks' : ∀ node ∈ v.state.orderedNodes, isForkRecord node = false := fun node hnode =>
    hforks node ((hran.orderedNodes_perm hacyclic).mem_iff.mp hnode)
  have hadded := (Ends.ok (ends_analyzeTrace hempty v.outcomes) htrace).2
  have hlast := (obeys_analyzeSanitizer (r := Untraced) file u).1.2
  rw [hsanitizer] at hlast
  have hfindings : traceOnly w.state.findings = traceOnly (traceFindings v.state.orderedNodes) := by
    rw [hlast, hadded, traceOnly, List.filter_append]
    change traceOnly v.state.findings ++ _ = _
    rw [hnone, List.nil_append]
    rfl
  have hperm : (traceOnly w.state.findings).Perm (wordFindings (contextCalls model) (callContexts model)) := by
    rw [hfindings, ← traceOnly_wordFindings]
    exact (traceFindings_perm hran hacyclic hforks').filter _
  have haccount := traceAccount_of_perm (fun key => contextCalls_eq_nil) hperm
  refine ⟨haccount, ?_⟩
  rw [haccount.pending.length_eq, List.length_map, List.length_flatMap, Nat.add_comm]
  exact sum_entered hran hacyclic hforks'

def callRecord (context sequence : ℕ) (kind : CallKind) (name : String) : EventRecord :=
  { recordKind := .call, runId := some (.ofString "run"), pid := 1, contextId := context, sequence := sequence
    callKind := kind, callName := some (.ofString name) }

/-- One context leaves a call twice, while another one leaves a call open. -/
def leftTwice : List EventRecord :=
  [callRecord 1 1 .enter "open", callRecord 2 1 .enter "read", callRecord 1 2 .exit "open",
    callRecord 1 3 .exit "open"]

theorem traceAccount_of_run_leftTwice :
    TraceAccount (contextCalls (modelOf .standard leftTwice)) (callContexts (modelOf .standard leftTwice))
        (observedRun leftTwice).2.state.findings ∧
      (reportedCalls (observedRun leftTwice).2.state.findings "P101-TRACE-003").length +
          ((callContexts (modelOf .standard leftTwice)).map fun key =>
            (readCalls (contextCalls (modelOf .standard leftTwice) key)).matched.length).sum =
        ((modelOf .standard leftTwice).nodes.filter fun node => isCallRecord node && opensCall node).length := by
  have horder : IsCausalOrder (modelOf .standard leftTwice) [0, 1, 2, 3] := by decide
  exact traceAccount_of_run (finished_modelOf _ (by decide)) horder.isAcyclic (by decide)
    (runAnalysis_eq_observedRun leftTwice (by decide +kernel))

example : (traceOnly (observedRun leftTwice).2.state.findings).map Finding.diagnosticId =
    [.ofString "P101-TRACE-001", .ofString "P101-TRACE-003"] := by decide +kernel

end ToolEvent.ModelAnalysis
