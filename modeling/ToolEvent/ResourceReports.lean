import ToolEvent.AnalysisTexts

/-!
# What the resource pass reports

The storage of the findings doubles from sixteen as long as its size in bytes fits `SIZE_MAX`. The
resource pass adds a finding for every allocation of size zero and then one for every finding of the
lifecycle, and it stops at the first whose evidence does not fit or that the storage cannot take.
-/

namespace ToolEvent.ModelAnalysis

open Fallible World RunModel

variable {a b c : Analysis} {w w' : World Analysis}

/-- The largest capacity that the storage of the findings is doubled to. -/
def findingLimit : ℕ := 2 ^ 53

/-- The storage has been doubled some times, and the findings fit it. -/
structure Analysis.Doubled (a : Analysis) : Prop where
  findings : a.findings.length ≤ a.findingCapacity
  capacity : a.findingCapacity = 0 ∨ ∃ i ≤ 49, a.findingCapacity = initialFindingCapacity * 2 ^ i

theorem Analysis.Doubled.capacity_le (h : a.Doubled) : a.findingCapacity ≤ findingLimit := by
  rcases h.capacity with hzero | ⟨i, hi, hcapacity⟩
  · rw [hzero]
    exact Nat.zero_le _
  · have hpow : 2 ^ i ≤ 2 ^ 49 := Nat.pow_le_pow_right (by decide) hi
    simp only [hcapacity, initialFindingCapacity, findingLimit]
    omega

/-- Full storage can be doubled once more unless the limit is reached. -/
theorem Analysis.Doubled.grown (h : a.Doubled) (hfull : ¬ a.findings.length < a.findingCapacity) :
    (if a.findingCapacity = 0 then initialFindingCapacity else a.findingCapacity * 2) ≤ sizeMax / findingSize ∧
        a.findings.length < findingLimit ∧
        (∃ i ≤ 49, (if a.findingCapacity = 0 then initialFindingCapacity else a.findingCapacity * 2) =
          initialFindingCapacity * 2 ^ i) ∨
      sizeMax / findingSize < (if a.findingCapacity = 0 then initialFindingCapacity else a.findingCapacity * 2) ∧
        ¬ a.findings.length < findingLimit := by
  have hlength := Nat.le_antisymm h.findings (Nat.le_of_not_lt hfull)
  rw [hlength]
  rcases h.capacity with hzero | ⟨i, hi, hcapacity⟩
  · rw [if_pos hzero, hzero]
    exact .inl ⟨by decide, by decide, 0, by decide, rfl⟩
  · have hne : a.findingCapacity ≠ 0 := by
      rw [hcapacity]
      exact (Nat.mul_pos (by decide) (Nat.two_pow_pos i)).ne'
    rw [if_neg hne, hcapacity]
    rcases Nat.lt_or_ge i 49 with hlt | hge
    · have hpow : 2 ^ i ≤ 2 ^ 48 := Nat.pow_le_pow_right (by decide) (by omega)
      have hsize : 2 ^ 53 ≤ sizeMax / findingSize := by decide
      refine .inl ⟨?_, ?_, i + 1, hlt, by rw [pow_succ, Nat.mul_assoc]⟩
      · simp only [initialFindingCapacity]
        omega
      · simp only [initialFindingCapacity, findingLimit]
        omega
    · obtain rfl : i = 49 := by omega
      exact .inr ⟨by decide, by decide⟩

def Finding.Fits (finding : Finding) : Prop :=
  ShortText finding.evidenceFrom ∧ ShortText finding.evidenceTo ∧ ShortText finding.evidenceDetail

theorem fitsEvidence_iff (text : Option Text) : fitsEvidence text = true ↔ ShortText (text.getD .empty) := by
  cases text with
  | none => exact iff_of_true rfl (Nat.lt_of_lt_of_eq (by decide : 0 < evidenceTextSize) rfl)
  | some text => exact fitsEvidence_some

/-- The object has the same model and order, and some more findings. -/
structure Reported (a : Analysis) (findings : List Finding) (b : Analysis) : Prop where
  model : b.model = a.model
  ordered : b.ordered = a.ordered
  orderedCount : b.orderedCount = a.orderedCount
  findings : b.findings = a.findings ++ findings

theorem Reported.refl (a : Analysis) : Reported a [] a := ⟨rfl, rfl, rfl, (List.append_nil _).symm⟩

theorem Reported.trans {fs gs : List Finding} (h : Reported a fs b) (h' : Reported b gs c) :
    Reported a (fs ++ gs) c where
  model := h'.model.trans h.model
  ordered := h'.ordered.trans h.ordered
  orderedCount := h'.orderedCount.trans h.orderedCount
  findings := by rw [h'.findings, h.findings, List.append_assoc]

structure Added (w : World Analysis) (findings : List Finding) (w' : World Analysis) : Prop where
  reported : Reported w.state findings w'.state
  fits : ∀ finding ∈ findings, finding.Fits
  doubled : w'.state.Doubled
  granted : w.outcomes = [] → w'.outcomes = []

theorem Added.refl (h : w.state.Doubled) : Added w [] w :=
  ⟨.refl _, fun _ hmem => absurd hmem List.not_mem_nil, h, id⟩

theorem Added.trans {u : World Analysis} {fs gs : List Finding} (h : Added w fs w') (h' : Added w' gs u) :
    Added w (fs ++ gs) u where
  reported := h.reported.trans h'.reported
  fits := fun finding hmem => (List.mem_append.mp hmem).elim (h.fits finding) (h'.fits finding)
  doubled := h'.doubled
  granted := h'.granted ∘ h.granted

/-- Why a finding is not added although every request is granted. -/
def Refused (finding : Finding) (a : Analysis) : Prop := ¬ (finding.Fits ∧ a.findings.length < findingLimit)

/-- The findings are added in turn. The run stops only at one that is not added. -/
def AddsInTurn (x : Routine Analysis Unit) (w : World Analysis) (findings : List Finding) : Prop :=
  Ends x w (fun _ => Added w findings) fun w' => ∃ first finding rest,
    findings = first ++ finding :: rest ∧ Added w first w' ∧ (w.outcomes = [] → Refused finding w'.state)

theorem AddsInTurn.bind {x y : Routine Analysis Unit} {fs gs : List Finding} (hx : AddsInTurn x w fs)
    (hy : ∀ w', Added w fs w' → AddsInTurn y w' gs) : AddsInTurn (x >>= fun _ => y) w (fs ++ gs) := by
  refine (Ends.imp hx (fun _ _ h => h) ?_).bind fun _ w' hw' => (hy w' hw').imp (fun _ u hu => hw'.trans hu) ?_
  · rintro w' ⟨first, finding, rest, rfl, hadded, hrefused⟩
    exact ⟨first, finding, rest ++ gs, by rw [List.append_assoc, List.cons_append], hadded, hrefused⟩
  · rintro u ⟨first, finding, rest, rfl, hadded, hrefused⟩
    exact ⟨fs ++ first, finding, rest, (List.append_assoc ..).symm, hw'.trans hadded, hrefused ∘ hw'.granted⟩

theorem addsInTurn_forEach {ι : Type} {f : ι → Routine Analysis Unit} {gs : ι → List Finding} {is : List ι} (hw : w.state.Doubled)
    (h : ∀ i v findings, Added w findings v → AddsInTurn (f i) v (gs i)) :
    AddsInTurn (forEach f is) w (is.flatMap gs) := by
  suffices hall : ∀ v findings, Added w findings v → AddsInTurn (forEach f is) v (is.flatMap gs) from
    hall w [] (.refl hw)
  induction is with
  | nil => exact fun v _ hv => ends_pure (.refl hv.doubled)
  | cons i is ih => exact fun v findings hv => (h i v findings hv).bind fun v' hv' => ih v' _ (hv.trans hv')

theorem fits_newFinding (identifier : Text) (policy : Policy) (message : Text) (node : Option Node)
    (source target detail : Option Text) :
    (fitsEvidence source ∧ fitsEvidence target ∧ fitsEvidence detail) ↔
      (newFinding identifier policy message node source target detail).Fits := by
  rw [fitsEvidence_iff, fitsEvidence_iff, fitsEvidence_iff]
  rfl

theorem addsInTurn_addFinding (h : w.state.Doubled) (identifier : Text) (policy : Policy) (message : Text)
    (node : Option Node) (source target detail : Option Text) :
    AddsInTurn (addFinding identifier policy message node source target detail) w
      [newFinding identifier policy message node source target detail] := by
  have hfits := fits_newFinding identifier policy message node source target detail
  refine Ends.bind (R := fun _ w' => (w.outcomes = [] → w'.outcomes = []) ∧ ∃ capacity,
    w'.state = { w.state with findingCapacity := capacity } ∧ w'.state.Doubled ∧ w.state.findings.length < capacity)
    ?_ fun _ w' ⟨hgranted, capacity, hstate, hdoubled, hroom⟩ => Ends.ite (fun hfit => ends_updateState ?_)
      fun hunfit => ends_fail ?_
  · refine ends_readState_bind (Ends.ite (fun hroom => ends_pure ⟨id, _, rfl, h, hroom⟩) fun hfull => ?_)
    rcases h.grown hfull with ⟨hsize, -, hdoubles⟩ | ⟨hsize, hlimit⟩
    · rw [if_neg (Nat.not_lt.mpr hsize)]
      refine ends_request (fun v hv hsuffix => ends_updateState ?_) fun v hrefused hv => ?_
      · have hlt : w.state.findings.length <
            (if w.state.findingCapacity = 0 then initialFindingCapacity else w.state.findingCapacity * 2) := by
          have hlength := h.findings
          split
          · next hzero =>
            rw [hzero, Nat.le_zero] at hlength
            rw [hlength]
            decide
          · omega
        refine ⟨fun hnil => List.suffix_nil.mp (hnil ▸ hsuffix), _, by rw [hv], ⟨?_, .inr hdoubles⟩, hlt⟩
        rw [hv]
        exact hlt.le
      · exact ⟨[], _, [], rfl, ⟨hv ▸ .refl _, fun _ hmem => absurd hmem List.not_mem_nil, hv ▸ h,
          fun hnil => absurd hnil hrefused⟩, fun hnil => absurd hnil hrefused⟩
    · rw [if_pos hsize]
      exact ends_fail ⟨[], _, [], rfl, .refl h, fun _ hadded => hlimit hadded.2⟩
  · rw [hstate]
    refine ⟨⟨rfl, rfl, rfl, rfl⟩, fun finding hmem => ?_, ⟨?_, ?_⟩, hgranted⟩
    · rw [List.mem_singleton.mp hmem]
      exact hfits.mp hfit
    · rw [Analysis.withFinding, List.length_append, List.length_singleton]
      exact hroom
    · have hcapacity := hdoubled.capacity
      rw [hstate] at hcapacity
      exact hcapacity
  · refine ⟨[], _, [], rfl, ⟨?_, fun _ hmem => absurd hmem List.not_mem_nil, hdoubled, hgranted⟩,
      fun _ hadded => hunfit (hfits.mpr hadded.1)⟩
    rw [hstate]
    exact ⟨rfl, rfl, rfl, (List.append_nil _).symm⟩

def emptyAllocationReport (node : Node) : Finding :=
  newFinding (.ofString "P101-MEM-001") .resource (.ofString "allocation size was zero at runtime") (some node)
    (some node.ptr) (some node.newPtr) none

def lifecycleReport (analysis : Analysis) (finding : Lifecycle.Finding) : Finding :=
  newFinding (.ofString (lifecycleIdentifier finding)) .resource (.ofString (lifecycleMessage (lifecycleIdentifier finding)))
    (findNode analysis finding.pid finding.contextId finding.sequence) (some finding.resourceClass)
    (some finding.resourceId) none

/-- The nodes of lifecycle findings are looked up in the order, which no finding changes. -/
theorem lifecycleReport_congr (ordered : b.ordered = a.ordered) (orderedCount : b.orderedCount = a.orderedCount) :
    lifecycleReport b = lifecycleReport a := by
  have hnode : findNode b = findNode a := by
    funext pid context sequence
    simp only [findNode, Analysis.orderedNodes, ordered, orderedCount]
  funext finding
  rw [lifecycleReport, hnode]
  rfl

theorem addsInTurn_updateState {f : Analysis → Analysis} (h : w.state.Doubled) (model : (f w.state).model = w.state.model)
    (ordered : (f w.state).ordered = w.state.ordered) (orderedCount : (f w.state).orderedCount = w.state.orderedCount)
    (findings : (f w.state).findings = w.state.findings)
    (findingCapacity : (f w.state).findingCapacity = w.state.findingCapacity) : AddsInTurn (updateState f) w [] := by
  refine ends_updateState ⟨⟨model, ordered, orderedCount, findings.trans (List.append_nil _).symm⟩,
    fun _ hmem => absurd hmem List.not_mem_nil, ?_, id⟩
  constructor
  · rw [findings, findingCapacity]
    exact h.findings
  · rw [findingCapacity]
    exact h.capacity

theorem addsInTurn_analyzeResourceNode (node : Node) (h : w.state.Doubled) :
    AddsInTurn (analyzeResourceNode node) w (if isZeroAllocation node then [emptyAllocationReport node] else []) := by
  have hcount : AddsInTurn (if node.domain = .resource then
      updateState (fun a => { a with resourceRecords := a.resourceRecords + 1 }) else pure () : Routine Analysis Unit)
      w [] := by
    split
    · exact addsInTurn_updateState h rfl rfl rfl rfl rfl
    · exact ends_pure (.refl h)
  by_cases hzero : isZeroAllocation node = true
  · rw [if_pos hzero]
    refine hcount.bind fun v hv => ?_
    rw [if_pos (of_decide_eq_true hzero)]
    exact addsInTurn_addFinding hv.doubled _ _ _ _ _ _ _
  · rw [if_neg hzero]
    refine hcount.bind fun v hv => ?_
    rw [if_neg fun hzero' => hzero (decide_eq_true hzero')]
    exact ends_pure (.refl hv.doubled)

def resourceFindings (analysis : Analysis) : List Finding :=
  (analysis.orderedNodes.filter isZeroAllocation).map emptyAllocationReport ++
    (lifecycleFindings analysis.model).map (lifecycleReport analysis)

theorem flatMap_emptyAllocationReport (nodes : List Node) :
    (nodes.flatMap fun node => if isZeroAllocation node then [emptyAllocationReport node] else []) =
      (nodes.filter isZeroAllocation).map emptyAllocationReport := by
  induction nodes with
  | nil => rfl
  | cons node nodes ih =>
    rw [List.flatMap_cons, ih, List.filter_cons]
    split <;> rfl

theorem addsInTurn_analyzeLifecycleFinding (finding : Lifecycle.Finding) (h : w.state.Doubled) :
    AddsInTurn (analyzeLifecycleFinding finding) w [lifecycleReport w.state finding] :=
  ends_readState_bind (addsInTurn_addFinding h _ _ _ _ _ _ _)

theorem addsInTurn_analyzeResources (h : w.state.Doubled) :
    AddsInTurn analyzeResources w (resourceFindings w.state) := by
  have hcleared : AddsInTurn (updateState fun a : Analysis => { a with resourceRecords := 0 }) w [] :=
    addsInTurn_updateState h rfl rfl rfl rfl rfl
  change AddsInTurn _ w ([] ++ resourceFindings w.state)
  refine hcleared.bind fun v hv => ends_readState_bind ?_
  have hnodes : v.state.orderedNodes = w.state.orderedNodes := by
    rw [Analysis.orderedNodes, Analysis.orderedNodes, hv.reported.ordered, hv.reported.orderedCount]
  have hempty := @addsInTurn_forEach v Node analyzeResourceNode _ v.state.orderedNodes hv.doubled
    fun node _ _ hu => addsInTurn_analyzeResourceNode node hu.doubled
  rw [flatMap_emptyAllocationReport] at hempty
  have hlast : (lifecycleFindings v.state.model).map (lifecycleReport w.state) =
      (lifecycleFindings v.state.model).flatMap fun finding => [lifecycleReport w.state finding] := List.map_eq_flatMap
  rw [resourceFindings, ← hnodes, ← hv.reported.model, hlast]
  refine hempty.bind fun u hu => addsInTurn_forEach hu.doubled fun finding t findings ht => ?_
  have hsame := (hv.reported.trans hu.reported).trans ht.reported
  rw [← lifecycleReport_congr hsame.ordered hsame.orderedCount]
  exact addsInTurn_analyzeLifecycleFinding finding ht.doubled

/-- The finding at a place of the list is added, when those before it are. -/
structure Addable (findings : List Finding) (n : ℕ) : Prop where
  lt : n < findings.length
  fits : ∀ finding ∈ findings.take (n + 1), finding.Fits
  limit : n < findingLimit

/-- A run that starts without findings has those before the first that cannot be added. -/
theorem AddsInTurn.addable {x : Routine Analysis Unit} {fs : List Finding} (h : AddsInTurn x w fs)
    (hnone : w.state.findings = []) {n : ℕ} (hn : n < (x w).2.state.findings.length) :
    Addable fs n ∧ (x w).2.state.findings[n]? = fs[n]? := by
  have hprefix : ∃ first, first <+: fs ∧ Added w first (x w).2 := by
    rcases hrun : x w with ⟨⟨e⟩ | ⟨⟨⟩⟩, w'⟩
    · obtain ⟨first, finding, rest, rfl, hadded, -⟩ := Ends.error h hrun
      exact ⟨first, List.prefix_append _ _, hadded⟩
    · exact ⟨fs, List.prefix_rfl, Ends.ok h hrun⟩
  obtain ⟨first, ⟨rest, rfl⟩, hadded⟩ := hprefix
  have hfindings : (x w).2.state.findings = first := by rw [hadded.reported.findings, hnone, List.nil_append]
  have hlimit := hadded.doubled.findings.trans hadded.doubled.capacity_le
  rw [hfindings] at hn hlimit ⊢
  refine ⟨⟨?_, fun finding hmem => ?_, hn.trans_le hlimit⟩, (List.getElem?_append_left hn).symm⟩
  · rw [List.length_append]
    exact hn.trans_le (Nat.le_add_right _ _)
  · rw [List.take_append_of_le_length hn] at hmem
    exact hadded.fits finding (List.mem_of_mem_take hmem)

/-- Granted its requests it has all of them. -/
theorem AddsInTurn.lt_length {x : Routine Analysis Unit} {fs : List Finding} (h : AddsInTurn x w fs)
    (hnone : w.state.findings = []) (hgranted : w.outcomes = []) {n : ℕ} (hn : Addable fs n) :
    n < (x w).2.state.findings.length := by
  rcases hrun : x w with ⟨⟨e⟩ | ⟨⟨⟩⟩, w'⟩
  · obtain ⟨first, finding, rest, rfl, hadded, hrefused⟩ := Ends.error h hrun
    have hfindings : w'.state.findings = first := by rw [hadded.reported.findings, hnone, List.nil_append]
    refine lt_of_not_ge fun hge => hrefused hgranted ⟨hn.fits finding ?_, ?_⟩ <;> dsimp only at hge <;>
      rw [hfindings] at hge
    · have hsplit : first ++ finding :: rest = (first ++ [finding]) ++ rest := by simp
      have htake : ((first ++ [finding]) ++ rest).take (n + 1) = (first ++ [finding]) ++ rest.take (n - first.length) := by
        rw [List.take_append]
        congr 1
        · exact List.take_of_length_le (by simpa using hge)
        · congr 1
          rw [List.length_append, List.length_singleton]
          omega
      rw [hsplit, htake]
      simp
    · rw [hfindings]
      exact hge.trans_lt hn.limit
  · have hadded := Ends.ok h hrun
    have hfindings : w'.state.findings = fs := by rw [hadded.reported.findings, hnone, List.nil_append]
    dsimp only
    rw [hfindings]
    exact hn.lt

end ToolEvent.ModelAnalysis
