import ToolEvent.Library.Triple
import ToolEvent.SynchronizationItems
import ToolEvent.SynchronizationSearch

/-!
# What the synchronization pass reports

Granted its requests, `analyze_synchronization` calls `add_sync_finding` for a list of
reports that depends on the nodes only. Each adds a finding unless one with the same
identifier and the same two texts is there already.
-/

namespace ToolEvent.ModelAnalysis

open Fallible World LatestMatch RunModel

/-- The arguments of a call of `add_sync_finding`. -/
structure SyncReport where
  identifier : String
  node : Node
  source : EvidenceText
  target : EvidenceText
  deriving DecidableEq

namespace SyncReport

def finding (report : SyncReport) : Finding :=
  newFinding (.ofString report.identifier) .synchronization (.ofString (syncMessage report.identifier))
    (some report.node) (some report.source.text) (some report.target.text) none

/-- What `add_sync_finding` compares. -/
def Matches (report : SyncReport) (finding : Finding) : Prop :=
  finding.diagnosticId = .ofString report.identifier ∧ finding.evidenceFrom = report.source.text ∧
    finding.evidenceTo = report.target.text

instance (report : SyncReport) (finding : Finding) : Decidable (report.Matches finding) :=
  inferInstanceAs (Decidable (_ ∧ _ ∧ _))

/-- The findings with that of a report, unless it would repeat one. -/
def insert (findings : List Finding) (report : SyncReport) : List Finding :=
  if findings.any (fun finding => report.Matches finding) then findings else findings ++ [report.finding]

def insertAll (findings : List Finding) (reports : List SyncReport) : List Finding :=
  reports.foldl insert findings

@[simp] theorem insertAll_nil (findings : List Finding) : insertAll findings [] = findings := rfl

theorem insertAll_append (findings : List Finding) (reports reports' : List SyncReport) :
    insertAll findings (reports ++ reports') = insertAll (insertAll findings reports) reports' :=
  List.foldl_append

end SyncReport

theorem EvidenceText.text_inj {s t : EvidenceText} : s.text = t.text ↔ s = t := by
  cases s
  cases t
  simp

namespace SyncReport

variable {findings : List Finding} {P : Text → Text → Text → Prop}

theorem exists_mem_insert {report : SyncReport} :
    (∃ finding ∈ insert findings report, P finding.diagnosticId finding.evidenceFrom finding.evidenceTo) ↔
      (∃ finding ∈ findings, P finding.diagnosticId finding.evidenceFrom finding.evidenceTo) ∨
        P (.ofString report.identifier) report.source.text report.target.text := by
  unfold insert
  split
  · next hrepeats =>
    refine (or_iff_left_of_imp fun hreport => ?_).symm
    obtain ⟨finding, hmem, hmatches⟩ := List.any_eq_true.mp hrepeats
    obtain ⟨hid, hsource, htarget⟩ := of_decide_eq_true hmatches
    refine ⟨finding, hmem, ?_⟩
    rwa [hid, hsource, htarget]
  · have hnew : P report.finding.diagnosticId report.finding.evidenceFrom report.finding.evidenceTo ↔
        P (.ofString report.identifier) report.source.text report.target.text := Iff.rfl
    simp only [List.mem_append, List.mem_singleton, or_and_right, exists_or, exists_eq_left, hnew]

/-- Suppressing repeated findings does not change which identifiers and texts there are. -/
theorem exists_mem_insertAll {reports : List SyncReport} :
    (∃ finding ∈ insertAll findings reports,
        P finding.diagnosticId finding.evidenceFrom finding.evidenceTo) ↔
      (∃ finding ∈ findings, P finding.diagnosticId finding.evidenceFrom finding.evidenceTo) ∨
        ∃ report ∈ reports, P (.ofString report.identifier) report.source.text report.target.text := by
  induction reports generalizing findings with
  | nil => simp
  | cons report reports ih =>
    have hinsertAll : insertAll findings (report :: reports) = insertAll (insert findings report) reports := rfl
    rw [hinsertAll, ih, exists_mem_insert, or_assoc]
    apply or_congr_right
    simp only [List.exists_mem_cons_iff]

end SyncReport

/-- The storage of the findings cannot be doubled: its size in bytes would exceed `SIZE_MAX`. -/
def Analysis.Exhausted (analysis : Analysis) : Prop := sizeMax / findingSize < analysis.findingCapacity * 2

variable {α β : Type}

/-- Granted its requests, the run adds the findings of the reports. It fails only when there is
no room for one of them, having added those before it. -/
def AddsAt (x : Routine SyncState α) (w : World SyncState) (reports : List SyncReport) : Prop :=
  Ends x w
    (fun _ w' => w'.outcomes = [] ∧ w'.state.1.findings = SyncReport.insertAll w.state.1.findings reports)
    (fun w' => w'.state.1.Exhausted ∧ ∃ first, first <+: reports ∧
      w'.state.1.findings = SyncReport.insertAll w.state.1.findings first)

theorem AddsAt.bind {x : Routine SyncState α} {f : α → Routine SyncState β} {w : World SyncState}
    {reports reports' : List SyncReport} (hx : AddsAt x w reports)
    (hf : ∀ a w', x w = (.ok a, w') → w'.outcomes = [] → AddsAt (f a) w' reports') :
    AddsAt (x >>= f) w (reports ++ reports') := by
  refine ends_of (fun b w'' hrun => ?_) (fun e w'' hrun => ?_)
  · obtain ⟨a, w', hfirst, hsecond⟩ := run_bind_eq_ok.mp hrun
    obtain ⟨hgranted, hfindings⟩ := Ends.ok hx hfirst
    obtain ⟨hgranted', hfindings'⟩ := Ends.ok (hf a w' hfirst hgranted) hsecond
    exact ⟨hgranted', by rw [hfindings', hfindings, SyncReport.insertAll_append]⟩
  · rcases hfirst : x w with ⟨⟨e'⟩ | ⟨a⟩, w'⟩
    · rw [run_bind_of_error hfirst] at hrun
      obtain ⟨-, rfl⟩ := Prod.mk.inj hrun
      obtain ⟨hexhausted, first, hprefix, hfindings⟩ := Ends.error hx hfirst
      exact ⟨hexhausted, first, hprefix.trans (List.prefix_append _ _), hfindings⟩
    · rw [run_bind_of_ok hfirst] at hrun
      obtain ⟨hgranted, hfindings⟩ := Ends.ok hx hfirst
      obtain ⟨hexhausted, first, hprefix, hfindings'⟩ := Ends.error (hf a w' hfirst hgranted) hrun
      refine ⟨hexhausted, reports ++ first, (List.prefix_append_right_inj _).mpr hprefix, ?_⟩
      rw [hfindings', hfindings, SyncReport.insertAll_append]

/-- A judgement of what a run adds to a list, closed under the ways to compose routines. -/
structure ReportRules {δ : Type} (entry : SyncReport → δ)
    (At : (α : Type) → Routine SyncState α → World SyncState → List δ → Prop) : Prop where
  pureAt : ∀ {α : Type} (a : α) (w : World SyncState), At α (pure a) w []
  updateAt : ∀ (f : SyncLocals → SyncLocals) (w : World SyncState), At Unit (updateSync f) w []
  readAt : ∀ {α : Type} {f : SyncState → Routine SyncState α} {w : World SyncState} {entries : List δ},
    At α (f w.state) w entries → At α (readState >>= f) w entries
  bindAt : ∀ {α β : Type} {x : Routine SyncState α} {f : α → Routine SyncState β} {w : World SyncState}
    {entries entries' : List δ}, At α x w entries → (∀ a w', x w = (.ok a, w') → At β (f a) w' entries') →
      At β (x >>= f) w (entries ++ entries')
  addAt : ∀ (identifier : String) (node : Node) (source target : EvidenceText) (w : World SyncState),
    At Unit (addSyncFinding identifier node source target) w [entry ⟨identifier, node, source, target⟩]

section Rules

variable {δ : Type} {entry : SyncReport → δ} {At : (α : Type) → Routine SyncState α → World SyncState → List δ → Prop}

/-- What a routine adds, as a function of the arrays it starts from. -/
def Enters (At : (α : Type) → Routine SyncState α → World SyncState → List δ → Prop) (x : Routine SyncState α)
    (entries : SyncLocals → List δ) : Prop := ∀ w, At α x w (entries w.state.2)

theorem enters_pure (rules : ReportRules entry At) (a : α) : Enters At (pure a) (fun _ => []) := rules.pureAt a

theorem enters_updateSync (rules : ReportRules entry At) (f : SyncLocals → SyncLocals) :
    Enters At (updateSync f) (fun _ => []) := rules.updateAt f

theorem enters_readState_bind (rules : ReportRules entry At) {f : SyncState → Routine SyncState β}
    {entries : SyncLocals → List δ} (h : ∀ w : World SyncState, At β (f w.state) w (entries w.state.2)) :
    Enters At (readState >>= f) entries := fun w => rules.readAt (h w)

theorem Enters.bind (rules : ReportRules entry At) {x : Routine SyncState α} {f : α → Routine SyncState β}
    {g : SyncLocals → SyncLocals} {entries entries' : SyncLocals → List δ} (hx : Enters At x entries)
    (heffect : Performs x g) (hf : ∀ a, Enters At (f a) entries') :
    Enters At (x >>= f) (fun l => entries l ++ entries' (g l)) := by
  intro w
  refine rules.bindAt (hx w) fun a w' hrun => ?_
  have hnext := hf a w'
  rwa [(heffect w).ok a w' hrun] at hnext

theorem Enters.ite {p : Prop} [Decidable p] {x y : Routine SyncState α} {entries entries' : SyncLocals → List δ}
    (hx : Enters At x entries) (hy : Enters At y entries') :
    Enters At (if p then x else y) (fun l => if p then entries l else entries' l) := by
  intro w
  split
  · exact hx w
  · exact hy w

/-- The reports of a loop whose rounds change the arrays. -/
def reportsInOrder {ι : Type} (g : ι → SyncLocals → SyncLocals) (reports : ι → SyncLocals → List α) :
    List ι → SyncLocals → List α
  | [], _ => []
  | i :: is, l => reports i l ++ reportsInOrder g reports is (g i l)

theorem enters_forEach (rules : ReportRules entry At) {ι : Type} {f : ι → Routine SyncState Unit}
    {g : ι → SyncLocals → SyncLocals} {entries : ι → SyncLocals → List δ} (h : ∀ i, Enters At (f i) (entries i))
    (heffect : ∀ i, Performs (f i) (g i)) (is : List ι) :
    Enters At (forEach f is) (reportsInOrder g entries is) := by
  induction is with
  | nil => exact enters_pure rules _
  | cons i is ih => exact (h i).bind rules (heffect i) fun _ => ih

theorem reportsInOrder_id {ι : Type} (reports : ι → SyncLocals → List α) (is : List ι)
    (l : SyncLocals) : reportsInOrder (fun _ => id) reports is l = is.flatMap (fun i => reports i l) := by
  induction is with
  | nil => rfl
  | cons i is ih => rw [reportsInOrder, id_eq, ih, List.flatMap_cons]

/-- A loop whose rounds keep the arrays. -/
theorem enters_forEach_keeps (rules : ReportRules entry At) {ι : Type} {f : ι → Routine SyncState Unit}
    {entries : ι → SyncLocals → List δ} (h : ∀ i, Enters At (f i) (entries i)) (hkeeps : ∀ i, KeepsLocals (f i))
    (is : List ι) : Enters At (forEach f is) (fun l => is.flatMap (fun i => entries i l)) := by
  have hall := enters_forEach rules h (fun i => (hkeeps i).performs) is
  simpa only [funext fun l => reportsInOrder_id entries is l] using hall

theorem keepsLocals_findingIf {p : Prop} [Decidable p] (identifier : String) (node : Node)
    (source target : EvidenceText) :
    KeepsLocals (if p then addSyncFinding identifier node source target else pure ()) :=
  keepsLocals_of_evolves (Evolves.ite (evolves_addSyncFinding _ _ _ _) (evolves_pure _))

/-- Every report of the routine adds its entry. -/
def EntersReports (entry : SyncReport → δ) (At : (α : Type) → Routine SyncState α → World SyncState → List δ → Prop)
    (x : Routine SyncState α) (reports : SyncLocals → List SyncReport) : Prop :=
  Enters At x (fun l => (reports l).map entry)

theorem reports_pure (rules : ReportRules entry At) (a : α) : EntersReports entry At (pure a) (fun _ => []) := enters_pure rules a

theorem reports_updateSync (rules : ReportRules entry At) (f : SyncLocals → SyncLocals) :
    EntersReports entry At (updateSync f) (fun _ => []) := enters_updateSync rules f

theorem reports_readState_bind (rules : ReportRules entry At) {f : SyncState → Routine SyncState β}
    {reports : SyncLocals → List SyncReport} (h : ∀ w : World SyncState, At β (f w.state) w ((reports w.state.2).map entry)) :
    EntersReports entry At (readState >>= f) reports := enters_readState_bind rules h

theorem EntersReports.bind (rules : ReportRules entry At) {x : Routine SyncState α} {f : α → Routine SyncState β}
    {g : SyncLocals → SyncLocals} {reports reports' : SyncLocals → List SyncReport} (hx : EntersReports entry At x reports)
    (heffect : Performs x g) (hf : ∀ a, EntersReports entry At (f a) reports') :
    EntersReports entry At (x >>= f) (fun l => reports l ++ reports' (g l)) := by
  intro w
  dsimp only
  rw [List.map_append]
  exact Enters.bind rules hx heffect hf w

theorem EntersReports.ite {p : Prop} [Decidable p] {x y : Routine SyncState α} {reports reports' : SyncLocals → List SyncReport}
    (hx : EntersReports entry At x reports) (hy : EntersReports entry At y reports') :
    EntersReports entry At (if p then x else y) (fun l => if p then reports l else reports' l) := by
  intro w
  split
  · exact hx w
  · exact hy w

theorem reports_forEach_keeps (rules : ReportRules entry At) {ι : Type} {f : ι → Routine SyncState Unit}
    {reports : ι → SyncLocals → List SyncReport} (h : ∀ i, EntersReports entry At (f i) (reports i))
    (hkeeps : ∀ i, KeepsLocals (f i)) (is : List ι) :
    EntersReports entry At (forEach f is) (fun l => is.flatMap (fun i => reports i l)) := by
  intro w
  dsimp only
  rw [List.map_flatMap]
  exact enters_forEach_keeps rules h hkeeps is w

/-- A finding that is added under a condition. -/
theorem reports_findingIf (rules : ReportRules entry At) {p : Prop} [Decidable p] (identifier : String) (node : Node)
    (source target : EvidenceText) :
    EntersReports entry At (if p then addSyncFinding identifier node source target else pure ())
      (fun _ => if p then [⟨identifier, node, source, target⟩] else []) :=
  EntersReports.ite (rules.addAt _ _ _ _) (reports_pure rules _)

end Rules

/-- A condition on the arrays that every round establishes exactly when it reports. -/
theorem exists_mem_reportsInOrder {ι : Type} {g : ι → SyncLocals → SyncLocals}
    {reports : ι → SyncLocals → List SyncReport} {C : SyncLocals → Prop} {P : SyncReport → Prop}
    (h : ∀ i l, C (g i l) ↔ C l ∨ ∃ report ∈ reports i l, P report) (is : List ι) (l : SyncLocals) :
    C (is.foldl (fun l i => g i l) l) ↔ C l ∨ ∃ report ∈ reportsInOrder g reports is l, P report := by
  induction is generalizing l with
  | nil => simp [reportsInOrder]
  | cons i is ih =>
    rw [List.foldl_cons, ih, h, or_assoc]
    apply or_congr_right
    simp only [reportsInOrder, List.mem_append, or_and_right, exists_or]

theorem forall_mem_reportsInOrder {ι : Type} {g : ι → SyncLocals → SyncLocals}
    {reports : ι → SyncLocals → List SyncReport} {P : SyncReport → Prop}
    (h : ∀ i l, ∀ report ∈ reports i l, P report) (is : List ι) (l : SyncLocals) :
    ∀ report ∈ reportsInOrder g reports is l, P report := by
  induction is generalizing l with
  | nil => exact fun report hreport => absurd hreport List.not_mem_nil
  | cons i is ih =>
    intro report hreport
    rcases List.mem_append.mp hreport with hreport | hreport
    · exact h i l report hreport
    · exact ih (g i l) report hreport

theorem ends_reserveFindings_granted (analysis : Analysis) :
    Ends reserveFindings ⟨analysis, []⟩
      (fun _ w' => w'.outcomes = [] ∧ w'.state.findings = analysis.findings)
      (fun w' => w'.state.Exhausted ∧ w'.state.findings = analysis.findings) := by
  refine ends_readState_bind (Ends.ite (fun _ => ends_pure ⟨rfl, rfl⟩) fun _ => Ends.ite (fun hsize => ?_) fun _ => ?_)
  · refine ends_fail ⟨?_, rfl⟩
    unfold Analysis.Exhausted
    split at hsize
    · exact absurd hsize (by decide)
    · exact hsize
  · exact ⟨rfl, rfl⟩

theorem ends_addFinding_granted (analysis : Analysis) (identifier message : Text) (policy : Policy)
    (node : Option Node) (source target : EvidenceText) :
    Ends (addFinding identifier policy message node (some source.text) (some target.text) none) ⟨analysis, []⟩
      (fun _ w' => w'.outcomes = [] ∧ w'.state.findings = analysis.findings ++
        [newFinding identifier policy message node (some source.text) (some target.text) none])
      (fun w' => w'.state.Exhausted ∧ w'.state.findings = analysis.findings) := by
  have hfits : fitsEvidence (some source.text) ∧ fitsEvidence (some target.text) ∧ fitsEvidence none :=
    ⟨decide_eq_true source.fits, decide_eq_true target.fits, rfl⟩
  refine (ends_reserveFindings_granted analysis).bind fun _ w' hreserved => ?_
  obtain ⟨hgranted, hfindings⟩ := hreserved
  rw [if_pos hfits]
  apply ends_updateState
  exact ⟨hgranted, by rw [Analysis.withFinding, hfindings]⟩

def AddsFrom (α : Type) (x : Routine SyncState α) (w : World SyncState) (reports : List SyncReport) : Prop :=
  w.outcomes = [] → AddsAt x w reports

/-- The reports of a routine whose requests are granted. -/
abbrev Adds (x : Routine SyncState α) (reports : SyncLocals → List SyncReport) : Prop := Enters AddsFrom x reports

theorem adds_addSyncFinding (identifier : String) (node : Node) (source target : EvidenceText) :
    Adds (addSyncFinding identifier node source target) (fun _ => [⟨identifier, node, source, target⟩]) := by
  rintro ⟨⟨analysis, l⟩, outcomes⟩ hw
  obtain rfl : outcomes = [] := hw
  have hinsert : SyncReport.insertAll analysis.findings [⟨identifier, node, source, target⟩] =
      SyncReport.insert analysis.findings ⟨identifier, node, source, target⟩ := rfl
  refine ends_readState_bind (Ends.ite (fun hrepeats => ?_) fun hnew => ?_)
  · apply ends_pure
    exact ⟨rfl, by rw [hinsert]; exact (if_pos hrepeats).symm⟩
  · have hadded := ends_addFinding_granted analysis (.ofString identifier) (.ofString (syncMessage identifier))
      .synchronization (some node) source target
    refine ends_of (fun _ w' hrun => ?_) (fun e w' hrun => ?_)
    · obtain ⟨hok, rfl⟩ := Prod.mk.inj hrun
      obtain ⟨hgranted, hfindings⟩ := Ends.ok hadded (Prod.ext hok rfl)
      refine ⟨hgranted, hfindings.trans ?_⟩
      rw [hinsert]
      exact (if_neg hnew).symm
    · obtain ⟨herror, rfl⟩ := Prod.mk.inj hrun
      obtain ⟨hexhausted, hfindings⟩ := Ends.error hadded (Prod.ext herror rfl)
      exact ⟨hexhausted, [], List.nil_prefix, hfindings⟩

theorem addsRules : ReportRules id AddsFrom where
  pureAt := fun _ _ hw => ends_pure ⟨hw, rfl⟩
  updateAt := fun _ _ hw => ends_updateState ⟨hw, rfl⟩
  readAt := fun h hw => ends_readState_bind (h hw)
  bindAt := fun hx hf hw => (hx hw).bind hf
  addAt := adds_addSyncFinding

/-- The reports about one held item when a lock is acquired. -/
def orderReports (node : Node) (thread resource : EvidenceText) (item : SyncItem) (l : SyncLocals) :
    List SyncReport :=
  if item.active ∧ item.thread = thread ∧ item.resource ≠ resource then
    if reaches l.lockEdges resource item.resource then [⟨"P101-SYNC-001", node, item.resource, resource⟩]
    else []
  else []

def acquireReports (node : Node) (thread resource : EvidenceText) (l : SyncLocals) : List SyncReport :=
  reportsInOrder (orderEffect thread resource) (orderReports node thread resource) l.held l

def destroyReports (node : Node) (resource : EvidenceText) (l : SyncLocals) : List SyncReport :=
  l.held.flatMap (fun item =>
    if item.active ∧ item.resource = resource then [⟨"P101-SYNC-007", node, resource, item.thread⟩] else []) ++
  l.waits.flatMap (fun item =>
    if item.active ∧ (item.resource = resource ∨ item.target = resource) then
      [⟨"P101-SYNC-007", node, resource, item.thread⟩]
    else [])

def terminalReports (node : Node) (resource : EvidenceText) (l : SyncLocals) : List SyncReport :=
  l.terminated.flatMap (fun item =>
    if item.active ∧ item.resource = resource then [⟨"P101-SYNC-008", node, resource, item.thread⟩] else [])

def lastHeldReports (identifier : String) (node : Node) (thread resource : EvidenceText) (l : SyncLocals) :
    List SyncReport :=
  (lastHeld l.held thread).elim [] (fun item => [⟨identifier, node, item.resource, resource⟩])

def releaseReports (node : Node) (thread resource : EvidenceText) (l : SyncLocals) : List SyncReport :=
  (lastHeld l.held thread).elim [] (fun item =>
    if item.resource ≠ resource then [⟨"P101-SYNC-004", node, item.resource, resource⟩] else [])

/-- The reports about the earlier waits when one on a condition variable begins. -/
def conditionReports (node : Node) (item : SyncItem) (l : SyncLocals) : List SyncReport :=
  if isConditionWait node then
    l.waits.flatMap (fun prior =>
      if prior.active ∧ prior.resource = item.resource ∧ prior.target ≠ item.target then
        [⟨"P101-SYNC-009", node, item.resource, item.target⟩]
      else [])
  else []

def beginWaitReports (node : Node) (thread resource : EvidenceText) (l : SyncLocals) : List SyncReport :=
  (if isJoinWait node then lastHeldReports "P101-SYNC-005" node thread resource l else []) ++
    conditionReports node (waitItem node thread resource) l

def recordReports (node : Node) (l : SyncLocals) : List SyncReport :=
  let thread := formatSyncThread node
  let resource := formatSyncResource node node.resourceId
  let isMutexLifecycle : Bool := node.resourceClass = .ofString "pthread-mutex"
  let isTerminalAttempt : Bool := node.resourceClass = .ofString "pthread-terminal-attempt"
  let isJoinableThread : Bool := node.resourceClass = .ofString "pthread-joinable-thread"
  let isBlockingOperation : Bool := node.resourceClass = .ofString "blocking-operation"
  match isMutexLifecycle, isTerminalAttempt, isJoinableThread, isBlockingOperation,
    isHeldClass node.resourceClass, node.resourceKind with
  | true, _, _, _, _, .release => destroyReports node resource l
  | false, true, _, _, _, _ => terminalReports node resource l
  | false, false, false, true, _, _ => lastHeldReports "P101-SYNC-010" node thread resource l
  | false, false, false, false, true, .acquire => acquireReports node thread resource l
  | false, false, false, false, true, .release => releaseReports node thread resource l
  | false, false, false, false, false, .acquire => beginWaitReports node thread resource l
  | _, _, _, _, _, _ => []

def nodeReports (node : Node) (l : SyncLocals) : List SyncReport :=
  if isSynchronizationRecord node then recordReports node l else []

def passReports (nodes : List Node) : List SyncReport := reportsInOrder nodeEffect nodeReports nodes {}

/-- The search changes nothing and answers whether there is a path. -/
theorem addsAt_syncReaches_bind {edges : List SyncEdge} {start target : EvidenceText}
    {f : Bool → Routine SyncState α} {w : World SyncState} {reports : List SyncReport} (hw : w.outcomes = [])
    (h : AddsAt (f (reaches edges start target)) w reports) :
    AddsAt (syncReaches edges start target >>= f) w reports := by
  obtain ⟨s, outcomes⟩ := w
  obtain rfl : outcomes = [] := hw
  unfold AddsAt Ends at h ⊢
  rwa [run_bind_of_ok (run_syncReaches edges start target s)]

theorem adds_orderLocks (node : Node) (thread resource : EvidenceText) (item : SyncItem) :
    Adds (orderLocks node thread resource item) (orderReports node thread resource item) := by
  refine Enters.ite (enters_readState_bind addsRules fun w hw => addsAt_syncReaches_bind hw ?_) (enters_pure addsRules _)
  have hreport := (reports_findingIf addsRules (p := reaches w.state.2.lockEdges resource item.resource = true)
    "P101-SYNC-001" node item.resource resource).bind addsRules (keepsLocals_findingIf _ _ _ _).performs
    fun _ => reports_updateSync addsRules (SyncLocals.pushLockEdge ⟨item.resource, resource⟩)
  simpa using hreport w hw

theorem adds_acquireLock (node : Node) (thread resource : EvidenceText) :
    Adds (acquireLock node thread resource) (acquireReports node thread resource) := by
  refine enters_readState_bind addsRules fun w hw => ?_
  have hloop := enters_forEach addsRules (adds_orderLocks node thread resource)
    (performs_orderLocks node thread resource) w.state.2.held
  have heffect := performs_forEach (performs_orderLocks node thread resource)
    (extendsLog_orderEffect thread resource) w.state.2.held
  have hall := hloop.bind addsRules heffect fun _ =>
    enters_updateSync addsRules (SyncLocals.pushHeld { node := node, thread := thread, resource := resource })
  simpa [acquireReports] using hall w hw

section Records

variable {δ : Type} {entry : SyncReport → δ} {At : (α : Type) → Routine SyncState α → World SyncState → List δ → Prop}

theorem reports_reportLastHeld (rules : ReportRules entry At) (identifier : String) (node : Node)
    (thread resource : EvidenceText) :
    EntersReports entry At (reportLastHeld identifier node thread resource) (lastHeldReports identifier node thread resource) := by
  refine reports_readState_bind rules fun w => ?_
  unfold lastHeldReports
  dsimp only
  cases lastHeld w.state.2.held thread with
  | none => exact rules.pureAt _ w
  | some item => exact rules.addAt _ _ _ _ w

theorem reports_releaseLock (rules : ReportRules entry At) (node : Node) (thread resource : EvidenceText) :
    EntersReports entry At (releaseLock node thread resource) (releaseReports node thread resource) := by
  refine reports_readState_bind rules fun w => ?_
  have hreport : EntersReports entry At (reportReleaseOrder node resource (lastHeld w.state.2.held thread))
      (fun _ => releaseReports node thread resource w.state.2) := by
    unfold releaseReports reportReleaseOrder
    cases lastHeld w.state.2.held thread with
    | none => exact reports_pure rules _
    | some item => exact reports_findingIf rules _ _ _ _
  have hkeeps := (keepsLocals_of_evolves
    (evolves_reportReleaseOrder node resource (lastHeld w.state.2.held thread))).performs
  have hall := hreport.bind rules hkeeps fun _ => reports_updateSync rules (SyncLocals.endHeld thread resource)
  simpa using hall w

theorem reports_conditionFindings (rules : ReportRules entry At) (node : Node) (item : SyncItem) (waits : List SyncItem) :
    EntersReports entry At (if isConditionWait node then
        forEach (fun prior : SyncItem =>
          if prior.active ∧ prior.resource = item.resource ∧ prior.target ≠ item.target then
            addSyncFinding "P101-SYNC-009" node item.resource item.target
          else pure ()) waits
      else pure ())
      (fun _ => if isConditionWait node then
        waits.flatMap (fun prior =>
          if prior.active ∧ prior.resource = item.resource ∧ prior.target ≠ item.target then
            [⟨"P101-SYNC-009", node, item.resource, item.target⟩]
          else [])
      else []) :=
  (reports_forEach_keeps rules (fun _ => reports_findingIf rules _ _ _ _) (fun _ => keepsLocals_findingIf _ _ _ _) waits).ite
    (reports_pure rules ())

theorem keepsLocals_conditionFindings (node : Node) (item : SyncItem) (waits : List SyncItem) :
    KeepsLocals (if isConditionWait node then
        forEach (fun prior : SyncItem =>
          if prior.active ∧ prior.resource = item.resource ∧ prior.target ≠ item.target then
            addSyncFinding "P101-SYNC-009" node item.resource item.target
          else pure ()) waits
      else pure ()) :=
  keepsLocals_of_evolves (Evolves.ite (evolves_forEach (fun _ =>
    Evolves.ite (evolves_addSyncFinding _ _ _ _) (evolves_pure _)) _) (evolves_pure _))

theorem reports_beginWait (rules : ReportRules entry At) (node : Node) (thread resource : EvidenceText) :
    EntersReports entry At (beginWait node thread resource) (beginWaitReports node thread resource) := by
  have hjoin : EntersReports entry At (if isJoinWait node then reportLastHeld "P101-SYNC-005" node thread resource else pure ())
      (fun l => if isJoinWait node then lastHeldReports "P101-SYNC-005" node thread resource l else []) :=
    (reports_reportLastHeld rules _ _ _ _).ite (reports_pure rules _)
  have hkeeps := (keepsLocals_of_evolves (Evolves.ite (p := isJoinWait node = true)
    (evolves_reportLastHeld "P101-SYNC-005" node thread resource) (evolves_pure ()))).performs
  refine hjoin.bind rules hkeeps (?_ : ∀ _, EntersReports entry At _ (conditionReports node (waitItem node thread resource)))
  refine fun _ => reports_readState_bind rules fun w => ?_
  have hall := (reports_updateSync rules (SyncLocals.log .waits w.state.2.waits.length)).bind rules (performs_updateSync _)
    fun _ => (reports_conditionFindings rules node (waitItem node thread resource) w.state.2.waits).bind rules
      (keepsLocals_conditionFindings node (waitItem node thread resource) w.state.2.waits).performs
        fun _ => reports_updateSync rules (SyncLocals.pushWait (waitItem node thread resource))
  simpa [conditionReports] using hall w

theorem reports_destroyMutex (rules : ReportRules entry At) (node : Node) (resource : EvidenceText) :
    EntersReports entry At (destroyMutex node resource) (destroyReports node resource) := by
  refine reports_readState_bind rules fun w => ?_
  have hheld := reports_forEach_keeps rules
    (fun item : SyncItem => reports_findingIf rules (p := item.active ∧ item.resource = resource)
      "P101-SYNC-007" node resource item.thread) (fun _ => keepsLocals_findingIf _ _ _ _) w.state.2.held
  have hkeeps := (keepsLocals_of_evolves (evolves_forEach (fun item : SyncItem =>
    Evolves.ite (p := item.active ∧ item.resource = resource)
      (evolves_addSyncFinding "P101-SYNC-007" node resource item.thread) (evolves_pure ())) w.state.2.held)).performs
  have hwaits := reports_forEach_keeps rules
    (fun item : SyncItem => reports_findingIf rules
      (p := item.active ∧ (item.resource = resource ∨ item.target = resource))
      "P101-SYNC-007" node resource item.thread) (fun _ => keepsLocals_findingIf _ _ _ _) w.state.2.waits
  exact hheld.bind rules hkeeps (fun _ => hwaits) w

theorem reports_attemptTerminal (rules : ReportRules entry At) (node : Node) (resource : EvidenceText) :
    EntersReports entry At (attemptTerminal node resource) (terminalReports node resource) :=
  reports_readState_bind rules fun w => reports_forEach_keeps rules (fun _ => reports_findingIf rules _ _ _ _)
    (fun _ => keepsLocals_findingIf _ _ _ _) w.state.2.terminated w

/-- Every record but the acquisition of a lock, which searches the lock order. -/
theorem reports_synchronizeRecord (rules : ReportRules entry At) {node : Node}
    (h : ¬ (isHeldClass node.resourceClass = true ∧ node.resourceKind = .acquire)) :
    EntersReports entry At (synchronizeRecord node) (recordReports node) := by
  intro w
  unfold synchronizeRecord recordReports
  dsimp only
  generalize decide (node.resourceClass = .ofString "pthread-mutex") = isMutexLifecycle
  generalize decide (node.resourceClass = .ofString "pthread-terminal-attempt") = isTerminalAttempt
  generalize decide (node.resourceClass = .ofString "pthread-joinable-thread") = isJoinableThread
  generalize decide (node.resourceClass = .ofString "blocking-operation") = isBlockingOperation
  generalize isHeldClass node.resourceClass = isHeld at h ⊢
  cases isMutexLifecycle with
  | true =>
    cases node.resourceKind
    case release => exact reports_destroyMutex rules _ _ w
    all_goals exact rules.pureAt _ w
  | false =>
  cases isTerminalAttempt with
  | true => exact reports_attemptTerminal rules _ _ w
  | false =>
  cases isJoinableThread with
  | true =>
    cases node.resourceKind
    case release => exact rules.updateAt _ w
    all_goals exact rules.pureAt _ w
  | false =>
  cases isBlockingOperation with
  | true => exact reports_reportLastHeld rules _ _ _ _ w
  | false =>
  cases isHeld with
  | true =>
    cases hkind : node.resourceKind
    case acquire => exact absurd ⟨rfl, hkind⟩ h
    case release => exact reports_releaseLock rules _ _ _ w
    all_goals exact rules.pureAt _ w
  | false =>
    cases node.resourceKind
    case acquire => exact reports_beginWait rules _ _ _ w
    case release => exact rules.updateAt _ w
    all_goals exact rules.pureAt _ w

end Records

theorem synchronizeRecord_of_acquire {node : Node} (hheld : isHeldClass node.resourceClass = true)
    (hkind : node.resourceKind = .acquire) :
    synchronizeRecord node = acquireLock node (formatSyncThread node) (formatSyncResource node node.resourceId) := by
  obtain ⟨hmutex, hterminal, hjoinable, hblocking⟩ := ne_of_isHeldClass hheld
  unfold synchronizeRecord
  simp only [hmutex, hterminal, hjoinable, hblocking, hheld, hkind, decide_false, Bool.false_eq_true, false_and, if_false,
    and_self, if_true]

theorem recordReports_of_acquire {node : Node} (hheld : isHeldClass node.resourceClass = true)
    (hkind : node.resourceKind = .acquire) (l : SyncLocals) :
    recordReports node l = acquireReports node (formatSyncThread node) (formatSyncResource node node.resourceId) l := by
  obtain ⟨hmutex, hterminal, hjoinable, hblocking⟩ := ne_of_isHeldClass hheld
  unfold recordReports
  simp only [hmutex, hterminal, hjoinable, hblocking, hheld, hkind, decide_false]

theorem adds_synchronizeRecord (node : Node) : Adds (synchronizeRecord node) (recordReports node) := by
  intro w
  by_cases hacquire : isHeldClass node.resourceClass = true ∧ node.resourceKind = .acquire
  · rw [synchronizeRecord_of_acquire hacquire.1 hacquire.2, recordReports_of_acquire hacquire.1 hacquire.2]
    exact adds_acquireLock _ _ _ w
  · simpa using reports_synchronizeRecord addsRules hacquire w

theorem adds_synchronizeNode (node : Node) : Adds (synchronizeNode node) (nodeReports node) := by
  have hcount : Adds (updateState fun s : SyncState =>
      ({ s.1 with synchronizationRecords := s.1.synchronizationRecords + 1 }, s.2)) (fun _ => []) :=
    fun _ hw => ends_updateState ⟨hw, rfl⟩
  have hkeeps : KeepsLocals (updateState fun s : SyncState =>
      ({ s.1 with synchronizationRecords := s.1.synchronizationRecords + 1 }, s.2)) := fun _ => rfl
  exact Enters.ite (Enters.bind addsRules hcount hkeeps.performs fun _ => adds_synchronizeRecord node) (enters_pure addsRules _)

def deadlockReports (wait : SyncItem) (edges waitEdges : List SyncEdge) : List SyncReport :=
  (edges.find? (fun edge => edge.source = wait.thread ∧ reaches waitEdges edge.target wait.thread)).elim []
    (fun edge => [⟨"P101-SYNC-002", wait.node, wait.thread, edge.target⟩])

def waitReports (wait : SyncItem) (l : SyncLocals) : List SyncReport :=
  if wait.active = false then []
  else if wait.join then
    if reaches l.joinEdges wait.target wait.thread then
      [⟨"P101-SYNC-003", wait.node, wait.thread, wait.target⟩]
    else []
  else deadlockReports wait l.waitEdges l.waitEdges

def finalArrays (nodes : List Node) : SyncLocals := (passEffect nodes).addAllWaitEdges

/-- The reports of `analyze_synchronization`. -/
def synchronizationReports (nodes : List Node) : List SyncReport :=
  passReports nodes ++ (finalArrays nodes).waits.flatMap (fun wait => waitReports wait (finalArrays nodes))

theorem deadlockReports_cons (wait : SyncItem) (edge : SyncEdge) (edges waitEdges : List SyncEdge) :
    deadlockReports wait (edge :: edges) waitEdges =
      if edge.source ≠ wait.thread then deadlockReports wait edges waitEdges
      else if reaches waitEdges edge.target wait.thread then
        [⟨"P101-SYNC-002", wait.node, wait.thread, edge.target⟩]
      else deadlockReports wait edges waitEdges := by
  unfold deadlockReports
  rw [List.find?_cons]
  by_cases hsource : edge.source = wait.thread
  · cases reaches waitEdges edge.target wait.thread <;> simp [hsource]
  · simp [hsource]

theorem adds_reportDeadlock (wait : SyncItem) (edges : List SyncEdge) :
    Adds (reportDeadlock wait edges) (fun l => deadlockReports wait edges l.waitEdges) := by
  induction edges with
  | nil => exact enters_pure addsRules _
  | cons edge edges ih =>
    intro w hw
    dsimp only
    rw [deadlockReports_cons, reportDeadlock]
    split
    · exact ih w hw
    · refine ends_readState_bind (addsAt_syncReaches_bind hw ?_)
      split
      · exact adds_addSyncFinding _ _ _ _ w hw
      · exact ih w hw

theorem adds_reportWait (wait : SyncItem) : Adds (reportWait wait) (waitReports wait) := by
  intro w hw
  unfold reportWait waitReports
  split
  · exact addsRules.pureAt _ w hw
  · apply ends_readState_bind
    dsimp only
    split
    · refine addsAt_syncReaches_bind hw ?_
      simpa using reports_findingIf addsRules _ _ _ _ w hw
    · exact adds_reportDeadlock wait _ w hw

/-- How the findings change in a pass with the reports: they are all inserted, or the storage
of the findings was exhausted after the first of them. -/
def Inserts (x : Routine Analysis Unit) (analysis : Analysis) (reports : List SyncReport) : Prop :=
  Ends x ⟨analysis, []⟩
    (fun _ w => w.state.findings = SyncReport.insertAll analysis.findings reports)
    (fun w => w.state.Exhausted ∧ ∃ first, first <+: reports ∧
      w.state.findings = SyncReport.insertAll analysis.findings first)

theorem performs_pass (nodes : List Node) :
    Performs (forEach synchronizeNode nodes) (fun l => nodes.foldl (fun l node => nodeEffect node l) l) := by
  apply performs_forEach performs_synchronizeNode
  exact fun node => extendsLog_nodeEffect node

theorem keepsLocals_reportWaits (waits : List SyncItem) : KeepsLocals (forEach reportWait waits) :=
  keepsLocals_of_evolves (evolves_forEach evolves_reportWait waits)

theorem adds_synchronizationEnd :
    Adds (do
      updateSync SyncLocals.addAllWaitEdges
      let (_, l) ← readState
      forEach reportWait l.waits
      updateState (fun s => ({ s.1 with lockOrderEdges := s.2.lockEdges.length }, s.2)))
      (fun l => l.addAllWaitEdges.waits.flatMap (fun wait => waitReports wait l.addAllWaitEdges)) := by
  have hwaits : Adds (do
      let (_, l) ← readState
      forEach reportWait l.waits
      updateState (fun s => ({ s.1 with lockOrderEdges := s.2.lockEdges.length }, s.2)))
      (fun l => l.waits.flatMap (fun wait => waitReports wait l)) := by
    refine enters_readState_bind addsRules fun w hw => ?_
    have hloop := enters_forEach_keeps addsRules adds_reportWait
      (fun wait => keepsLocals_of_evolves (evolves_reportWait wait)) w.state.2.waits
    have hcount : Adds (updateState fun s : SyncState =>
        ({ s.1 with lockOrderEdges := s.2.lockEdges.length }, s.2)) (fun _ => []) :=
      fun _ hw => ends_updateState ⟨hw, rfl⟩
    simpa using hloop.bind addsRules (keepsLocals_reportWaits _).performs (fun _ => hcount) w hw
  exact (enters_updateSync addsRules _).bind addsRules (performs_updateSync _) fun _ => hwaits

theorem inserts_analyzeSynchronization (analysis : Analysis) :
    Inserts analyzeSynchronization analysis (synchronizationReports analysis.orderedNodes) := by
  have hpass := enters_forEach addsRules adds_synchronizeNode performs_synchronizeNode analysis.orderedNodes
  have hall := hpass.bind addsRules (performs_pass analysis.orderedNodes) fun _ => adds_synchronizationEnd
  have hrun := hall ⟨(analysis, {}), []⟩ rfl
  have hbody : synchronizationBody ⟨(analysis, {}), []⟩ = (do
      forEach synchronizeNode analysis.orderedNodes
      updateSync SyncLocals.addAllWaitEdges
      let (_, l) ← readState
      forEach reportWait l.waits
      updateState (fun s : SyncState => ({ s.1 with lockOrderEdges := s.2.lockEdges.length }, s.2)))
        ⟨(analysis, {}), []⟩ := run_bind_of_ok (run_allocateAll_nil 6 _)
  unfold AddsAt at hrun
  refine ends_of (fun _ w' hok => ?_) (fun e w' herror => ?_)
  · obtain ⟨v, hbodyrun, rfl⟩ := withLocals_eq_ok.mp hok
    exact (Ends.ok hrun (hbody.symm.trans hbodyrun)).2
  · obtain ⟨hfailed, rfl⟩ := Prod.mk.inj herror
    exact Ends.error hrun (hbody.symm.trans (Prod.ext hfailed rfl))

def AllAre (identifiers : List String) (reports : List SyncReport) : Prop :=
  ∀ report ∈ reports, report.identifier ∈ identifiers

theorem allAre_nil (identifiers : List String) : AllAre identifiers [] :=
  fun _ hreport => absurd hreport List.not_mem_nil

theorem allAre_singleton {identifiers : List String} {report : SyncReport} (h : report.identifier ∈ identifiers) :
    AllAre identifiers [report] := by
  intro report' hreport
  rwa [List.mem_singleton.mp hreport]

theorem AllAre.ite {p : Prop} [Decidable p] {identifiers : List String} {reports reports' : List SyncReport}
    (h : AllAre identifiers reports) (h' : AllAre identifiers reports') :
    AllAre identifiers (if p then reports else reports') := by
  split
  · exact h
  · exact h'

theorem AllAre.append {identifiers : List String} {reports reports' : List SyncReport}
    (h : AllAre identifiers reports) (h' : AllAre identifiers reports') :
    AllAre identifiers (reports ++ reports') :=
  fun report hreport => (List.mem_append.mp hreport).elim (h report) (h' report)

theorem allAre_flatMap {ι : Type} {identifiers : List String} {reports : ι → List SyncReport} {is : List ι}
    (h : ∀ i ∈ is, AllAre identifiers (reports i)) : AllAre identifiers (is.flatMap reports) := by
  intro report hreport
  obtain ⟨i, hi, hmem⟩ := List.mem_flatMap.mp hreport
  exact h i hi report hmem

theorem allAre_lastHeldReports (identifier : String) (node : Node) (thread resource : EvidenceText)
    (l : SyncLocals) : AllAre [identifier] (lastHeldReports identifier node thread resource l) := by
  unfold lastHeldReports
  cases lastHeld l.held thread with
  | none => exact allAre_nil _
  | some item => exact allAre_singleton List.mem_cons_self

theorem AllAre.mono {identifiers identifiers' : List String} {reports : List SyncReport}
    (h : AllAre identifiers reports) (hsub : identifiers ⊆ identifiers') : AllAre identifiers' reports :=
  fun report hreport => hsub (h report hreport)

theorem allAre_acquireReports (node : Node) (thread resource : EvidenceText) (l : SyncLocals) :
    AllAre ["P101-SYNC-001"] (acquireReports node thread resource l) := by
  apply forall_mem_reportsInOrder
  intro item l
  exact ((allAre_singleton List.mem_cons_self).ite (allAre_nil _)).ite (allAre_nil _)

theorem allAre_releaseReports (node : Node) (thread resource : EvidenceText) (l : SyncLocals) :
    AllAre ["P101-SYNC-004"] (releaseReports node thread resource l) := by
  unfold releaseReports
  cases lastHeld l.held thread with
  | none => exact allAre_nil _
  | some item => exact (allAre_singleton List.mem_cons_self).ite (allAre_nil _)

theorem allAre_beginWaitReports (node : Node) (thread resource : EvidenceText) (l : SyncLocals) :
    AllAre ["P101-SYNC-005", "P101-SYNC-009"] (beginWaitReports node thread resource l) := by
  have hsub : ["P101-SYNC-005"] ⊆ ["P101-SYNC-005", "P101-SYNC-009"] :=
    List.cons_subset_cons _ (List.nil_subset _)
  have hjoin := (allAre_lastHeldReports "P101-SYNC-005" node thread resource l).mono hsub
  refine (hjoin.ite (allAre_nil _)).append (AllAre.ite (allAre_flatMap fun prior _ => ?_) (allAre_nil _))
  exact (allAre_singleton (List.mem_cons_of_mem _ List.mem_cons_self)).ite (allAre_nil _)

theorem allAre_destroyReports (node : Node) (resource : EvidenceText) (l : SyncLocals) :
    AllAre ["P101-SYNC-007"] (destroyReports node resource l) := by
  refine (allAre_flatMap fun item _ => ?_).append (allAre_flatMap fun item _ => ?_)
  · exact (allAre_singleton List.mem_cons_self).ite (allAre_nil _)
  · exact (allAre_singleton List.mem_cons_self).ite (allAre_nil _)

theorem allAre_terminalReports (node : Node) (resource : EvidenceText) (l : SyncLocals) :
    AllAre ["P101-SYNC-008"] (terminalReports node resource l) :=
  allAre_flatMap fun _ _ => (allAre_singleton List.mem_cons_self).ite (allAre_nil _)

theorem nodeReports_of_acquire {node : Node} (h : isLockRecord node = true) (hkind : node.resourceKind = .acquire)
    (l : SyncLocals) :
    nodeReports node l = acquireReports node (heldItem node).thread (heldItem node).resource l := by
  obtain ⟨hrecord, hheld⟩ := isSynchronizationRecord_of_lock h
  rw [nodeReports, if_pos hrecord, recordReports_of_acquire hheld hkind]
  rfl

/-- Only the acquisition of a lock makes reports about the lock order. -/
theorem nodeReports_cases (node : Node) (l : SyncLocals) :
    isLockRecord node = true ∧ node.resourceKind = .acquire ∨
      AllAre ["P101-SYNC-004", "P101-SYNC-005", "P101-SYNC-007", "P101-SYNC-008", "P101-SYNC-009",
        "P101-SYNC-010"] (nodeReports node l) := by
  unfold nodeReports
  split
  · next hrecord =>
    obtain ⟨hdomain, hkind, -⟩ := of_decide_eq_true hrecord
    unfold recordReports
    dsimp only
    split
    · exact .inr ((allAre_destroyReports _ _ _).mono (by decide))
    · exact .inr ((allAre_terminalReports _ _ _).mono (by decide))
    · exact .inr ((allAre_lastHeldReports _ _ _ _ _).mono (by decide))
    · next hheld hacquire =>
      exact .inl ⟨decide_eq_true ⟨hdomain, hkind, hheld⟩, hacquire⟩
    · exact .inr ((allAre_releaseReports _ _ _ _).mono (by decide))
    · exact .inr ((allAre_beginWaitReports _ _ _ _).mono (by decide))
    · exact .inr (allAre_nil _)
  · exact .inr (allAre_nil _)

theorem allAre_nodeReports (node : Node) (l : SyncLocals) :
    AllAre ["P101-SYNC-001", "P101-SYNC-004", "P101-SYNC-005", "P101-SYNC-007", "P101-SYNC-008",
      "P101-SYNC-009", "P101-SYNC-010"] (nodeReports node l) := by
  rcases nodeReports_cases node l with ⟨hlock, hkind⟩ | hothers
  · rw [nodeReports_of_acquire hlock hkind]
    exact (allAre_acquireReports _ _ _ _).mono (by decide)
  · exact hothers.mono (by decide)

theorem allAre_waitReports (wait : SyncItem) (l : SyncLocals) :
    AllAre ["P101-SYNC-002", "P101-SYNC-003"] (waitReports wait l) := by
  refine (allAre_nil _).ite (AllAre.ite ?_ ?_)
  · exact (allAre_singleton (List.mem_cons_of_mem _ List.mem_cons_self)).ite (allAre_nil _)
  · unfold deadlockReports
    cases l.waitEdges.find? _ with
    | none => exact allAre_nil _
    | some edge => exact allAre_singleton List.mem_cons_self

end ToolEvent.ModelAnalysis
