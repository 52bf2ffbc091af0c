import ToolEvent.SynchronizationReports

/-!
# Runs of the synchronization pass, record by record

What the loop of `analyze_synchronization` has in its arrays after some records, and what the
next record adds to the findings, up to the findings that would be repeated.
-/

namespace ToolEvent.ModelAnalysis

open Fallible World RunModel

/-- Granted its requests, the loop over the records has led from the analysis to the world. -/
def Reached (analysis : Analysis) (nodes : List Node) (w : World SyncState) : Prop :=
  forEach synchronizeNode nodes ⟨(analysis, {}), []⟩ = (.ok (), w)

variable {analysis : Analysis} {nodes : List Node} {w w' : World SyncState} {node : Node}

theorem Reached.locals (h : Reached analysis nodes w) : w.state.2 = passEffect nodes :=
  (performs_pass nodes ⟨(analysis, {}), []⟩).ok () w h

theorem Reached.granted (h : Reached analysis nodes w) : w.outcomes = [] :=
  (Ends.ok (enters_forEach addsRules adds_synchronizeNode performs_synchronizeNode nodes ⟨(analysis, {}), []⟩ rfl) h).1

/-- A finding with the identifier and the two texts, as `add_sync_finding` compares them. -/
def HasFinding (findings : List Finding) (identifier : String) (source target : EvidenceText) : Prop :=
  ∃ finding ∈ findings, finding.diagnosticId = .ofString identifier ∧ finding.evidenceFrom = source.text ∧
    finding.evidenceTo = target.text

def HasReport (reports : List SyncReport) (identifier : String) (source target : EvidenceText) : Prop :=
  ∃ report ∈ reports, Text.ofString report.identifier = .ofString identifier ∧ report.source = source ∧
    report.target = target

/-- The record calls `add_sync_finding` with the identifier and the two texts. -/
def RecordReports (node : Node) (l : SyncLocals) : String → EvidenceText → EvidenceText → Prop :=
  HasReport (nodeReports node l)

theorem not_hasReport {identifiers : List String} {reports : List SyncReport} (h : AllAre identifiers reports)
    {identifier : String} (hother : ∀ name ∈ identifiers, Text.ofString name ≠ .ofString identifier)
    (source target : EvidenceText) : ¬ HasReport reports identifier source target := by
  rintro ⟨report, hreport, hidentifier, -⟩
  exact hother report.identifier (h report hreport) hidentifier

theorem hasReport_append {reports reports' : List SyncReport} {identifier : String} {source target : EvidenceText} :
    HasReport (reports ++ reports') identifier source target ↔
      HasReport reports identifier source target ∨ HasReport reports' identifier source target := by
  simp only [HasReport, List.mem_append, or_and_right, exists_or]

/-- The findings after a record are those before it and those that it reports. -/
theorem Reached.hasFinding_iff (h : Reached analysis nodes w) (hstep : synchronizeNode node w = (.ok (), w'))
    {identifier : String} {source target : EvidenceText} :
    HasFinding w'.state.1.findings identifier source target ↔
      HasFinding w.state.1.findings identifier source target ∨
        RecordReports node (passEffect nodes) identifier source target := by
  have hadded := (Ends.ok (adds_synchronizeNode node w h.granted) hstep).2
  rw [h.locals] at hadded
  rw [hadded]
  simp only [HasFinding, RecordReports, HasReport, ← EvidenceText.text_inj]
  exact SyncReport.exists_mem_insertAll
    (P := fun id s t => id = .ofString identifier ∧ s = source.text ∧ t = target.text)

end ToolEvent.ModelAnalysis
