import ToolEvent.ModelCommand
import ToolEvent.StreamReading

/-!
# When the command succeeds

With an output that takes everything, the exit status says exactly whether the two files
are read, whether their records are admissible, and whether their replay stays within its
limits.
-/

namespace ToolEvent.ModelCommand

open Fallible World RunModel ModelInput ModelJson OutputStream

variable {lib : CommandLibrary} {fs : FileSystem}

/-- The output can be opened, takes everything that is written to it and can be closed. -/
def TakesAll (fs : FileSystem) (console : Console) : Option Text → Prop
  | none => console.stdout.NeverFails
  | some path => ∃ file, fs.output path = .ok file ∧ file.stream.NeverFails ∧ file.closes = .ok ()

theorem writeJson_ok (writer : WriterLibrary) {records : RecordLibrary} {model : Model} (hmodel : Finished records model)
    {s : OutputStream.Stream} (hs : s.NeverFails) : (writeJson writer model s).1 = .ok () := by
  obtain ⟨bytes, ⟨pieces, hperforms, -⟩, -⟩ := exists_document_of_finished writer hmodel
  have hstatus := (attempt_of_neverFails (pieces.map Operation.write ++ [Operation.flush]) hs).1
  rw [← hperforms] at hstatus
  rw [writeJson_of_finished hmodel (Prod.ext hstatus rfl), if_pos rfl]

theorem writeModel_ok {records : RecordLibrary} {model : Model} (hmodel : Finished records model) {console : Console}
    {output : Option Text} (h : TakesAll fs console output) : (writeModel lib fs model output console).1 = .ok () := by
  cases output with
  | none => exact writeJson_ok lib.writer hmodel h
  | some path =>
    obtain ⟨file, hopens, hfile, hcloses⟩ := h
    have hok := writeJson_ok lib.writer hmodel hfile
    simp only [writeModel, hopens, hok, hcloses]

theorem writeModelStep_ok {records : RecordLibrary} {w : World (Model × Console)} (hmodel : Finished records w.state.1)
    {output : Option Text} (h : TakesAll fs w.state.2 output) : (writeModelStep lib fs output w).1 = .ok () := by
  have hok := @writeModel_ok lib fs _ _ hmodel _ _ h
  rw [writeModelStep]
  rcases hwrite : writeModel lib fs w.state.1 output w.state.2 with ⟨⟨e⟩ | ⟨⟨⟩⟩, console⟩
  · rw [hwrite] at hok
    cases hok
  · rfl

theorem raising_of_ok {α : Type} {x : Routine Model α} {a : α} {w : World (Model × Console)} {v : World Model}
    (h : x ⟨w.state.1, w.outcomes⟩ = (.ok a, v)) : raising x w = (.ok a, ⟨(v.state, w.state.2), v.outcomes⟩) := by
  rw [raising, h]

/-- A model of records that were ingested is open. -/
theorem open_of_ingested {records : RecordLibrary} {kept : List EventRecord} {m : Model}
    (h : forEach (ingest records) kept ⟨{}, []⟩ = (.ok (), ⟨m, []⟩)) : m.finished = false := by
  have hkept := finished_eq_of_evolves (evolves_forEach (keepsFinished_ingest records) kept) ⟨{}, []⟩
  rw [h] at hkept
  exact hkept

/-- A command that returns normally has admitted its streams and replayed their nodes. -/
theorem admitted_of_run (hsize : 0 < lib.reader.lineMaxBytes) {resource call : Text} {output : Option Text}
    {console : Console} (hok : (run lib fs resource call output ⟨({}, console), []⟩).1 = .ok ()) :
    (∃ w, admitStreams lib.reader (fs.input resource) (fs.input call) ⟨{}, []⟩ = (.ok (), w)) ∧
      (replayNodes lib.reader.toRecordLibrary (addedNodes lib.reader (fs.input resource) (fs.input call))
        ⟨{}, []⟩).1 = .ok () := by
  obtain ⟨w, hrun⟩ := exists_of_fst_eq hok
  rw [run] at hrun
  obtain ⟨rh, w₁, hresource, hrun⟩ := run_bind_eq_ok.mp hrun
  obtain ⟨ch, w₂, hcall, hrun⟩ := run_bind_eq_ok.mp hrun
  obtain ⟨hresource, -⟩ := raising_ok hresource
  obtain ⟨hcall, -⟩ := raising_ok hcall
  split at hrun
  · next hcomplete =>
    obtain ⟨⟨⟩, w₃, hfinish, -⟩ := run_bind_eq_ok.mp hrun
    obtain ⟨hfinish, -⟩ := raising_ok hfinish
    have hadmitted : admitStreams lib.reader (fs.input resource) (fs.input call) ⟨{}, []⟩ =
        (.ok (), ⟨w₂.state.1, w₂.outcomes⟩) := by
      rw [admitStreams, run_bind_of_ok hresource, run_bind_of_ok hcall, if_pos hcomplete]
      rfl
    refine ⟨⟨_, hadmitted⟩, ?_⟩
    obtain ⟨-, -, -, -, -, m', hingest, hmodel⟩ := (admitStreams_eq_ok hsize).mp hadmitted
    obtain ⟨hstate, -⟩ := World.mk.inj hmodel
    have hnodes : w₂.state.1.nodes = addedNodes lib.reader (fs.input resource) (fs.input call) :=
      (nodes_of_admitStreams hadmitted).trans List.map_append
    rcases finish_ok _ hfinish with ⟨hfinished, -⟩ | hfrom
    · have hopen := open_of_ingested hingest
      rw [← hstate] at hopen
      rw [hopen] at hfinished
      cases hfinished
    · obtain ⟨outcomes, v, hreplay, -⟩ := hfrom.lifecycle
      rw [← hnodes, settled_replayNodes lib.reader.toRecordLibrary _ _ _ _ _ hreplay]
  · obtain ⟨⟨⟩, w₃, -, hfail⟩ := run_bind_eq_ok.mp hrun
    cases hfail

/-- A command whose streams are admitted and whose nodes are replayed returns normally. -/
theorem run_of_admitted (hsize : 0 < lib.reader.lineMaxBytes) {resource call : Text} {output : Option Text}
    {console : Console} (houtput : TakesAll fs console output)
    (hedges : (edgesOf lib.reader.toRecordLibrary (addedNodes lib.reader (fs.input resource) (fs.input call))).length ≤
      modelLimit) {w : World Model}
    (hadmitted : admitStreams lib.reader (fs.input resource) (fs.input call) ⟨{}, []⟩ = (.ok (), w))
    (hreplayed : (replayNodes lib.reader.toRecordLibrary (addedNodes lib.reader (fs.input resource) (fs.input call))
      ⟨{}, []⟩).1 = .ok ()) : (run lib fs resource call output ⟨({}, console), []⟩).1 = .ok () := by
  obtain ⟨-, -, -, -, -, m₂, hingest, rfl⟩ := (admitStreams_eq_ok hsize).mp hadmitted
  have hnodes : m₂.nodes = addedNodes lib.reader (fs.input resource) (fs.input call) :=
    (nodes_of_admitStreams hadmitted).trans List.map_append
  obtain ⟨rh, ⟨s₁, outcomes₁⟩, hresource, hrest⟩ := run_bind_eq_ok.mp hadmitted
  obtain ⟨ch, ⟨s₂, outcomes₂⟩, hcall, hrest⟩ := run_bind_eq_ok.mp hrest
  split at hrest
  · next hcomplete =>
    obtain ⟨-, hsame⟩ := Prod.mk.inj hrest
    obtain ⟨rfl, rfl⟩ := World.mk.inj hsame
    obtain ⟨v, hreplay⟩ := exists_of_fst_eq hreplayed
    rw [← hnodes] at hedges hreplay
    obtain ⟨⟨m₃, outcomes₃⟩, hfinish, -⟩ :=
      (finish_iff_replayed _ (open_of_ingested hingest) hedges v.state).mpr ⟨v, hreplay, rfl⟩
    have hfinished := (isDocument_of_finish hresource hcall hcomplete hfinish).1
    rw [run, run_bind_of_ok (raising_of_ok hresource), run_bind_of_ok (raising_of_ok hcall), if_pos hcomplete,
      run_bind_of_ok (raising_of_ok hfinish)]
    exact writeModelStep_ok hfinished houtput
  · cases hrest

/-- The steps of the command up to the output, when the requests are granted. -/
theorem run_ok_iff (hsize : 0 < lib.reader.lineMaxBytes) {resource call : Text} {output : Option Text} {console : Console}
    (houtput : TakesAll fs console output)
    (hedges : (edgesOf lib.reader.toRecordLibrary (addedNodes lib.reader (fs.input resource) (fs.input call))).length ≤
      modelLimit) :
    (run lib fs resource call output ⟨({}, console), []⟩).1 = .ok () ↔
      (∃ w, admitStreams lib.reader (fs.input resource) (fs.input call) ⟨{}, []⟩ = (.ok (), w)) ∧
        (replayNodes lib.reader.toRecordLibrary (addedNodes lib.reader (fs.input resource) (fs.input call))
          ⟨{}, []⟩).1 = .ok () := by
  constructor
  · exact admitted_of_run hsize
  · rintro ⟨⟨w, hadmitted⟩, hreplayed⟩
    exact run_of_admitted hsize houtput hedges hadmitted hreplayed

/-- Granted its requests and given an output that takes everything, the command returns 0 exactly when both
files are read, their records are admissible, and the replay of the nodes stays within its limits. -/
theorem exitStatus_eq_zero_iff (hsize : 0 < lib.reader.lineMaxBytes) {resource call : Text} {output : Option Text}
    {arguments : List Text} (harguments : IsCommandLine arguments resource call output) {console : Console}
    (houtput : TakesAll fs console output)
    (hedges : (edgesOf lib.reader.toRecordLibrary (addedNodes lib.reader (fs.input resource) (fs.input call))).length ≤
      modelLimit) (program : Text) :
    (main lib fs program arguments console []).1 = 0 ↔
      Readable lib.reader (fs.input resource) ∧ Readable lib.reader (fs.input call) ∧
        Admissible lib.reader.toRecordLibrary (recordsOf lib.reader (fs.input resource))
          (recordsOf lib.reader (fs.input call)) ∧
        (replayNodes lib.reader.toRecordLibrary (addedNodes lib.reader (fs.input resource) (fs.input call))
          ⟨{}, []⟩).1 = .ok () := by
  have hrun := run_ok_iff hsize houtput hedges
  rw [admitStreams_iff hsize, and_assoc, and_assoc] at hrun
  rw [← hrun, main, parseArguments_eq_accepted_iff.mpr harguments]
  have hcreate : (create : Step Unit) ⟨({}, console), []⟩ = (.ok (), ⟨({}, console), []⟩) := rfl
  have htrouble : exitTrouble ≠ 0 := by decide
  dsimp only
  rw [run_bind_of_ok hcreate]
  rcases run lib fs resource call output ⟨({}, console), []⟩ with ⟨⟨_ | e⟩ | ⟨⟨⟩⟩, w⟩
  · apply iff_of_false htrouble
    intro h
    cases h
  · apply iff_of_false htrouble
    intro h
    cases h
  · exact iff_of_true rfl rfl

/-- The files of a program that opened a file and made no call. -/
theorem exitStatus_eq_zero_iff_ownFiles :
    Readable .standard silentResource ∧ Readable .standard ownCall ∧
      Admissible .standard (recordsOf .standard silentResource) (recordsOf .standard ownCall) ∧
      (replayNodes .standard (addedNodes .standard silentResource ownCall) ⟨{}, []⟩).1 = .ok () :=
  (@exitStatus_eq_zero_iff .standard ownFiles (by decide) (.ofString "r") (.ofString "calls") none
    (["-c", "calls", "-r", "r"].map Text.ofString)
    ⟨[(.callPath, .ofString "calls"), (.resourcePath, .ofString "r")], List.Perm.swap _ _ _, by decide +kernel,
      by decide +kernel⟩ quietConsole (fun _ _ => rfl) (by decide +kernel) (.ofString "p")).mp (by decide +kernel)

end ToolEvent.ModelCommand
