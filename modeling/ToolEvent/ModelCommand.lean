import ToolEvent.ModelDocument

/-!
# The model command

The command of `src/model_cli.c`: it reads its arguments, admits the two streams of events that they
name, finishes the model of the run and writes it as a document, to a file or to the standard output.
-/

namespace ToolEvent.ModelCommand

open Fallible World RunModel ModelInput ModelJson OutputStream

structure Arguments where
  resourcePath : Option Text := none
  callPath : Option Text := none
  outputPath : Option Text := none

/-- The member that `destination` points to in `parse_arguments`. -/
inductive Destination
  | resourcePath | callPath | outputPath
  deriving DecidableEq

def Destination.flag : Destination → Text
  | .resourcePath => .ofString "-r"
  | .callPath => .ofString "-c"
  | .outputPath => .ofString "-o"

def Arguments.at (args : Arguments) : Destination → Option Text
  | .resourcePath => args.resourcePath
  | .callPath => args.callPath
  | .outputPath => args.outputPath

def Arguments.set (args : Arguments) (value : Text) : Destination → Arguments
  | .resourcePath => { args with resourcePath := some value }
  | .callPath => { args with callPath := some value }
  | .outputPath => { args with outputPath := some value }

/-- The comparisons of an argument with the options. -/
def destinationOf (argument : Text) : Option Destination :=
  if argument = .ofString "-r" then some .resourcePath
  else if argument = .ofString "-c" then some .callPath
  else if argument = .ofString "-o" then some .outputPath
  else none

/-- The loop of `parse_arguments`, which stops at an unknown option, and at one without a value or with
an empty one or given before. -/
def parseOptions : Arguments → List Text → Option Arguments
  | args, [] => some args
  | _, [_] => none
  | args, option :: value :: rest =>
    match destinationOf option with
    | none => none
    | some destination =>
      if value.isEmpty ∨ args.at destination ≠ none then none
      else parseOptions (args.set value destination) rest

/-- The statuses of `parse_arguments`: 1, -1 and 0. -/
inductive ParseStatus
  | help
  | refused
  | accepted (resourcePath callPath : Text) (outputPath : Option Text)

/-- `parse_arguments`, less the usage that it prints, on the arguments after the name of the program. -/
def parseArguments (arguments : List Text) : ParseStatus :=
  if arguments = [.ofString "-h"] ∨ arguments = [.ofString "--help"] then .help
  else
    match parseOptions {} arguments with
    | none => .refused
    | some args =>
      match args.resourcePath, args.callPath with
      | some resource, some call => .accepted resource call args.outputPath
      | _, _ => .refused

/-- What `fopen` finds at the paths. -/
structure FileSystem where
  input : Text → InputFile
  output : Text → Except Errno (OutputFile Errno)

structure Console where
  stdout : OutputStream.Stream
  stderr : OutputStream.Stream
  /-- The files that were opened for writing, with what was done to them. -/
  files : List (Text × OutputStream.Stream) := []

structure CommandLibrary where
  reader : RecordReader
  writer : WriterLibrary
  /-- `p101_error_get_message`. -/
  message : Raised → Text

def Console.complain (console : Console) (text : Text) : Console :=
  { console with stderr := (fprintf text.bytes console.stderr).2 }

def usageText (program : Text) : Text :=
  .ofString "Usage: " ++ program ++ .ofString " -r <resources.log> -c <calls.log> [-o <run-model.json>]\n"

/-- A step of the command on its model and its streams; it may fail without an error raised. -/
abbrev Step (α : Type) := Fallible (Option Raised) (World (Model × Console)) α

/-- A call of the library, which changes the model only. -/
def raising {α : Type} (x : Routine Model α) : Step α := fun w =>
  match x ⟨w.state.1, w.outcomes⟩ with
  | (.ok a, v) => (.ok a, ⟨(v.state, w.state.2), v.outcomes⟩)
  | (.error e, v) => (.error (some e), ⟨(v.state, w.state.2), v.outcomes⟩)

variable (lib : CommandLibrary) (fs : FileSystem)

/-- `write_model`. The standard output is not closed. -/
def writeModel (model : Model) (path : Option Text) (console : Console) : Except Raised Unit × Console :=
  match path with
  | none =>
    let (result, stdout) := writeJson lib.writer model console.stdout
    (result, { console with stdout := stdout })
  | some path =>
    match fs.output path with
    | .error e => (.error (.errno e), console)
    | .ok file =>
      let (result, stream) := writeJson lib.writer model file.stream
      (match result, file.closes with
        | .ok (), .error e => .error (.errno e)
        | result, _ => result,
        { console with files := console.files ++ [(path, stream)] })

/-- `write_model` as a step. -/
def writeModelStep (path : Option Text) : Step Unit := fun w =>
  match writeModel lib fs w.state.1 path w.state.2 with
  | (.ok (), console) => (.ok (), ⟨(w.state.1, console), w.outcomes⟩)
  | (.error e, console) => (.error (some e), ⟨(w.state.1, console), w.outcomes⟩)

/-- The steps of `main` between the creation of the model and `done`. -/
def run (resource call : Text) (output : Option Text) : Step Unit := do
  let resourceHealth ← raising (observePath lib.reader false (fs.input resource))
  let callHealth ← raising (observePath lib.reader true (fs.input call))
  if admittedStreamsAreComplete resourceHealth callHealth then
    raising (finish lib.reader.toRecordLibrary)
    writeModelStep lib fs output
  else
    updateState (fun s => (s.1, s.2.complain (.ofString "p101-event-model: an admitted event stream is incomplete\n")))
    fail none

/-- The creation of the error object, which prints its own diagnostic, and of the model. -/
def create : Step Unit := do
  let error ← allocate
  if error then
    let model ← allocate
    if model then pure () else fail (some (.errno .enomem))
  else
    updateState (fun s => (s.1, s.2.complain (.ofString "p101-event-model: could not create error object\n")))
    fail none

def exitSuccess : ℤ := 0
def exitTrouble : ℤ := 2

/-- `main`: the exit status, and what the process has written. -/
def main (program : Text) (arguments : List Text) (console : Console) (outcomes : List Bool) : ℤ × Console :=
  match parseArguments arguments with
  | .help => (exitSuccess, { console with stdout := (fprintf (usageText program).bytes console.stdout).2 })
  | .refused => (exitTrouble, console.complain (usageText program))
  | .accepted resource call output =>
    match (create >>= fun _ => run lib fs resource call output) ⟨({}, console), outcomes⟩ with
    | (.ok (), w) => (exitSuccess, w.state.2)
    | (.error none, w) => (exitTrouble, w.state.2)
    | (.error (some e), w) =>
      (exitTrouble, w.state.2.complain (.ofString "p101-event-model: " ++ lib.message e ++ .ofString "\n"))

def settings (resource call : Text) (output : Option Text) : List (Destination × Text) :=
  (.resourcePath, resource) :: (.callPath, call) :: output.toList.map fun path => (.outputPath, path)

/-- The arguments are the settings in some order, every one its option and a value that is not empty. -/
def IsCommandLine (arguments : List Text) (resource call : Text) (output : Option Text) : Prop :=
  ∃ pairs : List (Destination × Text), pairs.Perm (settings resource call output) ∧
    arguments = pairs.flatMap (fun pair => [pair.1.flag, pair.2]) ∧ ∀ pair ∈ pairs, pair.2.isEmpty = false

/-- The settings are made one after the other, each for the first time. -/
inductive Fills : Arguments → List (Destination × Text) → Arguments → Prop
  | nil (args : Arguments) : Fills args [] args
  | cons {args args' : Arguments} {destination : Destination} {value : Text} {pairs : List (Destination × Text)}
      (hnew : args.at destination = none) (hvalue : value.isEmpty = false)
      (hrest : Fills (args.set value destination) pairs args') : Fills args ((destination, value) :: pairs) args'

theorem destinationOf_eq_some_iff {argument : Text} {destination : Destination} :
    destinationOf argument = some destination ↔ argument = destination.flag := by
  have hcall : Text.ofString "-c" ≠ .ofString "-r" := by decide
  have houtput : Text.ofString "-o" ≠ .ofString "-r" ∧ Text.ofString "-o" ≠ .ofString "-c" := by decide
  unfold destinationOf
  split
  · next h =>
    subst h
    cases destination <;> simp [Destination.flag, hcall.symm, houtput.1.symm]
  · next hr =>
    split
    · next h =>
      subst h
      cases destination <;> simp [Destination.flag, hcall, houtput.2.symm]
    · next hc =>
      split
      · next h =>
        subst h
        cases destination <;> simp [Destination.flag, houtput]
      · next ho => cases destination <;> simp [Destination.flag, hr, hc, ho]

theorem at_set (args : Arguments) (value : Text) (destination other : Destination) :
    (args.set value destination).at other = if other = destination then some value else args.at other := by
  cases destination <;> cases other <;> rfl

theorem Arguments.ext_at {args args' : Arguments} (h : ∀ destination, args.at destination = args'.at destination) :
    args = args' := by
  obtain ⟨resource, call, output⟩ := args
  obtain ⟨resource', call', output'⟩ := args'
  obtain rfl : resource = resource' := h .resourcePath
  obtain rfl : call = call' := h .callPath
  obtain rfl : output = output' := h .outputPath
  rfl

theorem cons_eq_flatMap {option value : Text} {rest : List Text} {pair : Destination × Text}
    {pairs : List (Destination × Text)} :
    option :: value :: rest = (pair :: pairs).flatMap (fun pair => [pair.1.flag, pair.2]) ↔
      option = pair.1.flag ∧ value = pair.2 ∧ rest = pairs.flatMap fun pair => [pair.1.flag, pair.2] := by
  rw [List.flatMap_cons, List.cons_append, List.cons_append, List.nil_append, List.cons.injEq, List.cons.injEq]

/-- The loop accepts the arguments that are settings made one after the other. -/
theorem parseOptions_eq_some_iff {args args' : Arguments} {arguments : List Text} :
    parseOptions args arguments = some args' ↔ ∃ pairs, Fills args pairs args' ∧
      arguments = pairs.flatMap fun pair => [pair.1.flag, pair.2] := by
  fun_induction parseOptions args arguments with
  | case1 args =>
    constructor
    · intro h
      obtain rfl := Option.some.inj h
      exact ⟨[], .nil args, rfl⟩
    · rintro ⟨pairs, hfills, hpairs⟩
      cases hfills with
      | nil => rfl
      | cons => cases hpairs
  | case2 args option =>
    apply iff_of_false nofun
    rintro ⟨pairs, hfills, hpairs⟩
    cases hfills <;> cases hpairs
  | case3 args option value rest hunknown =>
    apply iff_of_false nofun
    rintro ⟨pairs, hfills, hpairs⟩
    cases hfills with
    | nil => cases hpairs
    | @cons _ _ destination =>
      obtain ⟨rfl, rfl, rfl⟩ := cons_eq_flatMap.mp hpairs
      rw [destinationOf_eq_some_iff.mpr rfl] at hunknown
      cases hunknown
  | case4 args option value rest destination hknown hbad =>
    apply iff_of_false nofun
    rintro ⟨pairs, hfills, hpairs⟩
    cases hfills with
    | nil => cases hpairs
    | @cons _ _ destination' value' pairs hnew hvalue hrest =>
      obtain ⟨rfl, rfl, rfl⟩ := cons_eq_flatMap.mp hpairs
      rw [destinationOf_eq_some_iff.mpr rfl] at hknown
      obtain rfl := Option.some.inj hknown
      rcases hbad with hempty | hset
      · rw [hvalue] at hempty
        cases hempty
      · exact hset hnew
  | case5 args option value rest destination hknown hgood ih =>
    obtain ⟨hvalue, hnew⟩ := not_or.mp hgood
    rw [ih]
    constructor
    · rintro ⟨pairs, hfills, rfl⟩
      refine ⟨(destination, value) :: pairs, .cons (not_not.mp hnew) (Bool.eq_false_of_not_eq_true hvalue) hfills, ?_⟩
      rw [destinationOf_eq_some_iff.mp hknown]
      rfl
    · rintro ⟨pairs, hfills, hpairs⟩
      cases hfills with
      | nil => cases hpairs
      | @cons _ _ destination' value' pairs hnew hvalue hrest =>
        obtain ⟨rfl, rfl, rfl⟩ := cons_eq_flatMap.mp hpairs
        rw [destinationOf_eq_some_iff.mpr rfl] at hknown
        obtain rfl := Option.some.inj hknown
        exact ⟨pairs, hrest, rfl⟩

/-- The settings that were made are those that are new. -/
theorem Fills.at_eq_some_iff {args args' : Arguments} {pairs : List (Destination × Text)} (h : Fills args pairs args')
    (destination : Destination) (value : Text) :
    args'.at destination = some value ↔ (destination, value) ∈ pairs ∨ args.at destination = some value := by
  induction h with
  | nil args => simp
  | @cons args args' destination' value' pairs hnew hvalue hrest ih =>
    rw [ih, at_set, List.mem_cons, Prod.mk.injEq]
    split
    · next heq =>
      subst heq
      rw [hnew, Option.some.injEq]
      simp only [true_and, reduceCtorEq, or_false]
      constructor
      · rintro (hmem | rfl)
        · exact .inr hmem
        · exact .inl rfl
      · rintro (rfl | hmem)
        · exact .inr rfl
        · exact .inl hmem
    · next hne => simp only [hne, false_and, false_or]

theorem Fills.fresh {args args' : Arguments} {pairs : List (Destination × Text)} (h : Fills args pairs args') :
    (pairs.map Prod.fst).Nodup ∧ ∀ pair ∈ pairs, args.at pair.1 = none ∧ pair.2.isEmpty = false := by
  induction h with
  | nil args => exact ⟨List.nodup_nil, fun pair hpair => absurd hpair List.not_mem_nil⟩
  | @cons args args' destination value pairs hnew hvalue hrest ih =>
    obtain ⟨hnodup, hfresh⟩ := ih
    have hother : ∀ pair ∈ pairs, pair.1 ≠ destination ∧ args.at pair.1 = none := by
      intro pair hpair
      have hset := (hfresh pair hpair).1
      rw [at_set] at hset
      split at hset
      · cases hset
      · next hne => exact ⟨hne, hset⟩
    constructor
    · rw [List.map_cons, List.nodup_cons]
      refine ⟨fun hmem => ?_, hnodup⟩
      obtain ⟨pair, hpair, hsame⟩ := List.mem_map.mp hmem
      exact (hother pair hpair).1 hsame
    · intro pair hpair
      rcases List.mem_cons.mp hpair with rfl | hpair
      · exact ⟨hnew, hvalue⟩
      · exact ⟨(hother pair hpair).2, (hfresh pair hpair).2⟩

theorem exists_fills {args : Arguments} {pairs : List (Destination × Text)} (hnodup : (pairs.map Prod.fst).Nodup)
    (hfresh : ∀ pair ∈ pairs, args.at pair.1 = none ∧ pair.2.isEmpty = false) : ∃ args', Fills args pairs args' := by
  induction pairs generalizing args with
  | nil => exact ⟨args, .nil args⟩
  | cons pair pairs ih =>
    rw [List.map_cons, List.nodup_cons] at hnodup
    obtain ⟨hnew, hvalue⟩ := hfresh pair List.mem_cons_self
    have hrest : ∀ other ∈ pairs, (args.set pair.2 pair.1).at other.1 = none ∧ other.2.isEmpty = false := by
      intro other hother
      obtain ⟨hunset, hvalue'⟩ := hfresh other (List.mem_cons_of_mem _ hother)
      rw [at_set, if_neg fun hsame => hnodup.1 (List.mem_map.mpr ⟨other, hother, hsame⟩)]
      exact ⟨hunset, hvalue'⟩
    obtain ⟨args', hfills⟩ := ih hnodup.2 hrest
    exact ⟨args', .cons hnew hvalue hfills⟩

theorem nodup_settings (resource call : Text) (output : Option Text) :
    ((settings resource call output).map Prod.fst).Nodup := by
  cases output <;> simp [settings]

theorem mem_settings {resource call : Text} {output : Option Text} {destination : Destination} {value : Text} :
    (destination, value) ∈ settings resource call output ↔
      (Arguments.mk (some resource) (some call) output).at destination = some value := by
  cases destination <;> simp [settings, Arguments.at, eq_comm]

/-- What the loop makes of the arguments is what the settings say. -/
theorem parseOptions_settings {resource call : Text} {output : Option Text} {arguments : List Text} :
    parseOptions {} arguments = some ⟨some resource, some call, output⟩ ↔
      IsCommandLine arguments resource call output := by
  have hunset : ∀ destination, ({} : Arguments).at destination = none := by
    intro destination
    cases destination <;> rfl
  rw [parseOptions_eq_some_iff]
  constructor
  · rintro ⟨pairs, hfills, harguments⟩
    obtain ⟨hnodup, hfresh⟩ := hfills.fresh
    refine ⟨pairs, ?_, harguments, fun pair hpair => (hfresh pair hpair).2⟩
    apply (List.perm_ext_iff_of_nodup (hnodup.of_map _) ((nodup_settings _ _ _).of_map _)).mpr
    rintro ⟨destination, value⟩
    rw [mem_settings, hfills.at_eq_some_iff, hunset]
    simp
  · rintro ⟨pairs, hperm, harguments, hvalues⟩
    have hnodup : (pairs.map Prod.fst).Nodup := (hperm.map _).nodup_iff.mpr (nodup_settings _ _ _)
    obtain ⟨args', hfills⟩ := exists_fills hnodup fun pair hpair => ⟨hunset pair.1, hvalues pair hpair⟩
    refine ⟨pairs, ?_, harguments⟩
    have hsame : args' = ⟨some resource, some call, output⟩ := by
      apply Arguments.ext_at
      intro destination
      apply Option.ext
      intro value
      rw [hfills.at_eq_some_iff, hunset, hperm.mem_iff, mem_settings]
      simp
    exact hsame ▸ hfills

theorem not_isCommandLine_singleton {argument resource call : Text} {output : Option Text} :
    ¬ IsCommandLine [argument] resource call output := by
  rintro ⟨pairs, -, harguments, -⟩
  cases pairs <;> cases harguments

/-- The command goes on exactly with the settings in some order. -/
theorem parseArguments_eq_accepted_iff {resource call : Text} {output : Option Text} {arguments : List Text} :
    parseArguments arguments = .accepted resource call output ↔ IsCommandLine arguments resource call output := by
  rw [← parseOptions_settings, parseArguments]
  split
  · next hhelp =>
    refine iff_of_false nofun fun hparse => ?_
    rw [parseOptions_settings] at hparse
    rcases hhelp with rfl | rfl <;> exact not_isCommandLine_singleton hparse
  · split
    · next hnone => exact iff_of_false nofun fun h => by simp [hnone] at h
    · next args hargs =>
      rw [hargs, Option.some.injEq]
      obtain ⟨resource', call', output'⟩ := args
      cases resource' <;> cases call' <;> simp

/-- The stream received all bytes: every operation on it succeeded, and the last one flushed it. -/
structure Received (bytes : List UInt8) (s t : OutputStream.Stream) : Prop where
  written : t.written = s.written ++ bytes
  succeeded : ∃ pieces : List (List UInt8), t.log = s.log ++ (pieces.map Operation.write ++ [Operation.flush]).map (·, true)

def ReceivedSome (bytes : List UInt8) (s t : OutputStream.Stream) : Prop :=
  ∃ beginning, t.written = s.written ++ beginning ∧ beginning <+: bytes

variable {lib : CommandLibrary} {fs : FileSystem}

/-- Only the output has changed, as the relation says: the standard output, or a file that was opened. -/
inductive OutputChanges (fs : FileSystem) (R : OutputStream.Stream → OutputStream.Stream → Prop) (console : Console) :
    Option Text → Console → Prop
  | stdout (t : OutputStream.Stream) (h : R console.stdout t) :
      OutputChanges fs R console none { console with stdout := t }
  | file (path : Text) (file : OutputFile Errno) (t : OutputStream.Stream) (hopens : fs.output path = .ok file)
      (h : R file.stream t) :
      OutputChanges fs R console (some path) { console with files := console.files ++ [(path, t)] }

/-- The model is that of the two files, which are sound and complete, and the bytes are its document. -/
structure IsDocument (lib : CommandLibrary) (fs : FileSystem) (resource call : Text) (bytes : List UInt8) : Prop where
  complete : Complete lib.reader {} (fs.input resource) (fs.input call)
  resourceSound : SoundRecords (recordsOf lib.reader (fs.input resource))
  callSound : SoundRecords (recordsOf lib.reader (fs.input call))
  model : ∃ model, Finished lib.reader.toRecordLibrary model ∧
    model.nodes = addedNodes lib.reader (fs.input resource) (fs.input call) ∧
    Json.read bytes = some (documentValue lib.writer.schemaName model)

inductive Ending (lib : CommandLibrary) (fs : FileSystem) (program : Text) (arguments : List Text) (console : Console) :
    ℤ × Console → Prop
  | help (harguments : arguments = [.ofString "-h"] ∨ arguments = [.ofString "--help"]) :
      Ending lib fs program arguments console
        (0, { console with stdout := (fprintf (usageText program).bytes console.stdout).2 })
  | usage (harguments : ∀ resource call output, ¬ IsCommandLine arguments resource call output) :
      Ending lib fs program arguments console (2, console.complain (usageText program))
  | written (resource call : Text) (output : Option Text) (harguments : IsCommandLine arguments resource call output)
      (bytes : List UInt8) (hdocument : IsDocument lib fs resource call bytes) (console' : Console)
      (houtput : OutputChanges fs (Received bytes) console output console')
      (hcloses : ∀ path ∈ output, ∀ file, fs.output path = .ok file → file.closes = .ok ()) :
      Ending lib fs program arguments console (0, console')
  | refused (resource call : Text) (output : Option Text) (harguments : IsCommandLine arguments resource call output)
      (diagnostic : Text) : Ending lib fs program arguments console (2, console.complain diagnostic)
  | failed (resource call : Text) (output : Option Text) (harguments : IsCommandLine arguments resource call output)
      (bytes : List UInt8) (hdocument : IsDocument lib fs resource call bytes) (console' : Console)
      (houtput : OutputChanges fs (ReceivedSome bytes) console output console') (diagnostic : Text) :
      Ending lib fs program arguments console (2, console'.complain diagnostic)

variable {α : Type} {w w' : World (Model × Console)}

theorem raising_ok {x : Routine Model α} {a : α} (h : raising x w = (.ok a, w')) :
    x ⟨w.state.1, w.outcomes⟩ = (.ok a, ⟨w'.state.1, w'.outcomes⟩) ∧ w'.state.2 = w.state.2 := by
  unfold raising at h
  rcases hrun : x ⟨w.state.1, w.outcomes⟩ with ⟨⟨e⟩ | ⟨b⟩, v⟩ <;> rw [hrun] at h
  · cases h
  · obtain ⟨hvalue, rfl⟩ := Prod.mk.inj h
    obtain rfl := Except.ok.inj hvalue
    exact ⟨rfl, rfl⟩

theorem raising_error {x : Routine Model α} {e : Option Raised} (h : raising x w = (.error e, w')) :
    ∃ raised, e = some raised ∧ w'.state.2 = w.state.2 := by
  unfold raising at h
  rcases hrun : x ⟨w.state.1, w.outcomes⟩ with ⟨⟨raised⟩ | ⟨b⟩, v⟩ <;> rw [hrun] at h
  · obtain ⟨hvalue, rfl⟩ := Prod.mk.inj h
    exact ⟨raised, (Except.error.inj hvalue).symm, rfl⟩
  · cases h

theorem writeJson_received {records : RecordLibrary} {model : Model} (hmodel : Finished records model) :
    ∃ bytes, Json.read bytes = some (documentValue lib.writer.schemaName model) ∧ ∀ s,
      ((writeJson lib.writer model s).1 = .ok () → Received bytes s (writeJson lib.writer model s).2) ∧
        ReceivedSome bytes s (writeJson lib.writer model s).2 := by
  obtain ⟨bytes, ⟨pieces, hperforms, rfl⟩, hread⟩ := exists_document_of_finished lib.writer hmodel
  have hbytes : (pieces.map Operation.write ++ [Operation.flush]).flatMap Operation.bytes = pieces.flatten := by
    rw [List.flatMap_append, List.flatMap_map]
    simp [Operation.bytes, List.flatMap_id']
  refine ⟨pieces.flatten, hread, fun s => ?_⟩
  have hattempted := attempted (pieces.map Operation.write ++ [Operation.flush]) s
  have hsome := written_attempt (pieces.map Operation.write ++ [Operation.flush]) s
  rw [← hperforms] at hattempted hsome
  rw [hbytes] at hsome
  generalize hrun : writeDocument lib.writer model s = result at hattempted hsome
  cases hattempted with
  | all t log written =>
    rw [writeJson_of_finished hmodel hrun]
    exact ⟨fun _ => ⟨hbytes ▸ written, pieces, log⟩, hsome⟩
  | failed t before op after split log =>
    rw [writeJson_of_finished hmodel hrun]
    exact ⟨by simp, hsome⟩

/-- Where `write_model` leaves the output. -/
theorem writeModel_changes {model : Model} {bytes : List UInt8} {output : Option Text} {console : Console}
    (hwrites : ∀ s, ((writeJson lib.writer model s).1 = .ok () → Received bytes s (writeJson lib.writer model s).2) ∧
      ReceivedSome bytes s (writeJson lib.writer model s).2) :
    ((writeModel lib fs model output console).1 = .ok () →
      OutputChanges fs (Received bytes) console output (writeModel lib fs model output console).2 ∧
        ∀ path ∈ output, ∀ file, fs.output path = .ok file → file.closes = .ok ()) ∧
    ((writeModel lib fs model output console).2 = console ∨
      OutputChanges fs (ReceivedSome bytes) console output (writeModel lib fs model output console).2) := by
  unfold writeModel
  cases output with
  | none =>
    obtain ⟨hall, hsome⟩ := hwrites console.stdout
    exact ⟨fun hok => ⟨.stdout _ (hall hok), nofun⟩, .inr (.stdout _ hsome)⟩
  | some path =>
    cases hfile : fs.output path with
    | error e =>
      simp only [hfile]
      exact ⟨nofun, .inl trivial⟩
    | ok file =>
      obtain ⟨hall, hsome⟩ := hwrites file.stream
      simp only [hfile]
      refine ⟨fun hok => ?_, .inr (.file path file _ hfile hsome)⟩
      split at hok
      · cases hok
      · next hcloses =>
        refine ⟨.file path file _ hfile (hall hok), ?_⟩
        rintro path' hpath file' hfile'
        obtain rfl := Option.some.inj hpath
        obtain rfl := Except.ok.inj (hfile.symm.trans hfile')
        cases hclosed : file.closes with
        | ok => rfl
        | error e => exact absurd hclosed (hcloses e hok)

inductive RunEnding (lib : CommandLibrary) (fs : FileSystem) (resource call : Text) (output : Option Text)
    (console : Console) : Except (Option Raised) Unit → Console → Prop
  | written (bytes : List UInt8) (hdocument : IsDocument lib fs resource call bytes) (console' : Console)
      (houtput : OutputChanges fs (Received bytes) console output console')
      (hcloses : ∀ path ∈ output, ∀ file, fs.output path = .ok file → file.closes = .ok ()) :
      RunEnding lib fs resource call output console (.ok ()) console'
  | incomplete (diagnostic : Text) :
      RunEnding lib fs resource call output console (.error none) (console.complain diagnostic)
  | raised (e : Raised) : RunEnding lib fs resource call output console (.error (some e)) console
  | failed (bytes : List UInt8) (hdocument : IsDocument lib fs resource call bytes) (console' : Console)
      (houtput : OutputChanges fs (ReceivedSome bytes) console output console') (e : Raised) :
      RunEnding lib fs resource call output console (.error (some e)) console'

/-- The model that the steps write is that of an admitted pair. -/
theorem isDocument_of_finish {resource call : Text} {rh ch : StreamHealth.Health} {outcomes outcomes₁ outcomes₂ outcomes₃ : List Bool}
    {m₁ m₂ m₃ : Model}
    (hresource : observePath lib.reader false (fs.input resource) ⟨{}, outcomes⟩ = (.ok rh, ⟨m₁, outcomes₁⟩))
    (hcall : observePath lib.reader true (fs.input call) ⟨m₁, outcomes₁⟩ = (.ok ch, ⟨m₂, outcomes₂⟩))
    (hcomplete : admittedStreamsAreComplete rh ch = true)
    (hfinish : finish lib.reader.toRecordLibrary ⟨m₂, outcomes₂⟩ = (.ok (), ⟨m₃, outcomes₃⟩)) :
    Finished lib.reader.toRecordLibrary m₃ ∧ ∀ bytes, Json.read bytes = some (documentValue lib.writer.schemaName m₃) →
      IsDocument lib fs resource call bytes := by
  have hadmitted : admitStreams lib.reader (fs.input resource) (fs.input call) ⟨{}, outcomes⟩ = (.ok (), ⟨m₂, outcomes₂⟩) := by
    rw [admitStreams, run_bind_of_ok hresource, run_bind_of_ok hcall, if_pos hcomplete]
    rfl
  obtain ⟨m, rh', ch', hread⟩ := read_of_admitStreams hadmitted
  obtain ⟨hresourceSound, hcallSound⟩ := hread.valid
  have hreachable := hread.call.reachable (hread.resource.reachable .create)
  have hnodes : m₂.nodes = addedNodes lib.reader (fs.input resource) (fs.input call) := hread.nodes
  have hmodel : Finished lib.reader.toRecordLibrary m₃ ∧ m₃.nodes = m₂.nodes := by
    have hreach := hreachable.finish outcomes₂
    rw [hfinish] at hreach
    rcases finish_ok _ hfinish with ⟨hfinished, hsame⟩ | hfrom
    · obtain ⟨rfl, -⟩ := World.mk.inj hsame
      exact ⟨⟨hreach, hfinished⟩, rfl⟩
    · exact ⟨⟨hreach, hfrom.finished⟩, hfrom.nodes⟩
  refine ⟨hmodel.1, fun bytes hread => ⟨⟨outcomes, by rw [hadmitted]⟩, hresourceSound, hcallSound, m₃, hmodel.1, ?_, hread⟩⟩
  rw [hmodel.2, hnodes]

theorem ending_run (resource call : Text) (output : Option Text) (console : Console) (outcomes : List Bool) :
    RunEnding lib fs resource call output console (run lib fs resource call output ⟨({}, console), outcomes⟩).1
      (run lib fs resource call output ⟨({}, console), outcomes⟩).2.state.2 := by
  rw [run]
  rcases hresource : raising (observePath lib.reader false (fs.input resource)) ⟨({}, console), outcomes⟩ with
    ⟨⟨e⟩ | ⟨rh⟩, w₁⟩
  · obtain ⟨raised, rfl, hconsole⟩ := raising_error hresource
    rw [run_bind_of_error hresource, hconsole]
    exact .raised raised
  · obtain ⟨hresource', hconsole₁⟩ := raising_ok hresource
    rw [run_bind_of_ok hresource]
    rcases hcall : raising (observePath lib.reader true (fs.input call)) w₁ with ⟨⟨e⟩ | ⟨ch⟩, w₂⟩
    · obtain ⟨raised, rfl, hconsole⟩ := raising_error hcall
      rw [run_bind_of_error hcall, hconsole, hconsole₁]
      exact .raised raised
    · obtain ⟨hcall', hconsole₂⟩ := raising_ok hcall
      rw [run_bind_of_ok hcall]
      have hsame₂ : w₂.state.2 = console := hconsole₂.trans hconsole₁
      split
      · next hcomplete =>
        rcases hfinish : raising (finish lib.reader.toRecordLibrary) w₂ with ⟨⟨e⟩ | ⟨⟨⟩⟩, w₃⟩
        · obtain ⟨raised, rfl, hconsole⟩ := raising_error hfinish
          rw [run_bind_of_error hfinish, hconsole, hsame₂]
          exact .raised raised
        · obtain ⟨hfinish', hconsole₃⟩ := raising_ok hfinish
          obtain ⟨hmodel, hdocument⟩ := isDocument_of_finish hresource' hcall' hcomplete hfinish'
          obtain ⟨bytes, hread, hwrites⟩ := @writeJson_received lib _ _ hmodel
          obtain ⟨hok, hany⟩ := @writeModel_changes lib fs _ _ output w₃.state.2 hwrites
          have hsame₃ : w₃.state.2 = console := hconsole₃.trans hsame₂
          rw [run_bind_of_ok hfinish, writeModelStep]
          rw [hsame₃] at hok hany ⊢
          rcases hwrite : writeModel lib fs w₃.state.1 output console with ⟨⟨e⟩ | ⟨⟨⟩⟩, console'⟩ <;> rw [hwrite] at hok hany
          · rcases hany with rfl | hchanges
            · exact .raised e
            · exact .failed bytes (hdocument bytes hread) console' hchanges e
          · exact .written bytes (hdocument bytes hread) console' (hok rfl).1 (hok rfl).2
      · rw [← hsame₂]
        exact .incomplete _

/-- The error object and the model are there, or the run is over. -/
theorem create_cases (s : Model × Console) (outcomes : List Bool) :
    (∃ outcomes', (create : Step Unit) ⟨s, outcomes⟩ = (.ok (), ⟨s, outcomes'⟩)) ∨
      (∃ diagnostic w, create ⟨s, outcomes⟩ = (.error none, w) ∧ w.state.2 = s.2.complain diagnostic) ∨
        ∃ e w, create ⟨s, outcomes⟩ = (.error (some e), w) ∧ w.state.2 = s.2 := by
  rcases outcomes with _ | ⟨_ | _, _ | ⟨_ | _, outcomes⟩⟩
  · exact .inl ⟨_, rfl⟩
  · exact .inr (.inl ⟨_, _, rfl, rfl⟩)
  · exact .inr (.inl ⟨_, _, rfl, rfl⟩)
  · exact .inr (.inl ⟨_, _, rfl, rfl⟩)
  · exact .inl ⟨_, rfl⟩
  · exact .inr (.inr ⟨_, _, rfl, rfl⟩)
  · exact .inl ⟨_, rfl⟩

/-- However the command ends, it has printed the usage or a single diagnostic, or it has written the whole
document of the two files and nothing else. Nothing is opened or written before both are admitted, and
what a failure leaves of the document is a beginning of it. -/
theorem ending_main (lib : CommandLibrary) (fs : FileSystem) (program : Text) (arguments : List Text) (console : Console)
    (outcomes : List Bool) :
    Ending lib fs program arguments console (main lib fs program arguments console outcomes) := by
  rw [main]
  rcases hparse : parseArguments arguments with _ | _ | ⟨resource, call, output⟩
  · apply Ending.help
    rw [parseArguments] at hparse
    split at hparse
    · next hhelp => exact hhelp
    · split at hparse
      · cases hparse
      · split at hparse <;> cases hparse
  · apply Ending.usage
    intro resource call output harguments
    rw [parseArguments_eq_accepted_iff.mpr harguments] at hparse
    cases hparse
  · have harguments := parseArguments_eq_accepted_iff.mp hparse
    dsimp only
    rcases create_cases ({}, console) outcomes with ⟨outcomes', hcreate⟩ | ⟨diagnostic, w, hcreate, hconsole⟩ |
      ⟨e, w, hcreate, hconsole⟩
    · rw [run_bind_of_ok hcreate]
      have hending := @ending_run lib fs resource call output console outcomes'
      rcases hrun : run lib fs resource call output ⟨({}, console), outcomes'⟩ with ⟨⟨_ | e⟩ | ⟨⟨⟩⟩, w⟩ <;>
        rw [hrun] at hending <;> dsimp only at hending ⊢ <;> generalize w.state.2 = console' at hending
      · cases hending with
        | incomplete diagnostic => exact .refused resource call output harguments diagnostic
      · cases hending with
        | raised => exact .refused resource call output harguments _
        | failed bytes hdocument _ houtput =>
          exact .failed resource call output harguments bytes hdocument _ houtput _
      · cases hending with
        | written bytes hdocument _ houtput hcloses =>
          exact .written resource call output harguments bytes hdocument _ houtput hcloses
    · rw [run_bind_of_error hcreate]
      dsimp only
      rw [hconsole]
      exact .refused resource call output harguments diagnostic
    · rw [run_bind_of_error hcreate]
      dsimp only
      rw [hconsole]
      exact .refused resource call output harguments _

/-- The stand-ins of the libraries, with one message for all errors. -/
def CommandLibrary.standard : CommandLibrary := ⟨.standard, .standard, fun _ => .ofString "error"⟩

/-- The file of a program that opened a file and made no call is at one path, its receipts at another. -/
def ownFiles : FileSystem where
  input path := if path = .ofString "r" then silentResource else ownCall
  output _ := .error .unset

def quietConsole : Console := ⟨⟨fun _ => {}, [], []⟩, ⟨fun _ => {}, [], []⟩, []⟩

example : (main .standard ownFiles (.ofString "p") (["-c", "calls", "-r", "r"].map Text.ofString) quietConsole []).1 = 0 := by
  decide +kernel

example : (main .standard ownFiles (.ofString "p") (["-r", "r", "-r", "r"].map Text.ofString) quietConsole []).1 = 2 := by
  decide +kernel

end ToolEvent.ModelCommand
