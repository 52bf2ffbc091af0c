import ToolEvent.LifecycleAtomic
import ToolEvent.ModelInputRuns
import ToolEvent.RunModelReplay

/-!
# Failed calls of the run model

A failed ingest adds no node, but it may have fixed the run identity of the model before it
failed, and then records of other runs are refused that were accepted before. A failed finish
leaves nothing of the edges and the lifecycle, and can be repeated.
-/

namespace ToolEvent.RunModel

open Fallible World LatestMatch

variable {lib : RecordLibrary}

def feed (lib : RecordLibrary) (calls : List (EventRecord × List Bool)) : Model :=
  calls.foldl (fun model call => (ingest lib call.1 ⟨model, call.2⟩).2.state) {}

def afterCall (lib : RecordLibrary) (model : Model) (call : EventRecord × List Bool) : Model :=
  (ingest lib call.1 ⟨model, call.2⟩).2.state

def Fails (lib : RecordLibrary) (model : Model) (call : EventRecord × List Bool) : Prop :=
  ∃ e, (ingest lib call.1 ⟨model, call.2⟩).1 = .error e

/-- Which of the records a model accepts, one after the other, when all requests are granted. -/
def verdicts (lib : RecordLibrary) (model : Model) : List EventRecord → List Bool
  | [] => []
  | record :: records =>
    (ingest lib record ⟨model, []⟩).1.toBool :: verdicts lib (afterCall lib model (record, [])) records

/-- The failed call leaves the nodes and what the model accepts later. -/
structure Harmless (lib : RecordLibrary) (model : Model) (call : EventRecord × List Bool) : Prop where
  nodes : (afterCall lib model call).nodes = model.nodes
  verdicts : ∀ later, verdicts lib (afterCall lib model call) later = verdicts lib model later

/-- The model has a run identity, the record is refused on entry, or the request for the copy of
the run identity is refused. -/
def FailsEarly (lib : RecordLibrary) (model : Model) (call : EventRecord × List Bool) : Prop :=
  model.runId ≠ none ∨ isAdmitted lib model call.1 = false ∨ call.2.head? = some false

def adopt (record : EventRecord) (model : Model) : Model :=
  { model with runId := some (record.runId.getD .empty) }

def enlarge (model : Model) : Model :=
  { model with nodeCapacity := if model.nodeCapacity = 0 then initialCapacity else model.nodeCapacity * 2 }

def IsFull (model : Model) : Prop := model.nodeCapacity ≤ model.nodes.length ∧ model.nodeCapacity < modelLimit

section Failures

variable {m : Model} {record : EventRecord} {outcomes : List Bool} {e : Raised} {w : World Model}

theorem run_copyText (m : Model) (outcomes : List Bool) :
    copyText ⟨m, outcomes⟩ =
      (if outcomes.headD true then .ok () else .error (.errno .enomem), ⟨m, outcomes.tail⟩) := by
  unfold copyText
  rw [run_bind_of_ok (run_allocate m outcomes)]
  cases outcomes.headD true <;> rfl

/-- The check of the run identity fails without a change. -/
theorem ingestRunId_error {runId : Text} (h : ingestRunId runId ⟨m, outcomes⟩ = (.error e, w)) :
    w.state = m ∧ (m.runId = none → outcomes.head? = some false) := by
  unfold ingestRunId at h
  rw [run_readState_bind] at h
  cases hown : m.runId with
  | none =>
    simp only [hown] at h
    rw [run_bind, run_copyText] at h
    rcases outcomes with _ | ⟨_ | _, outcomes⟩
    · cases h
    · obtain ⟨-, rfl⟩ := Prod.mk.inj h
      exact ⟨rfl, fun _ => rfl⟩
    · cases h
  | some own =>
    simp only [hown] at h
    split at h
    · cases h
    · obtain ⟨-, rfl⟩ := Prod.mk.inj h
      exact ⟨rfl, by simp⟩

theorem ingestRunId_granted {runId : Text} (h : ingestRunId runId ⟨m, outcomes⟩ = (.ok (), w)) :
    m.runId = none → outcomes.head? ≠ some false := by
  intro hown hrefused
  unfold ingestRunId at h
  rw [run_readState_bind] at h
  simp only [hown] at h
  rw [run_bind, run_copyText] at h
  rcases outcomes with _ | ⟨_ | _, outcomes⟩
  · cases hrefused
  · cases h
  · cases hrefused

/-- The capacity a request for room leads to. -/
theorem reserve_capacity {count capacity grown : ℕ} {w w' : World Model} (h : reserve count capacity w = (.ok grown, w')) :
    grown = capacity ∨ (capacity ≤ count ∧ capacity < modelLimit ∧
      grown = if capacity = 0 then initialCapacity else capacity * 2) := by
  unfold reserve at h
  split at h
  · obtain ⟨hgrown, -⟩ := Prod.mk.inj h
    exact Or.inl (Except.ok.inj hgrown).symm
  · next hfull =>
    split at h
    · cases h
    · next hroom =>
      obtain ⟨granted, w₁, -, h⟩ := run_bind_eq_ok.mp h
      cases granted with
      | false => cases h
      | true =>
        obtain ⟨hgrown, -⟩ := Prod.mk.inj h
        exact Or.inr ⟨Nat.le_of_not_lt hfull, Nat.lt_of_not_le hroom, (Except.ok.inj hgrown).symm⟩

/-- A failed ingest leaves the model, or gives it the run identity of the record and perhaps a
larger array. -/
theorem ingest_error_cases (h : ingest lib record ⟨m, outcomes⟩ = (.error e, w)) :
    (w.state = m ∧ FailsEarly lib m (record, outcomes)) ∨
      (isAdmitted lib m record = true ∧ (m.runId = none → outcomes.head? ≠ some false) ∧
        (m.runId = none ∨ m.runId = some (record.runId.getD .empty)) ∧
        (w.state = adopt record m ∨ (IsFull m ∧ w.state = enlarge (adopt record m)))) := by
  unfold ingest at h
  rw [run_readState_bind] at h
  split at h
  · next hadmitted =>
    rw [run_bind] at h
    rcases hrun : ingestRunId (record.runId.getD .empty) ⟨m, outcomes⟩ with ⟨⟨e'⟩ | ⟨⟨⟩⟩, w₁⟩ <;> rw [hrun] at h
    · obtain ⟨-, rfl⟩ := Prod.mk.inj h
      obtain ⟨hstate, hrefused⟩ := ingestRunId_error hrun
      refine Or.inl ⟨hstate, ?_⟩
      by_cases hown : m.runId = none
      · exact Or.inr (Or.inr (hrefused hown))
      · exact Or.inl hown
    · obtain ⟨hstate₁, hown⟩ := ModelInput.ingestRunId_ok hrun
      refine Or.inr ⟨hadmitted, ingestRunId_granted hrun, hown, ?_⟩
      dsimp only at h
      split at h
      · cases h
      · rw [run_bind] at h
        have hstate₂ := state_eq_of_evolves (evolves_reserve m.nodes.length m.nodeCapacity) w₁
        rcases hreserve : reserve m.nodes.length m.nodeCapacity w₁ with ⟨⟨e'⟩ | ⟨capacity⟩, w₂⟩ <;>
          rw [hreserve] at h hstate₂
        · obtain ⟨-, rfl⟩ := Prod.mk.inj h
          exact Or.inl (hstate₂.trans hstate₁)
        · dsimp only at h hstate₂
          rw [run_bind_of_ok (run_updateState _ _)] at h
          have hcopies := eq_error_of_bind_updateState h
          have hstate := state_eq_of_evolves (fun r => evolves_forEach (fun _ : ℕ => evolves_copyText r)
            (List.range recordTextCount)) { w₂ with state := { w₂.state with nodeCapacity := capacity } }
          rw [hcopies, hstate₂, hstate₁] at hstate
          rcases reserve_capacity hreserve with rfl | ⟨hfull, hroom, rfl⟩
          · exact Or.inl hstate
          · exact Or.inr ⟨⟨hfull, hroom⟩, hstate⟩
  · next hrefused =>
    obtain ⟨-, rfl⟩ := Prod.mk.inj h
    exact Or.inl ⟨rfl, Or.inr (Or.inl (by simpa using hrefused))⟩

end Failures

section Verdicts

variable {m : Model}

/-- What an ingest does when its requests are granted. -/
theorem run_ingest_nil (m : Model) (record : EventRecord) :
    ingest lib record ⟨m, []⟩ =
      if isAdmitted lib m record = false ∨ (m.runId ≠ none ∧ m.runId ≠ some (record.runId.getD .empty)) then
        (.error (.errno .einval), ⟨m, []⟩)
      else if record.recordKind = .complete then (.ok (), ⟨adopt record m, []⟩)
      else if m.nodes.length < m.nodeCapacity then
        (.ok (), ⟨{ adopt record m with nodes := m.nodes ++ [Node.ofRecord record] }, []⟩)
      else if modelLimit ≤ m.nodeCapacity then (.error (.errno .eoverflow), ⟨adopt record m, []⟩)
      else (.ok (), ⟨{ enlarge (adopt record m) with nodes := m.nodes ++ [Node.ofRecord record] }, []⟩) := by
  unfold ingest
  rw [run_readState_bind]
  dsimp only
  by_cases hadmitted : isAdmitted lib m record = true
  · rw [if_pos hadmitted]
    by_cases hown : m.runId = none ∨ m.runId = some (record.runId.getD .empty)
    · have hmatches : ¬ (isAdmitted lib m record = false ∨
          (m.runId ≠ none ∧ m.runId ≠ some (record.runId.getD .empty))) := by
        rintro (hrefused | ⟨hset, hother⟩)
        · rw [hadmitted] at hrefused
          cases hrefused
        · exact hown.elim hset hother
      rw [if_neg hmatches, run_bind_of_ok (run_ingestRunId_nil hown)]
      split
      · rfl
      · by_cases hroom : m.nodes.length < m.nodeCapacity
        · have hreserve : reserve m.nodes.length m.nodeCapacity ⟨adopt record m, []⟩ =
              (.ok m.nodeCapacity, ⟨adopt record m, []⟩) := by
            rw [reserve, if_pos hroom]
            rfl
          rw [if_pos hroom]
          exact run_bind_of_ok hreserve
        · rw [if_neg hroom]
          by_cases hlimit : modelLimit ≤ m.nodeCapacity
          · have hreserve : reserve m.nodes.length m.nodeCapacity ⟨adopt record m, []⟩ =
                (.error (.errno .eoverflow), ⟨adopt record m, []⟩) := by
              rw [reserve, if_neg hroom, if_pos hlimit]
              rfl
            rw [if_pos hlimit]
            exact run_bind_of_error hreserve
          · have hreserve : reserve m.nodes.length m.nodeCapacity ⟨adopt record m, []⟩ =
                (.ok (enlarge m).nodeCapacity, ⟨adopt record m, []⟩) := by
              rw [reserve, if_neg hroom, if_neg hlimit]
              rfl
            rw [if_neg hlimit]
            exact run_bind_of_ok hreserve
    · rw [not_or] at hown
      rw [if_pos (Or.inr hown)]
      apply run_bind_of_error
      unfold ingestRunId
      rw [run_readState_bind]
      cases hset : m.runId with
      | none => exact absurd hset hown.1
      | some own =>
        have hother : own ≠ record.runId.getD .empty := fun h => hown.2 (by rw [hset, h])
        simp only [if_neg hother]
        rfl
  · rw [if_neg hadmitted, if_pos (Or.inl (by simpa using hadmitted))]
    rfl

/-- A full array that grew early makes no difference to what is accepted. -/
theorem verdicts_enlarge (hwithin : m.nodes.length ≤ m.nodeCapacity) (hfull : IsFull m) (later : List EventRecord) :
    verdicts lib (enlarge m) later = verdicts lib m later := by
  induction later generalizing m with
  | nil => rfl
  | cons record later ih =>
    have hroom : ¬ m.nodes.length < m.nodeCapacity := Nat.not_lt_of_le hfull.1
    have hgrown : (enlarge m).nodes.length < (enlarge m).nodeCapacity := by
      change m.nodes.length < if m.nodeCapacity = 0 then initialCapacity else m.nodeCapacity * 2
      unfold initialCapacity
      split <;> omega
    have hrunId : (enlarge m).runId = m.runId := rfl
    have hadmitted : isAdmitted lib (enlarge m) record = isAdmitted lib m record := rfl
    simp only [verdicts, afterCall, run_ingest_nil, hadmitted, hrunId, if_pos hgrown, if_neg hroom,
      if_neg (Nat.not_le_of_lt hfull.2)]
    split
    · exact congrArg _ (ih hwithin hfull)
    · split
      · have hsame : adopt record (enlarge m) = enlarge (adopt record m) := rfl
        rw [hsame]
        exact congrArg _ (ih (m := adopt record m) hwithin hfull)
      · rfl

/-- A model that has been given the run identity refuses a record that it accepted before. -/
theorem exists_verdict_ne {record : EventRecord} (hown : m.runId = none) (hadmitted : isAdmitted lib m record = true)
    {m' : Model} (hid : m'.runId = some (record.runId.getD .empty)) :
    ∃ later, verdicts lib m' later ≠ verdicts lib m later := by
  have hchecks : m.finished = false ∧ 0 < lib.runIdMaxBytes := by
    unfold isAdmitted at hadmitted
    cases hrun : record.runId with
    | none => simp [hrun] at hadmitted
    | some runId =>
      simp only [hrun, decide_eq_true_eq] at hadmitted
      obtain ⟨hopen, -, hnonempty, hlength⟩ := hadmitted
      refine ⟨hopen, lt_of_lt_of_le ?_ hlength⟩
      exact List.length_pos_iff.mpr fun hbytes => hnonempty (by simp [Text.isEmpty, hbytes])
  obtain ⟨other, hother, hlength, hnonempty⟩ : ∃ other : Text, other ≠ record.runId.getD .empty ∧ other.length = 1 ∧
      other.isEmpty = false := by
    by_cases ha : Text.ofString "a" = record.runId.getD .empty
    · exact ⟨.ofString "b", by rw [← ha]; decide, by decide, by decide⟩
    · exact ⟨.ofString "a", ha, by decide, by decide⟩
  have haccepts : isAdmitted lib m { recordKind := .complete, runId := some other } = true := by
    have hfits : other.length ≤ lib.runIdMaxBytes := by
      rw [hlength]
      exact hchecks.2
    simp [isAdmitted, hchecks.1, hnonempty, hfits]
  refine ⟨[{ recordKind := .complete, runId := some other }], ?_⟩
  have haccepted : (ingest lib { recordKind := .complete, runId := some other } ⟨m, []⟩).1.toBool = true := by
    rw [run_ingest_nil, if_neg (by simp [haccepts, hown]), if_pos rfl]
    rfl
  have hrefused : (ingest lib { recordKind := .complete, runId := some other } ⟨m', []⟩).1.toBool = false := by
    rw [run_ingest_nil, if_pos (Or.inr ⟨by simp [hid], by simpa [hid] using Ne.symm hother⟩)]
    rfl
  simp [verdicts, haccepted, hrefused]

end Verdicts

theorem reachable_feed (lib : RecordLibrary) (calls : List (EventRecord × List Bool)) : Reachable lib (feed lib calls) := by
  induction calls using List.reverseRecOn with
  | nil => exact .create
  | append_singleton calls call ih =>
    rw [feed, List.foldl_append]
    exact ih.ingest call.1 call.2

/-- A failed call is harmless exactly if it fails early. -/
theorem harmless_iff {m : Model} (hwithin : m.nodes.length ≤ m.nodeCapacity) {call : EventRecord × List Bool}
    (hfails : Fails lib m call) : Harmless lib m call ↔ FailsEarly lib m call := by
  obtain ⟨record, outcomes⟩ := call
  obtain ⟨e, he⟩ := hfails
  obtain ⟨w, hrun⟩ := exists_of_fst_eq he
  have hafter : afterCall lib m (record, outcomes) = w.state := congrArg (fun p => p.2.state) hrun
  rcases ingest_error_cases hrun with ⟨hstate, hearly⟩ | ⟨hadmitted, hgranted, hown, hstate⟩
  · refine iff_of_true ⟨?_, fun later => ?_⟩ hearly
    · rw [hafter, hstate]
    · rw [hafter, hstate]
  · constructor
    · intro hharmless
      by_contra hlate
      obtain ⟨hnone, -, -⟩ : m.runId = none ∧ _ ∧ _ := by
        simpa [FailsEarly, not_or] using hlate
      have hid : w.state.runId = some (record.runId.getD .empty) := by
        rcases hstate with hstate | ⟨-, hstate⟩ <;> rw [hstate] <;> rfl
      obtain ⟨later, hdiffers⟩ := exists_verdict_ne hnone hadmitted hid
      exact hdiffers (by rw [← hafter]; exact hharmless.verdicts later)
    · intro hearly
      have hset : m.runId ≠ none := by
        intro hnone
        rcases hearly with hset | hrefused | hrefused
        · exact hset hnone
        · rw [hadmitted] at hrefused
          cases hrefused
        · exact hgranted hnone hrefused
      have hadopt : adopt record m = m := by
        have hsame := hown.resolve_left hset
        unfold adopt
        rw [← hsame]
      rw [hadopt] at hstate
      rcases hstate with hstate | ⟨hfull, hstate⟩
      · refine ⟨?_, fun later => ?_⟩ <;> rw [hafter, hstate]
      · refine ⟨by rw [hafter, hstate]; rfl, fun later => ?_⟩
        rw [hafter, hstate]
        exact verdicts_enlarge hwithin hfull later

/-- In a run of ingests, the failed calls are harmless exactly if each of them fails early. -/
theorem failedIngests_harmless_iff (lib : RecordLibrary) (calls : List (EventRecord × List Bool)) :
    (∀ before call later, calls = before ++ call :: later → Fails lib (feed lib before) call →
        Harmless lib (feed lib before) call) ↔
      ∀ before call later, calls = before ++ call :: later → Fails lib (feed lib before) call →
        FailsEarly lib (feed lib before) call := by
  have hpointwise : ∀ before call, Fails lib (feed lib before) call →
      (Harmless lib (feed lib before) call ↔ FailsEarly lib (feed lib before) call) :=
    fun before call hfails => harmless_iff (reachable_feed lib before).sound.nodes_le hfails
  constructor
  · intro hharmless before call later hcalls hfails
    exact (hpointwise before call hfails).mp (hharmless before call later hcalls hfails)
  · intro hearly before call later hcalls hfails
    exact (hpointwise before call hfails).mpr (hearly before call later hcalls hfails)

/-- The first record of a run, for whose node array there is no memory. -/
def firstRecord : EventRecord := { recordKind := .fd, runId := some (.ofString "run"), pid := 1, fd := 3, sequence := 1 }

theorem firstRecord_fixes_runId :
    ¬ ∀ (lib : RecordLibrary) (calls before : List (EventRecord × List Bool)) (call : EventRecord × List Bool)
        (later : List (EventRecord × List Bool)), calls = before ++ call :: later →
      Fails lib (feed lib before) call → Harmless lib (feed lib before) call := by
  intro hall
  have hharmless := hall .standard [(firstRecord, [true, false])] [] (firstRecord, [true, false]) [] rfl
    ⟨.errno .enomem, rfl⟩
  have hverdicts := hharmless.verdicts [{ recordKind := .complete, runId := some (.ofString "other") }]
  exact absurd hverdicts (by decide +kernel)

def lasting (model : Model) : List Node × Option Lifecycle.Model := (model.nodes, model.lifecycle)

theorem preserves_addFoundEdge (found : Option ℕ) (edge : ℕ → Edge) : Preserves lasting (addFoundEdge found edge) := by
  cases found with
  | none => exact preserves_pure _
  | some index =>
    refine preserves_readState.bind fun model => Preserves.bind ?_ fun capacity => preserves_updateState fun _ => rfl
    exact preserves_of_evolves fun _ => evolves_reserve _ _ _

theorem preserves_buildCallEdges (nodes : List Node) (indices : List ℕ) (matchedExit : MatchedExit) :
    Preserves lasting (buildCallEdges nodes indices matchedExit) := by
  induction indices generalizing matchedExit with
  | nil => exact preserves_pure _
  | cons index indices ih =>
    refine Preserves.bind ?_ ih
    unfold buildCallEdge
    split
    · exact preserves_pure _
    · refine (preserves_pure _).ite (Preserves.ite ?_ ?_)
      · exact (preserves_addFoundEdge _ _).bind fun _ => preserves_pure _
      · exact (preserves_addFoundEdge _ _).bind fun _ => preserves_pure _

theorem preserves_buildResourceEdges (lib : RecordLibrary) (nodes : List Node) (matchedExit : MatchedExit) :
    Preserves lasting (buildResourceEdges lib nodes matchedExit) := by
  refine preserves_forEach (fun index => ?_) _
  unfold buildResourceEdge
  split
  · exact preserves_pure _
  · refine (preserves_pure _).ite ((preserves_addFoundEdge _ _).bind fun _ => (preserves_addFoundEdge _ _).bind fun _ => ?_)
    exact (preserves_forEach (fun _ => preserves_addFoundEdge _ _) _).ite (preserves_pure _)

theorem atomic_buildLifecycle (lib : RecordLibrary) (nodes : List Node) : Atomic lasting (buildLifecycle lib nodes) := by
  refine Preserves.bind_atomic (preserves_of_evolves fun _ => evolves_allocate) fun created => ?_
  refine Atomic.ite ?_ (preserves_fail _).atomic
  exact (Preserves.atomic (preserves_of_evolves fun _ => evolves_call _ _)).bind_updateState _

theorem atomic_finishBody (lib : RecordLibrary) (nodes : List Node) : Atomic lasting (finishBody lib nodes) := by
  refine Preserves.bind_atomic ?_ fun matchedExit => ?_
  · refine (preserves_pure _).ite (Preserves.bind (preserves_of_evolves fun _ => evolves_allocate) fun allocated => ?_)
    exact (preserves_pure _).ite (preserves_fail _)
  · refine (preserves_buildCallEdges _ _ _).bind_atomic fun _ => ?_
    exact (preserves_buildResourceEdges lib _ _).bind_atomic fun _ => atomic_buildLifecycle lib nodes

/-- A failed finish leaves the nodes, and nothing of what it built. -/
theorem finish_error_state {w w' : World Model} {e : Raised} (h : finish lib w = (.error e, w')) :
    w'.state.edges = [] ∧ w'.state.lifecycle = none ∧ w'.state.nodes = w.state.nodes ∧ w'.state.finished = false := by
  have hopen := finish_error lib h
  unfold finish at h
  rw [run_readState_bind] at h
  split at h
  · cases h
  · rw [run_bind_of_ok (run_updateState _ w)] at h
    have hbody := eq_error_of_bind_updateState h
    unfold onError at hbody
    rcases hrun : finishBody lib w.state.nodes ⟨{ w.state with edges := [], lifecycle := none }, w.outcomes⟩ with
      ⟨⟨e'⟩ | ⟨⟨⟩⟩, v⟩ <;> simp only [hrun] at hbody
    · obtain ⟨-, rfl⟩ := Prod.mk.inj hbody
      obtain ⟨hnodes, hlifecycle⟩ := Prod.mk.inj (atomic_finishBody lib _ _ e' v hrun)
      exact ⟨rfl, hlifecycle, hnodes, hopen⟩
    · cases hbody

def finishAll (lib : RecordLibrary) (model : Model) (attempts : List (List Bool)) : Model :=
  attempts.foldl (fun model outcomes => (finish lib ⟨model, outcomes⟩).2.state) model

def AllFail (lib : RecordLibrary) (model : Model) (attempts : List (List Bool)) : Prop :=
  ∀ before outcomes later, attempts = before ++ outcomes :: later →
    ∃ e, (finish lib ⟨finishAll lib model before, outcomes⟩).1 = .error e

theorem feed_open (lib : RecordLibrary) (calls : List (EventRecord × List Bool)) : (feed lib calls).finished = false := by
  induction calls using List.reverseRecOn with
  | nil => rfl
  | append_singleton calls call ih =>
    rw [feed, List.foldl_append]
    exact (finished_eq_of_evolves (keepsFinished_ingest lib call.1) _).trans ih

/-- After failed attempts the model is as after its ingests, less edges and lifecycle. -/
theorem finishAll_of_allFail {m : Model} (hopen : m.finished = false) {attempts : List (List Bool)}
    (hfail : AllFail lib m attempts) :
    (finishAll lib m attempts).nodes = m.nodes ∧ (finishAll lib m attempts).finished = false ∧
      (attempts ≠ [] → (finishAll lib m attempts).edges = [] ∧ (finishAll lib m attempts).lifecycle = none) := by
  induction attempts using List.reverseRecOn with
  | nil => exact ⟨rfl, hopen, fun h => absurd rfl h⟩
  | append_singleton attempts outcomes ih =>
    obtain ⟨hnodes, -, -⟩ := ih fun before outcomes' later heq =>
      hfail before outcomes' (later ++ [outcomes]) (by rw [heq, List.append_assoc, List.cons_append])
    obtain ⟨e, he⟩ := hfail attempts outcomes [] rfl
    obtain ⟨w, hrun⟩ := exists_of_fst_eq he
    have hlast : finishAll lib m (attempts ++ [outcomes]) = w.state := by
      rw [finishAll, List.foldl_append]
      exact congrArg (fun p => p.2.state) hrun
    obtain ⟨hedges, hlifecycle, hkept, hopen'⟩ := finish_error_state hrun
    rw [hlast]
    exact ⟨hkept.trans hnodes, hopen', fun _ => ⟨hedges, hlifecycle⟩⟩

theorem settled_replayNodes (lib : RecordLibrary) (nodes : List Node) : Settled (replayNodes lib nodes) :=
  (settled_forEach (fun node => Lifecycle.settled_ingest lib (recordFromNode node)) _).bind fun _ => Lifecycle.settled_finish

/-- Two successful finishes of the same nodes leave the same edges and the same lifecycle. -/
theorem FinishedFrom.eq {m m' n n' : Model} (h : FinishedFrom lib m n) (h' : FinishedFrom lib m' n')
    (hnodes : m.nodes = m'.nodes) : n.edges = n'.edges ∧ n.lifecycle = n'.lifecycle := by
  obtain ⟨outcomes, v, hreplay, hlifecycle⟩ := h.lifecycle
  obtain ⟨outcomes', v', hreplay', hlifecycle'⟩ := h'.lifecycle
  rw [hnodes] at hreplay
  obtain ⟨-, hsame⟩ := (settled_replayNodes lib m'.nodes).eq hreplay hreplay'
  exact ⟨by rw [h.edges, h'.edges, hnodes], by rw [hlifecycle, hlifecycle', hsame]⟩

/-- Failed finishes leave no edges and no lifecycle, and the finish that succeeds after them
leaves those of a finish that succeeds at once. -/
theorem finish_retried (lib : RecordLibrary) (calls : List (EventRecord × List Bool)) (attempts : List (List Bool))
    (hfail : AllFail lib (feed lib calls) attempts) :
    (∀ before outcomes later, attempts = before ++ outcomes :: later →
        (finishAll lib (feed lib calls) (before ++ [outcomes])).edges = [] ∧
        (finishAll lib (feed lib calls) (before ++ [outcomes])).lifecycle = none ∧
        (finishAll lib (feed lib calls) (before ++ [outcomes])).nodes = (feed lib calls).nodes) ∧
      ∀ last w, finish lib ⟨finishAll lib (feed lib calls) attempts, last⟩ = (.ok (), w) →
        w.state.nodes = (feed lib calls).nodes ∧
        ∀ outcomes w', finish lib ⟨feed lib calls, outcomes⟩ = (.ok (), w') →
          w.state.edges = w'.state.edges ∧ w.state.lifecycle = w'.state.lifecycle := by
  have hopen := feed_open lib calls
  constructor
  · intro before outcomes later hattempts
    have hsome : AllFail lib (feed lib calls) (before ++ [outcomes]) := by
      intro before' outcomes' later' heq
      apply hfail before' outcomes' (later' ++ later)
      rw [hattempts, ← List.singleton_append, ← List.append_assoc, heq, List.append_assoc, List.cons_append]
    obtain ⟨hnodes, -, hnothing⟩ := finishAll_of_allFail hopen hsome
    obtain ⟨hedges, hlifecycle⟩ := hnothing (by simp)
    exact ⟨hedges, hlifecycle, hnodes⟩
  · intro last w hlast
    obtain ⟨hnodes, hstill, -⟩ := finishAll_of_allFail hopen hfail
    have hfrom := (finish_ok lib hlast).resolve_left fun hdone => by
      rw [hstill] at hdone
      cases hdone.1
    refine ⟨hfrom.nodes.trans hnodes, fun outcomes w' hsingle => ?_⟩
    have hfrom' := (finish_ok lib hsingle).resolve_left fun hdone => by
      rw [hopen] at hdone
      cases hdone.1
    exact hfrom.eq hfrom' hnodes

/-- An attempt without memory for the exits, and one without memory for the lifecycle. -/
def failedAttempts : List (List Bool) := [[false], [true, false]]

theorem failedAttempts_fail : AllFail .standard (feed .standard [(firstRecord, [])]) failedAttempts := by
  rintro (_ | ⟨first, _ | ⟨second, before⟩⟩) outcomes later heq
  · obtain ⟨rfl, -⟩ := List.cons.inj heq
    exact ⟨.errno .enomem, rfl⟩
  · obtain ⟨rfl, hrest⟩ := List.cons.inj heq
    obtain ⟨rfl, -⟩ := List.cons.inj hrest
    exact ⟨.errno .enomem, rfl⟩
  · simp [failedAttempts] at heq

theorem finish_retried_firstRecord :
    (finishAll .standard (feed .standard [(firstRecord, [])]) ([[false]] ++ [[true, false]])).edges = [] ∧
      (finishAll .standard (feed .standard [(firstRecord, [])]) ([[false]] ++ [[true, false]])).lifecycle = none ∧
      (finishAll .standard (feed .standard [(firstRecord, [])]) ([[false]] ++ [[true, false]])).nodes =
        (feed .standard [(firstRecord, [])]).nodes :=
  (finish_retried .standard [(firstRecord, [])] failedAttempts failedAttempts_fail).1 [[false]] [true, false] [] rfl

end ToolEvent.RunModel
