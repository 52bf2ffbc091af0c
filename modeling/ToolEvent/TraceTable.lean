import ToolEvent.TraceDemands
import ToolEvent.TraceRuns

/-!
# Room in the table of the contexts

The trace pass has one slot for each node of the model. A call asks for one context and a fork for
two, so that the slots suffice only as long as the contexts asked for are no more than the nodes.
-/

namespace ToolEvent.ModelAnalysis

open Fallible World RunModel

/-- The distinct contexts among some, in the order of their first occurrence. -/
theorem map_key_askAll {rows : List ContextReplay} (hnodup : (rows.map ContextReplay.key).Nodup) (keys : List (ℤ × ℕ)) :
    ((askAll keys rows).map ContextReplay.key).Nodup ∧
      ∀ key, key ∈ (askAll keys rows).map ContextReplay.key ↔ key ∈ rows.map ContextReplay.key ∨ key ∈ keys := by
  induction keys generalizing rows with
  | nil => exact ⟨hnodup, fun key => by simp [askAll]⟩
  | cons first keys ih =>
    have hfirst : ((ask first rows).map ContextReplay.key).Nodup := by
      rw [map_key_ask]
      split
      · exact hnodup
      · next hnew => exact List.nodup_append.mpr ⟨hnodup, List.nodup_singleton _, by simpa using hnew⟩
    have hmem : ∀ key, key ∈ (ask first rows).map ContextReplay.key ↔
        key ∈ rows.map ContextReplay.key ∨ key = first := by
      intro key
      rw [map_key_ask]
      split
      · next hold =>
        refine (or_iff_left_of_imp ?_).symm
        rintro rfl
        exact hold
      · rw [List.mem_append, List.mem_singleton]
    refine ⟨(ih hfirst).1, fun key => ?_⟩
    change key ∈ (askAll keys (ask first rows)).map _ ↔ _
    rw [(ih hfirst).2, hmem, List.mem_cons, or_assoc]

def askedContexts (nodes : List Node) : List (ℤ × ℕ) := (nodes.flatMap askedKeys).dedup

theorem map_key_traceRows (nodes : List Node) :
    ((traceRows nodes).map ContextReplay.key).Nodup ∧
      ∀ key, key ∈ (traceRows nodes).map ContextReplay.key ↔ key ∈ askedContexts nodes := by
  induction nodes using List.reverseRecOn with
  | nil => exact ⟨List.nodup_nil, fun key => by simp [traceRows, askedContexts]⟩
  | append_singleton nodes node ih =>
    have hasked := map_key_askAll ih.1 (askedKeys node)
    rw [traceRows_concat, map_key_traceEffect]
    refine ⟨hasked.1, fun key => ?_⟩
    rw [hasked.2, ih.2]
    simp only [askedContexts, List.mem_dedup, List.flatMap_append, List.mem_append, List.flatMap_singleton]

theorem length_traceRows (nodes : List Node) : (traceRows nodes).length = (askedContexts nodes).length := by
  obtain ⟨hnodup, hmem⟩ := map_key_traceRows nodes
  rw [← List.length_map ContextReplay.key]
  exact ((List.perm_ext_iff_of_nodup hnodup (List.nodup_dedup _)).mpr hmem).length_eq

/-- The calls of `trace_context` with which an iteration of the pass begins. -/
def askContexts (keys : List (ℤ × ℕ)) : Routine TraceState Unit :=
  forEach (fun key => do
    let _ ← traceContext key.1 key.2
    pure ()) keys

variable {nodes : List Node} {rows : List ContextReplay} {w : World TraceState}

/-- All contexts are found or added exactly when there are slots for all of them. -/
theorem askContexts_ok_iff (h : Represents nodes rows w.state) (hroom : rows.length ≤ w.state.1.orderedCount)
    (keys : List (ℤ × ℕ)) :
    (askContexts keys w).1 = .ok () ↔ (askAll keys rows).length ≤ w.state.1.orderedCount := by
  induction keys generalizing rows w with
  | nil => exact iff_of_true rfl hroom
  | cons key keys ih =>
    have hask := ends_traceContext h key
    have hrefuses := refuses_iff_of_represents h key
    have hlength := length_ask key rows
    have hrest := length_le_askAll keys (ask key rows)
    change _ ↔ (askAll keys (ask key rows)).length ≤ _
    rcases hrun : traceContext key.1 key.2 w with ⟨⟨e⟩ | ⟨index⟩, w'⟩
    · obtain ⟨hnew, hfull⟩ := hrefuses.mp (hask.error hrun).1
      rw [if_neg hnew] at hlength
      have hfailed : (askContexts (key :: keys) w).1 = .error e := by
        rw [askContexts, forEach, run_bind_of_error (run_bind_of_error hrun)]
      rw [hfailed]
      exact iff_of_false (fun hok => by cases hok) (by omega)
    · obtain ⟨hnot, -, -, hrep, contexts, hstate⟩ := hask.ok hrun
      have hcount : w'.state.1.orderedCount = w.state.1.orderedCount := by rw [hstate]
      have hfirst : (do
          let _ ← traceContext key.1 key.2
          pure () : Routine TraceState Unit) w = (.ok (), w') := run_bind_of_ok hrun
      have hgoes : askContexts (key :: keys) w = askContexts keys w' := run_bind_of_ok hfirst
      have hfits : (ask key rows).length ≤ w'.state.1.orderedCount := by
        rw [hrefuses, not_and_or, not_not, Nat.not_le] at hnot
        split at hlength
        · omega
        · next hnew => exact hcount ▸ hlength ▸ hnot.resolve_left hnew
      rw [hgoes, ih hrep hfits, hcount]

theorem eq_eoverflow_of_traceContext {pid : ℤ} {context : ℕ} {e : Raised} {w' : World TraceState}
    (h : traceContext pid context w = (.error e, w')) : e = .errno .eoverflow := by
  rw [traceContext, run_readState_bind] at h
  dsimp only at h
  cases hfind : w.state.1.traceContexts.findIdx? (fun c => c.pid = pid ∧ c.context = context) with
  | some index =>
    rw [hfind] at h
    cases h
  | none =>
    rw [hfind] at h
    dsimp only at h
    split at h
    · exact (Except.error.inj (Prod.mk.inj h).1).symm
    · cases h

/-- An iteration begins with these calls: when they fail, `analyze_trace` fails. -/
theorem traceNode_of_refused (h : Represents nodes rows w.state) {node : Node} (index : ℕ)
    (hrefused : (askContexts (askedKeys node) w).1 ≠ .ok ()) :
    (traceNode (node, index) w).1 = .error (.errno .eoverflow) := by
  unfold traceNode
  dsimp only
  cases hfork : isForkRecord node with
  | true =>
    have hasks : askedKeys node = [contextKey node, childKey node] := if_pos hfork
    rw [hasks] at hrefused
    rw [if_pos (of_decide_eq_true hfork), traceFork]
    rcases hparent : traceContext node.pid node.contextId w with ⟨⟨e⟩ | ⟨parent⟩, w₁⟩
    · rw [run_bind_of_error hparent, eq_eoverflow_of_traceContext hparent]
    · rw [run_bind_of_ok hparent]
      rcases hchild : traceContext node.childPid node.contextId w₁ with ⟨⟨e⟩ | ⟨child⟩, w₂⟩
      · rw [run_bind_of_error hchild, eq_eoverflow_of_traceContext hchild]
      · refine absurd ?_ hrefused
        simp only [askContexts, forEach, run_bind, contextKey, childKey, hparent, hchild, run_pure]
  | false =>
    rw [if_neg (of_decide_eq_false hfork)]
    cases hcall : isCallRecord node with
    | false =>
      have hasks : askedKeys node = [] := by
        rw [askedKeys, if_neg (ne_true_of_eq_false hfork), if_neg (ne_true_of_eq_false hcall)]
      rw [hasks] at hrefused
      exact absurd rfl hrefused
    | true =>
      have hasks : askedKeys node = [contextKey node] := by
        rw [askedKeys, if_neg (ne_true_of_eq_false hfork), if_pos hcall]
      have hask := ends_traceContext h (contextKey node)
      have hcounted : Represents nodes rows ({ w.state.1 with callRecords := w.state.1.callRecords + 1 }, w.state.2) :=
        h.congr rfl rfl rfl
      have hnext := ends_traceContext (w := ⟨_, w.outcomes⟩) hcounted (contextKey node)
      rw [if_neg (not_not_intro (of_decide_eq_true hcall)), run_bind_of_ok (run_updateState _ w)]
      rcases hrun : traceContext node.pid node.contextId _ with ⟨⟨e⟩ | ⟨context⟩, w₁⟩
      · rw [run_bind_of_error hrun, eq_eoverflow_of_traceContext hrun]
      · refine absurd ?_ hrefused
        rw [hasks]
        rcases hfirst : traceContext node.pid node.contextId w with ⟨⟨e⟩ | ⟨context'⟩, w₂⟩
        · exact absurd (hask.error hfirst).1 (hnext.ok hrun).1
        · simp only [askContexts, forEach, run_bind, contextKey, hfirst, run_pure]

/-- The loop of the pass has come to a node. -/
structure ComesTo (analysis : Analysis) (before : List Node) (node : Node) (w : World TraceState) : Prop where
  split : before ++ [node] <+: analysis.orderedNodes
  reached : ∃ outcomes, forEach traceNode before.zipIdx ⟨(analysis, []), outcomes⟩ = (.ok (), w)

/-- No context is refused, whatever node the pass comes to. -/
def ContextsGranted (analysis : Analysis) : Prop :=
  ∀ before node w, ComesTo analysis before node w → (askContexts (askedKeys node) w).1 = .ok ()

def ownContexts (nodes : List Node) : List (ℤ × ℕ) :=
  ((nodes.filter fun node => isForkRecord node || isCallRecord node).map contextKey).dedup

/-- The contexts of the children of forks that have no call and no fork of their own. -/
def childContexts (nodes : List Node) : List (ℤ × ℕ) :=
  ((nodes.filter isForkRecord).map childKey).dedup.filter fun key => key ∉ ownContexts nodes

/-- There can be storage for the lines and the findings of the first nodes. -/
def RoomFor (analysis : Analysis) (before : List Node) : Prop :=
  ∃ outcomes, ((traceDemands before).foldlM Supply.meet ⟨analysis.room, outcomes⟩).isSome = true

/-- As far as texts and storage go, the children without calls and forks are no more than the slots that
the contexts of calls and forks leave over. -/
def ContextsFit (analysis : Analysis) : Prop :=
  ∀ before node, before ++ [node] <+: analysis.orderedNodes → NodesFit before → RoomFor analysis before →
    (childContexts (before ++ [node])).length ≤ analysis.orderedCount - (ownContexts (before ++ [node])).length

theorem mem_askedKeys {key : ℤ × ℕ} {node : Node} :
    key ∈ askedKeys node ↔
      (isForkRecord node || isCallRecord node) = true ∧ key = contextKey node ∨
        isForkRecord node = true ∧ key = childKey node := by
  unfold askedKeys
  cases isForkRecord node <;> cases isCallRecord node <;> simp

theorem length_askedContexts (nodes : List Node) :
    (askedContexts nodes).length = (ownContexts nodes).length + (childContexts nodes).length := by
  rw [← List.length_append]
  have hnodup : (ownContexts nodes ++ childContexts nodes).Nodup := by
    refine List.nodup_append.mpr ⟨List.nodup_dedup _, (List.nodup_dedup _).filter _, ?_⟩
    rintro key hown _ hchild rfl
    exact of_decide_eq_true (List.mem_filter.mp hchild).2 hown
  have hmem : ∀ key, key ∈ askedContexts nodes ↔ key ∈ ownContexts nodes ++ childContexts nodes := by
    intro key
    have hown : key ∈ ownContexts nodes ↔
        ∃ node ∈ nodes, (isForkRecord node || isCallRecord node) = true ∧ key = contextKey node := by
      simp only [ownContexts, List.mem_dedup, List.mem_map, List.mem_filter, and_assoc, eq_comm]
    have hchild : key ∈ childContexts nodes ↔
        (∃ node ∈ nodes, isForkRecord node = true ∧ key = childKey node) ∧ key ∉ ownContexts nodes := by
      simp only [childContexts, List.mem_dedup, List.mem_map, List.mem_filter, and_assoc, eq_comm (a := key), decide_eq_true_eq]
    have hasked : key ∈ askedContexts nodes ↔ key ∈ ownContexts nodes ∨
        ∃ node ∈ nodes, isForkRecord node = true ∧ key = childKey node := by
      simp only [askedContexts, List.mem_dedup, List.mem_flatMap, mem_askedKeys, hown, and_or_left, exists_or]
    rw [hasked, List.mem_append, hchild]
    by_cases hkey : key ∈ ownContexts nodes <;> simp [hkey]
  exact ((List.perm_ext_iff_of_nodup (List.nodup_dedup _) hnodup).mpr hmem).length_eq

variable {analysis : Analysis}

theorem length_ownContexts_le {before : List Node} (h : before <+: analysis.orderedNodes) :
    (ownContexts before).length ≤ analysis.orderedCount := by
  have hown : (ownContexts before).length ≤ before.length :=
    (List.dedup_sublist _).length_le.trans ((List.length_map _).le.trans (List.length_filter_le _ _))
  refine hown.trans (h.length_le.trans ?_)
  rw [Analysis.orderedNodes, List.length_map, List.length_take]
  exact Nat.min_le_left _ _

theorem represents_start (hempty : analysis.traceContexts = []) :
    Represents analysis.orderedNodes [] ((analysis, []) : TraceState) := ⟨rfl, by rw [hempty]; exact .nil⟩

theorem ComesTo.represents {before : List Node} {node : Node} (hempty : analysis.traceContexts = [])
    (h : ComesTo analysis before node w) :
    Represents analysis.orderedNodes (traceRows before) w.state ∧ w.state.1.orderedCount = analysis.orderedCount := by
  obtain ⟨outcomes, hrun⟩ := h.reached
  have hfollows := follows_traceNodes (w := ⟨(analysis, []), outcomes⟩) (represents_start hempty)
    ((List.prefix_append before [node]).trans h.split)
  obtain ⟨-, -, hadvance⟩ := Ends.ok hfollows hrun
  exact ⟨hadvance.represents, hadvance.orderedCount⟩

/-- The pass comes to a node exactly when the texts of the nodes before it fit, and there can be storage and
slots for them. -/
theorem exists_comesTo_iff (hempty : analysis.traceContexts = []) {before : List Node} {node : Node}
    (hsplit : before ++ [node] <+: analysis.orderedNodes) :
    (∃ w, ComesTo analysis before node w) ↔
      (askedContexts before).length ≤ analysis.orderedCount ∧ NodesFit before ∧ RoomFor analysis before := by
  have hprefix := (List.prefix_append before [node]).trans hsplit
  have hdemands := fun outcomes => demands_traceNodes (w := ⟨(analysis, []), outcomes⟩) (represents_start hempty) hprefix
  rw [← length_traceRows]
  constructor
  · rintro ⟨w, -, outcomes, hrun⟩
    obtain ⟨⟨hroom, hfits⟩, hstored⟩ := (hdemands outcomes).ok_iff.mp ⟨_, _, hrun⟩
    exact ⟨hroom, hfits, outcomes, hstored⟩
  · rintro ⟨hroom, hfits, outcomes, hstored⟩
    obtain ⟨⟨⟩, w, hrun⟩ := (hdemands outcomes).ok_iff.mpr ⟨⟨hroom, hfits⟩, hstored⟩
    exact ⟨w, hsplit, outcomes, hrun⟩

theorem RoomFor.earlier {before : List Node} {last : Node} (h : RoomFor analysis (before ++ [last])) :
    RoomFor analysis before := by
  obtain ⟨outcomes, hstored⟩ := h
  refine ⟨outcomes, ?_⟩
  rw [traceDemands, demandsFrom_concat, List.foldlM_append] at hstored
  cases hfirst : (traceDemands before).foldlM Supply.meet (⟨analysis.room, outcomes⟩ : Supply) with
  | some supply => rfl
  | none =>
    rw [traceDemands] at hfirst
    rw [hfirst] at hstored
    cases hstored

/-- A node that the pass comes to gets its contexts exactly when there are slots for all asked for so far. -/
theorem ComesTo.granted_iff (hempty : analysis.traceContexts = []) {before : List Node} {node : Node}
    (h : ComesTo analysis before node w) :
    (askContexts (askedKeys node) w).1 = .ok () ↔ (askedContexts (before ++ [node])).length ≤ analysis.orderedCount := by
  obtain ⟨hrep, hcount⟩ := h.represents hempty
  obtain ⟨hroom, -⟩ := (exists_comesTo_iff hempty h.split).mp ⟨w, h⟩
  have hrows : (askAll (askedKeys node) (traceRows before)).length = (askedContexts (before ++ [node])).length := by
    rw [← length_traceRows, traceRows_concat, length_traceEffect]
  rw [askContexts_ok_iff hrep (by rw [length_traceRows, hcount]; exact hroom), hrows, hcount]

/-- The table never refuses a context exactly when the children without calls and forks fit the slots that
are left over. -/
theorem contextsGranted_iff (hempty : analysis.traceContexts = []) :
    ContextsGranted analysis ↔ ContextsFit analysis := by
  have hslots : ∀ {before node}, before ++ [node] <+: analysis.orderedNodes →
      ((askedContexts (before ++ [node])).length ≤ analysis.orderedCount ↔
        (childContexts (before ++ [node])).length ≤ analysis.orderedCount - (ownContexts (before ++ [node])).length) := by
    intro before node hsplit
    have hown := length_ownContexts_le hsplit
    rw [length_askedContexts]
    omega
  constructor
  · intro hgranted before
    induction before using List.reverseRecOn with
    | nil =>
      intro node hsplit hfits hstored
      obtain ⟨w, hcomes⟩ := (exists_comesTo_iff hempty hsplit).mpr ⟨Nat.zero_le _, hfits, hstored⟩
      exact (hslots hsplit).mp ((hcomes.granted_iff hempty).mp (hgranted _ _ _ hcomes))
    | append_singleton before last ih =>
      intro node hsplit hfits hstored
      have hprefix := (List.prefix_append _ [node]).trans hsplit
      have hroom := (hslots hprefix).mpr (ih last hprefix ((nodesFit_concat _ _).mp hfits).1 hstored.earlier)
      obtain ⟨w, hcomes⟩ := (exists_comesTo_iff hempty hsplit).mpr ⟨hroom, hfits, hstored⟩
      exact (hslots hsplit).mp ((hcomes.granted_iff hempty).mp (hgranted _ _ _ hcomes))
  · intro hfit before node w hcomes
    obtain ⟨-, hfits, hstored⟩ := (exists_comesTo_iff hempty hcomes.split).mp ⟨w, hcomes⟩
    exact (hcomes.granted_iff hempty).mpr ((hslots hcomes.split).mpr (hfit before node hcomes.split hfits hstored))

/-- In a run on a finished model that comes to the trace pass, no context is refused exactly when the
children without calls and forks fit the slots that are left over. A refusal ends the pass. -/
theorem contextsGranted_iff_contextsFit {lib : RecordLibrary} {model : Model} {outcomes : List Bool}
    {w : World Analysis} (hmodel : Finished lib model) (hreaches : ReachesTrace model outcomes w) :
    (ContextsGranted w.state ↔ ContextsFit w.state) ∧
      ∀ before node v index, ComesTo w.state before node v → (askContexts (askedKeys node) v).1 ≠ .ok () →
        (traceNode (node, index) v).1 = .error (.errno .eoverflow) := by
  have hempty := (hreaches.untraced hmodel).2.1
  exact ⟨contextsGranted_iff hempty, fun _ _ _ index hcomes hrefused =>
    traceNode_of_refused (hcomes.represents hempty).1 index hrefused⟩

/-- The run of the passes before the trace pass on the model of some records. -/
def reachedTrace (records : List EventRecord) : Except Raised Unit × World Analysis :=
  passesBeforeTrace ⟨{ model := modelOf .standard records }, []⟩

theorem reachesTrace_of_ok (records : List EventRecord) (h : (reachedTrace records).1 = .ok ()) :
    ReachesTrace (modelOf .standard records) [] (reachedTrace records).2 := Prod.ext h rfl

theorem contextsGranted_iff_contextsFit_leftTwice :
    (ContextsGranted (reachedTrace leftTwice).2.state ↔ ContextsFit (reachedTrace leftTwice).2.state) ∧
      ∀ before node v index, ComesTo (reachedTrace leftTwice).2.state before node v →
        (askContexts (askedKeys node) v).1 ≠ .ok () → (traceNode (node, index) v).1 = .error (.errno .eoverflow) :=
  contextsGranted_iff_contextsFit (finished_modelOf _ (by decide)) (reachesTrace_of_ok leftTwice (by decide +kernel))

def singleFork : EventRecord :=
  { recordKind := .fork, runId := some (.ofString "run"), pid := 1, childPid := 2, contextId := 1, sequence := 1 }

/-- A fork alone asks for two contexts, and there is one slot. -/
theorem contextsGranted_singleFork :
    Finished .standard (modelOf .standard [singleFork]) ∧
      ReachesTrace (modelOf .standard [singleFork]) [] (reachedTrace [singleFork]).2 ∧
      ¬ ContextsGranted (reachedTrace [singleFork]).2.state ∧
      (observedRun [singleFork]).1 = .error (.errno .eoverflow) := by
  have hfinished : Finished .standard (modelOf .standard [singleFork]) := finished_modelOf _ (by decide)
  have hreaches := reachesTrace_of_ok [singleFork] (by decide +kernel)
  refine ⟨hfinished, hreaches, fun hgranted => ?_, by decide +kernel⟩
  have hfit := (contextsGranted_iff (hreaches.untraced hfinished).2.1).mp hgranted
  have hnodes : (reachedTrace [singleFork]).2.state.orderedNodes = [.ofRecord singleFork] := by decide +kernel
  have hslots : (reachedTrace [singleFork]).2.state.orderedCount = 1 := by decide +kernel
  have hleft := hfit [] (.ofRecord singleFork) (hnodes ▸ List.prefix_rfl) nodesFit_nil ⟨[], rfl⟩
  rw [hslots] at hleft
  exact absurd hleft (by decide)

end ToolEvent.ModelAnalysis
