import ToolEvent.RunModelEdges

/-!
# What finishing a model computes

A model that was finished successfully has the nodes it had, the edges that are a
function of these nodes, and the lifecycle that their replay leaves.
-/

namespace ToolEvent.RunModel

open Fallible World

/-- There is room for so many edges, and no allocation fails. -/
structure Roomy (count : ℕ) (w : World Model) : Prop where
  granted : w.outcomes = []
  within : w.state.edges.length ≤ w.state.edgeCapacity
  limit : w.state.edges.length + count ≤ modelLimit

/-- A change that leaves a model open, or finished. -/
def KeepsFinished (model model' : Model) : Prop := model'.finished = model.finished

/-- When the routine succeeds it returns the value and has appended the edges, and it
succeeds when there is room for them. -/
structure Appends {α : Type} (x : Routine Model α) (a : α) (edges : List Edge) : Prop where
  kept : Evolves KeepsFinished x
  ok : ∀ w w' b, x w = (.ok b, w') → b = a ∧ ∃ capacity,
    w'.state = { w.state with edges := w.state.edges ++ edges, edgeCapacity := capacity }
  total : ∀ w, Roomy edges.length w → ∃ b w', x w = (.ok b, w') ∧ Roomy 0 w'

theorem appends_pure {α : Type} (a : α) : Appends (pure a) a [] where
  kept := evolves_pure a
  ok := by
    intro w w' b h
    obtain ⟨hok, rfl⟩ := Prod.mk.inj h
    exact ⟨(Except.ok.inj hok).symm, w.state.edgeCapacity, by simp⟩
  total := fun w hw => ⟨a, w, rfl, hw⟩

theorem Appends.bind {α β : Type} {x : Routine Model α} {f : α → Routine Model β} {a : α} {b : β}
    {first rest : List Edge} (hx : Appends x a first) (hf : Appends (f a) b rest) :
    Appends (x >>= f) b (first ++ rest) where
  kept := by
    intro w
    refine reaches_bind (hx.kept w) fun a' w₁ hrun => ?_
    obtain ⟨rfl, -⟩ := hx.ok _ _ _ hrun
    exact hf.kept w₁
  ok := by
    intro w w' c h
    obtain ⟨a', w₁, hrun, hrest⟩ := run_bind_eq_ok.mp h
    obtain ⟨rfl, capacity₁, hstate₁⟩ := hx.ok _ _ _ hrun
    obtain ⟨rfl, capacity₂, hstate₂⟩ := hf.ok _ _ _ hrest
    refine ⟨rfl, capacity₂, ?_⟩
    rw [hstate₂, hstate₁, List.append_assoc]
  total := by
    rintro w ⟨hgranted, hwithin, hlimit⟩
    rw [List.length_append] at hlimit
    obtain ⟨a', w₁, hrun, hroom⟩ := hx.total w ⟨hgranted, hwithin, by omega⟩
    obtain ⟨rfl, capacity, hstate⟩ := hx.ok _ _ _ hrun
    have hlength : w₁.state.edges.length = w.state.edges.length + first.length := by simp [hstate]
    obtain ⟨c, w₂, hrest, hroom'⟩ := hf.total w₁ ⟨hroom.granted, hroom.within, by omega⟩
    exact ⟨c, w₂, run_bind_eq_ok.mpr ⟨a', w₁, hrun, hrest⟩, hroom'⟩

theorem Appends.andPure {α : Type} {x : Routine Model Unit} {edges : List Edge}
    (hx : Appends x () edges) (a : α) : Appends (x >>= fun _ => pure a) a edges := by
  have h : Appends (x >>= fun _ => pure a) a (edges ++ []) := hx.bind (appends_pure a)
  rwa [List.append_nil] at h

/-- Room is made for one more element when all allocations succeed and the limit is not reached. -/
theorem reserve_total {count capacity : ℕ} (hcount : count < modelLimit) (hle : count ≤ capacity)
    (m : Model) : ∃ grown, reserve count capacity ⟨m, []⟩ = (.ok grown, ⟨m, []⟩) := by
  unfold reserve
  split
  · exact ⟨capacity, rfl⟩
  · rw [if_neg (by omega), run_bind_of_ok (run_allocate_nil m)]
    exact ⟨_, rfl⟩

theorem appends_addEdge (edge : Edge) : Appends (addEdge edge.kind edge.source edge.target) () [edge] where
  kept := evolves_readState.bind fun _ => (evolves_reserve _ _ _).bind fun _ => fun _ =>
    reaches_updateState rfl
  ok := by
    intro w w' b h
    unfold addEdge at h
    rw [run_readState_bind] at h
    obtain ⟨capacity, w₁, hreserve, hadd⟩ := run_bind_eq_ok.mp h
    obtain ⟨hstate, -⟩ := reserve_ok hreserve
    rw [run_updateState] at hadd
    obtain ⟨-, rfl⟩ := Prod.mk.inj hadd
    refine ⟨rfl, capacity, ?_⟩
    dsimp only
    rw [hstate]
  total := by
    rintro ⟨m, outcomes⟩ ⟨hgranted, hwithin, hlimit⟩
    dsimp only at hgranted hwithin hlimit
    subst hgranted
    rw [List.length_singleton] at hlimit
    obtain ⟨grown, hreserve⟩ := reserve_total (show m.edges.length < modelLimit by omega) hwithin m
    have hroom := (reserve_ok hreserve).2.1 hwithin
    unfold addEdge
    rw [run_readState_bind, run_bind_of_ok hreserve, run_updateState]
    refine ⟨(), _, rfl, rfl, ?_, ?_⟩ <;> simp only [List.length_append, List.length_singleton] <;> omega

theorem appends_addFoundEdge (found : Option ℕ) (edge : ℕ → Edge) :
    Appends (addFoundEdge found edge) () (found.toList.map edge) := by
  cases found with
  | none => exact appends_pure ()
  | some index => exact appends_addEdge (edge index)

theorem appends_forEach {ι : Type} {f : ι → Routine Model Unit} {edges : ι → List Edge}
    (hf : ∀ i, Appends (f i) () (edges i)) (is : List ι) :
    Appends (forEach f is) () (is.flatMap edges) := by
  induction is with
  | nil => exact appends_pure ()
  | cons i is ih => exact (hf i).bind ih

/-- The edge one iteration of `build_call_edges` adds, and the exits matched after it. -/
def callEdge (nodes : List Node) (matchedExit : MatchedExit) (index : ℕ) :
    MatchedExit × List Edge :=
  match nodes[index]? with
  | none => (matchedExit, [])
  | some node =>
    if node.recordKind ≠ .call then (matchedExit, [])
    else if node.callKind = .enter then
      (matchedExit, (findActiveEnter nodes matchedExit index node false).toList.map
        (fun parent => ⟨.callParent, parent, index⟩))
    else
      let found := findActiveEnter nodes matchedExit index node true
      (found.elim matchedExit (fun enter => matchedExit.set enter (some index)),
        found.toList.map (fun enter => ⟨.callReturn, enter, index⟩))

def callEdges (nodes : List Node) : List ℕ → MatchedExit → MatchedExit × List Edge
  | [], matchedExit => (matchedExit, [])
  | index :: indices, matchedExit =>
    let first := callEdge nodes matchedExit index
    let rest := callEdges nodes indices first.1
    (rest.1, first.2 ++ rest.2)

theorem appends_buildCallEdge (nodes : List Node) (matchedExit : MatchedExit) (index : ℕ) :
    Appends (buildCallEdge nodes matchedExit index) (callEdge nodes matchedExit index).1
      (callEdge nodes matchedExit index).2 := by
  unfold buildCallEdge callEdge
  cases nodes[index]? with
  | none => exact appends_pure _
  | some node =>
    dsimp only
    by_cases hcall : node.recordKind = .call
    · rw [if_neg (not_not.mpr hcall), if_neg (not_not.mpr hcall)]
      by_cases henter : node.callKind = .enter
      · rw [if_pos henter, if_pos henter]
        exact (appends_addFoundEdge _ _).andPure matchedExit
      · rw [if_neg henter, if_neg henter]
        exact (appends_addFoundEdge _ _).andPure _
    · rw [if_pos hcall, if_pos hcall]
      exact appends_pure _

theorem appends_buildCallEdges (nodes : List Node) (indices : List ℕ) (matchedExit : MatchedExit) :
    Appends (buildCallEdges nodes indices matchedExit) (callEdges nodes indices matchedExit).1
      (callEdges nodes indices matchedExit).2 := by
  induction indices generalizing matchedExit with
  | nil => exact appends_pure _
  | cons index indices ih => exact (appends_buildCallEdge nodes matchedExit index).bind (ih _)

variable (lib : RecordLibrary)

/-- The edges one iteration of the outer loop of `build_resource_edges` adds. -/
def resourceEdges (nodes : List Node) (matchedExit : MatchedExit) (index : ℕ) : List Edge :=
  match nodes[index]? with
  | none => []
  | some node =>
    if node.domain ≠ .resource then []
    else
      (findEnclosingCall nodes matchedExit node).toList.map (fun call => ⟨.callCausedEvent, call, index⟩) ++
      ((findLifetimeEnd lib nodes node).toList.map (fun death => ⟨.resourceLifetime, index, death⟩) ++
        if node.recordKind = .fork ∨ node.recordKind = .spawn then
          (List.range nodes.length).flatMap (fun child =>
            (if nodes[child]?.any (fun other => other.pid = node.childPid) then some child
              else none).toList.map (fun child => ⟨.processChildEvent, index, child⟩))
        else [])

theorem appends_buildResourceEdge (nodes : List Node) (matchedExit : MatchedExit) (index : ℕ) :
    Appends (buildResourceEdge lib nodes matchedExit index) ()
      (resourceEdges lib nodes matchedExit index) := by
  unfold buildResourceEdge resourceEdges
  cases nodes[index]? with
  | none => exact appends_pure _
  | some node =>
    dsimp only
    split
    · exact appends_pure _
    · apply (appends_addFoundEdge _ _).bind
      apply (appends_addFoundEdge _ _).bind
      split
      · exact appends_forEach (fun child => appends_addFoundEdge _ _) _
      · exact appends_pure _

def edgesOf (nodes : List Node) : List Edge :=
  let calls := callEdges nodes (List.range nodes.length) (nodes.map (fun _ => none))
  calls.2 ++ (List.range nodes.length).flatMap (resourceEdges lib nodes calls.1)

theorem callEdge_kind {nodes : List Node} {matchedExit : MatchedExit} {index : ℕ} :
    ∀ edge ∈ (callEdge nodes matchedExit index).2, edge.kind ≠ .resourceLifetime := by
  intro edge hedge
  unfold callEdge at hedge
  cases hnode : nodes[index]? with
  | none => simp [hnode] at hedge
  | some node =>
    simp only [hnode] at hedge
    split at hedge
    · cases hedge
    · split at hedge <;> obtain ⟨found, -, rfl⟩ := List.mem_map.mp hedge <;> simp

theorem callEdges_kind {nodes : List Node} {indices : List ℕ} {matchedExit : MatchedExit} :
    ∀ edge ∈ (callEdges nodes indices matchedExit).2, edge.kind ≠ .resourceLifetime := by
  induction indices generalizing matchedExit with
  | nil => simp [callEdges]
  | cons index indices ih =>
    intro edge hedge
    rcases List.mem_append.mp hedge with hedge | hedge
    · exact callEdge_kind edge hedge
    · exact ih edge hedge

variable {lib} in
theorem resourceLifetime_mem_resourceEdges {nodes : List Node} {matchedExit : MatchedExit}
    {index birth death : ℕ} :
    ⟨.resourceLifetime, birth, death⟩ ∈ resourceEdges lib nodes matchedExit index ↔
      index = birth ∧ ∃ node, nodes[birth]? = some node ∧ node.domain = .resource ∧
        findLifetimeEnd lib nodes node = some death := by
  unfold resourceEdges
  cases hnode : nodes[index]? with
  | none =>
    simp only [List.not_mem_nil, false_iff]
    rintro ⟨rfl, node, hsome, -⟩
    rw [hnode] at hsome
    cases hsome
  | some node =>
    have hchildren : (⟨.resourceLifetime, birth, death⟩ : Edge) ∉
        if node.recordKind = .fork ∨ node.recordKind = .spawn then
          (List.range nodes.length).flatMap (fun child =>
            (if nodes[child]?.any (fun other => other.pid = node.childPid) then some child
              else none).toList.map (fun child => ⟨.processChildEvent, index, child⟩))
        else [] := by
      split <;> simp
    have hcalls : (⟨.resourceLifetime, birth, death⟩ : Edge) ∉
        (findEnclosingCall nodes matchedExit node).toList.map
          (fun call => ⟨.callCausedEvent, call, index⟩) := by simp
    by_cases hdomain : node.domain = .resource
    · simp only [hdomain, ne_eq, not_true_eq_false, if_false, List.mem_append, hchildren, hcalls,
        or_false, false_or, List.mem_map, Option.mem_toList, Edge.mk.injEq, true_and]
      constructor
      · rintro ⟨found, hfound, rfl, rfl⟩
        exact ⟨rfl, node, hnode, hdomain, hfound⟩
      · rintro ⟨rfl, node', hnode', -, hfound⟩
        rw [hnode] at hnode'
        obtain rfl := Option.some.inj hnode'
        exact ⟨death, hfound, rfl, rfl⟩
    · simp only [ne_eq, hdomain, not_false_eq_true, if_true, List.not_mem_nil, false_iff]
      rintro ⟨rfl, node', hnode', hdomain', -⟩
      rw [hnode] at hnode'
      obtain rfl := Option.some.inj hnode'
      exact hdomain hdomain'

/-- The edges of lifetimes are those of the search for lifetime ends. -/
theorem resourceLifetime_mem_edgesOf {nodes : List Node} {birth death : ℕ} :
    ⟨.resourceLifetime, birth, death⟩ ∈ edgesOf lib nodes ↔
      ∃ node, nodes[birth]? = some node ∧ node.domain = .resource ∧
        findLifetimeEnd lib nodes node = some death := by
  unfold edgesOf
  rw [List.mem_append, List.mem_flatMap]
  constructor
  · rintro (hcall | ⟨index, -, hedge⟩)
    · exact absurd rfl (callEdges_kind _ hcall)
    · exact (resourceLifetime_mem_resourceEdges.mp hedge).2
  · rintro ⟨node, hnode, hrest⟩
    exact .inr ⟨birth, List.mem_range.mpr (List.getElem?_eq_some_iff.mp hnode).1,
      resourceLifetime_mem_resourceEdges.mpr ⟨rfl, node, hnode, hrest⟩⟩

theorem allocateMatchedExit_ok {nodes : List Node} {w w' : World Model} {matchedExit : MatchedExit}
    (h : allocateMatchedExit nodes w = (.ok matchedExit, w')) :
    matchedExit = nodes.map (fun _ => none) ∧ w'.state = w.state := by
  obtain ⟨m, outcomes⟩ := w
  unfold allocateMatchedExit at h
  split at h
  · next hnil =>
    obtain ⟨hok, rfl⟩ := Prod.mk.inj h
    subst hnil
    exact ⟨(Except.ok.inj hok).symm, rfl⟩
  · rw [run_bind_of_ok (run_allocate m outcomes)] at h
    split at h
    · obtain ⟨hok, rfl⟩ := Prod.mk.inj h
      exact ⟨(Except.ok.inj hok).symm, rfl⟩
    · cases h

theorem buildLifecycle_ok {nodes : List Node} {w w' : World Model}
    (h : buildLifecycle lib nodes w = (.ok (), w')) :
    ∃ outcomes v, replayNodes lib nodes ⟨{}, outcomes⟩ = (.ok (), v) ∧
      w'.state = { w.state with lifecycle := some v.state } := by
  obtain ⟨m, outcomes⟩ := w
  unfold buildLifecycle at h
  rw [run_bind_of_ok (run_allocate m outcomes)] at h
  split at h
  · obtain ⟨lifecycle, w₁, hcall, hset⟩ := run_bind_eq_ok.mp h
    obtain ⟨v, hreplay, rfl, rfl⟩ := call_eq_ok.mp hcall
    rw [run_updateState] at hset
    obtain ⟨-, rfl⟩ := Prod.mk.inj hset
    exact ⟨outcomes.tail, v, hreplay, rfl⟩
  · cases h

/-- What `p101_tool_model_finish` leaves when it succeeds on a model that was not finished. -/
structure FinishedFrom (model model' : Model) : Prop where
  nodes : model'.nodes = model.nodes
  runId : model'.runId = model.runId
  edges : model'.edges = edgesOf lib model.nodes
  lifecycle : ∃ outcomes v, replayNodes lib model.nodes ⟨{}, outcomes⟩ = (.ok (), v) ∧
    model'.lifecycle = some v.state
  finished : model'.finished = true

theorem finish_ok {w w' : World Model} (h : finish lib w = (.ok (), w')) :
    (w.state.finished = true ∧ w' = w) ∨ FinishedFrom lib w.state w'.state := by
  unfold finish at h
  rw [run_readState_bind] at h
  split at h
  · next hfinished =>
    obtain ⟨-, rfl⟩ := Prod.mk.inj h
    exact .inl ⟨hfinished, rfl⟩
  · right
    obtain ⟨⟨⟩, w₁, hrestart, h₁⟩ := run_bind_eq_ok.mp h
    obtain ⟨⟨⟩, w₂, hbody, hset⟩ := run_bind_eq_ok.mp h₁
    rw [onError_eq_ok] at hbody
    obtain ⟨matchedExit, w₃, hmatched, h₃⟩ := run_bind_eq_ok.mp hbody
    obtain ⟨matchedExit', w₄, hcalls, h₄⟩ := run_bind_eq_ok.mp h₃
    obtain ⟨⟨⟩, w₅, hresources, hlifecycle⟩ := run_bind_eq_ok.mp h₄
    obtain ⟨rfl, hstate₃⟩ := allocateMatchedExit_ok hmatched
    obtain ⟨rfl, capacity₄, hstate₄⟩ := (appends_buildCallEdges _ _ _).ok _ _ _ hcalls
    obtain ⟨-, capacity₅, hstate₅⟩ := (appends_forEach (appends_buildResourceEdge lib _ _) _).ok _ _ _ hresources
    obtain ⟨outcomes, v, hreplay, hstate₂⟩ := buildLifecycle_ok lib hlifecycle
    rw [run_updateState] at hrestart hset
    obtain ⟨-, rfl⟩ := Prod.mk.inj hrestart
    obtain ⟨-, rfl⟩ := Prod.mk.inj hset
    rw [hstate₄, hstate₃] at hstate₅
    rw [hstate₅] at hstate₂
    constructor <;> simp only [hstate₂]
    · simp [edgesOf]
    · exact ⟨outcomes, v, hreplay, rfl⟩

theorem edgesOf_eq_append (nodes : List Node) :
    edgesOf lib nodes =
      (callEdges nodes (List.range nodes.length) (nodes.map (fun _ => none))).2 ++
        (List.range nodes.length).flatMap (resourceEdges lib nodes
          (callEdges nodes (List.range nodes.length) (nodes.map (fun _ => none))).1) := rfl

/-- With succeeding allocations and room for the edges, what is left of finishing a model is
the replay of its nodes. -/
theorem finishBody_total {m : Model} (hempty : m.edges = [])
    (hedges : (edgesOf lib m.nodes).length ≤ modelLimit) :
    ∃ m', finishBody lib m.nodes ⟨m, []⟩ = buildLifecycle lib m.nodes ⟨m', []⟩ := by
  rw [edgesOf_eq_append, List.length_append] at hedges
  have hmatched : allocateMatchedExit m.nodes ⟨m, []⟩ = (.ok (m.nodes.map (fun _ => none)), ⟨m, []⟩) := by
    unfold allocateMatchedExit
    split
    · next hnil => rw [hnil]; rfl
    · rw [run_bind_of_ok (run_allocate_nil m)]
      rfl
  have hcallRoom : Roomy (callEdges m.nodes (List.range m.nodes.length)
      (m.nodes.map (fun _ => none))).2.length (⟨m, []⟩ : World Model) :=
    ⟨rfl, by simp [hempty], by simp only [hempty, List.length_nil]; omega⟩
  have hcallEdges := appends_buildCallEdges m.nodes (List.range m.nodes.length) (m.nodes.map (fun _ => none))
  obtain ⟨matchedExit, ⟨m₁, outcomes₁⟩, hcalls, hroom₁⟩ := hcallEdges.total _ hcallRoom
  obtain ⟨rfl, capacity₁, hstate₁⟩ := hcallEdges.ok _ _ _ hcalls
  dsimp only at hstate₁
  have hlength₁ : m₁.edges.length = (callEdges m.nodes (List.range m.nodes.length)
      (m.nodes.map (fun _ => none))).2.length := by simp [hstate₁, hempty]
  have hresourceEdges := appends_forEach (appends_buildResourceEdge lib m.nodes
    (callEdges m.nodes (List.range m.nodes.length) (m.nodes.map (fun _ => none))).1)
    (List.range m.nodes.length)
  obtain ⟨⟨⟩, ⟨m₂, outcomes₂⟩, hresources, hroom₂⟩ := hresourceEdges.total ⟨m₁, outcomes₁⟩
    ⟨hroom₁.granted, hroom₁.within, by simp only; omega⟩
  obtain rfl : outcomes₂ = [] := hroom₂.granted
  refine ⟨m₂, ?_⟩
  unfold finishBody
  rw [run_bind_of_ok hmatched, run_bind_of_ok hcalls]
  exact run_bind_of_ok hresources

theorem finish_iff_replayed {m : Model} (hfinished : m.finished = false)
    (hedges : (edgesOf lib m.nodes).length ≤ modelLimit) (lifecycle : Lifecycle.Model) :
    (∃ w, finish lib ⟨m, []⟩ = (.ok (), w) ∧ w.state.lifecycle = some lifecycle) ↔
      ∃ v, replayNodes lib m.nodes ⟨{}, []⟩ = (.ok (), v) ∧ v.state = lifecycle := by
  have hstart : finish lib ⟨m, []⟩ =
      (onError (fun m => { m with edges := [] }) (finishBody lib m.nodes) >>= fun _ =>
        updateState (fun m => { m with finished := true }))
          ⟨{ m with edges := [], lifecycle := none }, []⟩ := by
    unfold finish
    rw [run_readState_bind, if_neg (by simp [hfinished])]
    rfl
  obtain ⟨m', hbody⟩ := finishBody_total lib (m := { m with edges := [], lifecycle := none }) rfl hedges
  dsimp only at hbody
  constructor
  · rintro ⟨w, hfinish, hlifecycle⟩
    rw [hstart] at hfinish
    obtain ⟨⟨⟩, w₁, hrun, hset⟩ := run_bind_eq_ok.mp hfinish
    rw [onError_eq_ok, hbody] at hrun
    rw [run_updateState] at hset
    obtain ⟨-, rfl⟩ := Prod.mk.inj hset
    unfold buildLifecycle at hrun
    rw [run_bind_of_ok (run_allocate_nil m'), if_pos rfl] at hrun
    obtain ⟨built, w₂, hcall, hbuilt⟩ := run_bind_eq_ok.mp hrun
    obtain ⟨v, hreplay, rfl, rfl⟩ := call_eq_ok.mp hcall
    rw [run_updateState] at hbuilt
    obtain ⟨-, rfl⟩ := Prod.mk.inj hbuilt
    exact ⟨v, hreplay, Option.some.inj hlifecycle⟩
  · rintro ⟨v, hreplay, rfl⟩
    have hbuild : buildLifecycle lib m.nodes ⟨m', []⟩ =
        (.ok (), ⟨{ m' with lifecycle := some v.state }, v.outcomes⟩) := by
      unfold buildLifecycle
      rw [run_bind_of_ok (run_allocate_nil m'), if_pos rfl,
        run_bind_of_ok (call_eq_ok.mpr ⟨v, hreplay, rfl, rfl⟩)]
      rfl
    rw [hstart, run_bind_of_ok (onError_eq_ok.mpr (hbody.trans hbuild))]
    exact ⟨_, rfl, rfl⟩

theorem finished_eq_of_evolves {α : Type} {x : Routine Model α} (hx : Evolves KeepsFinished x)
    (w : World Model) : (x w).2.state.finished = w.state.finished :=
  invariant_of_reaches (fun m => m.finished = w.state.finished)
    (fun _ _ hkept hm => hkept.trans hm) (hx w) rfl

theorem keepsFinished_ingest (record : EventRecord) : Evolves KeepsFinished (ingest lib record) := by
  refine evolves_readState.bind fun _ => Evolves.ite ?_ (evolves_fail _)
  refine Evolves.bind ?_ fun _ => Evolves.ite (evolves_pure _) ?_
  · refine evolves_readState.bind fun model => ?_
    cases model.runId with
    | none => exact (evolves_copyText _).bind fun _ => fun _ => reaches_updateState rfl
    | some own => exact Evolves.ite (evolves_pure _) (evolves_fail _)
  · refine (evolves_reserve _ _ _).bind fun _ => Evolves.bind (fun _ => reaches_updateState rfl) fun _ => ?_
    exact (evolves_forEach (fun _ => evolves_copyText _) _).bind fun _ => fun _ => reaches_updateState rfl

theorem keepsFinished_finishBody (nodes : List Node) : Evolves KeepsFinished (finishBody lib nodes) := by
  refine Evolves.bind ?_ fun matchedExit => ?_
  · exact Evolves.ite (evolves_pure _)
      (evolves_allocate.bind fun _ => Evolves.ite (evolves_pure _) (evolves_fail _))
  · refine (appends_buildCallEdges _ _ _).kept.bind fun _ => ?_
    refine (appends_forEach (appends_buildResourceEdge lib _ _) _).kept.bind fun _ => ?_
    refine evolves_allocate.bind fun _ => Evolves.ite ?_ (evolves_fail _)
    exact (evolves_call _ _).bind fun _ => fun _ => reaches_updateState rfl

/-- A model that could not be finished is still open. -/
theorem finish_error {w w' : World Model} {e : Raised} (h : finish lib w = (.error e, w')) :
    w'.state.finished = false := by
  unfold finish at h
  rw [run_readState_bind] at h
  split at h
  · cases h
  · next hopen =>
    rw [run_bind_of_ok (run_updateState _ w)] at h
    have hbody := (keepsFinished_finishBody lib w.state.nodes).onError
      (show ∀ m : Model, Relation.ReflTransGen KeepsFinished m { m with edges := [] } from
        fun _ => .single rfl)
    have hkept := finished_eq_of_evolves hbody
      ⟨{ w.state with edges := [], lifecycle := none }, w.outcomes⟩
    rw [eq_error_of_bind_updateState h] at hkept
    rw [hkept]
    exact Bool.eq_false_of_not_eq_true hopen

/-- Every finished model is one that finishing leaves. -/
theorem Finished.finishedFrom {model : Model} (h : Finished lib model) : FinishedFrom lib model model := by
  obtain ⟨hreachable, hfinished⟩ := h
  induction hreachable with
  | create => cases hfinished
  | @ingest m _ record outcomes ih =>
    have hm : m.finished = true :=
      (finished_eq_of_evolves (keepsFinished_ingest lib record) ⟨m, outcomes⟩).symm.trans hfinished
    have hrefused : ¬ isAdmitted lib m record = true := by
      unfold isAdmitted
      cases record.runId <;> simp [hm]
    have hsame : ingest lib record ⟨m, outcomes⟩ = (.error (.errno .einval), ⟨m, outcomes⟩) := by
      unfold ingest
      rw [run_readState_bind, if_neg hrefused]
      rfl
    rw [hsame]
    exact ih hm
  | @finish m _ outcomes ih =>
    rcases hrun : finish lib ⟨m, outcomes⟩ with ⟨⟨e⟩ | ⟨⟨⟩⟩, w'⟩
    · rw [hrun, finish_error lib hrun] at hfinished
      cases hfinished
    · rcases finish_ok lib hrun with ⟨hm, rfl⟩ | hfrom
      · exact ih hm
      · exact ⟨rfl, rfl, hfrom.nodes ▸ hfrom.edges, hfrom.nodes ▸ hfrom.lifecycle, hfrom.finished⟩

end ToolEvent.RunModel
