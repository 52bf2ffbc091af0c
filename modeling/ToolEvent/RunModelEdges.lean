import ToolEvent.RunModel

/-!
# The edges of a run model stay inside the model

The searches for the other end of an edge find nodes of the model, and the arrays
of a model never grow past twice the limit of the source.
-/

namespace ToolEvent.RunModel

open Fallible World LatestMatch Relation

/-- A search that takes over some of its candidates ends at one of them. -/
theorem foldl_mem_of_eq_some {α ι : Type*} {step : Option ι → α → Option ι} (index : α → ι)
    (hstep : ∀ best x, step best x = best ∨ step best x = some (index x)) {xs : List α} {i : ι} :
    ∀ {start : Option ι}, xs.foldl step start = some i →
      start = some i ∨ ∃ x ∈ xs, index x = i := by
  induction xs with
  | nil => exact fun h => .inl h
  | cons x xs ih =>
    intro start h
    rcases ih h with hx | ⟨y, hy, hi⟩
    · rcases hstep start x with hkeep | htake
      · exact .inl (hkeep ▸ hx)
      · exact .inr ⟨x, List.mem_cons_self, Option.some.inj (htake ▸ hx)⟩
    · exact .inr ⟨y, List.mem_cons_of_mem _ hy, hi⟩

theorem lt_length_of_mem_zipIdx {α : Type*} {xs : List α} {x : α × ℕ} (h : x ∈ xs.zipIdx) :
    x.2 < xs.length := by
  have := List.snd_lt_of_mem_zipIdx h
  omega

theorem findActiveEnter_lt {nodes : List Node} {matchedExit : MatchedExit} {index : ℕ}
    {current : Node} {requireName : Bool} {found : ℕ}
    (h : findActiveEnter nodes matchedExit index current requireName = some found) :
    found < nodes.length := by
  obtain ⟨pre, x, post, hsplit, rfl⟩ := exists_split_of_latestIndex h
  have hlen := congrArg List.length hsplit.eq
  simp only [List.length_take, List.length_zip, List.length_append, List.length_cons] at hlen
  omega

theorem findEnclosingCall_lt {nodes : List Node} {matchedExit : MatchedExit} {resource : Node}
    {found : ℕ} (h : findEnclosingCall nodes matchedExit resource = some found) :
    found < nodes.length := by
  have hmem := foldl_mem_of_eq_some Prod.snd (fun best x => by
    split
    · exact .inr rfl
    · exact .inl rfl) h
  rcases hmem with hnone | ⟨x, hx, rfl⟩
  · cases hnone
  · have := lt_length_of_mem_zipIdx hx
    rw [List.length_zip] at this
    omega

variable {lib : RecordLibrary}

theorem findLifetimeEnd_lt {nodes : List Node} {birth : Node} {found : ℕ}
    (h : findLifetimeEnd lib nodes birth = some found) : found < nodes.length := by
  unfold findLifetimeEnd at h
  split at h
  · have hmem := foldl_mem_of_eq_some Prod.snd (fun best x => by
      split
      · exact .inr rfl
      · exact .inl rfl) h
    rcases hmem with hnone | ⟨x, hx, rfl⟩
    · cases hnone
    · exact lt_length_of_mem_zipIdx hx
  · cases h

/-- The changes that ingesting into a model, or finishing a model of `count` nodes, is
made of. -/
inductive Change (count : ℕ) : Model → Model → Prop
  | runId (m : Model) (runId : Text) : Change count m { m with runId := some runId }
  | nodeCapacity (m : Model) (capacity : ℕ)
      (room : m.nodes.length ≤ m.nodeCapacity → m.nodes.length ≤ capacity)
      (bound : capacity ≤ max m.nodeCapacity (2 * modelLimit)) :
      Change count m { m with nodeCapacity := capacity }
  | addNode (m : Model) (node : Node) (room : m.nodes.length < m.nodeCapacity) :
      Change count m { m with nodes := m.nodes ++ [node] }
  | addEdge (m : Model) (capacity : ℕ) (edge : Edge)
      (room : m.edges.length ≤ m.edgeCapacity → m.edges.length < capacity)
      (bound : capacity ≤ max m.edgeCapacity (2 * modelLimit))
      (source : edge.source < count) (target : edge.target < count) :
      Change count m { m with edgeCapacity := capacity, edges := m.edges ++ [edge] }
  | dropEdges (m : Model) : Change count m { m with edges := [] }
  | restart (m : Model) : Change count m { m with edges := [], lifecycle := none }
  | lifecycle (m : Model) (lifecycle : Lifecycle.Model) :
      Change count m { m with lifecycle := some lifecycle }
  | finished (m : Model) : Change count m { m with finished := true }

/-- The arrays of a model are within their capacities, the capacities within twice the
limit, and the edges between nodes of the model. -/
structure Sound (model : Model) : Prop where
  nodes_le : model.nodes.length ≤ model.nodeCapacity
  edges_le : model.edges.length ≤ model.edgeCapacity
  nodeCapacity_le : model.nodeCapacity ≤ 2 * modelLimit
  edgeCapacity_le : model.edgeCapacity ≤ 2 * modelLimit
  edges_mem : ∀ edge ∈ model.edges, edge.source < model.nodes.length ∧ edge.target < model.nodes.length

theorem Change.sound {count : ℕ} {m m' : Model} (hchange : Change count m m')
    (h : Sound m ∧ count ≤ m.nodes.length) : Sound m' ∧ count ≤ m'.nodes.length := by
  obtain ⟨⟨hn, he, hnc, hec, hmem⟩, hcount⟩ := h
  cases hchange with
  | runId | lifecycle | finished => exact ⟨⟨hn, he, hnc, hec, hmem⟩, hcount⟩
  | nodeCapacity capacity room bound =>
    exact ⟨⟨room hn, he, by simp only; omega, hec, hmem⟩, hcount⟩
  | addNode node room =>
    refine ⟨⟨?_, he, hnc, hec, fun edge hedge => ?_⟩, ?_⟩
    · rw [List.length_append]
      exact room
    · have := hmem edge hedge
      simp only [List.length_append, List.length_singleton]
      omega
    · simp only [List.length_append]
      omega
  | addEdge capacity edge room bound source target =>
    refine ⟨⟨hn, ?_, hnc, by simp only; omega, fun other hother => ?_⟩, hcount⟩
    · rw [List.length_append]
      exact room he
    · rcases List.mem_append.mp hother with hother | hother
      · exact hmem other hother
      · obtain rfl := List.mem_singleton.mp hother
        exact ⟨lt_of_lt_of_le source hcount, lt_of_lt_of_le target hcount⟩
  | dropEdges | restart => exact ⟨⟨hn, Nat.zero_le _, hnc, hec, by simp⟩, hcount⟩

theorem evolves_reserve (count capacity : ℕ) (r : Model → Model → Prop) :
    Evolves r (reserve count capacity) := by
  refine Evolves.ite (evolves_pure _) (Evolves.ite (evolves_fail _) ?_)
  exact evolves_allocate.bind fun _ => Evolves.ite (evolves_pure _) (evolves_fail _)

theorem evolves_copyText (r : Model → Model → Prop) : Evolves r copyText :=
  evolves_allocate.bind fun _ => Evolves.ite (evolves_pure _) (evolves_fail _)

/-- After room is made there is room, within the bound on capacities. -/
theorem reserve_ok {count capacity grown : ℕ} {w w' : World Model}
    (h : reserve count capacity w = (.ok grown, w')) :
    w'.state = w.state ∧ (count ≤ capacity → count < grown) ∧
      grown ≤ max capacity (2 * modelLimit) := by
  have hstate : w'.state = w.state := by
    rw [← state_eq_of_evolves (evolves_reserve count capacity) w, h]
  refine ⟨hstate, ?_⟩
  unfold reserve at h
  split at h
  · obtain ⟨rfl, -⟩ := by simpa using h
    omega
  · split at h
    · simp at h
    · obtain ⟨grown', _, -, h⟩ := run_bind_eq_ok.mp h
      cases grown' with
      | false => simp at h
      | true =>
        obtain ⟨hgrown, -⟩ : (if capacity = 0 then initialCapacity else capacity * 2) = grown ∧ _ := by
          simpa using h
        simp only [initialCapacity, modelLimit] at *
        split at hgrown <;> omega

variable {count : ℕ}

theorem reaches_ingestRunId (count : ℕ) (runId : Text) (w : World Model) :
    ReflTransGen (Change count) w.state (ingestRunId runId w).2.state ∧
      (ingestRunId runId w).2.state.nodes = w.state.nodes ∧
      (ingestRunId runId w).2.state.nodeCapacity = w.state.nodeCapacity := by
  unfold ingestRunId
  rw [run_readState_bind]
  cases w.state.runId with
  | some own => dsimp only; split <;> exact ⟨.refl, rfl, rfl⟩
  | none =>
    have hcopy := state_eq_of_evolves evolves_copyText w
    dsimp only
    rw [run_bind]
    rcases h : copyText w with ⟨⟨e⟩ | ⟨⟨⟩⟩, w₁⟩ <;> rw [h] at hcopy <;> dsimp only at hcopy ⊢
    · rw [hcopy]
      exact ⟨.refl, rfl, rfl⟩
    · rw [run_updateState]
      dsimp only
      rw [hcopy]
      exact ⟨.single (Change.runId _ _), rfl, rfl⟩

theorem reaches_ingest (lib : RecordLibrary) (count : ℕ) {w : World Model} (hsound : Sound w.state) (record : EventRecord) :
    ReflTransGen (Change count) w.state (ingest lib record w).2.state := by
  unfold ingest
  rw [run_readState_bind]
  split
  · obtain ⟨hrun, hnodes, hcapacity⟩ :=
      reaches_ingestRunId count (record.runId.getD .empty) w
    refine reaches_bind hrun fun _ w₁ h₁ => ?_
    rw [h₁] at hnodes hcapacity
    split
    · exact .refl
    · refine reaches_bind (evolves_reserve _ _ _ w₁) fun capacity w₂ h₂ => ?_
      obtain ⟨hw₂, hroom, hbound⟩ := reserve_ok h₂
      have hlt : w₂.state.nodes.length < capacity := by
        rw [hw₂, hnodes]
        exact hroom hsound.nodes_le
      have hle : capacity ≤ max w₂.state.nodeCapacity (2 * modelLimit) := by
        rw [hw₂, hcapacity]
        exact hbound
      refine reaches_bind (reaches_updateState (Change.nodeCapacity _ capacity
        (fun _ => hlt.le) hle)) fun _ w₃ h₃ => ?_
      refine reaches_bind (evolves_forEach (fun _ => evolves_copyText _) _ w₃) fun _ w₄ h₄ => ?_
      refine reaches_updateState (Change.addNode _ _ ?_)
      have hw₄ := state_eq_of_evolves (fun r => evolves_forEach (fun _ : ℕ => evolves_copyText r)
        (List.range recordTextCount)) w₃
      obtain ⟨-, rfl⟩ := Prod.mk.inj h₃
      rw [h₄] at hw₄
      rw [hw₄]
      exact hlt
  · exact .refl

theorem evolves_addEdge {kind : EdgeKind} {source target : ℕ} (hsource : source < count)
    (htarget : target < count) : Evolves (Change count) (addEdge kind source target) := by
  intro w
  refine reaches_bind .refl fun model w₁ h₁ => ?_
  obtain ⟨hmodel, rfl⟩ := Prod.mk.inj h₁
  obtain rfl := Except.ok.inj hmodel
  refine reaches_bind (evolves_reserve _ _ _ w) fun capacity w₂ h₂ => ?_
  obtain ⟨hstate, hroom, hbound⟩ := reserve_ok h₂
  exact reaches_updateState (Change.addEdge _ capacity ⟨kind, source, target⟩
    (hstate ▸ hroom) (hstate ▸ hbound) hsource htarget)

theorem evolves_addFoundEdge {found : Option ℕ} {edge : ℕ → Edge}
    (h : ∀ index, found = some index → (edge index).source < count ∧ (edge index).target < count) :
    Evolves (Change count) (addFoundEdge found edge) := by
  cases found with
  | none => exact evolves_pure _
  | some index => exact evolves_addEdge (h index rfl).1 (h index rfl).2

theorem evolves_buildCallEdges (nodes : List Node) (indices : List ℕ) (matchedExit : MatchedExit) :
    Evolves (Change nodes.length) (buildCallEdges nodes indices matchedExit) := by
  induction indices generalizing matchedExit with
  | nil => exact evolves_pure _
  | cons index indices ih =>
    refine Evolves.bind ?_ fun _ => ih _
    unfold buildCallEdge
    cases hnode : nodes[index]? with
    | none => exact evolves_pure _
    | some node =>
      have hindex := (List.getElem?_eq_some_iff.mp hnode).1
      refine Evolves.ite (evolves_pure _) (Evolves.ite ?_ ?_)
      · exact (evolves_addFoundEdge fun parent h => ⟨findActiveEnter_lt h, hindex⟩).bind fun _ =>
          evolves_pure _
      · exact (evolves_addFoundEdge fun enter h => ⟨findActiveEnter_lt h, hindex⟩).bind fun _ =>
          evolves_pure _

theorem evolves_buildResourceEdges (nodes : List Node) (matchedExit : MatchedExit) :
    Evolves (Change nodes.length) (buildResourceEdges lib nodes matchedExit) := by
  refine evolves_forEach (fun index => ?_) _
  unfold buildResourceEdge
  cases hnode : nodes[index]? with
  | none => exact evolves_pure _
  | some node =>
    have hindex := (List.getElem?_eq_some_iff.mp hnode).1
    refine Evolves.ite (evolves_pure _) (Evolves.bind ?_ fun _ => Evolves.bind ?_ fun _ =>
      Evolves.ite (evolves_forEach (fun child => ?_) _) (evolves_pure _))
    · exact evolves_addFoundEdge fun call h => ⟨findEnclosingCall_lt h, hindex⟩
    · exact evolves_addFoundEdge fun death h => ⟨hindex, findLifetimeEnd_lt h⟩
    · refine evolves_addFoundEdge fun found h => ⟨hindex, ?_⟩
      cases hother : nodes[child]? with
      | none => simp [hother] at h
      | some other =>
        obtain ⟨-, rfl⟩ : other.pid = node.childPid ∧ child = found := by simpa [hother] using h
        exact (List.getElem?_eq_some_iff.mp hother).1

theorem evolves_finishBody (nodes : List Node) :
    Evolves (Change nodes.length) (finishBody lib nodes) := by
  refine Evolves.bind ?_ fun _ => (evolves_buildCallEdges _ _ _).bind fun _ =>
    (evolves_buildResourceEdges _ _).bind fun _ => ?_
  · exact Evolves.ite (evolves_pure _) (evolves_allocate.bind fun _ =>
      Evolves.ite (evolves_pure _) (evolves_fail _))
  · refine evolves_allocate.bind fun _ => Evolves.ite ?_ (evolves_fail _)
    exact (evolves_call _ _).bind fun _ => fun w => reaches_updateState (Change.lifecycle _ _)

theorem reaches_finish (lib : RecordLibrary) (w : World Model) :
    ReflTransGen (Change w.state.nodes.length) w.state (finish lib w).2.state := by
  unfold finish
  rw [run_readState_bind]
  split
  · exact .refl
  · refine reaches_bind (reaches_updateState (Change.restart _)) fun _ w₁ _ => ?_
    refine reaches_bind ((evolves_finishBody _).onError (fun s => .single (Change.dropEdges s)) w₁)
      fun _ w₂ _ => ?_
    exact reaches_updateState (Change.finished _)

/-- Every model that calls of the interface lead to is sound. -/
theorem Reachable.sound {model : Model} (h : Reachable lib model) : Sound model := by
  induction h with
  | create => exact ⟨by simp, by simp, Nat.zero_le _, Nat.zero_le _, by simp⟩
  | @ingest m _ record outcomes ih =>
    have hreach := reaches_ingest lib m.nodes.length (w := ⟨m, outcomes⟩) ih record
    exact (invariant_of_reaches (fun s => Sound s ∧ m.nodes.length ≤ s.nodes.length)
      (fun _ _ => Change.sound) hreach ⟨ih, le_rfl⟩).1
  | @finish m _ outcomes ih =>
    have hreach := reaches_finish lib ⟨m, outcomes⟩
    exact (invariant_of_reaches (fun s => Sound s ∧ m.nodes.length ≤ s.nodes.length)
      (fun _ _ => Change.sound) hreach ⟨ih, le_rfl⟩).1

end ToolEvent.RunModel
