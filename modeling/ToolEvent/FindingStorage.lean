import ToolEvent.Analysis
import ToolEvent.Library.LatestMatch
import ToolEvent.Library.Lockstep
import Mathlib.Data.Nat.Size

/-!
# The storage of the findings

`reserve_findings`, `add_finding` and `p101_tool_analysis_finding_at` of `src/analysis.c`, with the
array of the findings as a block of memory. An element of the array holds the texts of its finding
in buffers of its own, and its value refers to these buffers. A growth of the array copies the
elements to a fresh block, as `realloc` may, and ends the life of the old one.
-/

namespace ToolEvent.FindingStorage

open Fallible World RunModel ModelAnalysis

inductive TextField
  | nodeId | evidenceFrom | evidenceTo | evidenceDetail
  deriving DecidableEq

/-- A pointer to a buffer: the block, the element and the field. -/
structure Reference where
  block : ℕ
  element : ℕ
  field : TextField
  deriving DecidableEq

/-- `struct p101_tool_analysis_finding`. The texts that are not stored in the element belong to the
program or to the model, and stand for themselves. -/
structure FindingValue where
  diagnosticId : Text
  policy : Policy
  message : Text
  nodeId : Reference
  fileName : Text
  functionName : Text
  lineNumber : ℤ
  evidenceFrom : Reference
  evidenceTo : Reference
  evidenceDetail : Reference
  deriving DecidableEq

def FindingValue.reference (value : FindingValue) : TextField → Reference
  | .nodeId => value.nodeId
  | .evidenceFrom => value.evidenceFrom
  | .evidenceTo => value.evidenceTo
  | .evidenceDetail => value.evidenceDetail

structure OwnedFinding where
  value : FindingValue
  nodeId : Text
  evidenceFrom : Text
  evidenceTo : Text
  evidenceDetail : Text
  deriving DecidableEq

def OwnedFinding.text (finding : OwnedFinding) : TextField → Text
  | .nodeId => finding.nodeId
  | .evidenceFrom => finding.evidenceFrom
  | .evidenceTo => finding.evidenceTo
  | .evidenceDetail => finding.evidenceDetail

/-- The fields of the analysis object about its findings, and the blocks of memory: a block whose
life has ended holds nothing. -/
structure Storage where
  blocks : List (Option (List OwnedFinding)) := []
  findings : Option ℕ := none
  findingCount : ℕ := 0
  findingCapacity : ℕ := 0
  policyCounts : Policy → ℕ := fun _ => 0

def Storage.elements (storage : Storage) : List OwnedFinding :=
  ((storage.findings.bind fun block => storage.blocks[block]?).join).getD []

def Storage.move (capacity : ℕ) (storage : Storage) : Storage :=
  { storage with
    blocks := (storage.findings.elim storage.blocks fun block => storage.blocks.set block none) ++
      [some storage.elements]
    findings := some storage.blocks.length
    findingCapacity := capacity }

def reserveFindings : Routine Storage Unit := do
  let storage ← readState
  let capacity := if storage.findingCapacity = 0 then initialFindingCapacity else storage.findingCapacity * 2
  if storage.findingCount < storage.findingCapacity then pure ()
  else if sizeMax / findingSize < capacity then fail (.errno .eoverflow)
  else
    let grown ← allocate
    if grown then updateState (Storage.move capacity) else fail (.errno .enomem)

/-- What `add_finding` is called with. -/
structure FindingCall where
  identifier : Text
  policy : Policy
  message : Text
  node : Option Node
  source : Option Text
  target : Option Text
  detail : Option Text

def FindingCall.text (call : FindingCall) : TextField → Text
  | .nodeId => formatNodeId call.node
  | .evidenceFrom => call.source.getD .empty
  | .evidenceTo => call.target.getD .empty
  | .evidenceDetail => call.detail.getD .empty

def FindingCall.element (call : FindingCall) (block index : ℕ) : OwnedFinding where
  value :=
    { diagnosticId := call.identifier
      policy := call.policy
      message := call.message
      nodeId := ⟨block, index, .nodeId⟩
      fileName := (call.node.map Node.fileName).getD (.ofString "?")
      functionName := (call.node.map Node.functionName).getD (.ofString "?")
      lineNumber := (call.node.map Node.lineNumber).getD 0
      evidenceFrom := ⟨block, index, .evidenceFrom⟩
      evidenceTo := ⟨block, index, .evidenceTo⟩
      evidenceDetail := ⟨block, index, .evidenceDetail⟩ }
  nodeId := call.text .nodeId
  evidenceFrom := call.text .evidenceFrom
  evidenceTo := call.text .evidenceTo
  evidenceDetail := call.text .evidenceDetail

/-- The storage after a finding is added to the array in the given block. -/
def Storage.withFinding (call : FindingCall) (block : ℕ) (storage : Storage) : Storage :=
  { storage with
    blocks := storage.blocks.modify block (Option.map (· ++ [call.element block storage.findingCount]))
    findingCount := storage.findingCount + 1
    policyCounts := Function.update storage.policyCounts call.policy (storage.policyCounts call.policy + 1) }

def addFinding (call : FindingCall) : Routine Storage Unit := do
  reserveFindings
  if fitsEvidence call.source ∧ fitsEvidence call.target ∧ fitsEvidence call.detail then
    let storage ← readState
    match storage.findings with
    | none => fail .outside
    | some block => updateState (Storage.withFinding call block)
  else fail (.errno .eoverflow)

/-- `p101_tool_analysis_finding_at`. -/
def Storage.findingAt (storage : Storage) (index : ℕ) : Option FindingValue :=
  if index < storage.findingCount then storage.elements[index]?.map OwnedFinding.value else none

/-- The text that a reference leads to, as long as its block lives. -/
def Storage.read (storage : Storage) (reference : Reference) : Option Text :=
  (storage.blocks[reference.block]?.join.bind fun elements => elements[reference.element]?).map
    fun finding => finding.text reference.field

def Storage.ReadsBack (storage : Storage) (index : ℕ) (call : FindingCall) : Prop :=
  ∃ value, storage.findingAt index = some value ∧
    ∀ field, storage.read (value.reference field) = some (call.text field)

/-- The block that the element at an index is first stored in: one for the initial capacity, and one
more for each time the capacity doubles. -/
def homeBlock (index : ℕ) : ℕ := Nat.size (index / initialFindingCapacity)

theorem homeBlock_le_iff {index block : ℕ} : homeBlock index ≤ block ↔ index < initialFindingCapacity * 2 ^ block := by
  rw [homeBlock, Nat.size_le, Nat.div_lt_iff_lt_mul (by decide), Nat.mul_comm]

theorem homeBlock_mono {i j : ℕ} (h : i ≤ j) : homeBlock i ≤ homeBlock j :=
  Nat.size_le_size (Nat.div_le_div_right h)

theorem homeBlock_eq_zero_iff {index : ℕ} : homeBlock index = 0 ↔ index < initialFindingCapacity := by
  rw [← Nat.le_zero, homeBlock_le_iff, Nat.pow_zero, Nat.mul_one]

/-- The elements of the array, each with the references of the block it was first stored in. -/
def storedElements (calls : List FindingCall) : List OwnedFinding :=
  calls.mapIdx fun index call => call.element (homeBlock index) index

/-- The array lives in the given block, and the blocks before it are dead. -/
def storedIn (block : ℕ) (calls : List FindingCall) : Storage where
  blocks := List.replicate block none ++ [some (storedElements calls)]
  findings := some block
  findingCount := calls.length
  findingCapacity := initialFindingCapacity * 2 ^ block
  policyCounts := fun policy => calls.countP (·.policy = policy)

def storageOf : List FindingCall → Storage
  | [] => {}
  | call :: calls => storedIn (homeBlock calls.length) (call :: calls)

theorem storageOf_concat (calls : List FindingCall) (call : FindingCall) :
    storageOf (calls ++ [call]) = storedIn (homeBlock calls.length) (calls ++ [call]) := by
  cases calls with
  | nil => rfl
  | cons first calls => simp [storageOf]

theorem elements_storedIn (block : ℕ) (calls : List FindingCall) :
    (storedIn block calls).elements = storedElements calls := by
  simp [Storage.elements, storedIn]

theorem move_storedIn (block : ℕ) (calls : List FindingCall) :
    (storedIn block calls).move (initialFindingCapacity * 2 ^ block * 2) = storedIn (block + 1) calls := by
  rw [Storage.move, elements_storedIn]
  simp [storedIn, List.set_append, List.replicate_succ', Nat.pow_succ, Nat.mul_assoc]

/-- A new element goes to the block of the array. -/
theorem withFinding_storedIn (calls : List FindingCall) (call : FindingCall) :
    (storedIn (homeBlock calls.length) calls).withFinding call (homeBlock calls.length) =
      storedIn (homeBlock calls.length) (calls ++ [call]) := by
  have hblocks : (storedIn (homeBlock calls.length) calls).blocks.modify (homeBlock calls.length)
      (Option.map (· ++ [call.element (homeBlock calls.length) calls.length])) =
      (storedIn (homeBlock calls.length) (calls ++ [call])).blocks := by
    have happend := LatestMatch.modify_append_cons
      (Option.map (· ++ [call.element (homeBlock calls.length) calls.length]))
      (List.replicate (homeBlock calls.length) none) (some (storedElements calls)) []
    rw [List.length_replicate] at happend
    simpa [storedIn, storedElements, List.mapIdx_concat] using happend
  have hcounts : (storedIn (homeBlock calls.length) (calls ++ [call])).policyCounts =
      Function.update (storedIn (homeBlock calls.length) calls).policyCounts call.policy
        ((storedIn (homeBlock calls.length) calls).policyCounts call.policy + 1) := by
    funext policy
    by_cases hpolicy : policy = call.policy
    · subst hpolicy
      simp [storedIn, List.countP_append]
    · simp [storedIn, List.countP_append, Function.update_of_ne hpolicy, Ne.symm hpolicy]
  have hcount : calls.length + 1 = (calls ++ [call]).length := by simp
  exact (Storage.mk.injEq ..).mpr ⟨hblocks, rfl, hcount, rfl, hcounts.symm⟩

variable {calls : List FindingCall} {call : FindingCall} {storage : Storage} {w : World Storage}

/-- The array holds the elements of the calls, with or without room for one more. -/
def Stores (calls : List FindingCall) (storage : Storage) : Prop :=
  storage = storageOf calls ∨ storage = storedIn (homeBlock calls.length) calls

/-- Without calls there is no array, and otherwise the array is full exactly when the next element
has another home. -/
theorem stores_cases (h : Stores calls storage) :
    (calls = [] ∧ storage = {}) ∨
      ∃ block, storage = storedIn block calls ∧
        (homeBlock calls.length = block ∧ calls.length < initialFindingCapacity * 2 ^ block ∨
          homeBlock calls.length = block + 1 ∧ calls.length = initialFindingCapacity * 2 ^ block) := by
  have hhome : calls.length < initialFindingCapacity * 2 ^ homeBlock calls.length := homeBlock_le_iff.mp (Nat.le_refl _)
  rcases h with h | h
  · cases calls with
    | nil => exact Or.inl ⟨rfl, h⟩
    | cons first calls =>
      refine Or.inr ⟨_, h, ?_⟩
      have hlast : calls.length < initialFindingCapacity * 2 ^ homeBlock calls.length := homeBlock_le_iff.mp (Nat.le_refl _)
      rw [List.length_cons] at *
      by_cases hroom : calls.length + 1 < initialFindingCapacity * 2 ^ homeBlock calls.length
      · exact Or.inl ⟨le_antisymm (homeBlock_le_iff.mpr hroom) (homeBlock_mono (Nat.le_succ _)), hroom⟩
      · have hfull : calls.length + 1 = initialFindingCapacity * 2 ^ homeBlock calls.length := by omega
        have hgrown : homeBlock (calls.length + 1) ≤ homeBlock calls.length + 1 := by
          rw [homeBlock_le_iff, Nat.pow_succ, ← Nat.mul_assoc]
          omega
        have hmoved : ¬ homeBlock (calls.length + 1) ≤ homeBlock calls.length := mt homeBlock_le_iff.mp hroom
        exact Or.inr ⟨by omega, hfull⟩
  · exact Or.inr ⟨_, h, Or.inl ⟨rfl, hhome⟩⟩

def Storage.reserved (storage : Storage) : Storage :=
  if storage.findingCount < storage.findingCapacity then storage
  else storage.move (if storage.findingCapacity = 0 then initialFindingCapacity else storage.findingCapacity * 2)

theorem ends_reserveFindings (w : World Storage) :
    Ends reserveFindings w (fun _ w' => w'.state = w.state.reserved) (fun w' => w'.state = w.state) := by
  apply ends_readState_bind
  apply Ends.ite
  · intro hroom
    apply ends_pure
    rw [Storage.reserved, if_pos hroom]
  · intro hfull
    apply Ends.ite
    · exact fun _ => ends_fail rfl
    · intro _
      apply ends_request
      · intro w' hsame _
        apply ends_updateState
        rw [Storage.reserved, if_neg hfull, hsame]
      · exact fun _ _ hsame => hsame

/-- With room for one more element, the array is in the home of this element. -/
theorem reserved_of_stores (h : Stores calls storage) : storage.reserved = storedIn (homeBlock calls.length) calls := by
  rcases stores_cases h with ⟨hnil, hstorage⟩ | ⟨block, hstorage, ⟨hhome, hroom⟩ | ⟨hhome, hfull⟩⟩
  · subst hnil hstorage
    rfl
  · rw [hstorage, hhome]
    exact if_pos hroom
  · have hpositive : initialFindingCapacity * 2 ^ block ≠ 0 := by simp [initialFindingCapacity]
    have hnone : ¬ (storedIn block calls).findingCount < (storedIn block calls).findingCapacity :=
      fun hroom => Nat.ne_of_lt hroom hfull
    rw [hstorage, hhome, ← move_storedIn, Storage.reserved, if_neg hnone]
    exact congrArg (fun capacity => (storedIn block calls).move capacity) (if_neg hpositive)

/-- An addition stores the element of the call after the elements of the calls before it. -/
theorem ends_addFinding (h : Stores calls w.state) (call : FindingCall) :
    Ends (addFinding call) w (fun _ w' => w'.state = storageOf (calls ++ [call])) (fun w' => Stores calls w'.state) := by
  have hreserve := ends_reserveFindings w
  rw [reserved_of_stores h] at hreserve
  apply (hreserve.imp (fun _ _ => id) fun w' hsame => by rwa [hsame]).bind
  intro _ w' hreserved
  apply Ends.ite
  · intro _
    apply ends_readState_bind
    rw [hreserved]
    apply ends_updateState
    change Storage.withFinding call (homeBlock calls.length) w'.state = _
    rw [hreserved, withFinding_storedIn, storageOf_concat]
  · intro _
    exact ends_fail (Or.inr hreserved)

/-- After a run of additions, the storage is that of its calls. -/
theorem state_of_additions {outcomes : List Bool} (hrun : forEach addFinding calls ⟨{}, outcomes⟩ = (.ok (), w)) :
    w.state = storageOf calls := by
  have hends : Ends (forEach addFinding calls) ⟨{}, outcomes⟩ (fun _ w' => w'.state = storageOf calls) (fun _ => True) := by
    apply ends_forEach (fun before w' => w'.state = storageOf before)
    · intro before call after w' _ hstate
      exact (ends_addFinding (Or.inl hstate) call).imp (fun _ _ => id) (fun _ _ => trivial)
    · rfl
  exact hends.ok hrun

def FindingCall.finding (call : FindingCall) : Finding :=
  newFinding call.identifier call.policy call.message call.node call.source call.target call.detail

/-- The analysis object and the storage after the same calls. -/
def Agrees (analysis : Analysis) (storage : Storage) : Prop :=
  ∃ calls, Stores calls storage ∧ analysis.findings = calls.map FindingCall.finding ∧
    analysis.findingCapacity = storage.findingCapacity ∧ analysis.policyCounts = storage.policyCounts

theorem findingCount_of_stores (h : Stores calls storage) : storage.findingCount = calls.length := by
  rcases stores_cases h with ⟨rfl, rfl⟩ | ⟨_, rfl, _⟩ <;> rfl

variable {v : World Analysis}

/-- The two requests for room have the same outcome. -/
theorem reserveFindings_lockstep (h : Related Agrees v w) :
    Lockstep Agrees ModelAnalysis.reserveFindings reserveFindings v w := by
  obtain ⟨⟨calls, hstores, hfindings, hcapacity, hcounts⟩, houtcomes⟩ := h
  have hlength : v.state.findings.length = w.state.findingCount := by
    rw [hfindings, List.length_map, findingCount_of_stores hstores]
  apply lockstep_readState_left
  apply lockstep_readState_right
  rw [hcapacity, hlength]
  apply Lockstep.ite Iff.rfl
  · intro _
    exact lockstep_pure ⟨⟨calls, hstores, hfindings, hcapacity, hcounts⟩, houtcomes⟩ ()
  intro hfull
  apply Lockstep.ite Iff.rfl
  · intro _
    exact lockstep_fail ⟨⟨calls, hstores, hfindings, hcapacity, hcounts⟩, houtcomes⟩ _
  intro _
  apply lockstep_request ⟨⟨calls, hstores, hfindings, hcapacity, hcounts⟩, houtcomes⟩
  intro outcomes
  have hmoved : w.state.reserved = Storage.move (if w.state.findingCapacity = 0 then initialFindingCapacity
      else w.state.findingCapacity * 2) w.state := if_neg hfull
  apply lockstep_updateState
  · rfl
  · refine ⟨calls, Or.inr ?_, hfindings, rfl, hcounts⟩
    rw [← reserved_of_stores hstores, hmoved]

/-- The analysis object and the storage stay in agreement over an addition. -/
theorem addFinding_lockstep (h : Related Agrees v w) (call : FindingCall) :
    Lockstep Agrees (ModelAnalysis.addFinding call.identifier call.policy call.message call.node call.source
      call.target call.detail) (addFinding call) v w := by
  obtain ⟨before, hbefore, -⟩ := h.1
  apply (reserveFindings_lockstep h).bind
  rintro ⟨⟩ v' w' ⟨⟨calls, hstores, hfindings, hcapacity, hcounts⟩, houtcomes⟩ _ hrun
  have hreserved : w'.state = storedIn (homeBlock calls.length) calls := by
    have hstate := (ends_reserveFindings w).ok hrun
    rw [reserved_of_stores hbefore] at hstate
    have hroom : w'.state.reserved = w'.state := by
      rw [hstate]
      exact reserved_of_stores (Or.inr rfl)
    rw [← hroom, reserved_of_stores hstores]
  apply Lockstep.ite Iff.rfl
  · intro _
    have hblock : w'.state.findings = some (homeBlock calls.length) := by
      rw [hreserved]
      rfl
    apply lockstep_readState_right
    rw [hblock]
    apply lockstep_updateState houtcomes
    refine ⟨calls ++ [call], Or.inl ?_, ?_, hcapacity, ?_⟩
    · rw [hreserved, withFinding_storedIn, storageOf_concat]
    · rw [List.map_append, ← hfindings]
      rfl
    · exact congrArg (fun counts => Function.update counts call.policy (counts call.policy + 1)) hcounts
  · intro _
    exact lockstep_fail ⟨⟨calls, hstores, hfindings, hcapacity, hcounts⟩, houtcomes⟩ _

theorem reference_element (call : FindingCall) (block index : ℕ) (field : TextField) :
    (call.element block index).value.reference field = ⟨block, index, field⟩ := by
  cases field <;> rfl

theorem text_element (call : FindingCall) (block index : ℕ) (field : TextField) :
    (call.element block index).text field = call.text field := by
  cases field <;> rfl

theorem getElem?_storedElements {index : ℕ} (hcall : calls[index]? = some call) :
    (storedElements calls)[index]? = some (call.element (homeBlock index) index) := by
  rw [storedElements, List.getElem?_mapIdx, hcall, Option.map_some]

theorem findingAt_storedIn {index : ℕ} (block : ℕ) (hcall : calls[index]? = some call) :
    (storedIn block calls).findingAt index = some (call.element (homeBlock index) index).value := by
  have hindex : index < calls.length := (List.getElem?_eq_some_iff.mp hcall).1
  rw [Storage.findingAt, elements_storedIn, getElem?_storedElements hcall]
  exact if_pos hindex

/-- Only the references to the last block lead to a text. -/
theorem read_storedIn {block index : ℕ} (hblock : homeBlock index ≤ block) (hcall : calls[index]? = some call)
    (field : TextField) :
    (storedIn block calls).read ⟨homeBlock index, index, field⟩ =
      if homeBlock index = block then some (call.text field) else none := by
  rw [Storage.read]
  split
  · next hhome =>
    rw [hhome, ← text_element call block index field]
    have hlast : (storedIn block calls).blocks[block]? = some (some (storedElements calls)) := by simp [storedIn]
    rw [hlast, Option.join_some, Option.bind_some, getElem?_storedElements hcall, hhome, Option.map_some]
  · next hhome =>
    have hdead : (storedIn block calls).blocks[homeBlock index]? = some none := by
      have hbefore : homeBlock index < block := by omega
      simp [storedIn, List.getElem?_append_left, hbefore]
    rw [hdead]
    rfl

/-- A finding reads back exactly when the array is still in the block that the finding was first
stored in. -/
theorem readsBack_iff {index : ℕ} (hcall : calls[index]? = some call) :
    (storageOf calls).ReadsBack index call ↔ homeBlock index = homeBlock (calls.length - 1) := by
  have hindex : index < calls.length := (List.getElem?_eq_some_iff.mp hcall).1
  have hlast : homeBlock index ≤ homeBlock (calls.length - 1) := homeBlock_mono (by omega)
  have hstorage : storageOf calls = storedIn (homeBlock (calls.length - 1)) calls := by
    cases calls with
    | nil => exact absurd hindex (Nat.not_lt_zero _)
    | cons first calls => rfl
  rw [hstorage]
  constructor
  · rintro ⟨value, hvalue, hread⟩
    rw [findingAt_storedIn _ hcall, Option.some.injEq] at hvalue
    have htext := hread .nodeId
    rw [← hvalue, reference_element, read_storedIn hlast hcall] at htext
    by_contra hmoved
    rw [if_neg hmoved] at htext
    cases htext
  · intro hhome
    refine ⟨_, findingAt_storedIn _ hcall, fun field => ?_⟩
    rw [reference_element, read_storedIn hlast hcall, if_pos hhome]

/-- The findings of a run of additions all read back exactly when the array has not grown since its
first allocation. -/
theorem readsBack_of_additions_iff {outcomes : List Bool} (hrun : forEach addFinding calls ⟨{}, outcomes⟩ = (.ok (), w)) :
    (∀ index call, calls[index]? = some call → w.state.ReadsBack index call) ↔ calls.length ≤ initialFindingCapacity := by
  rw [state_of_additions hrun]
  constructor
  · intro hall
    cases calls with
    | nil => exact Nat.zero_le _
    | cons first calls =>
      have hat : (first :: calls)[0]? = some first := rfl
      have hfirst := (readsBack_iff hat).mp (hall 0 first rfl)
      exact homeBlock_eq_zero_iff.mp hfirst.symm
  · intro hfew index call hcall
    have hindex : index < calls.length := (List.getElem?_eq_some_iff.mp hcall).1
    have hhome : homeBlock index = 0 := homeBlock_eq_zero_iff.mpr (by omega)
    have hlast : homeBlock (calls.length - 1) = 0 := homeBlock_eq_zero_iff.mpr (by omega)
    rw [readsBack_iff hcall, hhome, hlast]

def twoCalls : List FindingCall :=
  [⟨.ofString "P101-SYNC-001", .synchronization, .empty, none, some (.ofString "a"), none, none⟩,
    ⟨.ofString "P101-SYNC-002", .synchronization, .empty, none, some (.ofString "b"), none, none⟩]

theorem twoCalls_readBack :
    (forEach addFinding twoCalls ⟨{}, []⟩).1 = .ok () ∧ ∀ index call, twoCalls[index]? = some call →
      (forEach addFinding twoCalls ⟨{}, []⟩).2.state.ReadsBack index call := by
  have hok : (forEach addFinding twoCalls ⟨{}, []⟩).1 = .ok () := by decide +kernel
  have hrun : forEach addFinding twoCalls ⟨{}, []⟩ = (.ok (), _) := Prod.ext hok rfl
  exact ⟨hok, (readsBack_of_additions_iff hrun).mpr (by decide)⟩

/-- At the seventeenth finding the array moves, and the first finding is left with references to the
block before. -/
theorem seventeen_not_readBack :
    ¬ ∀ (calls : List FindingCall) (outcomes : List Bool) (w : World Storage),
      forEach addFinding calls ⟨{}, outcomes⟩ = (.ok (), w) →
        ∀ index call, calls[index]? = some call → w.state.ReadsBack index call := by
  intro hall
  have hrun : forEach addFinding
      (List.replicate 17 ⟨.ofString "P101-SYNC-001", .synchronization, .empty, none, none, none, none⟩) ⟨{}, []⟩ =
        (.ok (), _) := Prod.ext (by decide +kernel) rfl
  have hfirst := hall _ _ _ hrun 0 _ rfl
  rw [state_of_additions hrun, readsBack_iff rfl] at hfirst
  exact absurd hfirst (by decide)

end ToolEvent.FindingStorage
