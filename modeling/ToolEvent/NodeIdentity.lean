import ToolEvent.EventFields
import ToolEvent.RunModelFinish
import ToolEvent.StreamAdmission

/-!
# The identities of nodes in the written model

`src/model_json.c` writes a node under a text made of its domain, run identity,
producer, sequence number and kind. Stream health admits increasing sequence
numbers of a producer, so the text designates one node of an admitted pair of streams
unless the sequence number is zero.
-/

namespace ToolEvent.ModelInput

open Fallible World RunModel StreamHealth

def fdKindName : FdKind → Text
  | .opened => .ofString "fd-open"
  | .closed => .ofString "fd-close"

def allocKindName : AllocKind → Text
  | .alloc => .ofString "alloc"
  | .free => .ofString "free"
  | .realloc => .ofString "realloc"

def nodeKindName (node : Node) : Text :=
  match node.recordKind with
  | .fd => fdKindName node.fdKind
  | .alloc => allocKindName node.allocKind
  | .fork => .ofString "fork"
  | .spawn => .ofString "spawn"
  | .exec => .ofString "exec"
  | .execFail => .ofString "exec-fail"
  | .call => if node.callKind = .enter then .ofString "call-enter" else .ofString "call-exit"
  | .resource => .ofString "resource"
  | .complete => .ofString "complete"

def domainName : NodeDomain → Text
  | .call => .ofString "call"
  | .resource => .ofString "resource"

def quote : Text := .ofString "\""
def colon : Text := .ofString ":"

/-- What `write_node_id` writes. `contents` is the text that
`p101_json_write_string_contents` writes for a text. -/
def writeNodeId (contents : Text → Text) (node : Node) : Text :=
  quote ++ (domainName node.domain ++ colon) ++ contents node.runId ++
    (colon ++ .decimal node.pid ++ colon ++ .decimal node.contextId ++ colon ++
      .decimal node.sequence ++ colon ++ nodeKindName node ++ quote)

theorem bytes_writeNodeId (contents : Text → Text) (node : Node) :
    (writeNodeId contents node).bytes =
      34 :: ((domainName node.domain).bytes ++ 58 :: ((contents node.runId).bytes ++ 58 ::
        ((Text.decimal node.pid).bytes ++ 58 :: ((Text.decimal node.contextId).bytes ++ 58 ::
          ((Text.decimal node.sequence).bytes ++ 58 :: ((nodeKindName node).bytes ++ [34])))))) := by
  have hquote : quote.bytes = [34] := by decide
  have hcolon : colon.bytes = [58] := by decide
  simp [writeNodeId, hquote, hcolon]

theorem colon_not_mem_decimal (n : ℤ) : (58 : UInt8) ∉ (Text.decimal n).bytes :=
  Text.not_mem_decimal (by decide) (by decide) n

theorem colon_not_mem_domainName (domain : NodeDomain) : (58 : UInt8) ∉ (domainName domain).bytes := by
  cases domain <;> decide

theorem domainName_injective {d e : NodeDomain} (h : (domainName d).bytes = (domainName e).bytes) :
    d = e := by
  revert h
  cases d <;> cases e <;> decide

/-- Two nodes of a run have the same identity when they agree in every other part of it. -/
theorem writeNodeId_eq_iff (contents : Text → Text) {a b : Node} (hrun : a.runId = b.runId) :
    writeNodeId contents a = writeNodeId contents b ↔
      a.domain = b.domain ∧ a.pid = b.pid ∧ a.contextId = b.contextId ∧ a.sequence = b.sequence ∧
        nodeKindName a = nodeKindName b := by
  constructor
  · intro h
    have hbytes := congrArg Text.bytes h
    rw [bytes_writeNodeId, bytes_writeNodeId, List.cons.injEq] at hbytes
    obtain ⟨hdomain, hrest⟩ := (Delimited.append_cons_inj (colon_not_mem_domainName _)
      (colon_not_mem_domainName _)).mp hbytes.2
    rw [hrun, List.append_cancel_left_eq, List.cons.injEq] at hrest
    obtain ⟨hpid, hrest⟩ := (Delimited.append_cons_inj (colon_not_mem_decimal _)
      (colon_not_mem_decimal _)).mp hrest.2
    obtain ⟨hcontext, hrest⟩ := (Delimited.append_cons_inj (colon_not_mem_decimal _)
      (colon_not_mem_decimal _)).mp hrest
    obtain ⟨hsequence, hkind⟩ := (Delimited.append_cons_inj (colon_not_mem_decimal _)
      (colon_not_mem_decimal _)).mp hrest
    refine ⟨domainName_injective hdomain, Text.decimal_injective (Text.ext hpid), ?_, ?_,
      Text.ext (List.append_cancel_right hkind)⟩
    · exact Int.natCast_inj.mp (Text.decimal_injective (Text.ext hcontext))
    · exact Int.natCast_inj.mp (Text.decimal_injective (Text.ext hsequence))
  · rintro ⟨hdomain, hpid, hcontext, hsequence, hkind⟩
    rw [writeNodeId, writeNodeId, hdomain, hrun, hpid, hcontext, hsequence, hkind]

/-- Two nodes without a sequence number that agree in the other parts of their identities. -/
structure SameUnnumbered (a b : Node) : Prop where
  left : a.sequence = 0
  right : b.sequence = 0
  domain : a.domain = b.domain
  pid : a.pid = b.pid
  contextId : a.contextId = b.contextId
  kind : nodeKindName a = nodeKindName b

def Designates (contents : Text → Text) (nodes : List Node) (id : Text) (index : ℕ) : Prop :=
  ∀ j, nodes[j]?.map (writeNodeId contents) = some id ↔ j = index

/-- Nodes in the order of a sound stream, of one run. -/
structure InOrder (a b : Node) : Prop where
  runId : a.runId = b.runId
  increasing : a.domain = b.domain → a.pid = b.pid → a.contextId = b.contextId →
    a.sequence ≠ 0 → b.sequence ≠ 0 → a.sequence < b.sequence

theorem InOrder.writeNodeId_eq_iff {a b : Node} (h : InOrder a b) (contents : Text → Text) :
    writeNodeId contents a = writeNodeId contents b ↔ SameUnnumbered a b := by
  rw [ModelInput.writeNodeId_eq_iff contents h.runId]
  constructor
  · rintro ⟨hdomain, hpid, hcontext, hsequence, hkind⟩
    have hzero : a.sequence = 0 := by
      by_contra hne
      have hlt := h.increasing hdomain hpid hcontext hne (hsequence ▸ hne)
      omega
    exact ⟨hzero, hsequence ▸ hzero, hdomain, hpid, hcontext, hkind⟩
  · rintro ⟨ha, hb, hdomain, hpid, hcontext, hkind⟩
    exact ⟨hdomain, hpid, hcontext, ha.trans hb.symm, hkind⟩

/-- In a sound stream the available sequence numbers of a producer increase. -/
theorem SoundRecords.pairwise {records : List EventRecord} (h : SoundRecords records) :
    records.Pairwise (fun r s => r.runId = s.runId ∧ (r.pid = s.pid → r.contextId = s.contextId →
      r.sequence ≠ 0 → s.sequence ≠ 0 → r.sequence < s.sequence)) := by
  apply List.pairwise_iff_forall_sublist.mpr
  intro r s hsub
  have hr : r ∈ records := hsub.subset (by simp)
  have hs : s ∈ records := hsub.subset (by simp)
  refine ⟨h.oneRun r hr s hs, fun hpid hcontext hr₀ hs₀ => ?_⟩
  have hproducer : [r, s].Sublist (ofProducer r.pid r.contextId records) := by
    have hfilter := hsub.filter (fun record => record.pid = r.pid ∧ record.contextId = r.contextId)
    simpa [ofProducer, hpid, hcontext] using hfilter
  have hnumbers := (hproducer.map EventRecord.sequence).filter (· ≠ 0)
  have hpair := (h.increasing r hr).sublist hnumbers
  simpa [hr₀, hs₀] using hpair

/-- The nodes made of the records of a sound stream are in its order. -/
theorem SoundRecords.inOrder {records : List EventRecord} (h : SoundRecords records) (calls : Bool) :
    ((records.filter (belongs calls)).map Node.ofRecord).Pairwise InOrder := by
  rw [List.pairwise_map]
  apply (h.pairwise.sublist List.filter_sublist).imp
  rintro r s ⟨hrun, hincreasing⟩
  exact ⟨congrArg (fun t : Option Text => t.getD .empty) hrun, fun _ => hincreasing⟩

theorem domain_ofRecord {calls : Bool} {record : EventRecord} (h : belongs calls record) :
    (Node.ofRecord record).domain = if calls then .call else .resource := by
  simp only [belongs, decide_eq_true_eq] at h
  cases calls <;> simp_all [Node.ofRecord]

def addedNodes (reader : RecordReader) (resource call : InputFile) : List Node :=
  ((recordsOf reader resource).filter (belongs false)).map Node.ofRecord ++
    ((recordsOf reader call).filter (belongs true)).map Node.ofRecord

variable {reader : RecordReader}

theorem Read.inOrder {resource call : InputFile} {m₀ m₁ m₂ : Model} {rh ch : Health}
    (h : Read reader resource call m₀ m₁ m₂ rh ch) :
    (addedNodes reader resource call).Pairwise InOrder := by
  obtain ⟨hresource, hcall⟩ := h.valid
  refine List.pairwise_append.mpr ⟨hresource.inOrder false, hcall.inOrder true, ?_⟩
  intro a ha b hb
  obtain ⟨r, hr, rfl⟩ := List.mem_map.mp ha
  obtain ⟨s, hs, rfl⟩ := List.mem_map.mp hb
  rw [List.mem_filter] at hr hs
  refine ⟨congrArg (fun t : Option Text => t.getD .empty) (h.runId_eq hr.1 hr.2 hs.1 hs.2), fun hdomain => ?_⟩
  rw [domain_ofRecord hr.2, domain_ofRecord hs.2] at hdomain
  cases hdomain

theorem Read.nodes {resource call : InputFile} {m₀ m₁ m₂ : Model} {rh ch : Health}
    (h : Read reader resource call m₀ m₁ m₂ rh ch) :
    m₂.nodes = m₀.nodes ++ addedNodes reader resource call := by
  rw [h.call.nodes, h.resource.nodes, List.append_assoc]
  rfl

theorem read_nodes_of_ingestPaths {model : Model} {resource call : InputFile} {outcomes : List Bool}
    {w : World Model} (h : ingestPaths reader resource call ⟨model, outcomes⟩ = (.ok (), w)) :
    w.state.nodes = model.nodes ++ addedNodes reader resource call ∧
      (addedNodes reader resource call).Pairwise InOrder ∧
      (Reachable reader.toRecordLibrary model → Reachable reader.toRecordLibrary w.state) := by
  obtain ⟨w₂, m₁, rh, ch, hread, hfinish⟩ := read_of_ingestPaths h
  refine ⟨?_, hread.inOrder, fun hmodel => ?_⟩
  · rw [← hread.nodes]
    rcases finish_ok _ hfinish with ⟨-, rfl⟩ | hfinished
    · rfl
    · exact hfinished.nodes
  · have hreachable := (hread.call.reachable (hread.resource.reachable hmodel)).finish w₂.outcomes
    rwa [hfinish] at hreachable

/-- The nodes that an accepted pair adds have the same identity only if they agree in it and
carry no sequence number. In a model made of the pair alone, the identities written for
an edge designate its two nodes unless these carry no sequence number. -/
theorem nodeId_designates (contents : Text → Text) {model : Model} {resource call : InputFile}
    {outcomes : List Bool} {w : World Model}
    (h : ingestPaths reader resource call ⟨model, outcomes⟩ = (.ok (), w)) :
    (∀ i j a b, model.nodes.length ≤ i → i < j → w.state.nodes[i]? = some a →
        w.state.nodes[j]? = some b →
        (writeNodeId contents a = writeNodeId contents b ↔ SameUnnumbered a b)) ∧
      (model = {} → ∀ edge ∈ w.state.edges, ∀ index ∈ [edge.source, edge.target],
        ∃ a, w.state.nodes[index]? = some a ∧
          (a.sequence ≠ 0 → Designates contents w.state.nodes (writeNodeId contents a) index)) := by
  obtain ⟨hnodes, horder, hreachable⟩ := read_nodes_of_ingestPaths h
  have hids : ∀ i j a b, model.nodes.length ≤ i → i < j → w.state.nodes[i]? = some a →
      w.state.nodes[j]? = some b →
      (writeNodeId contents a = writeNodeId contents b ↔ SameUnnumbered a b) := by
    intro i j a b hi hij ha hb
    rw [hnodes, List.getElem?_append_right (by omega)] at ha hb
    obtain ⟨hilt, rfl⟩ := List.getElem?_eq_some_iff.mp ha
    obtain ⟨hjlt, rfl⟩ := List.getElem?_eq_some_iff.mp hb
    exact (List.pairwise_iff_getElem.mp horder _ _ hilt hjlt (by omega)).writeNodeId_eq_iff contents
  refine ⟨hids, ?_⟩
  rintro rfl edge hedge index hindex
  have hbounds := (hreachable .create).sound.edges_mem edge hedge
  have hlt : index < w.state.nodes.length := by
    rcases List.mem_pair.mp hindex with rfl | rfl
    · exact hbounds.1
    · exact hbounds.2
  refine ⟨_, List.getElem?_eq_getElem hlt, fun hnumbered j => ⟨fun hj => ?_, ?_⟩⟩
  · obtain ⟨b, hb, hid⟩ := Option.map_eq_some_iff.mp hj
    have ha := List.getElem?_eq_getElem hlt
    rcases lt_trichotomy j index with hlt' | rfl | hlt'
    · exact absurd ((hids j index b _ (Nat.zero_le _) hlt' hb ha).mp hid).right hnumbered
    · rfl
    · exact absurd ((hids index j _ b (Nat.zero_le _) hlt' ha hb).mp hid.symm).left hnumbered
  · rintro rfl
    rw [List.getElem?_eq_getElem hlt]
    rfl

/-- A producer whose sequence numbers are not available, which opened two files. -/
def unnumberedResource : InputFile :=
  fileOf ["P101FD\t5\ta\t1\t1\t0\t-\t-\tOPEN\t3\t7\tf\tc", "P101FD\t5\ta\t1\t1\t0\t-\t-\tOPEN\t4\t8\tf\tc",
    "P101COMPLETE\t5\ta\t1\t1\t1\t-\t-\t2\t0\t0"]

/-- The two nodes are written under the same identity. -/
theorem unnumberedResource_shares_id :
    ∃ w a b, ingestPaths .standard unnumberedResource ownCall ⟨{}, []⟩ = (.ok (), w) ∧
      w.state.nodes = [a, b] ∧ ∀ contents : Text → Text, writeNodeId contents a = writeNodeId contents b := by
  have hok : (ingestPaths .standard unnumberedResource ownCall ⟨{}, []⟩).1 = .ok () := by decide +kernel
  obtain ⟨w, hw⟩ : ∃ w, ingestPaths .standard unnumberedResource ownCall ⟨{}, []⟩ = (.ok (), w) :=
    exists_of_fst_eq hok
  have hcount : (addedNodes .standard unnumberedResource ownCall).length = 2 := by decide +kernel
  have hparts : ∀ x ∈ addedNodes .standard unnumberedResource ownCall,
      x.runId = .ofString "a" ∧ x.domain = .resource ∧ x.pid = 1 ∧ x.contextId = 1 ∧
        x.sequence = 0 ∧ nodeKindName x = .ofString "fd-open" := by decide +kernel
  have hnodes := (read_nodes_of_ingestPaths hw).1
  generalize addedNodes .standard unnumberedResource ownCall = nodes at hcount hparts hnodes
  obtain ⟨a, b, rfl⟩ := List.length_eq_two.mp hcount
  obtain ⟨harun, hadomain, hapid, hacontext, hasequence, hakind⟩ := hparts a (by simp)
  obtain ⟨hbrun, hbdomain, hbpid, hbcontext, hbsequence, hbkind⟩ := hparts b (by simp)
  exact ⟨w, a, b, hw, hnodes, fun contents => (writeNodeId_eq_iff contents (harun.trans hbrun.symm)).mpr
    ⟨hadomain.trans hbdomain.symm, hapid.trans hbpid.symm, hacontext.trans hbcontext.symm,
      hasequence.trans hbsequence.symm, hakind.trans hbkind.symm⟩⟩

theorem nodeId_designates_ownCall :
    ∃ w, ingestPaths .standard silentResource ownCall ⟨{}, []⟩ = (.ok (), w) ∧
      (∀ i j a b, 0 ≤ i → i < j → w.state.nodes[i]? = some a → w.state.nodes[j]? = some b →
        (writeNodeId id a = writeNodeId id b ↔ SameUnnumbered a b)) ∧
      (({} : Model) = {} → ∀ edge ∈ w.state.edges, ∀ index ∈ [edge.source, edge.target],
        ∃ a, w.state.nodes[index]? = some a ∧
          (a.sequence ≠ 0 → Designates id w.state.nodes (writeNodeId id a) index)) := by
  have hok : (ingestPaths .standard silentResource ownCall ⟨{}, []⟩).1 = .ok () := by decide +kernel
  obtain ⟨w, hw⟩ : ∃ w, ingestPaths .standard silentResource ownCall ⟨{}, []⟩ = (.ok (), w) :=
    exists_of_fst_eq hok
  exact ⟨w, hw, nodeId_designates id hw⟩

end ToolEvent.ModelInput
