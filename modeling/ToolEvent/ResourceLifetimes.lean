import ToolEvent.Library.Lifetimes
import ToolEvent.LifecycleEffect
import ToolEvent.RunModelFinish

/-!
# The two views of resource lifetimes

A finished model has an edge for every lifetime that `build_resource_edges` finds, and a
lifecycle whose entries say which record acquired and which released a resource. When the
nodes are of one context, both are read off the nodes in order.
-/

namespace ToolEvent.RunModel

open Fallible World LatestMatch Lifetimes

open Lifecycle (ResourceName releasedBy acquiredBy allocated)

variable (lib : RecordLibrary)

def nodeEffects : Effects Node ResourceName where
  closes := fun node => if isReplayed node then releasedBy lib (recordFromNode node) else none
  opens := fun node => if isReplayed node then acquiredBy lib (recordFromNode node) else none

/-- The tests `find_lifetime_end` makes. -/
def lifetimeSearch : Search Node where
  begins := fun node => node.domain = .resource ∧ isLifetimeBirth lib node
  ends := lifetimeMatches

variable {lib}

theorem allocated_eq_some {pointer : Text} {name : ResourceName} :
    allocated lib (some pointer) = some name ↔
      lib.pointerIsNull (some pointer) = false ∧ (Lifecycle.allocationResourceClass, pointer) = name := by
  unfold allocated
  cases lib.pointerIsNull (some pointer) <;> simp

theorem opens_eq_some {node : Node} {name : ResourceName} (h : (nodeEffects lib).opens node = some name) :
    node.domain = .resource ∧ acquiredBy lib (recordFromNode node) = some name := by
  unfold nodeEffects at h
  dsimp only at h
  split at h
  · next hreplayed =>
    simp only [isReplayed, decide_eq_true_eq] at hreplayed
    exact ⟨hreplayed.1, h⟩
  · cases h

theorem closes_eq_some {node : Node} {name : ResourceName} (h : (nodeEffects lib).closes node = some name) :
    releasedBy lib (recordFromNode node) = some name := by
  unfold nodeEffects at h
  dsimp only at h
  split at h
  · exact h
  · cases h

/-- What the replay records for a resource record, or releases. -/
theorem acquiredByResource_eq_some {record : EventRecord} {name : ResourceName}
    (h : Lifecycle.acquiredByResource record = some name) :
    (record.resourceKind = .acquire ∧ name = (Lifecycle.recordClass record, Lifecycle.recordId record)) ∨
      ((record.resourceKind = .replace ∨ record.resourceKind = .transfer) ∧
        Lifecycle.isAbsent record.relatedId = false ∧
        name = (Lifecycle.recordClass record, record.relatedId.getD .empty)) := by
  unfold Lifecycle.acquiredByResource at h
  split at h
  · cases h
  · split at h
    · next hkind => exact .inl ⟨hkind, (Option.some.inj h).symm⟩
    · next hkind =>
      split at h
      · cases h
      · next habsent => exact .inr ⟨.inl hkind, Bool.eq_false_of_not_eq_true habsent, (Option.some.inj h).symm⟩
    · next hkind =>
      split at h
      · cases h
      · next habsent => exact .inr ⟨.inr hkind, Bool.eq_false_of_not_eq_true habsent, (Option.some.inj h).symm⟩
    · cases h
    · cases h

theorem releasedByResource_eq_some {record : EventRecord} {name : ResourceName}
    (h : Lifecycle.releasedByResource record = some name) :
    name = (Lifecycle.recordClass record, Lifecycle.recordId record) := by
  unfold Lifecycle.releasedByResource at h
  split at h
  · cases h
  · split at h
    · exact (Option.some.inj h).symm
    all_goals
      first
      | cases h
      | (split at h
         · cases h
         · exact (Option.some.inj h).symm)

/-- The resource a node that begins a lifetime stands for. -/
theorem opens_cases {birth : Node} {name : ResourceName} (h : (nodeEffects lib).opens birth = some name) :
    birth.domain = .resource ∧
      ((birth.recordKind = .fd ∧ birth.fdKind = .opened ∧
          name = (Lifecycle.fdResourceClass, Lifecycle.formatFdIdentifier birth.fd)) ∨
        (birth.recordKind = .alloc ∧
          ((birth.allocKind = .alloc ∧ name = (Lifecycle.allocationResourceClass, birth.ptr)) ∨
            (birth.allocKind = .realloc ∧ lib.pointerIsNull (some birth.newPtr) = false ∧
              name = (Lifecycle.allocationResourceClass, birth.newPtr)))) ∨
        (birth.recordKind = .resource ∧
          ((birth.resourceKind = .acquire ∧ name = (birth.resourceClass, birth.resourceId)) ∨
            ((birth.resourceKind = .replace ∨ birth.resourceKind = .transfer) ∧
              birth.relatedId.isEmpty = false ∧ name = (birth.resourceClass, birth.relatedId))))) := by
  obtain ⟨hdomain, hacquired⟩ := opens_eq_some h
  refine ⟨hdomain, ?_⟩
  unfold acquiredBy at hacquired
  have hkind : (recordFromNode birth).recordKind = birth.recordKind := rfl
  have halloc : (recordFromNode birth).allocKind = birth.allocKind := rfl
  rw [hkind, halloc] at hacquired
  cases hown : birth.recordKind with
  | fd =>
    simp only [hown] at hacquired
    split at hacquired
    · next hopened => exact .inl ⟨rfl, hopened, (Option.some.inj hacquired).symm⟩
    · cases hacquired
  | alloc =>
    simp only [hown] at hacquired
    refine .inr (.inl ⟨rfl, ?_⟩)
    cases hcase : birth.allocKind with
    | alloc =>
      simp only [hcase] at hacquired
      exact .inl ⟨rfl, (allocated_eq_some.mp hacquired).2.symm⟩
    | free =>
      simp only [hcase] at hacquired
      cases hacquired
    | realloc =>
      simp only [hcase] at hacquired
      obtain ⟨hpointer, hname⟩ := allocated_eq_some.mp hacquired
      exact .inr ⟨rfl, hpointer, hname.symm⟩
  | resource =>
    simp only [hown] at hacquired
    refine .inr (.inr ⟨rfl, ?_⟩)
    exact acquiredByResource_eq_some hacquired
  | call | fork | spawn | exec | execFail | complete =>
    simp only [hown] at hacquired
    cases hacquired

theorem closes_cases {death : Node} {name : ResourceName} (h : (nodeEffects lib).closes death = some name) :
    (death.recordKind = .fd ∧ name = (Lifecycle.fdResourceClass, Lifecycle.formatFdIdentifier death.fd)) ∨
      (death.recordKind = .alloc ∧ name = (Lifecycle.allocationResourceClass, death.ptr)) ∨
      (death.recordKind = .resource ∧ name = (death.resourceClass, death.resourceId)) := by
  have hreleased := closes_eq_some h
  unfold releasedBy at hreleased
  have hkind : (recordFromNode death).recordKind = death.recordKind := rfl
  have halloc : (recordFromNode death).allocKind = death.allocKind := rfl
  rw [hkind, halloc] at hreleased
  cases hown : death.recordKind with
  | fd =>
    simp only [hown] at hreleased
    split at hreleased
    · exact .inl ⟨rfl, (Option.some.inj hreleased).symm⟩
    · cases hreleased
  | alloc =>
    simp only [hown] at hreleased
    refine .inr (.inl ⟨rfl, ?_⟩)
    cases hcase : death.allocKind with
    | alloc =>
      simp only [hcase] at hreleased
      cases hreleased
    | free =>
      simp only [hcase] at hreleased
      exact (allocated_eq_some.mp hreleased).2.symm
    | realloc =>
      simp only [hcase] at hreleased
      split at hreleased
      · cases hreleased
      · exact (allocated_eq_some.mp hreleased).2.symm
  | resource =>
    simp only [hown] at hreleased
    exact .inr (.inr ⟨rfl, releasedByResource_eq_some hreleased⟩)
  | call | fork | spawn | exec | execFail | complete =>
    simp only [hown] at hreleased
    cases hreleased

theorem begins_of_opens {birth : Node} (h : (nodeEffects lib).opens birth ≠ none) :
    (lifetimeSearch lib).begins birth = true := by
  obtain ⟨name, hname⟩ := Option.ne_none_iff_exists'.mp h
  obtain ⟨hdomain, hcases⟩ := opens_cases hname
  unfold lifetimeSearch isLifetimeBirth
  rcases hcases with ⟨hkind, hopened, -⟩ | ⟨hkind, ⟨halloc, -⟩ | ⟨halloc, hpointer, -⟩⟩ |
    ⟨hkind, ⟨hacquire, -⟩ | ⟨hmoved, hrelated, -⟩⟩
  · simp [hdomain, hkind, hopened]
  · simp [hdomain, hkind, halloc]
  · simp [hdomain, hkind, halloc, hpointer]
  · simp [hdomain, hkind, hacquire]
  · simp [hdomain, hkind, hmoved, hrelated]

/-- The lifetimes that a death ends are all ended by the same nodes. -/
theorem lifetimeMatches_of_matches {birth death other : Node} (h : lifetimeMatches birth death = true) :
    lifetimeMatches birth other =
      match death.recordKind with
      | .fd => decide (other.recordKind = .fd ∧ other.fdKind = .closed ∧ other.fd = death.fd)
      | .alloc => decide (other.recordKind = .alloc ∧
          (other.allocKind = .free ∨ other.allocKind = .realloc) ∧ other.ptr = death.ptr)
      | _ => decide (other.recordKind = .resource ∧ other.resourceClass = death.resourceClass ∧
          (other.resourceKind = .release ∨ other.resourceKind = .replace ∨
            other.resourceKind = .transfer) ∧ other.resourceId = death.resourceId) := by
  unfold lifetimeMatches at h ⊢
  split at h
  · next hkind =>
    obtain ⟨hdeath, -, hfd⟩ := of_decide_eq_true h
    simp only [hdeath, hfd]
  · next hkind =>
    obtain ⟨hdeath, -, hptr⟩ := of_decide_eq_true h
    simp only [hdeath, hptr]
  · next hnotFd hnotAlloc =>
    obtain ⟨hdeath, hclass, -, hid⟩ := of_decide_eq_true h
    simp only [hdeath, hclass, hid]

theorem search_covers : (lifetimeSearch lib).Covers (nodeEffects lib) where
  begins_of_opens := fun _ => begins_of_opens
  same_key := by
    intro birth death k l hopens hends hcloses
    change lifetimeMatches birth death = true at hends
    obtain ⟨-, hbirth⟩ := opens_cases hopens
    have hdeath := closes_cases hcloses
    unfold lifetimeMatches at hends
    rcases hbirth with ⟨hkind, -, rfl⟩ | ⟨hkind, ⟨halloc, rfl⟩ | ⟨halloc, -, rfl⟩⟩ |
      ⟨hkind, ⟨hacquire, rfl⟩ | ⟨hmoved, -, rfl⟩⟩
    · simp only [hkind, decide_eq_true_eq] at hends
      simpa [hends.1, hends.2.2] using hdeath
    · simp only [hkind, decide_eq_true_eq] at hends
      simpa [hends.1, hends.2.2, halloc] using hdeath
    · simp only [hkind, decide_eq_true_eq] at hends
      simpa [hends.1, hends.2.2, halloc] using hdeath
    · simp only [hkind, decide_eq_true_eq] at hends
      simpa [hends.1, hends.2.1, hends.2.2.2, hacquire] using hdeath
    · simp only [hkind, decide_eq_true_eq] at hends
      have hnot : birth.resourceKind ≠ .acquire := by
        rcases hmoved with hmoved | hmoved <;> simp [hmoved]
      simpa [hends.1, hends.2.1, hends.2.2.2, hnot] using hdeath
  same_ends := by
    intro b c d e hb hc
    exact (lifetimeMatches_of_matches hb).trans (lifetimeMatches_of_matches hc).symm

def AcquiredBy (node : Node) (entry : Lifecycle.Entry) : Prop :=
  entry.pid = node.pid ∧ entry.acquiredContextId = node.contextId ∧ entry.acquiredSequence = node.sequence

def ReleasedBy (node : Node) (entry : Lifecycle.Entry) : Prop :=
  entry.live = false ∧ entry.releasedContextId = node.contextId ∧ entry.releasedSequence = node.sequence

structure Shows (nodes : List Node) (pid : ℤ) (lifetime : Lifetime ResourceName)
    (entry : Lifecycle.Entry) : Prop where
  pid : entry.pid = pid
  key : (entry.resourceClass, entry.resourceId) = lifetime.key
  acquired : ∃ node, nodes[lifetime.opener]? = some node ∧ AcquiredBy node entry
  live : lifetime.closer = none → entry.live = true
  released : ∀ j, lifetime.closer = some j → ∃ node, nodes[j]? = some node ∧ ReleasedBy node entry

theorem Shows.mono {nodes : List Node} {node : Node} {pid : ℤ} {lifetime : Lifetime ResourceName}
    {entry : Lifecycle.Entry} (h : Shows nodes pid lifetime entry) :
    Shows (nodes ++ [node]) pid lifetime entry := by
  have hkeep : ∀ {i : ℕ} {n : Node}, nodes[i]? = some n → (nodes ++ [node])[i]? = some n := by
    intro i n hn
    rw [List.getElem?_append_left (List.getElem?_eq_some_iff.mp hn).1]
    exact hn
  obtain ⟨hpid, hkey, ⟨acquirer, hacquirer, hacquired⟩, hlive, hreleased⟩ := h
  refine ⟨hpid, hkey, ⟨acquirer, hkeep hacquirer, hacquired⟩, hlive, fun j hj => ?_⟩
  obtain ⟨releaser, hreleaser, hreleased⟩ := hreleased j hj
  exact ⟨releaser, hkeep hreleaser, hreleased⟩

theorem Shows.isOpen_eq {nodes : List Node} {pid : ℤ} {lifetime : Lifetime ResourceName}
    {entry : Lifecycle.Entry} (h : Shows nodes pid lifetime entry) (name : ResourceName) :
    lifetime.isOpen name = entry.matches pid name.1 name.2 true := by
  obtain ⟨hpid, hkey, -, hlive, hreleased⟩ := h
  have hopen : lifetime.closer = none ↔ entry.live = true := by
    refine ⟨hlive, fun hentry => Option.eq_none_iff_forall_ne_some.mpr fun j hj => ?_⟩
    obtain ⟨node, -, hnode, -⟩ := hreleased j hj
    rw [hnode] at hentry
    cases hentry
  have hname : lifetime.key = name ↔ entry.resourceClass = name.1 ∧ entry.resourceId = name.2 := by
    rw [← hkey, Prod.ext_iff]
  unfold Lifetime.isOpen Lifecycle.Entry.matches
  apply decide_eq_decide.mpr
  rw [hopen, hname]
  simp only [hpid, true_and, and_assoc, forall_const]

theorem Shows.close {nodes : List Node} {node : Node} {index : ℕ} (hnode : nodes[index]? = some node)
    {lifetime : Lifetime ResourceName} {entry : Lifecycle.Entry}
    (h : Shows nodes node.pid lifetime entry) :
    Shows nodes node.pid (lifetime.closeAt index) (entry.closedBy (recordFromNode node)) := by
  refine ⟨h.pid, h.key, h.acquired, nofun, fun j hj => ?_⟩
  obtain rfl := Option.some.inj hj
  exact ⟨node, hnode, rfl, rfl, rfl⟩

theorem closeLatest_eq (record : EventRecord) (name : ResourceName) (entries : List Lifecycle.Entry) :
    Lifecycle.closeLatest record name entries =
      (latestIndex (Lifecycle.Entry.matches record.pid name.1 name.2 true) entries).elim entries
        (entries.modify · (Lifecycle.Entry.closedBy record)) := by
  unfold Lifecycle.closeLatest Lifecycle.findLatest
  split
  · next index hlatest => rw [hlatest, Option.elim_some]
  · next hlatest => rw [hlatest, Option.elim_none]

/-- What a replayed node does to the entries is a step of the replay of the lifetimes. -/
theorem forall₂_step {nodes : List Node} {node : Node} {lifetimes : List (Lifetime ResourceName)}
    {entries entries' : List Lifecycle.Entry} {released acquired : Option ResourceName}
    (h : List.Forall₂ (Shows nodes node.pid) lifetimes entries)
    (hsteps : Lifecycle.StepsTo (recordFromNode node) released acquired entries entries') :
    List.Forall₂ (Shows (nodes ++ [node]) node.pid)
      (acquired.elim (released.elim lifetimes (fun name => Lifetimes.close nodes.length name lifetimes))
        (fun name => released.elim lifetimes (fun name => Lifetimes.close nodes.length name lifetimes) ++
          [{ key := name, opener := nodes.length }])) entries' := by
  have hnode : (nodes ++ [node])[nodes.length]? = some node := by simp
  have hgrown : List.Forall₂ (Shows (nodes ++ [node]) node.pid) lifetimes entries :=
    h.imp fun _ _ => Shows.mono
  have hclosed : List.Forall₂ (Shows (nodes ++ [node]) node.pid)
      (released.elim lifetimes (fun name => Lifetimes.close nodes.length name lifetimes))
      (released.elim entries (fun name => Lifecycle.closeLatest (recordFromNode node) name entries)) := by
    cases released with
    | none => exact hgrown
    | some name =>
      rw [Option.elim_some, Option.elim_some, closeLatest_eq]
      exact forall₂_close (fun _ _ hshows => hshows.isOpen_eq name) (fun _ _ hshows => hshows.close hnode) hgrown
  unfold Lifecycle.StepsTo at hsteps
  cases acquired with
  | none =>
    rw [hsteps]
    exact hclosed
  | some name =>
    obtain ⟨entry, hadded, rfl⟩ := hsteps
    apply List.rel_append hclosed
    refine .cons ⟨hadded.pid, ?_, ⟨node, hnode, hadded.pid, hadded.contextId, hadded.sequence⟩,
      fun _ => hadded.live, nofun⟩ .nil
    rw [hadded.resourceClass, hadded.resourceId]

/-- Attempted executions and forks act on several entries. -/
def IsSingle (node : Node) : Prop := node.recordKind ∉ [RecordKind.fork, .exec, .execFail]

variable {nodes : List Node} {pid : ℤ}

theorem forall₂_ingestAll (hpid : ∀ node ∈ nodes, node.pid = pid) (hsingle : ∀ node ∈ nodes, IsSingle node)
    {outcomes : List Bool} {v : World Lifecycle.Model}
    (h : forEach (fun node => Lifecycle.ingest lib (recordFromNode node)) (nodes.filter isReplayed)
      ⟨{}, outcomes⟩ = (.ok (), v)) :
    List.Forall₂ (Shows nodes pid) ((nodeEffects lib).run nodes) v.state.entries := by
  induction nodes using List.reverseRecOn generalizing v with
  | nil =>
    obtain rfl := (Prod.mk.inj h).2
    exact .nil
  | append_singleton nodes node ih =>
    obtain rfl : node.pid = pid := hpid node (by simp)
    rw [List.filter_append] at h
    obtain ⟨v₁, hbefore, hlast⟩ := forEach_append_eq_ok.mp h
    have hshown := ih (fun n hn => hpid n (List.mem_append_left _ hn))
      (fun n hn => hsingle n (List.mem_append_left _ hn)) hbefore
    have hcloses : (nodeEffects lib).closes node =
        if isReplayed node then releasedBy lib (recordFromNode node) else none := rfl
    have hopens : (nodeEffects lib).opens node =
        if isReplayed node then acquiredBy lib (recordFromNode node) else none := rfl
    rw [Effects.run_concat, Effects.step, hcloses, hopens]
    cases hreplayed : isReplayed node with
    | false =>
      rw [List.filter_cons_of_neg (by simp [hreplayed])] at hlast
      obtain rfl := (Prod.mk.inj hlast).2
      exact hshown.imp fun _ _ => Shows.mono
    | true =>
      rw [List.filter_cons_of_pos hreplayed] at hlast
      obtain ⟨⟨⟩, v₂, hingest, hnil⟩ := run_bind_eq_ok.mp hlast
      obtain rfl := (Prod.mk.inj hnil).2
      have hkind : (recordFromNode node).recordKind ∉ [RecordKind.fork, .exec, .execFail] :=
        hsingle node (by simp)
      exact forall₂_step hshown (Lifecycle.ingest_entries hkind hingest)

theorem Shows.clearPending {lifetime : Lifetime ResourceName} {entry : Lifecycle.Entry}
    (h : Shows nodes pid lifetime entry) : Shows nodes pid lifetime entry.clearPending :=
  ⟨h.pid, h.key, h.acquired, h.live, h.released⟩

/-- The entries of the lifecycle of a finished model stand for the lifetimes of its nodes. -/
theorem Finished.shows {model : Model} (h : Finished lib model)
    (hpid : ∀ node ∈ model.nodes, node.pid = pid) (hsingle : ∀ node ∈ model.nodes, IsSingle node) :
    ∃ lifecycle, model.lifecycle = some lifecycle ∧
      List.Forall₂ (Shows model.nodes pid) ((nodeEffects lib).run model.nodes) lifecycle.entries := by
  obtain ⟨outcomes, v, hreplay, hlifecycle⟩ := h.finishedFrom.lifecycle
  obtain ⟨⟨⟩, v₁, hingest, hfinish⟩ := run_bind_eq_ok.mp hreplay
  have hshown := forall₂_ingestAll hpid hsingle hingest
  refine ⟨v.state, hlifecycle, ?_⟩
  rcases Lifecycle.finish_entries hfinish with hsame | hcleared
  · rw [hsame]
    exact hshown
  · rw [hcleared, List.forall₂_map_right_iff]
    exact hshown.imp fun _ _ => Shows.clearPending

/-- The nodes of one context, in the order of their sequence numbers, none of which acts on
several entries. -/
structure OneContext (nodes : List Node) (pid : ℤ) (contextId : ℕ) : Prop where
  pid : ∀ node ∈ nodes, node.pid = pid
  contextId : ∀ node ∈ nodes, node.contextId = contextId
  increasing : nodes.Pairwise (fun earlier later => earlier.sequence < later.sequence)
  single : ∀ node ∈ nodes, IsSingle node

variable {contextId : ℕ}

theorem OneContext.lt_iff (h : OneContext nodes pid contextId) {i j : ℕ} {a b : Node}
    (ha : nodes[i]? = some a) (hb : nodes[j]? = some b) : a.sequence < b.sequence ↔ i < j := by
  obtain ⟨hi, rfl⟩ := List.getElem?_eq_some_iff.mp ha
  obtain ⟨hj, rfl⟩ := List.getElem?_eq_some_iff.mp hb
  have hlt : ∀ (k l : ℕ) (hk : k < nodes.length) (hl : l < nodes.length), k < l →
      nodes[k].sequence < nodes[l].sequence := List.pairwise_iff_getElem.mp h.increasing
  constructor
  · intro hsequence
    rcases Nat.lt_trichotomy i j with hij | rfl | hji
    · exact hij
    · exact absurd hsequence (Nat.lt_irrefl _)
    · have := hlt j i hj hi hji
      omega
  · exact hlt i j hi hj

theorem OneContext.index_eq (h : OneContext nodes pid contextId) {i j : ℕ} {a b : Node}
    (ha : nodes[i]? = some a) (hb : nodes[j]? = some b) (hsequence : a.sequence = b.sequence) : i = j := by
  have hij := h.lt_iff ha hb
  have hji := h.lt_iff hb ha
  omega

/-- The lifetimes that the replay closed are those of the released entries. -/
theorem closed_iff_entry (h : OneContext nodes pid contextId) {entries : List Lifecycle.Entry}
    (hshown : List.Forall₂ (Shows nodes pid) ((nodeEffects lib).run nodes) entries) {birth death : ℕ} :
    (nodeEffects lib).Closed nodes birth death ↔
      ∃ entry ∈ entries, ∃ b d, nodes[birth]? = some b ∧ nodes[death]? = some d ∧
        AcquiredBy b entry ∧ ReleasedBy d entry := by
  constructor
  · rintro ⟨lifetime, hmem, rfl, hcloser⟩
    obtain ⟨i, hi, rfl⟩ := List.getElem_of_mem hmem
    have hlength := hshown.length_eq
    have hshow := (List.forall₂_iff_get.mp hshown).2 i hi (hlength ▸ hi)
    obtain ⟨b, hb, hacquired⟩ := hshow.acquired
    obtain ⟨d, hd, hreleased⟩ := hshow.released death hcloser
    exact ⟨_, List.getElem_mem _, b, d, hb, hd, hacquired, hreleased⟩
  · rintro ⟨entry, hmem, b, d, hb, hd, ⟨-, -, hacquired⟩, hdead, -, hreleased⟩
    obtain ⟨i, hi, rfl⟩ := List.getElem_of_mem hmem
    have hlength := hshown.length_eq
    have hshow := (List.forall₂_iff_get.mp hshown).2 i (hlength ▸ hi) hi
    simp only [List.get_eq_getElem] at hshow
    refine ⟨_, List.getElem_mem (hlength ▸ hi), ?_, ?_⟩
    · obtain ⟨acquirer, hacquirer, -, -, hsequence⟩ := hshow.acquired
      exact h.index_eq hacquirer hb (hsequence.symm.trans hacquired)
    · cases hcloser : ((nodeEffects lib).run nodes)[i].closer with
      | none =>
        rw [hshow.live hcloser] at hdead
        cases hdead
      | some j =>
        obtain ⟨releaser, hreleaser, -, -, hsequence⟩ := hshow.released j hcloser
        rw [h.index_eq hreleaser hd (hsequence.symm.trans hreleased)]

/-- A search for the smallest of increasing numbers stops at the first candidate. -/
theorem foldl_smallest_of_some {α : Type*} {p : α → Bool} {number : α → ℕ} {numberAt : ℕ → ℕ} {found : ℕ}
    (xs : List (α × ℕ)) (h : ∀ x ∈ xs, numberAt found < number x.1) :
    xs.foldl (fun best x => if p x.1 = true ∧ (∀ index ∈ best, number x.1 < numberAt index) then some x.2
      else best) (some found) = some found := by
  induction xs with
  | nil => rfl
  | cons x xs ih =>
    have hx := h x List.mem_cons_self
    rw [List.foldl_cons, if_neg]
    · exact ih fun y hy => h y (List.mem_cons_of_mem _ hy)
    · rintro ⟨-, hless⟩
      have := hless found rfl
      omega

theorem foldl_smallest {α : Type*} {p : α → Bool} {number : α → ℕ} {numberAt : ℕ → ℕ} (xs : List α) (n : ℕ)
    (hat : ∀ (i : ℕ) (hi : i < xs.length), numberAt (n + i) = number xs[i])
    (hsorted : xs.Pairwise (fun x y => number x < number y)) :
    (xs.zipIdx n).foldl (fun best x => if p x.1 = true ∧ (∀ index ∈ best, number x.1 < numberAt index) then
      some x.2 else best) none = (xs.findIdx? p).map (fun i => n + i) := by
  induction xs generalizing n with
  | nil => rfl
  | cons x xs ih =>
    obtain ⟨hfirst, hrest⟩ := List.pairwise_cons.mp hsorted
    rw [List.zipIdx_cons, List.foldl_cons, List.findIdx?_cons]
    cases hx : p x with
    | true =>
      have hn : numberAt n = number x := hat 0 (Nat.zero_lt_succ _)
      rw [if_pos ⟨rfl, by simp⟩, foldl_smallest_of_some]
      · rfl
      · intro y hy
        rw [hn]
        exact hfirst y.1 (List.fst_mem_of_mem_zipIdx hy)
    | false =>
      have hnext : ∀ (i : ℕ) (hi : i < xs.length), numberAt (n + 1 + i) = number xs[i] := by
        intro i hi
        rw [Nat.add_assoc, Nat.add_comm 1 i]
        exact hat (i + 1) (Nat.succ_lt_succ hi)
      rw [if_neg (by simp), ih (n + 1) hnext hrest]
      cases xs.findIdx? p with
      | none => rfl
      | some i => simp [Nat.add_comm, Nat.add_left_comm]

/-- The test `find_lifetime_end` makes on each node. -/
def endsLifetime (birth death : Node) : Bool :=
  birth.sequence < death.sequence ∧ death.pid = birth.pid ∧ lifetimeMatches birth death

theorem findLifetimeEnd_eq_findIdx (h : OneContext nodes pid contextId) (birth : Node) :
    findLifetimeEnd lib nodes birth =
      if isLifetimeBirth lib birth then nodes.findIdx? (endsLifetime birth) else none := by
  have hat : ∀ (i : ℕ) (hi : i < nodes.length), sequenceAt nodes (0 + i) = nodes[i].sequence := by
    intro i hi
    rw [Nat.zero_add, sequenceAt, List.getElem?_eq_getElem hi]
    rfl
  have hsearch := foldl_smallest (p := endsLifetime birth) nodes 0 hat h.increasing
  have hstep : (fun (best : Option ℕ) (death : Node × ℕ) =>
      if birth.sequence < death.1.sequence ∧ death.1.pid = birth.pid ∧ lifetimeMatches birth death.1 ∧
        (∀ index ∈ best, death.1.sequence < sequenceAt nodes index) then some death.2 else best) =
      fun best death => if endsLifetime birth death.1 = true ∧
        (∀ index ∈ best, death.1.sequence < sequenceAt nodes index) then some death.2 else best := by
    funext best death
    simp only [endsLifetime, decide_eq_true_eq, and_assoc]
  unfold findLifetimeEnd
  rw [hstep, hsearch]
  simp

/-- In one context the search finds the first later node that ends the lifetime. -/
theorem findLifetimeEnd_eq_some_iff (h : OneContext nodes pid contextId) {birth death : ℕ} {b : Node}
    (hb : nodes[birth]? = some b) (hdomain : b.domain = .resource) :
    findLifetimeEnd lib nodes b = some death ↔ ∃ d, (lifetimeSearch lib).FirstEnd nodes birth death b d := by
  have hends : ∀ (l : ℕ) (e : Node), nodes[l]? = some e →
      (endsLifetime b e = true ↔ birth < l ∧ lifetimeMatches b e = true) := by
    intro l e he
    have hpid : e.pid = b.pid :=
      (h.pid e (List.mem_of_getElem? he)).trans (h.pid b (List.mem_of_getElem? hb)).symm
    simp only [endsLifetime, decide_eq_true_eq, h.lt_iff hb he, hpid, true_and]
  have hbegins : (lifetimeSearch lib).begins b = isLifetimeBirth lib b := by
    simp [lifetimeSearch, hdomain]
  rw [findLifetimeEnd_eq_findIdx h]
  constructor
  · intro hfound
    split at hfound
    · next hbirth =>
      obtain ⟨hdeath, hd, hfirst⟩ := List.findIdx?_eq_some_iff_getElem.mp hfound
      have hat := List.getElem?_eq_getElem hdeath
      obtain ⟨hlt, hmatches⟩ := (hends death _ hat).mp hd
      refine ⟨nodes[death], hlt, hb, hat, hbegins.trans hbirth, hmatches, fun l e hbl hld he => ?_⟩
      obtain ⟨hl, rfl⟩ := List.getElem?_eq_some_iff.mp he
      apply Bool.eq_false_of_not_eq_true
      exact fun hmatch => hfirst l hld ((hends l _ he).mpr ⟨hbl, hmatch⟩)
    · cases hfound
  · rintro ⟨d, hfirst⟩
    rw [if_pos (hbegins.symm.trans hfirst.begins), List.findIdx?_eq_some_iff_getElem]
    obtain ⟨hdeath, hd⟩ := List.getElem?_eq_some_iff.mp hfirst.ending
    refine ⟨hdeath, ?_, fun l hld hmatch => ?_⟩
    · rw [hd]
      exact (hends death d hfirst.ending).mpr ⟨hfirst.lt, hfirst.ends⟩
    · have hat := List.getElem?_eq_getElem (Nat.lt_trans hld hdeath)
      obtain ⟨hbl, hmatches⟩ := (hends l _ hat).mp hmatch
      have hnot := hfirst.first l _ hbl hld hat
      exact absurd (hmatches.symm.trans hnot) (by simp)

theorem finds_iff_edge {model : Model} (hfinished : Finished lib model)
    (h : OneContext model.nodes pid contextId) {birth death : ℕ} :
    (lifetimeSearch lib).Finds model.nodes birth death ↔ ⟨.resourceLifetime, birth, death⟩ ∈ model.edges := by
  rw [hfinished.finishedFrom.edges, resourceLifetime_mem_edgesOf]
  constructor
  · rintro ⟨b, d, hfirst⟩
    have hdomain : b.domain = .resource := by
      have hbegins := hfirst.begins
      simp only [lifetimeSearch, decide_eq_true_eq] at hbegins
      exact hbegins.1
    exact ⟨b, hfirst.beginning, hdomain, (findLifetimeEnd_eq_some_iff h hfirst.beginning hdomain).mpr ⟨d, hfirst⟩⟩
  · rintro ⟨b, hb, hdomain, hfound⟩
    obtain ⟨d, hfirst⟩ := (findLifetimeEnd_eq_some_iff h hb hdomain).mp hfound
    exact ⟨b, d, hfirst⟩

/-- Every edge of a lifetime is an entry that was acquired and released at its ends, and
conversely. -/
def ViewsAgree (model : Model) : Prop :=
  ∀ birth death, ⟨.resourceLifetime, birth, death⟩ ∈ model.edges ↔
    ∃ lifecycle, model.lifecycle = some lifecycle ∧ ∃ entry ∈ lifecycle.entries, ∃ b d,
      model.nodes[birth]? = some b ∧ model.nodes[death]? = some d ∧ AcquiredBy b entry ∧ ReleasedBy d entry

theorem viewsAgree_iff_regular {model : Model} (hfinished : Finished lib model)
    (h : OneContext model.nodes pid contextId) :
    ViewsAgree model ↔ (lifetimeSearch lib).Regular (nodeEffects lib) model.nodes := by
  obtain ⟨lifecycle, hlifecycle, hshown⟩ := hfinished.shows h.pid h.single
  rw [← Search.finds_iff_closed_iff_regular search_covers]
  apply forall_congr'
  intro birth
  apply forall_congr'
  intro death
  rw [finds_iff_edge hfinished h, closed_iff_entry h hshown, hlifecycle]
  simp only [Option.some.injEq, exists_eq_left']

def allocationRecord (allocKind : AllocKind) (sequence : ℕ) (ptr : String) (newPtr : Option String) :
    EventRecord where
  recordKind := .alloc
  allocKind := allocKind
  runId := some (.ofString "a")
  pid := 1
  contextId := 1
  sequence := sequence
  ptr := some (.ofString ptr)
  newPtr := newPtr.map .ofString
  size := 8
  lineNumber := 3
  functionName := some (.ofString "f")
  fileName := some (.ofString "c")

/-- The reallocation returned no pointer, so the allocation is still live. -/
def failedReallocation : List EventRecord :=
  [allocationRecord .alloc 1 "0x1" none, allocationRecord .realloc 2 "0x1" none]

def movedAllocation : List EventRecord :=
  [allocationRecord .alloc 1 "0x1" none, allocationRecord .realloc 2 "0x1" (some "0x2"),
    allocationRecord .free 3 "0x2" none]

instance (node : Node) : Decidable (IsSingle node) :=
  inferInstanceAs (Decidable (node.recordKind ∉ [RecordKind.fork, .exec, .execFail]))

theorem viewsAgree_iff_regular_movedAllocation :
    ViewsAgree (modelOf .standard movedAllocation) ↔
      (lifetimeSearch .standard).Regular (nodeEffects .standard) (modelOf .standard movedAllocation).nodes := by
  have hfinished : Finished .standard (modelOf .standard movedAllocation) := finished_modelOf _ (by decide)
  have hcontext : OneContext (modelOf .standard movedAllocation).nodes 1 1 :=
    ⟨by decide, by decide, by decide, by decide⟩
  exact viewsAgree_iff_regular hfinished hcontext

/-- The failed reallocation ends the lifetime of an edge and no entry. -/
theorem failedReallocation_disagrees :
    Finished .standard (modelOf .standard failedReallocation) ∧
      OneContext (modelOf .standard failedReallocation).nodes 1 1 ∧
      (∀ lifecycle ∈ (modelOf .standard failedReallocation).lifecycle,
        ∀ finding ∈ lifecycle.findings, finding.kind ≠ .duplicateAcquire) ∧
      ¬ ViewsAgree (modelOf .standard failedReallocation) := by
  have hfinished : Finished .standard (modelOf .standard failedReallocation) := finished_modelOf _ (by decide)
  have hedge : ⟨.resourceLifetime, 0, 1⟩ ∈ (modelOf .standard failedReallocation).edges := by decide
  have hlive : ∀ lifecycle ∈ (modelOf .standard failedReallocation).lifecycle,
      ∀ entry ∈ lifecycle.entries, entry.live = true := by decide
  refine ⟨hfinished, ⟨by decide, by decide, by decide, by decide⟩, by decide, fun hagree => ?_⟩
  obtain ⟨lifecycle, hlifecycle, entry, hentry, b, d, -, -, -, hdead, -⟩ := (hagree 0 1).mp hedge
  rw [hlive lifecycle hlifecycle entry hentry] at hdead
  cases hdead

end ToolEvent.RunModel
