import ToolEvent.ResourceSummary

/-!
# The texts that are read as resource summaries

What `p101_tool_event_parse_resource_summary_json` accepts: an object with twelve members that
occur once, whose values the summary holds, among members that are stepped over.
-/

namespace ToolEvent.Summary

open Fallible ModelAnalysis TakenOnce

section Documents

variable (IsNestedKey Decodes : List UInt8 → Text → Prop)

/-- An object with one member `complete`, which is a word for a truth value. The keys inside the values
that are stepped over have a grammar of their own. -/
def IsLogHealth (bytes : List UInt8) (complete : Bool) : Prop :=
  ∃ members body, bytes = 123 :: body ∧ Json.Members (FitsKey Decodes) true members body ∧
    valuesOf completeKey members = [Json.boolWord complete] ∧
    ∀ member ∈ members, member.1 ≠ completeKey → Json.IsValue IsNestedKey (IsString Decodes) (jsonMaxDepth - 1) member.2

def SpellsField (summary : ResourceSummary) : ResourceField → List UInt8 → Prop
  | .schema, value => Decodes value resourceSchema
  | .counter c, value => Decimal.IsNumeral value ∧ Decimal.value value ≤ sizeMax ∧ summary.counter c = Decimal.value value
  | .logHealth, value => IsLogHealth IsNestedKey Decodes value summary.logComplete

/-- The text is an object that spells the summary, with white space around it. -/
def Describes (bytes : List UInt8) (summary : ResourceSummary) : Prop :=
  ∃ before members body after, bytes = before ++ (123 :: body ++ after) ∧ Json.IsSpace before ∧ Json.IsSpace after ∧
    Json.Members (FitsKey Decodes) true members body ∧
    (∀ field : ResourceField, ∃ value, valuesOf field.key members = [value] ∧
      SpellsField IsNestedKey Decodes summary field value) ∧
    (∀ member ∈ members, (∀ field : ResourceField, member.1 ≠ field.key) →
      Json.IsValue IsNestedKey (IsString Decodes) jsonMaxDepth member.2) ∧
    summary.parsed = true

end Documents

/-- The text of an object from a member on, with the literals of the keys. -/
def compactMembers : Bool → List (Text × List UInt8) → List UInt8
  | _, [] => [125]
  | first, (key, value) :: members =>
    (if first then [] else [44]) ++ ((writeJsonString key).bytes ++ (58 :: (value ++ compactMembers false members)))

theorem members_compactMembers {IsKey : List UInt8 → Text → Prop} (first : Bool) (members : List (Text × List UInt8))
    (hkeys : ∀ member ∈ members, IsKey (writeJsonString member.1).bytes member.1) :
    Json.Members IsKey first members (compactMembers first members) := by
  induction members generalizing first with
  | nil => exact .close Json.isSpace_nil
  | cons member members ih =>
    obtain ⟨key, value⟩ := member
    obtain ⟨hkey, hkeys⟩ := List.forall_mem_cons.mp hkeys
    have hlead : Json.IsLead first (if first then [] else [44]) := by
      cases first with
      | true => exact Json.isSpace_nil
      | false => exact ⟨[], [], Json.isSpace_nil, Json.isSpace_nil, rfl⟩
    have hmember : Json.Members IsKey first ((key, value) :: members) _ :=
      .member hlead hkey Json.isSpace_nil Json.isSpace_nil (ih false hkeys)
    exact hmember

/-- A run whose log is complete and where nothing was found, among further members. -/
def plainMembers (further : List (Text × List UInt8)) : List (Text × List UInt8) :=
  ResourceField.all.map (fun field => (field.key, match field with
    | .schema => (writeJsonString resourceSchema).bytes
    | .counter _ => [48]
    | .logHealth => 123 :: compactMembers true [(completeKey, Json.boolWord true)])) ++ further

section LogHealth

variable (Decodes : List UInt8 → Text → Prop)

/-- What a member of `log_health` does to the state. -/
def HealthMember (key : Text) (value : List UInt8) (s s' : ResourceState) : Prop :=
  if key = completeKey then s.found = false ∧ ∃ complete, value = Json.boolWord complete ∧ s' = s.setComplete complete
  else Json.IsValue (FitsKey Decodes) (IsString Decodes) (jsonMaxDepth - 1) value ∧ s' = s

theorem takesOnce_healthMember :
    TakesOnce (fun _ : Unit => completeKey) (fun s _ => s.found = true)
      (fun _ value s => value = Json.boolWord s.summary.logComplete)
      (Json.IsValue (FitsKey Decodes) (IsString Decodes) (jsonMaxDepth - 1)) (HealthMember Decodes) where
  takes h := by
    rw [HealthMember, if_pos rfl] at h
    obtain ⟨hfound, complete, rfl, rfl⟩ := h
    exact ⟨ne_true_of_eq_false hfound, rfl, rfl⟩
  keeps h hkey := by
    rw [HealthMember, if_neg hkey] at h
    rw [h.2]
    exact ⟨Iff.rfl, fun _ => Iff.rfl⟩
  other h hkey := by
    rw [HealthMember, if_neg (hkey ())] at h
    exact h.1
  able {f value s s₀} hfound hvalue := by
    refine ⟨s.setComplete s₀.summary.logComplete, ?_⟩
    rw [HealthMember, if_pos rfl]
    exact ⟨eq_false_of_ne_true hfound, _, hvalue, rfl⟩
  able_other {key value s} hkey hvalue := by
    refine ⟨s, ?_⟩
    rw [HealthMember, if_neg (hkey ())]
    exact ⟨hvalue, rfl⟩

/-- The members of `log_health` set nothing but its truth value. -/
theorem setComplete_of_handles {members : List (Text × List UInt8)} {s s' : ResourceState}
    (h : Handles (HealthMember Decodes) members s s') (complete : Bool) : s'.setComplete complete = s.setComplete complete := by
  apply h.related (R := fun s s' => s'.setComplete complete = s.setComplete complete)
  · exact fun _ => rfl
  · exact fun h h' => h'.trans h
  · intro key value s t hmember
    rw [HealthMember] at hmember
    split at hmember
    · obtain ⟨-, _, -, rfl⟩ := hmember
      rfl
    · rw [hmember.2]

theorem handles_healthMember_iff {members : List (Text × List UInt8)} {s s' : ResourceState} (hfound : s.found = false) :
    (Handles (HealthMember Decodes) members s s' ∧ s'.found = true) ↔
      ∃ complete, valuesOf completeKey members = [Json.boolWord complete] ∧
        (∀ member ∈ members, member.1 ≠ completeKey →
          Json.IsValue (FitsKey Decodes) (IsString Decodes) (jsonMaxDepth - 1) member.2) ∧ s' = s.setComplete complete := by
  have htakes := takesOnce_healthMember Decodes
  have hunseen : ¬ s.found = true := ne_true_of_eq_false hfound
  have hset : ∀ t : ResourceState, Handles (HealthMember Decodes) members s t → t.found = true →
      t = s.setComplete t.summary.logComplete := by
    intro t hhandles ht
    rw [← setComplete_of_handles Decodes hhandles, ResourceState.setComplete, ← ht]
  constructor
  · rintro ⟨hhandles, hfound'⟩
    obtain ⟨value, hvalues, rfl⟩ := htakes.taken (f := ()) hhandles hunseen hfound'
    exact ⟨_, hvalues, fun member hmember hkey => htakes.others hhandles member hmember fun _ => hkey, hset s' hhandles hfound'⟩
  · rintro ⟨complete, hvalues, hothers, rfl⟩
    have hfields : ∃ t, Handles (HealthMember Decodes) members s t ∧ ∀ _ : Unit, t.found = true :=
      (htakes.handles_iff fun _ => hunseen).mpr ⟨fun _ => ⟨_, s.setComplete complete, hvalues, rfl⟩,
        fun member hmember hkey => hothers member hmember (hkey ())⟩
    obtain ⟨t, hhandles, ht⟩ := hfields
    obtain ⟨value, hvalues', rfl⟩ := htakes.taken (f := ()) hhandles hunseen (ht ())
    have hword : Json.boolWord complete = Json.boolWord t.summary.logComplete := by
      rw [hvalues] at hvalues'
      exact (List.cons.inj hvalues').1
    have hcomplete : complete = t.summary.logComplete := by
      generalize t.summary.logComplete = complete' at hword
      cases complete <;> cases complete' <;> first | rfl | cases hword
    rw [hcomplete, ← hset t hhandles (ht ())]
    exact ⟨hhandles, ht ()⟩

variable {Decodes} {lib : JsonLibrary} {bytes : List UInt8} {s s' : ResourceState}

theorem accepts_updateResource {f : ResourceState → ResourceState} :
    Accepts (updateResource f) bytes s (fun lit _ s' => lit = [] ∧ s' = f s) := accepts_update ⟨rfl, rfl⟩

theorem accepts_parseBoolean : Accepts parseBoolean bytes s
    (fun lit complete s' => lit = Json.boolWord complete ∧ s' = s) := by
  apply accepts_onBytes
  intro complete rest hparse
  split_ifs at hparse with htrue hfalse
  · obtain ⟨rfl, rfl⟩ := Prod.mk.inj (Option.some.inj hparse)
    obtain ⟨rest, rfl⟩ := List.isPrefixOf_iff_prefix.mp htrue
    exact ⟨Json.boolWord true, rfl, rfl, rfl⟩
  · obtain ⟨rfl, rfl⟩ := Prod.mk.inj (Option.some.inj hparse)
    obtain ⟨rest, rfl⟩ := List.isPrefixOf_iff_prefix.mp hfalse
    exact ⟨Json.boolWord false, rfl, rfl, rfl⟩

theorem run_parseBoolean_append (complete : Bool) (rest : List UInt8) (s : ResourceState) :
    parseBoolean (.within (Json.boolWord complete ++ rest), s) = (.ok complete, .within rest, s) := by
  cases complete <;> rfl

theorem accepts_healthMember (h : ReadsLiterals lib Decodes) (key : Text) (bytes : List UInt8) (s : ResourceState) :
    Accepts (healthMember lib key) bytes s
      (fun lit _ s' => ∃ space value, lit = space ++ value ∧ Json.IsSpace space ∧ HealthMember Decodes key value s s') := by
  apply accepts_read_bind
  apply Accepts.ite
  · intro hkey
    apply Accepts.ite
    · exact fun _ => accepts_reject
    intro hfound
    apply accepts_parseBoolean.bind
    rintro lit rest complete _ - ⟨rfl, rfl⟩
    apply accepts_update
    refine ⟨[], _, (List.append_nil _), Json.isSpace_nil, ?_⟩
    rw [HealthMember, if_pos hkey]
    exact ⟨eq_false_of_ne_true hfound, complete, rfl, rfl⟩
  · intro hkey
    apply (accepts_skipValue h _ _ _).imp
    rintro lit _ s' ⟨⟨space, value, rfl, hspace, hvalue⟩, rfl⟩
    refine ⟨space, value, rfl, hspace, ?_⟩
    rw [HealthMember, if_neg hkey]
    exact ⟨hvalue, rfl⟩

theorem handlesValues_healthMember (h : ReadsLiterals lib Decodes) :
    HandlesValues (healthMember lib) (HealthMember Decodes) where
  opens {key value s s'} hmember := by
    rw [HealthMember] at hmember
    split at hmember
    · obtain ⟨-, complete, rfl, -⟩ := hmember
      cases complete <;> exact ⟨rfl, by decide⟩
    · exact hmember.1.opens fun ⟨_, hdecodes⟩ => h.quote hdecodes
  runs {key value s s'} rest hmember hends := by
    rw [healthMember, run_read_bind]
    dsimp only
    by_cases hkey : key = completeKey
    · rw [HealthMember, if_pos hkey] at hmember
      obtain ⟨hfound, complete, rfl, rfl⟩ := hmember
      rw [if_pos hkey, hfound, if_neg Bool.false_ne_true, run_bind_of_ok (run_parseBoolean_append complete rest s)]
      rfl
    · rw [HealthMember, if_neg hkey] at hmember
      obtain ⟨hvalue, rfl⟩ := hmember
      rw [if_neg hkey]
      exact skipsValues_skipValue h _ [] value rest s' Json.isSpace_nil hvalue hends

theorem accepts_parseLogHealth (h : ReadsLiterals lib Decodes) : Accepts (parseLogHealth lib) bytes s
    (fun lit _ s' => ∃ complete, IsLogHealth (FitsKey Decodes) Decodes lit complete ∧ s' = s.setComplete complete) := by
  apply accepts_updateResource.bind
  rintro _ _ ⟨⟩ _ rfl ⟨rfl, rfl⟩
  apply (accepts_readObject h (accepts_healthMember h)).bind
  rintro _ rest ⟨⟩ s' - ⟨members, body, rfl, hmembers, hhandles⟩
  apply accepts_read_bind
  apply Accepts.ite
  · intro hfound
    obtain ⟨complete, hvalues, hothers, rfl⟩ := (handles_healthMember_iff Decodes rfl).mp ⟨hhandles, hfound⟩
    refine accepts_pure ⟨complete, ⟨members, body, ?_, hmembers, hvalues, hothers⟩, rfl⟩
    rw [List.append_nil, List.nil_append]
  · exact fun _ => accepts_reject

theorem run_parseLogHealth_append (h : ReadsLiterals lib Decodes) {complete : Bool}
    (hhealth : IsLogHealth (FitsKey Decodes) Decodes bytes complete) (rest : List UInt8) (s : ResourceState) :
    parseLogHealth lib (.within (bytes ++ rest), s) = (.ok (), .within rest, s.setComplete complete) := by
  obtain ⟨members, body, rfl, hmembers, hvalues, hothers⟩ := hhealth
  obtain ⟨hhandles, hfound⟩ := (handles_healthMember_iff Decodes (s := { s with found := false }) rfl).mpr
    ⟨complete, hvalues, hothers, rfl⟩
  rw [parseLogHealth, updateResource, run_update_bind,
    run_bind_of_ok (run_readObject_append h (handlesValues_healthMember h) hmembers hhandles rest), run_read_bind]
  rfl

end LogHealth

section Members

variable (Decodes : List UInt8 → Text → Prop)

def ReadsField (field : ResourceField) (value : List UInt8) (s s' : ResourceState) : Prop :=
  match field with
  | .schema => ∃ text, Decodes value text ∧ text.length < jsonKeyCapacity ∧ s' = { s with schemaOk := text = resourceSchema }
  | .counter c => Decimal.IsNumeral value ∧ Decimal.value value ≤ sizeMax ∧ s' = s.setCounter c (Decimal.value value)
  | .logHealth => ∃ complete, IsLogHealth (FitsKey Decodes) Decodes value complete ∧ s' = s.setComplete complete

def HoldsField (field : ResourceField) (value : List UInt8) (s : ResourceState) : Prop :=
  match field with
  | .schema => ∃ text, Decodes value text ∧ text.length < jsonKeyCapacity ∧ s.schemaOk = decide (text = resourceSchema)
  | .counter c => Decimal.IsNumeral value ∧ Decimal.value value ≤ sizeMax ∧ s.summary.counter c = Decimal.value value
  | .logHealth => IsLogHealth (FitsKey Decodes) Decodes value s.summary.logComplete

inductive ResourceMember : Text → List UInt8 → ResourceState → ResourceState → Prop
  | known {field : ResourceField} {value : List UInt8} {s t : ResourceState} (hseen : s.seen field = false)
      (hreads : ReadsField Decodes field value s t) : ResourceMember field.key value s (t.see field)
  | unknown {key : Text} {value : List UInt8} {s : ResourceState} (hkey : ∀ field : ResourceField, key ≠ field.key)
      (hvalue : Json.IsValue (FitsKey Decodes) (IsString Decodes) jsonMaxDepth value) : ResourceMember key value s s

variable {Decodes} {field field' : ResourceField} {value value' : List UInt8} {s s' t : ResourceState}

theorem ReadsField.seen (h : ReadsField Decodes field value s t) : t.seen = s.seen := by
  cases field with
  | schema =>
    obtain ⟨_, -, -, rfl⟩ := h
    rfl
  | counter c =>
    obtain ⟨-, -, rfl⟩ := h
    rfl
  | logHealth =>
    obtain ⟨_, -, rfl⟩ := h
    rfl

theorem ReadsField.holds (h : ReadsField Decodes field value s t) : HoldsField Decodes field value t := by
  cases field with
  | schema =>
    obtain ⟨text, hdecodes, hlength, rfl⟩ := h
    exact ⟨text, hdecodes, hlength, rfl⟩
  | counter c =>
    obtain ⟨hnumeral, hfits, rfl⟩ := h
    exact ⟨hnumeral, hfits, Function.update_self c _ _⟩
  | logHealth =>
    obtain ⟨complete, hhealth, rfl⟩ := h
    exact hhealth

/-- The value of a member leaves what the state holds of the others. -/
theorem ReadsField.keeps (h : ReadsField Decodes field value s t) (hfield : field' ≠ field) (v : List UInt8) :
    HoldsField Decodes field' v t ↔ HoldsField Decodes field' v s := by
  cases field with
  | schema =>
    obtain ⟨text, -, -, rfl⟩ := h
    cases field' with
    | schema => exact absurd rfl hfield
    | counter c => rfl
    | logHealth => rfl
  | counter c =>
    obtain ⟨-, -, rfl⟩ := h
    cases field' with
    | schema => rfl
    | counter c' =>
      have hcounter : (s.setCounter c (Decimal.value value)).summary.counter c' = s.summary.counter c' :=
        Function.update_of_ne (fun hc => hfield (congrArg ResourceField.counter hc)) _ _
      simp only [HoldsField, hcounter]
    | logHealth => rfl
  | logHealth =>
    obtain ⟨complete, -, rfl⟩ := h
    cases field' with
    | schema => rfl
    | counter c => rfl
    | logHealth => exact absurd rfl hfield

theorem HoldsField.readable (h : HoldsField Decodes field value s') (s : ResourceState) :
    ∃ t, ReadsField Decodes field value s t := by
  cases field with
  | schema =>
    obtain ⟨text, hdecodes, hlength, -⟩ := h
    exact ⟨_, text, hdecodes, hlength, rfl⟩
  | counter c =>
    obtain ⟨hnumeral, hfits, -⟩ := h
    exact ⟨_, hnumeral, hfits, rfl⟩
  | logHealth => exact ⟨_, _, h, rfl⟩

theorem takesOnce_resourceMember :
    TakesOnce ResourceField.key (fun s field => s.seen field = true) (HoldsField Decodes)
      (Json.IsValue (FitsKey Decodes) (IsString Decodes) jsonMaxDepth) (ResourceMember Decodes) where
  takes {f value s s'} h := by
    generalize hkey : f.key = key at h
    cases h with
    | @known field _ _ t hseen hreads =>
      obtain rfl := ResourceField.key_injective hkey
      refine ⟨ne_true_of_eq_false hseen, Function.update_self f _ _, ?_⟩
      exact hreads.holds
    | unknown hother _ => exact absurd hkey.symm (hother f)
  keeps {f key value s s'} h hkey := by
    cases h with
    | @known field _ _ t hseen hreads =>
      have hfield : f ≠ field := fun h => hkey (h ▸ rfl)
      have hseen' : (t.see field).seen f = s.seen f := (Function.update_of_ne hfield _ _).trans (congrFun hreads.seen f)
      rw [hseen']
      exact ⟨Iff.rfl, hreads.keeps hfield⟩
    | unknown _ _ => exact ⟨Iff.rfl, fun _ => Iff.rfl⟩
  other {key value s s'} h hkey := by
    cases h with
    | @known field _ _ _ _ _ => exact absurd rfl (hkey field)
    | unknown _ hvalue => exact hvalue
  able {f value s s₀} hseen hholds := by
    obtain ⟨t, hreads⟩ := hholds.readable s
    exact ⟨_, .known (eq_false_of_ne_true hseen) hreads⟩
  able_other hkey hvalue := ⟨_, .unknown hkey hvalue⟩

variable {lib : JsonLibrary} {bytes : List UInt8}

theorem accepts_readField (h : ReadsLiterals lib Decodes) (field : ResourceField) (bytes : List UInt8) (s : ResourceState) :
    Accepts (readField lib field) bytes s (fun lit _ s' => ReadsField Decodes field lit s s') := by
  cases field with
  | schema =>
    apply (h.accepts (some jsonKeyCapacity) _ _).bind
    rintro lit rest text _ - ⟨hdecodes, hlength, rfl⟩
    apply accepts_updateResource.imp
    rintro _ _ s' ⟨rfl, rfl⟩
    rw [List.append_nil]
    exact ⟨text, hdecodes, hlength _ rfl, rfl⟩
  | counter c =>
    apply accepts_parseSize.bind
    rintro lit rest n _ - ⟨hnumeral, rfl, hfits, rfl⟩
    apply accepts_updateResource.imp
    rintro _ _ s' ⟨rfl, rfl⟩
    rw [List.append_nil]
    exact ⟨hnumeral, hfits, rfl⟩
  | logHealth => exact accepts_parseLogHealth h

theorem accepts_resourceMember (h : ReadsLiterals lib Decodes) (key : Text) (bytes : List UInt8) (s : ResourceState) :
    Accepts (resourceMember lib key) bytes s
      (fun lit _ s' => ∃ space value, lit = space ++ value ∧ Json.IsSpace space ∧ ResourceMember Decodes key value s s') := by
  apply accepts_read_bind
  dsimp only
  by_cases hknown : ∃ field : ResourceField, key = field.key
  · obtain ⟨field, rfl⟩ := hknown
    rw [field.find_key]
    apply Accepts.ite
    · exact fun _ => accepts_reject
    intro hseen
    apply (accepts_readField h field bytes s).bind
    rintro lit rest ⟨⟩ t - hreads
    apply accepts_updateResource.imp
    rintro _ _ s' ⟨rfl, rfl⟩
    rw [List.append_nil]
    exact ⟨[], lit, rfl, Json.isSpace_nil, .known (eq_false_of_ne_true hseen) hreads⟩
  · have hkey : ∀ field : ResourceField, key ≠ field.key := not_exists.mp hknown
    rw [ResourceField.find_other hkey]
    apply (accepts_skipValue h _ _ _).imp
    rintro lit _ s' ⟨⟨space, value, rfl, hspace, hvalue⟩, rfl⟩
    exact ⟨space, value, rfl, hspace, .unknown hkey hvalue⟩

theorem ReadsField.opens (hreads : ReadsField Decodes field value s t) (h : ReadsLiterals lib Decodes) : Json.Opens value := by
  cases field with
  | schema =>
    obtain ⟨text, hdecodes, -, -⟩ := hreads
    have hhead := h.opens hdecodes []
    rw [List.append_nil] at hhead
    rw [Json.Opens, hhead]
    exact ⟨rfl, by decide⟩
  | counter c => exact Json.opens_of_isDigit (Json.isDigit_of_isNumeral hreads.1)
  | logHealth =>
    obtain ⟨_, ⟨_, body, rfl, -⟩, -⟩ := hreads
    exact ⟨rfl, by simp⟩

theorem run_readField_append (hreads : ReadsField Decodes field value s t) (h : ReadsLiterals lib Decodes) {rest : List UInt8}
    (hends : EndsNumber rest) : readField lib field (.within (value ++ rest), s) = (.ok (), .within rest, t) := by
  cases field with
  | schema =>
    obtain ⟨text, hdecodes, hlength, rfl⟩ := hreads
    have hfits : ∀ n ∈ some jsonKeyCapacity, text.length < n := fun n hn => Option.some.inj hn ▸ hlength
    rw [readField, run_bind_of_ok (h.run hdecodes hfits rest s)]
    rfl
  | counter c =>
    obtain ⟨hnumeral, hfits, rfl⟩ := hreads
    rw [readField, run_bind_of_ok (run_parseSize_iff.mpr ⟨value, hnumeral, rfl, hends.digit, rfl, hfits⟩)]
    rfl
  | logHealth =>
    obtain ⟨complete, hhealth, rfl⟩ := hreads
    exact run_parseLogHealth_append h hhealth rest s

theorem handlesValues_resourceMember (h : ReadsLiterals lib Decodes) :
    HandlesValues (resourceMember lib) (ResourceMember Decodes) where
  opens {key value s s'} hmember := by
    cases hmember with
    | known _ hreads => exact hreads.opens h
    | unknown _ hvalue => exact hvalue.opens fun ⟨_, hdecodes⟩ => h.quote hdecodes
  runs {key value s s'} rest hmember hends := by
    rw [resourceMember, run_read_bind]
    dsimp only
    cases hmember with
    | @known field _ _ t hseen hreads =>
      rw [field.find_key]
      dsimp only
      rw [hseen, if_neg Bool.false_ne_true, run_bind_of_ok (run_readField_append hreads h hends)]
      rfl
    | unknown hkey hvalue =>
      rw [ResourceField.find_other hkey]
      exact skipsValues_skipValue h _ [] value rest s Json.isSpace_nil hvalue hends

end Members

section Summary

variable {lib : JsonLibrary} {Decodes : List UInt8 → Text → Prop} {members : List (Text × List UInt8)}

/-- What the members spell is what the state holds that they lead to. -/
theorem spells_of_handles {s' : ResourceState} (hhandles : Handles (ResourceMember Decodes) members {} s')
    (hseen : ∀ field, s'.seen field = true) (hschema : s'.schemaOk = true) (summary : ResourceSummary)
    (hcounter : summary.counter = s'.summary.counter) (hcomplete : summary.logComplete = s'.summary.logComplete)
    (field : ResourceField) :
    ∃ value, valuesOf field.key members = [value] ∧ SpellsField (FitsKey Decodes) Decodes summary field value := by
  obtain ⟨value, hvalues, hholds⟩ := takesOnce_resourceMember.taken hhandles Bool.false_ne_true (hseen field)
  refine ⟨value, hvalues, ?_⟩
  cases field with
  | schema =>
    obtain ⟨text, hdecodes, -, hok⟩ := hholds
    rw [hschema] at hok
    have htext : text = resourceSchema := of_decide_eq_true hok.symm
    rwa [htext] at hdecodes
  | counter c =>
    obtain ⟨hnumeral, hfits, hvalue⟩ := hholds
    exact ⟨hnumeral, hfits, (congrFun hcounter c).trans hvalue⟩
  | logHealth =>
    rw [SpellsField, hcomplete]
    exact hholds

theorem ReadsLiterals.functional (h : ReadsLiterals lib Decodes) {literal : List UInt8} {text text' : Text}
    (hdecodes : Decodes literal text) (hdecodes' : Decodes literal text') : text = text' := by
  have hread : lib.readString none (literal ++ []) = some (text, []) := h.reads.mpr ⟨literal, rfl, hdecodes, by simp⟩
  have hread' : lib.readString none (literal ++ []) = some (text', []) := h.reads.mpr ⟨literal, rfl, hdecodes', by simp⟩
  rw [hread] at hread'
  exact (Prod.mk.inj (Option.some.inj hread')).1

theorem IsLogHealth.functional (h : ReadsLiterals lib Decodes) {bytes : List UInt8} {complete complete' : Bool}
    (hhealth : IsLogHealth (FitsKey Decodes) Decodes bytes complete)
    (hhealth' : IsLogHealth (FitsKey Decodes) Decodes bytes complete') : complete = complete' := by
  have hrun := run_parseLogHealth_append h hhealth [] {}
  rw [run_parseLogHealth_append h hhealth' [] {}] at hrun
  have hstate := congrArg (fun result => result.2.2.summary.logComplete) hrun
  exact hstate.symm

/-- Members that spell a summary lead to a state that holds it. -/
theorem handles_of_spells (h : ReadsLiterals lib Decodes) {summary : ResourceSummary}
    (hfields : ∀ field : ResourceField, ∃ value, valuesOf field.key members = [value] ∧
      SpellsField (FitsKey Decodes) Decodes summary field value)
    (hothers : ∀ member ∈ members, (∀ field : ResourceField, member.1 ≠ field.key) →
      Json.IsValue (FitsKey Decodes) (IsString Decodes) jsonMaxDepth member.2) :
    ∃ s', Handles (ResourceMember Decodes) members {} s' ∧ (∀ field, s'.seen field = true) ∧ s'.schemaOk = true ∧
      s'.summary.counter = summary.counter ∧ s'.summary.logComplete = summary.logComplete := by
  have hholds : ∀ field : ResourceField, ∃ value s₀, valuesOf field.key members = [value] ∧ HoldsField Decodes field value s₀ := by
    intro field
    obtain ⟨value, hvalues, hspells⟩ := hfields field
    refine ⟨value, { summary := summary, schemaOk := true }, hvalues, ?_⟩
    cases field with
    | schema => exact ⟨resourceSchema, hspells, by decide, rfl⟩
    | counter c => exact hspells
    | logHealth => exact hspells
  obtain ⟨s', hhandles, hseen⟩ := (takesOnce_resourceMember.handles_iff (s := {}) fun _ => Bool.false_ne_true).mpr ⟨hholds, hothers⟩
  have hspelled : ∀ field : ResourceField, ∃ value, SpellsField (FitsKey Decodes) Decodes summary field value ∧
      HoldsField Decodes field value s' := by
    intro field
    obtain ⟨value, hvalues, hheld⟩ := takesOnce_resourceMember.taken hhandles Bool.false_ne_true (hseen field)
    obtain ⟨value', hvalues', hspells⟩ := hfields field
    rw [hvalues] at hvalues'
    obtain ⟨rfl, -⟩ := List.cons.inj hvalues'
    exact ⟨value, hspells, hheld⟩
  refine ⟨s', hhandles, hseen, ?_, ?_, ?_⟩
  · obtain ⟨value, hspells, text, hdecodes, -, hok⟩ := hspelled .schema
    rw [hok, h.functional hdecodes hspells]
    exact decide_eq_true rfl
  · funext c
    obtain ⟨value, hspells, hheld⟩ := hspelled (.counter c)
    exact hheld.2.2.trans hspells.2.2.symm
  · obtain ⟨value, hspells, hheld⟩ := hspelled .logHealth
    exact IsLogHealth.functional h hheld hspells

/-- The reader takes an object off the text, and notes whether its members are complete and the text ends. -/
theorem accepts_readResourceSummary (h : ReadsLiterals lib Decodes) (bytes : List UInt8) :
    Accepts (readResourceSummary lib) bytes {} (fun _ _ s' =>
      ∃ before body after rest t, bytes = before ++ (123 :: body ++ (after ++ rest)) ∧ Json.IsSpace before ∧ Json.IsSpace after ∧
        (∃ members, Json.Members (FitsKey Decodes) true members body ∧ Handles (ResourceMember Decodes) members {} t) ∧
        s' = t.finish (rest.headD 0)) := by
  apply accepts_skipSpace.bind
  rintro before bytes₁ ⟨⟩ _ rfl ⟨hbefore, rfl⟩
  apply (accepts_readObject h (accepts_resourceMember h)).bind
  rintro _ bytes₂ ⟨⟩ t rfl ⟨members, body, rfl, hmembers, hhandles⟩
  apply accepts_skipSpace.bind
  rintro after rest ⟨⟩ _ rfl ⟨hafter, rfl⟩
  apply accepts_peek_bind
  apply accepts_updateResource.imp
  rintro _ _ s' ⟨rfl, rfl⟩
  exact ⟨before, body, after, rest, _, rfl, hbefore, hafter, ⟨members, hmembers, hhandles⟩, rfl⟩

theorem run_readResourceSummary (h : ReadsLiterals lib Decodes) {before body after : List UInt8} (hbefore : Json.IsSpace before)
    (hafter : Json.IsSpace after) (hmembers : Json.Members (FitsKey Decodes) true members body) {t : ResourceState}
    (hhandles : Handles (ResourceMember Decodes) members {} t) :
    readResourceSummary lib (.within (before ++ (123 :: body ++ after)), {}) =
      (.ok (), .within [], t.finish 0) := by
  have hspace : skipSpace (.within after, t) = (.ok (), .within [], t) := by
    have hrun : skipSpace (.within (after ++ []), t) = (.ok (), .within [], t) := run_space hafter rfl t
    rwa [List.append_nil] at hrun
  rw [readResourceSummary, run_bind_of_ok (run_space hbefore rfl _),
    run_bind_of_ok (run_readObject_append h (handlesValues_resourceMember h) hmembers hhandles after), run_bind_of_ok hspace,
    run_peek_bind rfl]
  rfl

/-- A text is read as a summary if it spells the summary. -/
theorem parseResourceSummaryJson_iff (h : ReadsLiterals lib Decodes) (text : Text) (summary : ResourceSummary) :
    parseResourceSummaryJson lib text = (true, summary) ↔ Describes (FitsKey Decodes) Decodes text.bytes summary := by
  constructor
  · intro hparse
    rcases hrun : readResourceSummary lib (.within text.bytes, {}) with ⟨stop | ⟨⟩, cursor, state⟩
    · rw [parseResourceSummaryJson, hrun] at hparse
      cases hparse
    · rw [parseResourceSummaryJson, hrun] at hparse
      obtain ⟨hparsed, rfl⟩ := Prod.mk.inj hparse
      obtain ⟨_, _, _, -, ht, before, body, after, rest, t, hbytes, hbefore, hafter, ⟨members, hmembers, hhandles⟩, rfl⟩ :=
        (accepts_readResourceSummary h text.bytes).ok hrun
      obtain ⟨-, rfl⟩ := Prod.mk.inj ht
      obtain ⟨hzero, hseen, hschema⟩ := of_decide_eq_true hparsed
      have hseen' : ∀ field, t.seen field = true := fun field => hseen field field.mem_all
      have hend : rest = [] := by
        cases rest with
        | nil => rfl
        | cons b rest =>
          obtain rfl : b = 0 := hzero
          exact absurd (by rw [hbytes]; simp) text.nulFree
      rw [hend, List.append_nil] at hbytes
      exact ⟨before, members, body, after, hbytes, hbefore, hafter, hmembers,
        spells_of_handles hhandles hseen' hschema _ rfl rfl, takesOnce_resourceMember.others hhandles, hparsed⟩
  · rintro ⟨before, members, body, after, hbytes, hbefore, hafter, hmembers, hfields, hothers, hparsed⟩
    obtain ⟨t, hhandles, hseen, hschema, hcounter, hcomplete⟩ := handles_of_spells h hfields hothers
    have hrun := run_readResourceSummary h hbefore hafter hmembers hhandles
    have hfinish : (t.finish 0).summary.parsed = true := decide_eq_true ⟨rfl, fun field _ => hseen field, hschema⟩
    have hsummary : (t.finish 0).summary = summary :=
      ResourceSummary.ext hcounter hcomplete (hfinish.trans hparsed.symm)
    rw [parseResourceSummaryJson, hbytes, hrun, ← hsummary]
    exact Prod.ext hfinish rfl

end Summary

theorem pair_of_accepted {result : Bool × ResourceSummary} (h : result.1 = true) : result = (true, result.2) := Prod.ext h rfl

/-- The members from the last to the first, with white space around the object and behind an unknown member. -/
def scatteredDocument : Text :=
  ⟨32 :: 123 :: compactMembers true ((.ofString "tool", [91, 49, 44, 45, 50, 46, 53, 93, 9]) :: (plainMembers []).reverse) ++ [10],
    by decide +kernel⟩

theorem scatteredDocument_describes :
    Describes (FitsKey IsLiteral) IsLiteral scatteredDocument.bytes (parseResourceSummaryJson .exact scatteredDocument).2 := by
  have hparsed : (parseResourceSummaryJson .exact scatteredDocument).1 = true := by decide +kernel
  exact (parseResourceSummaryJson_iff readsLiterals_exact scatteredDocument _).mp (pair_of_accepted hparsed)

theorem valuesOf_plainMembers {further : List (Text × List UInt8)}
    (hfurther : ∀ member ∈ further, ∀ field : ResourceField, member.1 ≠ field.key) (field : ResourceField) :
    valuesOf field.key (plainMembers further) = valuesOf field.key (plainMembers []) := by
  have hnone : further.filter (fun member => member.1 = field.key) = [] :=
    List.filter_eq_nil_iff.mpr fun member hmember => ne_true_of_eq_false (decide_eq_false (hfurther member hmember field))
  simp only [valuesOf, plainMembers, List.filter_append, hnone, List.filter_nil]

theorem describes_plainMembers {further : List (Text × List UInt8)} {text : Text}
    (htext : text.bytes = 123 :: compactMembers true (plainMembers further))
    (hlength : ∀ member ∈ further, member.1.length < jsonKeyCapacity)
    (hfurther : ∀ member ∈ further, ∀ field : ResourceField, member.1 ≠ field.key)
    (hvalues : ∀ member ∈ further, Json.IsValue IsLiteral (IsString IsLiteral) jsonMaxDepth member.2) :
    Describes IsLiteral IsLiteral text.bytes { counter := fun _ => 0, logComplete := true, parsed := true } := by
  have hknown : ∀ member ∈ plainMembers [], member.1.length < jsonKeyCapacity ∧ ∃ field : ResourceField, member.1 = field.key := by
    intro member hmember
    rw [plainMembers, List.append_nil] at hmember
    obtain ⟨field, hfield, rfl⟩ := List.mem_map.mp hmember
    have hlengths : ∀ field ∈ ResourceField.all, field.key.length < jsonKeyCapacity := by decide
    exact ⟨hlengths field hfield, field, rfl⟩
  have hmembers : ∀ member ∈ plainMembers further, member ∈ plainMembers [] ∨ member ∈ further := by
    intro member hmember
    simpa only [plainMembers, List.append_nil] using List.mem_append.mp hmember
  refine ⟨[], plainMembers further, _, [], by rw [htext, List.append_nil]; rfl, Json.isSpace_nil, Json.isSpace_nil,
    members_compactMembers true _ fun member hmember => ⟨isLiteral_writeJsonString _, ?_⟩, fun field => ?_,
    fun member hmember hother => ?_, rfl⟩
  · exact (hmembers member hmember).elim (fun h => (hknown member h).1) (hlength member)
  · rw [valuesOf_plainMembers hfurther]
    rcases field with _ | c | _
    · exact ⟨_, by decide, isLiteral_writeJsonString resourceSchema⟩
    · exact ⟨[48], by cases c <;> decide, by decide, by decide, rfl⟩
    · refine ⟨123 :: compactMembers true [(completeKey, Json.boolWord true)], by decide, _, _, rfl,
        members_compactMembers true _ ?_, by decide, ?_⟩
      · exact List.forall_mem_singleton.mpr ⟨isLiteral_writeJsonString _, by decide⟩
      · exact List.forall_mem_singleton.mpr fun hother => absurd rfl hother
  · rcases hmembers member hmember with h | h
    · obtain ⟨-, field, hkey⟩ := hknown member h
      exact absurd hkey (hother field)
    · exact hvalues member h

/-- A member that is not known holds an object with a key of 96 bytes. -/
def longNestedKey : List (Text × List UInt8) :=
  [(.ofString "x", 123 :: compactMembers true [(.ofString (String.ofList (List.replicate 96 'k')), [48])])]

def longNestedDocument : Text := ⟨123 :: compactMembers true (plainMembers longNestedKey), by decide +kernel⟩

/-- The keys inside a member that is not known have to fit the buffer, too. -/
theorem longNestedDocument_refused : ¬ ∀ (lib : JsonLibrary) (Decodes : List UInt8 → Text → Prop) (text : Text)
    (summary : ResourceSummary), ReadsLiterals lib Decodes →
      (parseResourceSummaryJson lib text = (true, summary) ↔ Describes Decodes Decodes text.bytes summary) := by
  intro h
  have hvalue : Json.IsValue IsLiteral (IsString IsLiteral) jsonMaxDepth
      (123 :: compactMembers true [(.ofString (String.ofList (List.replicate 96 'k')), [48])]) := by
    refine .inr (.inr (.inr (.inl ⟨_, _, rfl, members_compactMembers true _ ?_, ?_⟩)))
    · exact List.forall_mem_singleton.mpr (isLiteral_writeJsonString _)
    · exact List.forall_mem_singleton.mpr (.inr (.inl ⟨[], [48], [], [], .inl rfl, .inl rfl, .inl rfl, .inl rfl, rfl⟩))
  have hother : ∀ field : ResourceField, .ofString "x" ≠ field.key := by
    intro field
    rcases field with _ | c | _
    · decide
    · cases c <;> decide
    · decide
  have hdescribes : Describes IsLiteral IsLiteral longNestedDocument.bytes _ :=
    describes_plainMembers rfl (List.forall_mem_singleton.mpr (by decide)) (List.forall_mem_singleton.mpr hother)
      (List.forall_mem_singleton.mpr hvalue)
  have hparse := (h .exact IsLiteral longNestedDocument _ readsLiterals_exact).mpr hdescribes
  have hrefused : (parseResourceSummaryJson .exact longNestedDocument).1 = false := by decide +kernel
  rw [hparse] at hrefused
  cases hrefused

section Count

variable {lib : JsonLibrary} {summary : ResourceSummary}

/-- The number of findings, which need not fit a `size_t`. -/
def findingTotal (summary : ResourceSummary) : ℕ :=
  (findingCounters.map summary.counter).sum + if summary.logComplete then 0 else 1

/-- The count is zero when nothing was found, and it is the number of findings. -/
structure CountsFindings (summary : ResourceSummary) : Prop where
  zero_iff : resourceSummaryFindingCount summary = 0 ↔
    (∀ c ∈ findingCounters, summary.counter c = 0) ∧ summary.logComplete = true
  total : resourceSummaryFindingCount summary = findingTotal summary

theorem foldl_sizeAdd {a : ℕ} (ha : a ≤ sizeMax) (counts : List ℕ) :
    counts.foldl sizeAdd a = (a + counts.sum) % (sizeMax + 1) := by
  induction counts generalizing a with
  | nil => exact (Nat.mod_eq_of_lt (Nat.lt_succ_of_le ha)).symm
  | cons b counts ih =>
    have hsum : sizeAdd a b ≤ sizeMax := Nat.le_of_lt_succ (Nat.mod_lt _ (Nat.succ_pos _))
    rw [List.foldl_cons, ih hsum, List.sum_cons, ← Nat.add_assoc]
    exact Nat.mod_add_mod _ _ _

theorem resourceSummaryFindingCount_eq (hparsed : summary.parsed = true) :
    resourceSummaryFindingCount summary = findingTotal summary % (sizeMax + 1) := by
  rw [resourceSummaryFindingCount, if_neg (by rw [hparsed]; decide), foldl_sizeAdd (Nat.zero_le _), Nat.zero_add, findingTotal]
  cases summary.logComplete with
  | true => rfl
  | false => exact Nat.mod_add_mod _ _ _

theorem findingTotal_eq_zero_iff : findingTotal summary = 0 ↔
    (∀ c ∈ findingCounters, summary.counter c = 0) ∧ summary.logComplete = true := by
  rw [findingTotal, Nat.add_eq_zero_iff, List.sum_eq_zero_iff_forall_eq_nat]
  simp

theorem parsed_of_parse {text : Text} (h : parseResourceSummaryJson lib text = (true, summary)) : summary.parsed = true := by
  rw [parseResourceSummaryJson] at h
  split at h
  · obtain ⟨hparsed, rfl⟩ := Prod.mk.inj h
    exact hparsed
  · cases h

/-- The findings of an accepted summary are counted when their number fits. -/
theorem countsFindings_iff {text : Text} (h : parseResourceSummaryJson lib text = (true, summary)) :
    CountsFindings summary ↔ findingTotal summary ≤ sizeMax := by
  have hcount := resourceSummaryFindingCount_eq (parsed_of_parse h)
  constructor
  · intro hcounts
    have hlt : findingTotal summary % (sizeMax + 1) < sizeMax + 1 := Nat.mod_lt _ (Nat.succ_pos _)
    rw [← hcount, hcounts.total] at hlt
    exact Nat.le_of_lt_succ hlt
  · intro hfits
    rw [Nat.mod_eq_of_lt (Nat.lt_succ_of_le hfits)] at hcount
    exact ⟨hcount ▸ findingTotal_eq_zero_iff, hcount⟩

end Count

def leakMembers (digits : List UInt8) : List (Text × List UInt8) :=
  (plainMembers []).map (fun member =>
    if member.1 = ResourceCounter.fdLeaks.key ∨ member.1 = ResourceCounter.allocationLeaks.key then (member.1, digits)
    else member)

def fewLeaksDocument : Text := ⟨123 :: compactMembers true (leakMembers [55]), by decide +kernel⟩

theorem countsFindings_fewLeaks :
    CountsFindings (parseResourceSummaryJson .exact fewLeaksDocument).2 := by
  have hread : (parseResourceSummaryJson .exact fewLeaksDocument).1 = true ∧
      findingTotal (parseResourceSummaryJson .exact fewLeaksDocument).2 ≤ sizeMax := by decide +kernel
  exact (countsFindings_iff (pair_of_accepted hread.1)).mpr hread.2

def manyLeaksDocument : Text :=
  ⟨123 :: compactMembers true (leakMembers [57, 50, 50, 51, 51, 55, 50, 48, 51, 54, 56, 53, 52, 55, 55, 53, 56, 48, 56]),
    by decide +kernel⟩

theorem manyLeaks_not_counted : ¬ ∀ (lib : JsonLibrary) (text : Text) (summary : ResourceSummary),
    parseResourceSummaryJson lib text = (true, summary) → CountsFindings summary := by
  intro h
  -- The document is read once for the three facts about what was read.
  have hread : (parseResourceSummaryJson .exact manyLeaksDocument).1 = true ∧
      resourceSummaryFindingCount (parseResourceSummaryJson .exact manyLeaksDocument).2 = 0 ∧
      (parseResourceSummaryJson .exact manyLeaksDocument).2.counter .fdLeaks ≠ 0 := by decide +kernel
  obtain ⟨hparsed, hcount, hleaks⟩ := hread
  exact hleaks (((h _ _ _ (pair_of_accepted hparsed)).zero_iff.mp hcount).1 .fdLeaks (by decide))

end ToolEvent.Summary
