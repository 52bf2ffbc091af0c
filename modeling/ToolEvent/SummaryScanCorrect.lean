import ToolEvent.SummaryScanBounds

/-!
# The readers byte by byte read what the readers of lists read

The scanners take off the bytes what the functions on lists take off, so the readers over them
return the same and leave the same summary, whatever they count.
-/

namespace ToolEvent.Summary.Scan

open Fallible

variable {σ α β : Type}

/-- The outcome of a scanner that took a part off the bytes, or rejected them. -/
def Scanned (result : Except Stop Unit × Cursor × σ) (s : σ) : Option (List UInt8) → Prop
  | some rest => result = (.ok (), .within rest, s)
  | none => ∃ cursor, result = (.error .rejected, cursor, s)

def Follows (x : Reader σ Unit) (f : List UInt8 → Option (List UInt8)) : Prop :=
  ∀ bytes s, Scanned (x (.within bytes, s)) s (f bytes)

section Scanners

variable {x y : Reader σ Unit} {f g : List UInt8 → Option (List UInt8)} {p : UInt8 → Prop} [DecidablePred p]

theorem Follows.bind (hx : Follows x f) (hy : Follows y g) :
    Follows (x >>= fun _ => y) (fun bytes => (f bytes).bind g) := by
  intro bytes s
  have hfirst := hx bytes s
  dsimp only
  cases hf : f bytes with
  | none =>
    rw [hf] at hfirst
    obtain ⟨cursor, hrun⟩ := hfirst
    exact ⟨cursor, run_bind_of_error hrun⟩
  | some rest =>
    rw [hf] at hfirst
    rw [run_bind_of_ok (f := fun _ => y) hfirst]
    exact hy rest s

theorem follows_pure : Follows (pure () : Reader σ Unit) some := fun _ _ => rfl

theorem follows_reject : Follows (fail .rejected : Reader σ Unit) (fun _ => none) := fun bytes _ => ⟨.within bytes, rfl⟩

/-- A branch on the byte under the cursor. -/
theorem follows_peek_ite (hx : ∀ bytes s, p (bytes.headD 0) → Scanned (x (.within bytes, s)) s (f bytes))
    (hy : Follows y g) : Follows (peek >>= fun byte => if p byte then x else y)
      (fun bytes => if p (bytes.headD 0) then f bytes else g bytes) := by
  intro bytes s
  rw [run_peek_bind rfl]
  dsimp only
  split
  · next hp => exact hx bytes s hp
  · exact hy bytes s

theorem run_advance {bytes : List UInt8} (h : bytes.headD 0 ≠ 0) (s : σ) :
    advance (.within bytes, s) = (.ok (), .within bytes.tail, s) := by
  cases bytes with
  | nil => exact absurd rfl h
  | cons b bytes => rfl

/-- A byte that is there is stepped over before the scan. -/
theorem follows_peek_advance (hp : ¬ p 0) (hx : Follows x f) (hy : Follows y g) :
    Follows (peek >>= fun byte => if p byte then (advance >>= fun _ => x) else y)
      (fun bytes => if p (bytes.headD 0) then f bytes.tail else g bytes) := by
  refine follows_peek_ite (f := fun bytes => f bytes.tail) (fun bytes s hbyte => ?_) hy
  have hnonzero : bytes.headD 0 ≠ 0 := fun hzero => hp (hzero ▸ hbyte)
  rw [run_bind_of_ok (f := fun _ => x) (run_advance hnonzero s)]
  exact hx bytes.tail s

/-- A byte that may be there is stepped over before the scan. -/
theorem follows_optional (hp : ¬ p 0) (hx : Follows x f) :
    Follows (peek >>= fun byte => (if p byte then advance else pure ()) >>= fun _ => x)
      (fun bytes => f (if p (bytes.headD 0) then bytes.tail else bytes)) := by
  intro bytes s
  rw [run_peek_bind rfl]
  dsimp only
  split
  · next hbyte =>
    have hnonzero : bytes.headD 0 ≠ 0 := fun hzero => hp (hzero ▸ hbyte)
    rw [run_bind_of_ok (f := fun _ => x) (run_advance hnonzero s)]
    exact hx bytes.tail s
  · exact hx bytes s

theorem follows_skipDigits : Follows (skipDigits : Reader σ Unit) Summary.skipDigits := by
  have hdigits : Follows (skipWhile Decimal.isDigit : Reader σ Unit) (fun bytes => some (bytes.dropWhile Decimal.isDigit)) :=
    fun bytes s => run_skipWhile (by decide) bytes s
  exact follows_peek_ite (p := fun byte => Decimal.isDigit byte = true) (fun bytes s _ => hdigits bytes s) follows_reject

theorem follows_skipInteger : Follows (skipInteger : Reader σ Unit) Summary.skipInteger := by
  have hnext : Follows (peek >>= fun next => if Decimal.isDigit next then fail .rejected else pure () : Reader σ Unit)
      (fun bytes => if Decimal.isDigit (bytes.headD 0) then none else some bytes) :=
    follows_peek_ite (p := fun byte => Decimal.isDigit byte = true) (fun bytes s _ => follows_reject bytes s) follows_pure
  exact follows_peek_advance (p := fun byte => byte = 48) (by decide) hnext follows_skipDigits

theorem follows_skipFraction : Follows (skipFraction : Reader σ Unit) Summary.skipFraction :=
  follows_peek_advance (p := fun byte => byte = 46) (by decide) follows_skipDigits follows_pure

theorem follows_skipExponent : Follows (skipExponent : Reader σ Unit) Summary.skipExponent := by
  have hsigned := follows_optional (p := fun byte => byte = 43 ∨ byte = 45) (by decide) (@follows_skipDigits σ)
  have hexponent := follows_peek_advance (p := fun byte => byte = 101 ∨ byte = 69) (by decide) hsigned follows_pure
  intro bytes s
  have hbytes := hexponent bytes s
  rw [Summary.skipExponent, ← apply_ite Summary.skipDigits]
  exact hbytes

/-- `skip_number` does to the list of bytes what its other definition says. -/
theorem skipNumber_eq : (skipNumber : Reader σ Unit) = Summary.skipNumber := by
  have hnumber := follows_optional (p := fun byte => byte = 45) (by decide)
    ((@follows_skipInteger σ).bind (follows_skipFraction.bind follows_skipExponent))
  funext ⟨cursor, s⟩
  cases cursor with
  | past => rfl
  | within bytes =>
    have hrun := hnumber bytes s
    have hlist : Summary.skipNumber (.within bytes, s) = onBytes (fun bytes =>
        (((Summary.skipInteger (if bytes.headD 0 = 45 then bytes.tail else bytes)).bind fun integer =>
          (Summary.skipFraction integer).bind Summary.skipExponent).map fun rest => ((), rest))) (.within bytes, s) := by
      rw [Summary.skipNumber]
      congr 1
      funext bytes
      simp only [Option.map_bind, Function.comp_def]
      simp only [Option.map_eq_bind]
      rfl
    rw [hlist, onBytes]
    change onCopy _ (.within bytes, s) = _
    dsimp only at hrun ⊢
    cases hrest : (Summary.skipInteger (if bytes.headD 0 = 45 then bytes.tail else bytes)).bind fun integer =>
        (Summary.skipFraction integer).bind Summary.skipExponent with
    | none =>
      rw [hrest] at hrun
      obtain ⟨cursor, hrun⟩ := hrun
      rw [onCopy, hrun]
      rfl
    | some rest =>
      rw [hrest] at hrun
      rw [onCopy, hrun]
      rfl

/-- The loop of `parse_size` computes what the function on lists computes. -/
theorem run_parseSizeLoop {fuel : ℕ} {bytes : List UInt8} (hfuel : bytes.length < fuel) (parsed : ℕ) (s : σ) :
    match parseDigits parsed bytes with
      | some (size, rest) => parseSizeLoop fuel parsed (.within bytes, s) = (.ok size, .within rest, s)
      | none => ∃ cursor, parseSizeLoop fuel parsed (.within bytes, s) = (.error .rejected, cursor, s) := by
  induction fuel generalizing bytes parsed with
  | zero => omega
  | succ fuel ih =>
    rw [parseSizeLoop, run_peek_bind rfl]
    cases bytes with
    | nil => rfl
    | cons b bytes =>
      rw [List.headD_cons, parseDigits]
      split_ifs with hdigit hlarge
      · exact ⟨_, rfl⟩
      · exact ih (Nat.lt_of_succ_lt_succ hfuel) _
      · rfl

theorem run_startsWith_past {name : String} (hname : name ∈ ["true", "null", "false"]) (s : σ) :
    startsWith name (.past, s) = (.error .outside, .past, s) := by
  simp only [List.mem_cons, List.not_mem_nil, or_false] at hname
  rcases hname with rfl | rfl | rfl <;> rfl

theorem skipName_eq : (skipName : Reader σ Unit) = Summary.skipName ["true", "null", "false"] := by
  funext ⟨cursor, s⟩
  cases cursor with
  | past =>
    rw [skipName, run_bind_of_error (run_startsWith_past (by decide) s)]
    rfl
  | within bytes =>
    have hstep : ∀ {name : String} {n : ℕ}, (Text.ofString name).length = n →
        (Text.ofString name).bytes.isPrefixOf bytes = true →
        advanceBy n (.within bytes, s) = (.ok (), .within (bytes.drop (Text.ofString name).length), s) := by
      rintro name n rfl hprefix
      exact run_advanceBy (List.isPrefixOf_iff_prefix.mp hprefix).length_le s
    rw [skipName, run_bind_of_ok (run_startsWith "true" bytes s), Summary.skipName, onBytes]
    cases htrue : (Text.ofString "true").bytes.isPrefixOf bytes with
    | true =>
      simp only [List.find?_cons, htrue, Option.map_some]
      exact hstep (by decide) htrue
    | false =>
      simp only [Bool.false_eq_true, if_false, List.find?_cons, htrue]
      rw [run_bind_of_ok (run_startsWith "null" bytes s)]
      cases hnull : (Text.ofString "null").bytes.isPrefixOf bytes with
      | true =>
        simp only [if_true, Option.map_some]
        exact hstep (by decide) hnull
      | false =>
        simp only [Bool.false_eq_true, if_false]
        rw [run_bind_of_ok (run_startsWith "false" bytes s)]
        cases hfalse : (Text.ofString "false").bytes.isPrefixOf bytes with
        | true =>
          simp only [if_true, Option.map_some]
          exact hstep (by decide) hfalse
        | false => rfl

theorem parseBoolean_eq : (parseBoolean : Reader σ Bool) = Summary.parseBoolean := by
  funext ⟨cursor, s⟩
  cases cursor with
  | past =>
    rw [parseBoolean, run_bind_of_error (run_startsWith_past (by decide) s)]
    rfl
  | within bytes =>
    have hstep : ∀ {name : String} {n : ℕ} (value : Bool), (Text.ofString name).length = n →
        (Text.ofString name).bytes.isPrefixOf bytes = true →
        (advanceBy n >>= fun _ => pure value : Reader σ Bool) (.within bytes, s) =
          (.ok value, .within (bytes.drop (Text.ofString name).length), s) := by
      rintro name n value rfl hprefix
      have hadvance : advanceBy (Text.ofString name).length (.within bytes, s) = _ :=
        run_advanceBy (List.isPrefixOf_iff_prefix.mp hprefix).length_le s
      rw [run_bind_of_ok hadvance]
      rfl
    rw [parseBoolean, run_bind_of_ok (run_startsWith "true" bytes s), Summary.parseBoolean, onBytes]
    cases htrue : (Text.ofString "true").bytes.isPrefixOf bytes with
    | true =>
      simp only [htrue, if_true]
      exact hstep true (by decide) htrue
    | false =>
      simp only [Bool.false_eq_true, if_false, htrue]
      rw [run_bind_of_ok (run_startsWith "false" bytes s)]
      cases hfalse : (Text.ofString "false").bytes.isPrefixOf bytes with
      | true =>
        simp only [if_true]
        exact hstep false (by decide) hfalse
      | false => simp

end Scanners

/-- The reader returns what the other one returns, and leaves the same variables. -/
def Mirrors (x : Reader (Calls × σ) α) (y : Reader σ α) : Prop :=
  ∀ cursor calls s, match y (cursor, s) with
    | (.ok a, cursor', s') => ∃ calls', x (cursor, calls, s) = (.ok a, cursor', calls', s')
    | (.error stop, _, s') => ∃ cursor' calls', x (cursor, calls, s) = (.error stop, cursor', calls', s')

section Mirrors

variable {x : Reader (Calls × σ) α} {y : Reader σ α} {lib : JsonLibrary}

theorem Mirrors.bind {f : α → Reader (Calls × σ) β} {g : α → Reader σ β} (hx : Mirrors x y)
    (hf : ∀ a, Mirrors (f a) (g a)) : Mirrors (x >>= f) (y >>= g) := by
  intro cursor calls s
  have hfirst := hx cursor calls s
  rw [run_bind]
  rcases hrun : y (cursor, s) with ⟨stop | a, cursor', s'⟩
  · simp only [hrun] at hfirst
    obtain ⟨cursor'', calls', hmirror⟩ := hfirst
    exact ⟨cursor'', calls', run_bind_of_error hmirror⟩
  · simp only [hrun] at hfirst
    obtain ⟨calls', hmirror⟩ := hfirst
    rw [run_bind_of_ok hmirror]
    exact hf a cursor' calls' s'

theorem mirrors_pure (a : α) : Mirrors (pure a : Reader (Calls × σ) α) (pure a) := fun _ calls _ => ⟨calls, rfl⟩

theorem mirrors_fail (stop : Stop) : Mirrors (fail stop : Reader (Calls × σ) α) (fail stop) :=
  fun cursor calls _ => ⟨cursor, calls, rfl⟩

theorem Mirrors.ite {p : Prop} [Decidable p] {x' : Reader (Calls × σ) α} {y' : Reader σ α} (h : Mirrors x y)
    (h' : Mirrors x' y') : Mirrors (if p then x else x') (if p then y else y') := by
  split
  · exact h
  · exact h'

theorem mirrors_read_bind {f : Cursor × Calls × σ → Reader (Calls × σ) α} {g : Cursor × σ → Reader σ α}
    (h : ∀ cursor calls s, Mirrors (f (cursor, calls, s)) (g (cursor, s))) : Mirrors (read >>= f) (read >>= g) :=
  fun cursor calls s => h cursor calls s cursor calls s

theorem mirrors_onBytes (f : List UInt8 → Option (α × List UInt8)) :
    Mirrors (onBytes f : Reader (Calls × σ) α) (onBytes f) := by
  intro cursor calls s
  cases cursor with
  | past => exact ⟨.past, calls, rfl⟩
  | within bytes =>
    simp only [onBytes]
    cases f bytes with
    | none => exact ⟨_, calls, rfl⟩
    | some taken => exact ⟨calls, rfl⟩

theorem mirrors_peek : Mirrors (peek : Reader (Calls × σ) UInt8) peek := by
  intro cursor calls s
  cases cursor with
  | past => exact ⟨.past, calls, rfl⟩
  | within bytes => exact ⟨calls, rfl⟩

theorem mirrors_advance : Mirrors (advance : Reader (Calls × σ) Unit) advance := by
  intro cursor calls s
  rcases cursor with (_ | ⟨b, bytes⟩) | _ <;> exact ⟨calls, rfl⟩

theorem mirrors_expect (b : UInt8) : Mirrors (expect b : Reader (Calls × σ) Unit) (expect b) :=
  mirrors_peek.bind fun _ => mirrors_advance.bind fun _ => (mirrors_pure ()).ite (mirrors_fail _)

theorem mirrors_updateOwn (f : σ → σ) : Mirrors (updateOwn f) (update fun s => (s.1, f s.2)) :=
  fun _ calls _ => ⟨calls, rfl⟩

theorem mirrors_skipSpace : Mirrors (skipSpace : Reader (Calls × σ) Unit) Summary.skipSpace := by
  rw [skipSpace_eq]
  exact mirrors_onBytes _

theorem mirrors_parseString (size : Option ℕ) :
    Mirrors (parseString lib size : Reader (Calls × σ) Text) (parseString lib size) := mirrors_onBytes _

theorem mirrors_parseSize : Mirrors (parseSize : Reader (Calls × σ) ℕ) Summary.parseSize := by
  intro cursor calls s
  cases cursor with
  | past => exact ⟨.past, calls, rfl⟩
  | within bytes =>
    have hloop := run_parseSizeLoop (Nat.lt_succ_self bytes.length) 0 (calls, s)
    have hrun : (parseSize : Reader (Calls × σ) ℕ) (.within bytes, calls, s) =
        (if Decimal.isDigit (bytes.headD 0) then parseSizeLoop (bytes.length + 1) 0 else fail .rejected)
          (.within bytes, calls, s) := by
      rw [parseSize, run_peek_bind rfl]
      split <;> rfl
    rw [hrun]
    simp only [Summary.parseSize, onBytes]
    split_ifs with hdigit
    · cases hparse : parseDigits 0 bytes with
      | none =>
        simp only [hparse] at hloop
        obtain ⟨cursor, hloop⟩ := hloop
        exact ⟨cursor, calls, hloop⟩
      | some taken =>
        simp only [hparse] at hloop
        exact ⟨calls, hloop⟩
    · exact ⟨_, calls, rfl⟩

theorem Mirrors.activation (h : Mirrors x y) : Mirrors (activation x) y := by
  intro cursor calls s
  have hbody := h cursor calls.enter s
  rcases hrun : y (cursor, s) with ⟨stop | a, cursor', s'⟩
  · simp only [hrun] at hbody
    obtain ⟨cursor'', calls', hbody⟩ := hbody
    exact ⟨cursor'', calls'.leave, by rw [Scan.activation, hbody]⟩
  · simp only [hrun] at hbody
    obtain ⟨calls', hbody⟩ := hbody
    exact ⟨calls'.leave, by rw [Scan.activation, hbody]⟩

theorem mirrors_skipMembers {skip : Reader (Calls × σ) Unit} {skip' : Reader σ Unit} (h : Mirrors skip skip')
    (fuel : ℕ) (first : Bool) : Mirrors (skipMembers lib skip fuel first) (skipMembers lib skip' fuel first) := by
  induction fuel generalizing first with
  | zero => exact mirrors_fail _
  | succ fuel ih =>
    refine mirrors_peek.bind fun byte => mirrors_advance.ite ?_
    refine Mirrors.bind ((mirrors_pure ()).ite (mirrors_expect 44)) fun _ => (mirrors_onBytes _).bind fun _ => ?_
    refine (mirrors_parseString _).bind fun _ => (mirrors_onBytes _).bind fun _ => (mirrors_expect 58).bind fun _ => ?_
    exact h.bind fun _ => (mirrors_onBytes _).bind fun _ => ih false

theorem mirrors_skipObject {skip : Reader (Calls × σ) Unit} {skip' : Reader σ Unit} (h : Mirrors skip skip') :
    Mirrors (skipObject lib skip) (skipObject lib skip') := by
  refine mirrors_advance.bind fun _ => (mirrors_onBytes _).bind fun _ => mirrors_read_bind fun cursor calls s => ?_
  exact mirrors_skipMembers h _ true

theorem mirrors_skipElements {skip : Reader (Calls × σ) Unit} {skip' : Reader σ Unit} (h : Mirrors skip skip')
    (fuel : ℕ) (first : Bool) : Mirrors (skipElements skip fuel first) (skipElements skip' fuel first) := by
  induction fuel generalizing first with
  | zero => exact mirrors_fail _
  | succ fuel ih =>
    refine mirrors_peek.bind fun byte => mirrors_advance.ite ?_
    refine Mirrors.bind ((mirrors_pure ()).ite (mirrors_expect 44)) fun _ => ?_
    exact h.bind fun _ => (mirrors_onBytes _).bind fun _ => ih false

theorem mirrors_skipArray {skip : Reader (Calls × σ) Unit} {skip' : Reader σ Unit} (h : Mirrors skip skip') :
    Mirrors (skipArray skip) (skipArray skip') := by
  refine mirrors_advance.bind fun _ => (mirrors_onBytes _).bind fun _ => mirrors_read_bind fun cursor calls s => ?_
  exact mirrors_skipElements h _ true

theorem mirrors_readMembers {handle : Text → Reader (Calls × σ) Unit} {handle' : Text → Reader σ Unit}
    (h : ∀ key, Mirrors (handle key) (handle' key)) (fuel : ℕ) (first : Bool) :
    Mirrors (readMembers lib handle fuel first) (readMembers lib handle' fuel first) := by
  induction fuel generalizing first with
  | zero => exact mirrors_fail _
  | succ fuel ih =>
    refine (mirrors_onBytes _).bind fun _ => mirrors_peek.bind fun byte => mirrors_advance.ite ?_
    refine Mirrors.bind ((mirrors_pure ()).ite ((mirrors_expect 44).bind fun _ => mirrors_onBytes _)) fun _ => ?_
    refine (mirrors_parseString _).bind fun key => (mirrors_onBytes _).bind fun _ => (mirrors_expect 58).bind fun _ => ?_
    exact (mirrors_onBytes _).bind fun _ => (h key).bind fun _ => ih false

theorem mirrors_readObject {handle : Text → Reader (Calls × σ) Unit} {handle' : Text → Reader σ Unit}
    (h : ∀ key, Mirrors (handle key) (handle' key)) : Mirrors (readObject lib handle) (readObject lib handle') := by
  refine (mirrors_expect 123).bind fun _ => mirrors_read_bind fun cursor calls s => ?_
  exact mirrors_readMembers h _ true

/-- The levels that are left are those up to the limit of the depth. -/
theorem mirrors_skipValueAt {fuel depth levels : ℕ} (hlevels : levels + depth = jsonMaxDepth) (hfuel : levels < fuel) :
    Mirrors (skipValueAt lib fuel depth : Reader (Calls × σ) Unit) (Summary.skipValue lib levels) := by
  induction fuel generalizing depth levels with
  | zero => omega
  | succ fuel ih =>
    apply Mirrors.activation
    cases levels with
    | zero =>
      rw [if_pos (by omega)]
      exact mirrors_fail _
    | succ levels =>
      rw [if_neg (by omega)]
      have hnested : Mirrors (skipValueAt lib fuel (depth + 1) : Reader (Calls × σ) Unit)
          (Summary.skipValue lib levels) := ih (by omega) (by omega)
      refine mirrors_skipSpace.bind fun _ => mirrors_peek.bind fun byte => ?_
      refine ((mirrors_parseString none).bind fun _ => mirrors_pure ()).ite ?_
      refine (mirrors_skipObject hnested).ite ((mirrors_skipArray hnested).ite ?_)
      rw [skipNumber_eq, skipName_eq]
      exact (mirrors_onBytes _).ite (mirrors_onBytes _)

theorem mirrors_skipValue {depth levels : ℕ} (hlevels : levels + depth = jsonMaxDepth) :
    Mirrors (skipValue lib depth : Reader (Calls × σ) Unit) (Summary.skipValue lib levels) :=
  mirrors_skipValueAt hlevels (by omega)

theorem mirrors_policyMember (key : Text) : Mirrors (policyMember lib key) (Summary.policyMember lib key) := by
  refine mirrors_read_bind fun cursor calls s => ?_
  have hsize : ∀ f : ℕ → PolicyState → PolicyState,
      Mirrors (parseSize >>= fun size => updateOwn (f size)) (Summary.parseSize >>= fun size => updatePolicy (f size)) :=
    fun f => mirrors_parseSize.bind fun size => mirrors_updateOwn _
  refine Mirrors.ite ((mirrors_fail _).ite (hsize _)) ?_
  exact ((mirrors_fail _).ite (hsize _)).ite (mirrors_skipValue rfl)

theorem mirrors_parsePolicySummary : Mirrors (parsePolicySummary lib) (Summary.parsePolicySummary lib) := by
  refine (mirrors_updateOwn _).bind fun _ => (mirrors_readObject mirrors_policyMember).bind fun _ => ?_
  exact mirrors_read_bind fun cursor calls s => (mirrors_pure ()).ite (mirrors_fail _)

theorem mirrors_documentMember (schema key : Text) :
    Mirrors (documentMember lib schema key) (Summary.documentMember lib schema key) := by
  refine mirrors_read_bind fun cursor calls s => ?_
  refine Mirrors.ite ((mirrors_fail _).ite ((mirrors_parseString _).bind fun _ => mirrors_updateOwn _)) ?_
  refine Mirrors.ite ((mirrors_fail _).ite ?_) (mirrors_skipValue rfl)
  exact mirrors_parsePolicySummary.bind fun _ => mirrors_updateOwn _

theorem mirrors_readPolicySummary (schema : Text) :
    Mirrors (readPolicySummary lib schema) (Summary.readPolicySummary lib schema) := by
  refine mirrors_skipSpace.bind fun _ => (mirrors_readObject (mirrors_documentMember schema)).bind fun _ => ?_
  exact mirrors_skipSpace.bind fun _ => mirrors_peek.bind fun byte => mirrors_updateOwn _

theorem mirrors_healthMember (key : Text) : Mirrors (healthMember lib key) (Summary.healthMember lib key) := by
  refine mirrors_read_bind fun cursor calls s => ?_
  refine Mirrors.ite ((mirrors_fail _).ite ?_) (mirrors_skipValue rfl)
  rw [parseBoolean_eq]
  exact (mirrors_onBytes _).bind fun complete => mirrors_updateOwn _

theorem mirrors_readField (field : ResourceField) : Mirrors (readField lib field) (Summary.readField lib field) := by
  cases field with
  | schema => exact (mirrors_parseString _).bind fun schema => mirrors_updateOwn _
  | counter c => exact mirrors_parseSize.bind fun value => mirrors_updateOwn _
  | logHealth =>
    refine (mirrors_updateOwn _).bind fun _ => (mirrors_readObject mirrors_healthMember).bind fun _ => ?_
    exact mirrors_read_bind fun cursor calls s => (mirrors_pure ()).ite (mirrors_fail _)

theorem mirrors_resourceMember (key : Text) : Mirrors (resourceMember lib key) (Summary.resourceMember lib key) := by
  refine mirrors_read_bind fun cursor calls s => ?_
  dsimp only
  cases ResourceField.all.find? (fun field => key = field.key) with
  | none => exact mirrors_skipValue rfl
  | some field => exact (mirrors_fail _).ite ((mirrors_readField field).bind fun _ => mirrors_updateOwn _)

theorem mirrors_readResourceSummary : Mirrors (readResourceSummary lib) (Summary.readResourceSummary lib) := by
  refine mirrors_skipSpace.bind fun _ => (mirrors_readObject mirrors_resourceMember).bind fun _ => ?_
  exact mirrors_skipSpace.bind fun _ => mirrors_peek.bind fun byte => mirrors_updateOwn _

end Mirrors

/-- `p101_tool_event_parse_policy_summary_json` byte by byte. -/
def parsePolicySummaryJson (lib : JsonLibrary) (text schema : Text) (summary : PolicySummary) : Bool × PolicySummary :=
  if schema.isEmpty then (false, summary)
  else
    match readPolicySummary lib schema (.within text.bytes, {}, {}) with
    | (.ok (), _, _, state) => (state.summary.parsed, state.summary)
    | (.error _, _, _, state) => (false, state.summary)

/-- `p101_tool_event_parse_resource_summary_json` byte by byte. -/
def parseResourceSummaryJson (lib : JsonLibrary) (text : Text) : Bool × ResourceSummary :=
  match readResourceSummary lib (.within text.bytes, {}, {}) with
  | (.ok (), _, _, state) => (state.summary.parsed, state.summary)
  | (.error _, _, _, state) => (false, state.summary)

theorem parsePolicySummaryJson_eq (lib : JsonLibrary) (text schema : Text) (summary : PolicySummary) :
    parsePolicySummaryJson lib text schema summary = Summary.parsePolicySummaryJson lib text schema summary := by
  have hmirrors := @mirrors_readPolicySummary lib schema (.within text.bytes) {} {}
  unfold parsePolicySummaryJson Summary.parsePolicySummaryJson
  rcases hrun : Summary.readPolicySummary lib schema (.within text.bytes, {}) with ⟨stop | ⟨⟩, cursor, state⟩
  · simp only [hrun] at hmirrors
    obtain ⟨cursor', calls, hmirrors⟩ := hmirrors
    rw [hmirrors]
  · simp only [hrun] at hmirrors
    obtain ⟨calls, hmirrors⟩ := hmirrors
    rw [hmirrors]

theorem parseResourceSummaryJson_eq (lib : JsonLibrary) (text : Text) :
    parseResourceSummaryJson lib text = Summary.parseResourceSummaryJson lib text := by
  have hmirrors := @mirrors_readResourceSummary lib (.within text.bytes) {} {}
  unfold parseResourceSummaryJson Summary.parseResourceSummaryJson
  rcases hrun : Summary.readResourceSummary lib (.within text.bytes, {}) with ⟨stop | ⟨⟩, cursor, state⟩
  · simp only [hrun] at hmirrors
    obtain ⟨cursor', calls, hmirrors⟩ := hmirrors
    rw [hmirrors]
  · simp only [hrun] at hmirrors
    obtain ⟨calls, hmirrors⟩ := hmirrors
    rw [hmirrors]

end ToolEvent.Summary.Scan
