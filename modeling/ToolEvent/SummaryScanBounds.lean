import ToolEvent.SummaryScan

/-!
# How far the readers of summaries go

A reader that starts inside a text ends inside it or rejects it: it reads no byte past the
terminator, its loops end, and `skip_value` is not nested deeper than its limit allows.
-/

namespace ToolEvent.Summary.Scan

open Fallible

variable {σ α β : Type}

/-- Run on the bytes, the reader keeps the invariant and takes at least `k` of them, or it rejects
them with what is left of the invariant. -/
def Takes (I J : σ → Prop) (k : ℕ) (x : Reader σ α) (bytes : List UInt8) (s : σ) : Prop :=
  match x (.within bytes, s) with
  | (.ok _, cursor, s') => (∃ rest, cursor = .within rest ∧ k + rest.length ≤ bytes.length) ∧ I s'
  | (.error stop, _, s') => stop = .rejected ∧ J s'

section Takes

variable {I J : σ → Prop} {k l : ℕ} {x : Reader σ α} {bytes : List UInt8} {s : σ}

theorem Takes.ok (h : Takes I J k x bytes s) {a : α} {cursor : Cursor} {s' : σ}
    (hrun : x (.within bytes, s) = (.ok a, cursor, s')) :
    (∃ rest, cursor = .within rest ∧ k + rest.length ≤ bytes.length) ∧ I s' := by
  rwa [Takes, hrun] at h

theorem Takes.error (h : Takes I J k x bytes s) {stop : Stop} {cursor : Cursor} {s' : σ}
    (hrun : x (.within bytes, s) = (.error stop, cursor, s')) : stop = .rejected ∧ J s' := by
  rwa [Takes, hrun] at h

theorem takes_of (hok : ∀ a cursor s', x (.within bytes, s) = (.ok a, cursor, s') →
      (∃ rest, cursor = .within rest ∧ k + rest.length ≤ bytes.length) ∧ I s')
    (herror : ∀ stop cursor s', x (.within bytes, s) = (.error stop, cursor, s') → stop = .rejected ∧ J s') :
    Takes I J k x bytes s := by
  rw [Takes]
  rcases hrun : x (.within bytes, s) with ⟨stop | a, cursor, s'⟩
  · exact herror stop cursor s' hrun
  · exact hok a cursor s' hrun

theorem Takes.bind {f : α → Reader σ β} (hx : Takes I J k x bytes s)
    (hf : ∀ a rest s', k + rest.length ≤ bytes.length → I s' → Takes I J l (f a) rest s') :
    Takes I J (k + l) (x >>= f) bytes s := by
  rw [Takes, run_bind]
  rcases hrun : x (.within bytes, s) with ⟨stop | a, cursor, s'⟩
  · exact hx.error hrun
  · obtain ⟨⟨rest, rfl, hrest⟩, hI⟩ := hx.ok hrun
    have hnext := hf a rest s' hrest hI
    rw [Takes] at hnext
    rcases hrun' : f a (.within rest, s') with ⟨stop | b, cursor, s''⟩
    · simpa only [hrun'] using hnext
    · rw [hrun'] at hnext
      obtain ⟨⟨rest', hcursor, hrest'⟩, hI'⟩ := hnext
      simp only [hrun']
      exact ⟨⟨rest', hcursor, by omega⟩, hI'⟩

theorem Takes.mono (h : Takes I J k x bytes s) (hl : l ≤ k) : Takes I J l x bytes s := by
  apply takes_of
  · intro a cursor s' hrun
    obtain ⟨⟨rest, hcursor, hrest⟩, hI⟩ := h.ok hrun
    exact ⟨⟨rest, hcursor, by omega⟩, hI⟩
  · exact fun stop cursor s' hrun => h.error hrun

theorem Takes.ite {p : Prop} [Decidable p] {y : Reader σ α} (hx : p → Takes I J k x bytes s)
    (hy : ¬ p → Takes I J k y bytes s) : Takes I J k (if p then x else y) bytes s := by
  split
  · next h => exact hx h
  · next h => exact hy h

theorem takes_pure {a : α} (h : I s) : Takes I J 0 (pure a) bytes s :=
  ⟨⟨bytes, rfl, Nat.le_of_eq (Nat.zero_add _)⟩, h⟩

theorem takes_reject (h : J s) : Takes I J k (fail .rejected : Reader σ α) bytes s := ⟨rfl, h⟩

theorem takes_peek_bind {f : UInt8 → Reader σ α} (h : Takes I J k (f (bytes.headD 0)) bytes s) :
    Takes I J k (peek >>= f) bytes s := h

theorem takes_read_bind {f : Cursor × σ → Reader σ α} (h : Takes I J k (f (.within bytes, s)) bytes s) :
    Takes I J k (read >>= f) bytes s := h

/-- Behind the byte that was looked at there is another one. -/
theorem takes_advance (hbyte : bytes.headD 0 ≠ 0) (h : I s) : Takes I J 1 advance bytes s := by
  cases bytes with
  | nil => exact absurd rfl hbyte
  | cons b rest => exact ⟨⟨rest, rfl, Nat.le_of_eq (Nat.add_comm 1 _)⟩, h⟩

theorem takes_expect {b : UInt8} (hb : b ≠ 0) (hI : I s) (hJ : J s) : Takes I J 1 (expect b) bytes s := by
  cases bytes with
  | nil =>
    have hrun : (expect b : Reader σ Unit) (.within [], s) = (.error .rejected, .past, s) := by
      simp [expect, peek, advance, run_bind, Ne.symm hb]
    rw [Takes, hrun]
    exact ⟨rfl, hJ⟩
  | cons c rest =>
    by_cases hc : c = b
    · have hrun : (expect b : Reader σ Unit) (.within (c :: rest), s) = (.ok (), .within rest, s) := by
        simp [expect, peek, advance, run_bind, hc]
      rw [Takes, hrun]
      exact ⟨⟨rest, rfl, Nat.le_of_eq (Nat.add_comm 1 _)⟩, hI⟩
    · have hrun : (expect b : Reader σ Unit) (.within (c :: rest), s) = (.error .rejected, .within rest, s) := by
        simp [expect, peek, advance, run_bind, hc]
      rw [Takes, hrun]
      exact ⟨rfl, hJ⟩

theorem takes_onBytes {f : List UInt8 → Option (α × List UInt8)}
    (h : ∀ a rest, f bytes = some (a, rest) → k + rest.length ≤ bytes.length) (hI : I s) (hJ : J s) :
    Takes I J k (onBytes f) bytes s := by
  rw [Takes]
  rcases hf : f bytes with _ | ⟨a, rest⟩
  · simp only [onBytes, hf]
    exact ⟨trivial, hJ⟩
  · simp only [onBytes, hf]
    exact ⟨⟨rest, rfl, h a rest hf⟩, hI⟩

theorem takes_onCopy (h : Takes I J k x bytes s) : Takes I J k (onCopy x) bytes s := by
  rw [Takes, onCopy]
  rcases hrun : x (.within bytes, s) with ⟨stop | a, cursor, s'⟩
  · exact h.error hrun
  · exact h.ok hrun

end Takes

section Scanners

variable {I J : σ → Prop} {bytes : List UInt8} {s : σ}

/-- The loop steps over the first bytes that have the property, and stops at the terminator. -/
theorem run_skipWhileLoop {p : UInt8 → Bool} (hp : p 0 = false) {fuel : ℕ} (hfuel : bytes.length < fuel) (s : σ) :
    skipWhileLoop p fuel (.within bytes, s) = (.ok (), .within (bytes.dropWhile p), s) := by
  induction fuel generalizing bytes with
  | zero => omega
  | succ fuel ih =>
    cases bytes with
    | nil =>
      rw [skipWhileLoop, run_peek_bind rfl, List.headD_nil, hp]
      rfl
    | cons b bytes =>
      rw [skipWhileLoop, run_peek_bind rfl, List.headD_cons]
      cases hb : p b with
      | true =>
        rw [List.dropWhile_cons_of_pos hb]
        exact ih (Nat.lt_of_succ_lt_succ hfuel)
      | false =>
        rw [List.dropWhile_cons_of_neg (by simp [hb])]
        rfl

theorem run_skipWhile {p : UInt8 → Bool} (hp : p 0 = false) (bytes : List UInt8) (s : σ) :
    skipWhile p (.within bytes, s) = (.ok (), .within (bytes.dropWhile p), s) :=
  run_skipWhileLoop hp (Nat.lt_succ_self _) s

/-- `skip_space` does to the list of bytes what its other definition says. -/
theorem skipSpace_eq : (skipSpace : Reader σ Unit) = Summary.skipSpace := by
  funext ⟨cursor, s⟩
  cases cursor with
  | within bytes => exact run_skipWhile rfl bytes s
  | past => rfl

theorem takes_skipSpace (hI : I s) : Takes I J 0 skipSpace bytes s := by
  have hrun : skipSpace (.within bytes, s) = (.ok (), .within (bytes.dropWhile Json.isSpace), s) := run_skipWhile rfl bytes s
  rw [Takes, hrun]
  exact ⟨⟨_, rfl, by rw [Nat.zero_add]; exact (List.dropWhile_suffix Json.isSpace).length_le⟩, hI⟩

theorem isDigit_ne_zero {b : UInt8} (h : Decimal.isDigit b = true) : b ≠ 0 := by
  rintro rfl
  exact absurd h (by decide)

theorem takes_skipDigits (hI : I s) (hJ : J s) : Takes I J 1 skipDigits bytes s := by
  apply takes_peek_bind
  apply Takes.ite
  · intro hdigit
    rw [Takes, run_skipWhile rfl]
    refine ⟨⟨_, rfl, ?_⟩, hI⟩
    cases bytes with
    | nil => exact absurd rfl (isDigit_ne_zero hdigit)
    | cons b bytes =>
      have hhead : Decimal.isDigit b = true := hdigit
      rw [List.dropWhile_cons_of_pos hhead, List.length_cons, Nat.add_comm]
      exact Nat.succ_le_succ (List.dropWhile_suffix _).length_le
  · exact fun _ => takes_reject hJ

theorem takes_parseSizeLoop (hIJ : ∀ s, I s → J s) {fuel : ℕ} (hfuel : bytes.length < fuel) (parsed : ℕ) (hI : I s) :
    Takes I J 0 (parseSizeLoop fuel parsed) bytes s := by
  induction fuel generalizing bytes s parsed with
  | zero => omega
  | succ fuel ih =>
    apply takes_peek_bind
    apply Takes.ite
    · intro hdigit
      apply Takes.ite
      · exact fun _ => takes_reject (hIJ s hI)
      · intro _
        apply Takes.mono _ (Nat.zero_le 1)
        exact (takes_advance (isDigit_ne_zero hdigit) hI).bind fun _ rest s' hrest hI' => ih (by omega) _ hI'
    · exact fun _ => takes_pure hI

theorem takes_parseSize (hIJ : ∀ s, I s → J s) (hI : I s) : Takes I J 0 parseSize bytes s := by
  apply takes_peek_bind
  apply Takes.ite
  · intro _
    apply takes_read_bind
    exact takes_parseSizeLoop hIJ (Nat.lt_succ_self _) 0 hI
  · exact fun _ => takes_reject (hIJ s hI)

theorem takes_skipInteger (hIJ : ∀ s, I s → J s) (hI : I s) : Takes I J 1 skipInteger bytes s := by
  apply takes_peek_bind
  apply Takes.ite
  · intro hzero
    have hbyte : bytes.headD 0 ≠ 0 := by
      rw [hzero]
      decide
    refine Takes.bind (l := 0) (takes_advance hbyte hI) fun _ rest s' _ hI' => ?_
    apply takes_peek_bind
    exact Takes.ite (fun _ => takes_reject (hIJ s' hI')) fun _ => takes_pure hI'
  · exact fun _ => takes_skipDigits hI (hIJ s hI)

theorem takes_skipFraction (hIJ : ∀ s, I s → J s) (hI : I s) : Takes I J 0 skipFraction bytes s := by
  apply takes_peek_bind
  apply Takes.ite
  · intro hpoint
    have hbyte : bytes.headD 0 ≠ 0 := by
      rw [hpoint]
      decide
    apply Takes.mono _ (Nat.zero_le (1 + 1))
    exact (takes_advance hbyte hI).bind fun _ rest s' _ hI' => takes_skipDigits hI' (hIJ s' hI')
  · exact fun _ => takes_pure hI

theorem takes_skipExponent (hIJ : ∀ s, I s → J s) (hI : I s) : Takes I J 0 skipExponent bytes s := by
  apply takes_peek_bind
  apply Takes.ite
  · intro hletter
    have hbyte : bytes.headD 0 ≠ 0 := by
      intro hzero
      rw [hzero] at hletter
      exact absurd hletter (by decide)
    apply Takes.mono _ (Nat.zero_le (1 + (0 + 1)))
    refine (takes_advance hbyte hI).bind fun _ rest s' _ hI' => ?_
    apply takes_peek_bind
    refine Takes.bind (k := 0) ?_ fun _ rest' s'' _ hI'' => takes_skipDigits hI'' (hIJ s'' hI'')
    apply Takes.ite
    · intro hsign
      apply Takes.mono _ (Nat.zero_le 1)
      apply takes_advance _ hI'
      intro hzero
      rw [hzero] at hsign
      exact absurd hsign (by decide)
    · exact fun _ => takes_pure hI'
  · exact fun _ => takes_pure hI

theorem takes_skipNumber (hIJ : ∀ s, I s → J s) (hI : I s) : Takes I J 1 skipNumber bytes s := by
  apply takes_onCopy
  apply takes_peek_bind
  apply Takes.mono _ (Nat.le_refl (0 + (1 + (0 + 0))))
  refine Takes.bind ?_ fun _ rest s' _ hI' => ?_
  · apply Takes.ite
    · intro hsign
      apply Takes.mono _ (Nat.zero_le 1)
      apply takes_advance _ hI
      rw [hsign]
      decide
    · exact fun _ => takes_pure hI
  · refine (takes_skipInteger hIJ hI').bind fun _ rest s' _ hI' => ?_
    exact (takes_skipFraction hIJ hI').bind fun _ rest s' _ hI' => takes_skipExponent hIJ hI'

/-- A comparison with a name reads no byte behind one that differs. -/
theorem run_startsWithLoop {name : List UInt8} (hname : 0 ∉ name) (bytes : List UInt8) (s : σ) :
    ∃ rest, startsWithLoop name (.within bytes, s) = (.ok (name.isPrefixOf bytes), .within rest, s) := by
  induction name generalizing bytes with
  | nil => exact ⟨bytes, rfl⟩
  | cons b name ih =>
    rw [List.mem_cons, not_or] at hname
    cases bytes with
    | nil => exact ⟨[], by simp [startsWithLoop, peek, run_bind, hname.1]⟩
    | cons c bytes =>
      obtain ⟨rest, hrest⟩ := ih hname.2 bytes
      by_cases hc : c = b
      · refine ⟨rest, ?_⟩
        subst hc
        simpa [startsWithLoop, peek, advance, run_bind] using hrest
      · refine ⟨c :: bytes, ?_⟩
        simp [startsWithLoop, peek, run_bind, hc, List.isPrefixOf, Ne.symm hc]

theorem run_startsWith (name : String) (bytes : List UInt8) (s : σ) :
    startsWith name (.within bytes, s) =
      (.ok ((Text.ofString name).bytes.isPrefixOf bytes), .within bytes, s) := by
  obtain ⟨rest, hrest⟩ := run_startsWithLoop (Text.ofString name).nulFree bytes s
  rw [startsWith, hrest]

theorem run_advanceBy {n : ℕ} (h : n ≤ bytes.length) (s : σ) :
    advanceBy n (.within bytes, s) = (.ok (), .within (bytes.drop n), s) := by
  induction n generalizing bytes with
  | zero => rfl
  | succ n ih =>
    cases bytes with
    | nil => exact absurd h (by simp)
    | cons b bytes => exact ih (Nat.le_of_succ_le_succ h)

/-- A name that is under the cursor is stepped over. -/
theorem takes_advanceBy {name : String} {n : ℕ} (hn : (Text.ofString name).bytes.length = n)
    (h : (Text.ofString name).bytes.isPrefixOf bytes = true) (hI : I s) : Takes I J n (advanceBy n) bytes s := by
  have hlength : n ≤ bytes.length := hn ▸ (List.isPrefixOf_iff_prefix.mp h).length_le
  rw [Takes, run_advanceBy hlength]
  exact ⟨⟨_, rfl, by rw [List.length_drop]; omega⟩, hI⟩

theorem takes_startsWith_bind {name : String} {k : ℕ} {f : Bool → Reader σ α}
    (h : Takes I J k (f ((Text.ofString name).bytes.isPrefixOf bytes)) bytes s) :
    Takes I J k (startsWith name >>= f) bytes s := by
  rw [Takes, run_bind_of_ok (run_startsWith name bytes s)]
  exact h

theorem takes_skipName (hI : I s) (hJ : J s) : Takes I J 1 skipName bytes s := by
  have hfalse : Takes I J 1 (startsWith "false" >>= fun isFalse =>
      if isFalse then advanceBy 5 else fail .rejected) bytes s := by
    apply takes_startsWith_bind
    apply Takes.ite
    · exact fun h => (takes_advanceBy (by decide) h hI).mono (by decide)
    · exact fun _ => takes_reject hJ
  apply takes_startsWith_bind
  cases htrue : (Text.ofString "true").bytes.isPrefixOf bytes with
  | true => exact (takes_advanceBy (by decide) htrue hI).mono (by decide)
  | false =>
    apply takes_startsWith_bind
    apply Takes.ite
    · exact fun h => (takes_advanceBy (by decide) h hI).mono (by decide)
    · exact fun _ => hfalse

theorem takes_parseBoolean (hI : I s) (hJ : J s) : Takes I J 0 parseBoolean bytes s := by
  apply takes_startsWith_bind
  apply Takes.ite
  · intro h
    apply Takes.mono _ (Nat.zero_le (4 + 0))
    exact (takes_advanceBy (by decide) h hI).bind fun _ rest s' _ hI' => takes_pure hI'
  · intro _
    apply takes_startsWith_bind
    apply Takes.ite
    · intro h
      apply Takes.mono _ (Nat.zero_le (5 + 0))
      exact (takes_advanceBy (by decide) h hI).bind fun _ rest s' _ hI' => takes_pure hI'
    · exact fun _ => takes_reject hJ

end Scanners

/-- `p101_json_read_string` stops at the terminator, and has stepped over a literal if it succeeds. -/
def StopsInside (lib : JsonLibrary) : Prop :=
  ∀ size bytes text rest, lib.readString size bytes = some (text, rest) →
    rest <:+ bytes ∧ rest.length < bytes.length

section Loops

variable {lib : JsonLibrary} {I J : σ → Prop} {bytes : List UInt8} {s : σ}

theorem takes_parseString (hlib : StopsInside lib) (size : Option ℕ) (hI : I s) (hJ : J s) :
    Takes I J 1 (parseString lib size) bytes s := by
  apply takes_onBytes _ hI hJ
  intro text rest hread
  have hshorter := (hlib size bytes text rest hread).2
  omega

variable (hlib : StopsInside lib) (hIJ : ∀ s, I s → J s)
include hIJ

theorem takes_skipElements {skip : Reader σ Unit} (hskip : ∀ bytes s, I s → Takes I J 1 skip bytes s) {fuel : ℕ}
    (hfuel : bytes.length < fuel) (first : Bool) (hI : I s) : Takes I J 1 (skipElements skip fuel first) bytes s := by
  induction fuel generalizing bytes s first with
  | zero => omega
  | succ fuel ih =>
    apply takes_peek_bind
    apply Takes.ite
    · intro hbracket
      apply takes_advance _ hI
      rw [hbracket]
      decide
    · intro _
      apply Takes.mono (k := 0 + (1 + (0 + 1))) _ (by decide)
      refine Takes.bind ?_ fun _ rest₁ s₁ h₁ hI₁ => ?_
      · apply Takes.ite
        · exact fun _ => takes_pure hI
        · exact fun _ => (takes_expect (by decide) hI (hIJ s hI)).mono (Nat.zero_le 1)
      rw [← skipSpace_eq]
      refine (hskip rest₁ s₁ hI₁).bind fun _ rest₂ s₂ h₂ hI₂ => ?_
      exact (takes_skipSpace hI₂).bind fun _ rest₃ s₃ h₃ hI₃ => ih (by omega) false hI₃

theorem takes_skipArray {skip : Reader σ Unit} (hskip : ∀ bytes s, I s → Takes I J 1 skip bytes s)
    (hbracket : bytes.headD 0 = 91) (hI : I s) : Takes I J 1 (skipArray skip) bytes s := by
  have hbyte : bytes.headD 0 ≠ 0 := by
    rw [hbracket]
    decide
  apply Takes.mono (k := 1 + (0 + 1)) _ (by decide)
  rw [skipArray, ← skipSpace_eq]
  refine (takes_advance hbyte hI).bind fun _ rest s₁ _ hI₁ => (takes_skipSpace hI₁).bind fun _ rest₂ s₂ _ hI₂ => ?_
  apply takes_read_bind
  exact takes_skipElements hIJ hskip (Nat.lt_succ_self _) true hI₂

include hlib

theorem takes_skipMembers {skip : Reader σ Unit} (hskip : ∀ bytes s, I s → Takes I J 1 skip bytes s) {fuel : ℕ}
    (hfuel : bytes.length < fuel) (first : Bool) (hI : I s) : Takes I J 1 (skipMembers lib skip fuel first) bytes s := by
  induction fuel generalizing bytes s first with
  | zero => omega
  | succ fuel ih =>
    apply takes_peek_bind
    apply Takes.ite
    · intro hbrace
      apply takes_advance _ hI
      rw [hbrace]
      decide
    · intro _
      apply Takes.mono (k := 0 + (0 + (1 + (0 + (1 + (1 + (0 + 1))))))) _ (by decide)
      refine Takes.bind ?_ fun _ rest₁ s₁ h₁ hI₁ => ?_
      · apply Takes.ite
        · exact fun _ => takes_pure hI
        · exact fun _ => (takes_expect (by decide) hI (hIJ s hI)).mono (Nat.zero_le 1)
      rw [← skipSpace_eq]
      refine (takes_skipSpace hI₁).bind fun _ rest₂ s₂ h₂ hI₂ => ?_
      refine (takes_parseString hlib _ hI₂ (hIJ s₂ hI₂)).bind fun _ rest₃ s₃ h₃ hI₃ => ?_
      refine (takes_skipSpace hI₃).bind fun _ rest₄ s₄ h₄ hI₄ => ?_
      refine (takes_expect (by decide) hI₄ (hIJ s₄ hI₄)).bind fun _ rest₅ s₅ h₅ hI₅ => ?_
      refine (hskip rest₅ s₅ hI₅).bind fun _ rest₆ s₆ h₆ hI₆ => ?_
      exact (takes_skipSpace hI₆).bind fun _ rest₇ s₇ h₇ hI₇ => ih (by omega) false hI₇

theorem takes_skipObject {skip : Reader σ Unit} (hskip : ∀ bytes s, I s → Takes I J 1 skip bytes s)
    (hbrace : bytes.headD 0 = 123) (hI : I s) : Takes I J 1 (skipObject lib skip) bytes s := by
  have hbyte : bytes.headD 0 ≠ 0 := by
    rw [hbrace]
    decide
  apply Takes.mono (k := 1 + (0 + 1)) _ (by decide)
  rw [skipObject, ← skipSpace_eq]
  refine (takes_advance hbyte hI).bind fun _ rest s₁ _ hI₁ => (takes_skipSpace hI₁).bind fun _ rest₂ s₂ _ hI₂ => ?_
  apply takes_read_bind
  exact takes_skipMembers hlib hIJ hskip (Nat.lt_succ_self _) true hI₂

theorem takes_readMembers {handle : Text → Reader σ Unit}
    (hhandle : ∀ key bytes s, I s → Takes I J 0 (handle key) bytes s) {fuel : ℕ}
    (hfuel : bytes.length < fuel) (first : Bool) (hI : I s) :
    Takes I J 0 (readMembers lib handle fuel first) bytes s := by
  induction fuel generalizing bytes s first with
  | zero => omega
  | succ fuel ih =>
    rw [readMembers, ← skipSpace_eq]
    apply Takes.mono (k := 0 + 0) _ (by decide)
    refine (takes_skipSpace hI).bind fun _ rest s h hI => ?_
    apply takes_peek_bind
    apply Takes.ite
    · intro hbrace
      apply Takes.mono _ (Nat.zero_le 1)
      apply takes_advance _ hI
      rw [hbrace]
      decide
    · intro _
      apply Takes.mono (k := 0 + (1 + (0 + (1 + (0 + (0 + 0)))))) _ (by decide)
      refine Takes.bind ?_ fun _ rest₁ s₁ h₁ hI₁ => ?_
      · apply Takes.ite
        · exact fun _ => takes_pure hI
        · intro _
          apply Takes.mono (k := 1 + 0) _ (Nat.zero_le 1)
          exact (takes_expect (by decide) hI (hIJ s hI)).bind fun _ rest s _ hI => takes_skipSpace hI
      refine (takes_parseString hlib _ hI₁ (hIJ s₁ hI₁)).bind fun key rest₂ s₂ h₂ hI₂ => ?_
      refine (takes_skipSpace hI₂).bind fun _ rest₃ s₃ h₃ hI₃ => ?_
      refine (takes_expect (by decide) hI₃ (hIJ s₃ hI₃)).bind fun _ rest₄ s₄ h₄ hI₄ => ?_
      refine (takes_skipSpace hI₄).bind fun _ rest₅ s₅ h₅ hI₅ => ?_
      refine (hhandle key rest₅ s₅ hI₅).bind fun _ rest₆ s₆ h₆ hI₆ => ih (by omega) false hI₆

theorem takes_readObject {handle : Text → Reader σ Unit}
    (hhandle : ∀ key bytes s, I s → Takes I J 0 (handle key) bytes s) (hI : I s) :
    Takes I J 0 (readObject lib handle) bytes s := by
  apply Takes.mono (k := 1 + 0) _ (by decide)
  refine (takes_expect (by decide) hI (hIJ s hI)).bind fun _ rest s₁ _ hI₁ => ?_
  apply takes_read_bind
  exact takes_readMembers hlib hIJ hhandle (Nat.lt_succ_self _) true hI₁

end Loops

def maxActivations : ℕ := jsonMaxDepth + 1

/-- The activations of `skip_value` have never been more than its depth allows. -/
def Nested (s : Calls × σ) : Prop := s.1.deepest ≤ maxActivations

def ActiveAt (active : ℕ) (s : Calls × σ) : Prop := s.1.active = active ∧ Nested s

theorem nested_of_activeAt (active : ℕ) (s : Calls × σ) (h : ActiveAt active s) : Nested s := h.2

section Readers

variable {lib : JsonLibrary} {bytes : List UInt8} {active k : ℕ}

theorem takes_activation {x : Reader (Calls × σ) α} {s : Calls × σ}
    (hx : ∀ s, ActiveAt (active + 1) s → Takes (ActiveAt (active + 1)) Nested k x bytes s)
    (hactive : active < maxActivations) (hs : ActiveAt active s) :
    Takes (ActiveAt active) Nested k (activation x) bytes s := by
  obtain ⟨calls, own⟩ := s
  obtain ⟨rfl, hnested⟩ := hs
  have hentered : ActiveAt (calls.active + 1) (calls.enter, own) := ⟨rfl, max_le hnested hactive⟩
  have hbody := hx (calls.enter, own) hentered
  rw [Takes, activation]
  rcases hrun : x (.within bytes, calls.enter, own) with ⟨stop | a, cursor, calls', own'⟩
  · obtain ⟨hstop, hnested'⟩ := hbody.error hrun
    exact ⟨hstop, hnested'⟩
  · obtain ⟨hcursor, hleft, hnested'⟩ := hbody.ok hrun
    refine ⟨hcursor, ?_, hnested'⟩
    exact congrArg (fun n => n - 1) hleft

theorem takes_updateOwn {f : σ → σ} {s : Calls × σ} (hs : ActiveAt active s) :
    Takes (ActiveAt active) Nested 0 (updateOwn f) bytes s :=
  ⟨⟨bytes, rfl, Nat.le_of_eq (Nat.zero_add _)⟩, hs⟩

variable (hlib : StopsInside lib)
include hlib

/-- The depth counts the activations that have not returned, so there is room for one more. -/
theorem takes_skipValueAt {fuel depth : ℕ} (hfuel : jsonMaxDepth < fuel + depth) (hdepth : depth ≤ jsonMaxDepth)
    (hactive : active ≤ depth) {s : Calls × σ} (hs : ActiveAt active s) :
    Takes (ActiveAt active) Nested 1 (skipValueAt lib fuel depth) bytes s := by
  induction fuel generalizing depth active bytes s with
  | zero => omega
  | succ fuel ih =>
    apply takes_activation _ (Nat.lt_succ_of_le (hactive.trans hdepth)) hs
    intro s hs
    have hIJ := @nested_of_activeAt σ (active + 1)
    apply Takes.ite
    · exact fun _ => takes_reject hs.2
    · intro hroom
      have hskip : ∀ bytes s, ActiveAt (active + 1) s →
          Takes (ActiveAt (active + 1)) Nested 1 (skipValueAt lib fuel (depth + 1)) bytes s :=
        fun bytes s hs => ih (by omega) (Nat.lt_of_not_le hroom) (Nat.succ_le_succ hactive) hs
      apply Takes.mono (k := 0 + 1) _ (by decide)
      refine (takes_skipSpace hs).bind fun _ bytes s _ hs => ?_
      apply takes_peek_bind
      apply Takes.ite
      · intro _
        apply Takes.mono (k := 1 + 0) _ (by decide)
        exact (takes_parseString hlib _ hs hs.2).bind fun _ rest s _ hs => takes_pure hs
      · intro _
        refine Takes.ite (fun hbrace => takes_skipObject hlib hIJ hskip hbrace hs) fun _ => ?_
        refine Takes.ite (fun hbracket => takes_skipArray hIJ hskip hbracket hs) fun _ => ?_
        exact Takes.ite (fun _ => takes_skipNumber hIJ hs) fun _ => takes_skipName hs hs.2

/-- A value that is skipped at a depth of the readers. -/
theorem takes_skipValue {depth : ℕ} (hdepth : depth ≤ jsonMaxDepth) {s : Calls × σ} (hs : ActiveAt 0 s) :
    Takes (ActiveAt 0) Nested 0 (skipValue lib depth) bytes s :=
  (takes_skipValueAt hlib (by omega) hdepth (Nat.zero_le depth) hs).mono (Nat.zero_le 1)

omit hlib in
theorem hIJ_zero : ∀ s : Calls × σ, ActiveAt 0 s → Nested s := nested_of_activeAt 0

omit hlib in
theorem takes_storeSize {f : ℕ → σ → σ} {s : Calls × σ} (hs : ActiveAt 0 s) :
    Takes (ActiveAt 0) Nested 0 (parseSize >>= fun size => updateOwn (f size)) bytes s :=
  (takes_parseSize hIJ_zero hs).bind fun _ _ _ _ hs => takes_updateOwn hs

theorem takes_sizeMember (wanted key : Text) {s : Calls × SizeState} (hs : ActiveAt 0 s) :
    Takes (ActiveAt 0) Nested 0 (sizeMember lib wanted key) bytes s := by
  apply takes_read_bind
  apply Takes.ite
  · intro _
    exact Takes.ite (fun _ => takes_reject hs.2) fun _ => takes_storeSize hs
  · exact fun _ => takes_skipValue hlib (Nat.zero_le _) hs

theorem takes_findTopLevelSize (wanted : Text) {s : Calls × SizeState} (hs : ActiveAt 0 s) :
    Takes (ActiveAt 0) Nested 0 (findTopLevelSize lib wanted) bytes s := by
  apply Takes.mono (k := 0 + (0 + (0 + 0))) _ (by decide)
  refine (takes_skipSpace hs).bind fun _ rest s _ hs => ?_
  refine (takes_readObject hlib hIJ_zero (fun key bytes s hs => takes_sizeMember hlib wanted key hs) hs).bind
    fun _ rest s _ hs => ?_
  refine (takes_skipSpace hs).bind fun _ rest s _ hs => ?_
  apply takes_read_bind
  exact Takes.ite (fun _ => takes_peek_bind (takes_pure hs)) fun _ => takes_pure hs

theorem takes_parseJsonSize (key : Text) {s : Calls × SizeState} (hs : ActiveAt 0 s) :
    Takes (ActiveAt 0) Nested 0 (parseJsonSize lib key) bytes s := by
  unfold parseJsonSize
  split
  · exact takes_pure hs
  · exact takes_findTopLevelSize hlib _ hs

theorem takes_policyMember (key : Text) {s : Calls × PolicyState} (hs : ActiveAt 0 s) :
    Takes (ActiveAt 0) Nested 0 (policyMember lib key) bytes s := by
  apply takes_read_bind
  apply Takes.ite
  · intro _
    exact Takes.ite (fun _ => takes_reject hs.2) fun _ => takes_storeSize hs
  · intro _
    apply Takes.ite
    · intro _
      exact Takes.ite (fun _ => takes_reject hs.2) fun _ => takes_storeSize hs
    · exact fun _ => takes_skipValue hlib (Nat.zero_le _) hs

theorem takes_parsePolicySummary {s : Calls × PolicyState} (hs : ActiveAt 0 s) :
    Takes (ActiveAt 0) Nested 0 (parsePolicySummary lib) bytes s := by
  apply Takes.mono (k := 0 + (0 + 0)) _ (by decide)
  refine (takes_updateOwn hs).bind fun _ rest s _ hs => ?_
  refine (takes_readObject hlib hIJ_zero (fun key bytes s hs => takes_policyMember hlib key hs) hs).bind
    fun _ rest s _ hs => ?_
  apply takes_read_bind
  exact Takes.ite (fun _ => takes_pure hs) fun _ => takes_reject hs.2

theorem takes_documentMember (schema key : Text) {s : Calls × PolicyState} (hs : ActiveAt 0 s) :
    Takes (ActiveAt 0) Nested 0 (documentMember lib schema key) bytes s := by
  apply takes_read_bind
  apply Takes.ite
  · intro _
    apply Takes.ite (fun _ => takes_reject hs.2)
    intro _
    apply Takes.mono (k := 1 + 0) _ (Nat.zero_le 1)
    exact (takes_parseString hlib _ hs hs.2).bind fun _ rest s _ hs => takes_updateOwn hs
  · intro _
    apply Takes.ite
    · intro _
      apply Takes.ite (fun _ => takes_reject hs.2)
      exact fun _ => (takes_parsePolicySummary hlib hs).bind fun _ rest s _ hs => takes_updateOwn hs
    · exact fun _ => takes_skipValue hlib (Nat.zero_le _) hs

theorem takes_readPolicySummary (schema : Text) {s : Calls × PolicyState} (hs : ActiveAt 0 s) :
    Takes (ActiveAt 0) Nested 0 (readPolicySummary lib schema) bytes s := by
  apply Takes.mono (k := 0 + (0 + (0 + 0))) _ (by decide)
  refine (takes_skipSpace hs).bind fun _ rest s _ hs => ?_
  refine (takes_readObject hlib hIJ_zero (fun key bytes s hs => takes_documentMember hlib schema key hs) hs).bind
    fun _ rest s _ hs => ?_
  refine (takes_skipSpace hs).bind fun _ rest s _ hs => ?_
  exact takes_peek_bind (takes_updateOwn hs)

theorem takes_healthMember (key : Text) {s : Calls × ResourceState} (hs : ActiveAt 0 s) :
    Takes (ActiveAt 0) Nested 0 (healthMember lib key) bytes s := by
  apply takes_read_bind
  apply Takes.ite
  · intro _
    apply Takes.ite (fun _ => takes_reject hs.2)
    exact fun _ => (takes_parseBoolean hs hs.2).bind fun _ rest s _ hs => takes_updateOwn hs
  · exact fun _ => takes_skipValue hlib (by decide) hs

theorem takes_parseLogHealth {s : Calls × ResourceState} (hs : ActiveAt 0 s) :
    Takes (ActiveAt 0) Nested 0 (parseLogHealth lib) bytes s := by
  apply Takes.mono (k := 0 + (0 + 0)) _ (by decide)
  refine (takes_updateOwn hs).bind fun _ rest s _ hs => ?_
  refine (takes_readObject hlib hIJ_zero (fun key bytes s hs => takes_healthMember hlib key hs) hs).bind
    fun _ rest s _ hs => ?_
  apply takes_read_bind
  exact Takes.ite (fun _ => takes_pure hs) fun _ => takes_reject hs.2

theorem takes_readField (field : ResourceField) {s : Calls × ResourceState} (hs : ActiveAt 0 s) :
    Takes (ActiveAt 0) Nested 0 (readField lib field) bytes s := by
  cases field with
  | schema =>
    apply Takes.mono (k := 1 + 0) _ (Nat.zero_le 1)
    exact (takes_parseString hlib _ hs hs.2).bind fun _ rest s _ hs => takes_updateOwn hs
  | counter c => exact takes_storeSize hs
  | logHealth => exact takes_parseLogHealth hlib hs

theorem takes_resourceMember (key : Text) {s : Calls × ResourceState} (hs : ActiveAt 0 s) :
    Takes (ActiveAt 0) Nested 0 (resourceMember lib key) bytes s := by
  apply takes_read_bind
  dsimp only
  split
  · exact takes_skipValue hlib (Nat.zero_le _) hs
  · apply Takes.ite (fun _ => takes_reject hs.2)
    exact fun _ => (takes_readField hlib _ hs).bind fun _ rest s _ hs => takes_updateOwn hs

theorem takes_readResourceSummary {s : Calls × ResourceState} (hs : ActiveAt 0 s) :
    Takes (ActiveAt 0) Nested 0 (readResourceSummary lib) bytes s := by
  apply Takes.mono (k := 0 + (0 + (0 + 0))) _ (by decide)
  refine (takes_skipSpace hs).bind fun _ rest s _ hs => ?_
  refine (takes_readObject hlib hIJ_zero (fun key bytes s hs => takes_resourceMember hlib key hs) hs).bind
    fun _ rest s _ hs => ?_
  refine (takes_skipSpace hs).bind fun _ rest s _ hs => ?_
  exact takes_peek_bind (takes_updateOwn hs)

end Readers

/-- Run on a text, the reader returns without a read past the terminator and without an endless loop,
and never more activations of `skip_value` were nested than allowed. -/
structure Contained (x : Reader (Calls × σ) α) (text : Text) (own : σ) : Prop where
  stops : ∀ stop t, x (.within text.bytes, {}, own) = (.error stop, t) → stop = .rejected
  nested : (x (.within text.bytes, {}, own)).2.2.1.deepest ≤ 65

theorem contained_of_takes {x : Reader (Calls × σ) α} {text : Text} {own : σ}
    (h : ∀ s, ActiveAt 0 s → Takes (ActiveAt 0) Nested 0 x text.bytes s) : Contained x text own := by
  have hrun := h ({}, own) ⟨rfl, Nat.zero_le _⟩
  constructor
  · rintro stop ⟨cursor, calls, own'⟩ hstop
    exact (hrun.error hstop).1
  · rcases hresult : x (.within text.bytes, {}, own) with ⟨stop | a, cursor, s⟩
    · exact (hrun.error hresult).2
    · exact (hrun.ok hresult).2.2

/-- Whatever the text is, the readers of summaries return, stay inside it, and nest `skip_value` at
most 65 times. -/
theorem readers_contained {lib : JsonLibrary} (hlib : StopsInside lib) (text : Text) :
    (∀ key value, Contained (parseJsonSize lib key) text { value := value }) ∧
      (∀ schema, Contained (readPolicySummary lib schema) text {}) ∧
      Contained (readResourceSummary lib) text {} := by
  refine ⟨fun key value => ?_, fun schema => ?_, ?_⟩
  · exact contained_of_takes fun s hs => takes_parseJsonSize hlib key hs
  · exact contained_of_takes fun s hs => takes_readPolicySummary hlib schema hs
  · exact contained_of_takes fun s hs => takes_readResourceSummary hlib hs

/-- A library that reads exactly the literals stops inside the text. -/
theorem stopsInside_of_readsLiterals {lib : JsonLibrary} {Decodes : List UInt8 → Text → Prop}
    (h : ReadsLiterals lib Decodes) : StopsInside lib := by
  intro size bytes text rest hread
  obtain ⟨literal, rfl, hdecodes, -⟩ := h.reads.mp hread
  have hquote := h.quote hdecodes
  cases literal with
  | nil => cases hquote
  | cons b literal =>
    refine ⟨List.suffix_append _ _, ?_⟩
    rw [List.length_append, List.length_cons]
    omega

/-- An object that ends in the middle of its second member. -/
def brokenText : Text := .ofString "\x7b\"a\":[[1.5e,"

theorem readers_contained_brokenText :
    (∀ key value, Contained (parseJsonSize .exact key) brokenText { value := value }) ∧
      (∀ schema, Contained (readPolicySummary .exact schema) brokenText {}) ∧
      Contained (readResourceSummary .exact) brokenText {} :=
  readers_contained (stopsInside_of_readsLiterals readsLiterals_exact) brokenText

end ToolEvent.Summary.Scan
