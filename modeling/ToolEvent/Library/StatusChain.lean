import ToolEvent.Library.OutputStream

/-!
# Chains of statuses

A C routine that performs its steps one after the other may keep the status of the step that
failed instead of a status of its own. Where a failed operation returns EOF, such a routine does
what an attempt of its writes does, and its status is 0 for the same answers of the stream.
-/

namespace OutputStream

/-- A failed operation leaves nothing on the stream and returns EOF. -/
def Stream.FailsWithEof (s : Stream) : Prop := ∀ n, (s.answer n).succeeds = false → (s.answer n).code = 0

theorem Stream.FailsWithEof.record {s : Stream} (h : s.FailsWithEof) (op : Operation) : (s.record op).FailsWithEof := h

theorem failsWithEof_attempt {s : Stream} (h : s.FailsWithEof) (ops : List Operation) :
    (attempt ops s).2.FailsWithEof := by
  induction ops generalizing s with
  | nil => exact h
  | cons op ops ih =>
    cases hnext : s.next.succeeds with
    | true =>
      rw [attempt_cons_of_success hnext]
      exact ih (h.record op)
    | false =>
      rw [attempt_cons_of_failure hnext]
      exact h.record op

theorem giveUp_ne_zero {s : Stream} : (giveUp s).1 ≠ 0 := by
  rw [giveUp]
  omega

/-- The next writer runs if the status is 0, and otherwise the status is kept. -/
def ifZero (x next : Writer) : Writer := fun s => if (x s).1 = 0 then next (x s).2 else x s

def ifNonnegative (x next : Writer) : Writer := fun s => if 0 ≤ (x s).1 then next (x s).2 else x s

/-- The writer attempts to write the bytes, and its status tells whether it could. -/
def Reports (x : Writer) (bytes : List UInt8) : Prop :=
  ∃ pieces : List (List UInt8), pieces.flatten = bytes ∧ ∀ s : Stream, s.FailsWithEof →
    ((x s).1 = 0 ↔ (attempt (pieces.map .write) s).1 = 0) ∧ (x s).2 = (attempt (pieces.map .write) s).2

variable {x y next : Writer} {bytes bytes' : List UInt8}

theorem Writes.reports (h : Writes x bytes) : Reports x bytes := by
  obtain ⟨pieces, hperforms, hbytes⟩ := h
  rw [List.append_nil] at hperforms
  exact ⟨pieces, hbytes, fun s _ => by rw [hperforms]; exact ⟨Iff.rfl, rfl⟩⟩

theorem reports_done : Reports done [] := writes_done.reports

theorem Reports.ifZero (h : Reports x bytes) (h' : Reports next bytes') : Reports (ifZero x next) (bytes ++ bytes') := by
  obtain ⟨pieces, rfl, hx⟩ := h
  obtain ⟨pieces', rfl, hnext⟩ := h'
  refine ⟨pieces ++ pieces', List.flatten_append, fun s hs => ?_⟩
  obtain ⟨hstatus, hstream⟩ := hx s hs
  rw [List.map_append, attempt_append, unlessNonzero, guarded, OutputStream.ifZero]
  by_cases hzero : (x s).1 = 0
  · have hgoes := hnext (attempt (pieces.map .write) s).2 (failsWithEof_attempt hs _)
    rw [if_pos hzero, if_neg (by rw [hstatus.mp hzero]; decide), hstream]
    exact hgoes
  · have hstops : (attempt (pieces.map .write) s).1 ≠ 0 := fun h => hzero (hstatus.mpr h)
    rw [if_neg hzero, if_pos (decide_eq_true hstops)]
    exact ⟨iff_of_false hzero giveUp_ne_zero, hstream⟩

/-- An operation whose status tells whether it failed, when a failure returns EOF. -/
theorem reports_guarded {stops : ℤ → Bool} (status : Answer → ℤ) {piece : List UInt8}
    (hx : ∀ s, x s = (status s.next, s.record (.write piece)))
    (hstops : ∀ a : Answer, (a.succeeds = false → a.code = 0) → stops (status a) = ! a.succeeds)
    (h : Reports next bytes) : Reports (guarded stops x next) (piece ++ bytes) := by
  obtain ⟨pieces, rfl, hnext⟩ := h
  refine ⟨piece :: pieces, rfl, fun s hs => ?_⟩
  rw [guarded, hx, hstops s.next (hs _), List.map_cons]
  cases hanswer : s.next.succeeds with
  | true =>
    rw [attempt_cons_of_success hanswer]
    exact hnext _ (hs.record _)
  | false =>
    rw [attempt_cons_of_failure hanswer]
    exact ⟨Iff.rfl, rfl⟩

theorem Reports.fputs (bytes : List UInt8) (h : Reports next bytes') :
    Reports (unlessEof (fputs bytes) next) (bytes ++ bytes') := by
  apply reports_guarded (fun a => if a.succeeds then a.code else eof) (fun _ => rfl) _ h
  intro a _
  cases a.succeeds with
  | true =>
    apply decide_eq_false
    rw [if_pos rfl, eof]
    omega
  | false => rfl

theorem Reports.fputc (byte : UInt8) (h : Reports next bytes) : Reports (unlessEof (fputc byte) next) ([byte] ++ bytes) := by
  apply reports_guarded (fun a => if a.succeeds then byte.toNat else eof) (fun _ => rfl) _ h
  intro a _
  cases a.succeeds with
  | true =>
    apply decide_eq_false
    rw [if_pos rfl, eof]
    omega
  | false => rfl

/-- A formatted write whose status is compared with EOF. -/
theorem Reports.fprintf (bytes : List UInt8) (h : Reports next bytes') :
    Reports (unlessEof (fprintf bytes) next) (bytes ++ bytes') := by
  apply reports_guarded (fun a => if a.succeeds then bytes.length else -(a.code + 1)) (fun _ => rfl) _ h
  intro a hcode
  cases hsucceeds : a.succeeds with
  | true =>
    apply decide_eq_false
    rw [if_pos rfl, eof]
    omega
  | false =>
    apply decide_eq_true
    rw [hcode hsucceeds, if_neg Bool.false_ne_true, eof]
    rfl

/-- A formatted write whose status is kept when it is negative. -/
theorem Reports.nonnegative (bytes : List UInt8) (h : Reports next bytes') :
    Reports (ifNonnegative (OutputStream.fprintf bytes) next) (bytes ++ bytes') := by
  obtain ⟨pieces, rfl, hnext⟩ := h
  refine ⟨bytes :: pieces, rfl, fun s hs => ?_⟩
  rw [List.map_cons]
  cases hanswer : s.next.succeeds with
  | true =>
    have hstatus : OutputStream.fprintf bytes s = ((bytes.length : ℤ), s.record (.write bytes)) :=
      Prod.ext (if_pos hanswer) rfl
    rw [attempt_cons_of_success hanswer, ifNonnegative, hstatus, if_pos (Int.natCast_nonneg _)]
    exact hnext _ (hs.record _)
  | false =>
    have hstatus : OutputStream.fprintf bytes s = (-((s.next.code : ℤ) + 1), s.record (.write bytes)) :=
      Prod.ext (if_neg (by rw [hanswer]; exact Bool.false_ne_true)) rfl
    have hnegative : ¬ (0 : ℤ) ≤ -(s.next.code + 1) := by omega
    rw [attempt_cons_of_failure hanswer, ifNonnegative, hstatus, if_neg hnegative, ← giveUp]
    refine ⟨iff_of_false ?_ giveUp_ne_zero, rfl⟩
    exact fun hzero => hnegative (Int.le_of_eq hzero.symm)

theorem guarded_assoc {stops : ℤ → Bool} (h : stops (-1) = true) (x y z : Writer) :
    guarded stops (guarded stops x y) z = guarded stops x (guarded stops y z) := by
  funext s
  by_cases hstops : stops (x s).1 = true
  · simp only [guarded, hstops, giveUp, h, if_true]
  · simp only [guarded, hstops, Bool.false_eq_true, if_false]

end OutputStream
