import Mathlib.Data.List.Basic
import Mathlib.Algebra.Ring.Int.Defs

/-!
# Writers to an output stream

The routines of a C program that write to a stream return a status, and each operation on
the stream may fail. A writer that checks every status stops at the first failure; what it
then did is a list of operations, and writers of this kind compose along `++`.
-/

namespace OutputStream

inductive Operation
  | write (bytes : List UInt8)
  | flush
  deriving DecidableEq

def Operation.bytes : Operation → List UInt8
  | .write bytes => bytes
  | .flush => []

/-- How the stream answers an operation: `code` is the part of the result that is not
specified, and the length of what a failed write leaves on the stream. -/
structure Answer where
  succeeds : Bool := true
  code : ℕ := 0

/-- A stream with its answers to the operations, which it counts from the first one on. -/
structure Stream where
  answer : ℕ → Answer
  log : List (Operation × Bool) := []
  written : List UInt8 := []

namespace Stream

def next (s : Stream) : Answer := s.answer s.log.length

def record (op : Operation) (s : Stream) : Stream where
  answer := s.answer
  log := s.log ++ [(op, s.next.succeeds)]
  written := s.written ++ if s.next.succeeds then op.bytes else op.bytes.take s.next.code

def NeverFails (s : Stream) : Prop := ∀ n, s.log.length ≤ n → (s.answer n).succeeds = true

theorem NeverFails.record {s : Stream} (h : s.NeverFails) (op : Operation) : (s.record op).NeverFails := by
  intro n hn
  rw [Stream.record, List.length_append] at hn
  exact h n (by omega)

end Stream

/-- A file that was opened for writing: how it answers, the error that a failed flush leaves, and
whether closing it succeeds. -/
structure OutputFile (ε : Type) where
  answer : ℕ → Answer
  flushError : ε
  closes : Except ε Unit := .ok ()

def OutputFile.stream {ε : Type} (file : OutputFile ε) : Stream := ⟨file.answer, [], []⟩

abbrev Writer := Stream → ℤ × Stream

def eof : ℤ := -1

def fputs (bytes : List UInt8) : Writer := fun s =>
  (if s.next.succeeds then s.next.code else eof, s.record (.write bytes))

def fputc (byte : UInt8) : Writer := fun s => (if s.next.succeeds then byte.toNat else eof, s.record (.write [byte]))

/-- `fprintf`, with the text of its format and arguments. -/
def fprintf (bytes : List UInt8) : Writer := fun s =>
  (if s.next.succeeds then bytes.length else -(s.next.code + 1), s.record (.write bytes))

def fflush : Writer := fun s => (if s.next.succeeds then 0 else eof, s.record .flush)

def done : Writer := fun s => (0, s)

def giveUp : Writer := fun s => (-1, s)

/-- Return -1 if the status of the first writer says so. -/
def guarded (stops : ℤ → Bool) (x next : Writer) : Writer := fun s =>
  if stops (x s).1 then giveUp (x s).2 else next (x s).2

def unlessEof : Writer → Writer → Writer := guarded (· = eof)
def unlessNegative : Writer → Writer → Writer := guarded (· < 0)
def unlessNonzero : Writer → Writer → Writer := guarded (· ≠ 0)

/-- A loop that writes the separator in front of every element but the first. -/
def separated {α : Type*} (separator : List UInt8) (item : α → Writer) (next : Writer) : Bool → List α → Writer
  | _, [] => next
  | true, a :: as => unlessNonzero (item a) (separated separator item next false as)
  | false, a :: as =>
    unlessEof (fputs separator) (unlessNonzero (item a) (separated separator item next false as))

/-- Perform the operations until one fails. -/
def attempt : List Operation → Writer
  | [] => done
  | op :: ops => fun s => if s.next.succeeds then attempt ops (s.record op) else giveUp (s.record op)

theorem attempt_cons_of_success {s : Stream} (h : s.next.succeeds = true) (op : Operation) (ops : List Operation) :
    attempt (op :: ops) s = attempt ops (s.record op) := if_pos h

theorem attempt_cons_of_failure {s : Stream} (h : s.next.succeeds = false) (op : Operation)
    (ops : List Operation) : attempt (op :: ops) s = (-1, s.record op) := if_neg (by simp [h])

theorem record_of_success {s : Stream} (h : s.next.succeeds = true) (op : Operation) :
    (s.record op).log = s.log ++ [(op, true)] ∧ (s.record op).written = s.written ++ op.bytes := by
  rw [Stream.record, h]
  exact ⟨rfl, rfl⟩

/-- Where an attempt ends: after all of its operations, or after the first one that failed. -/
inductive Attempted (ops : List Operation) (s : Stream) : ℤ × Stream → Prop
  | all (t : Stream) (log : t.log = s.log ++ ops.map (·, true))
      (written : t.written = s.written ++ ops.flatMap Operation.bytes) : Attempted ops s (0, t)
  | failed (t : Stream) (before : List Operation) (op : Operation) (after : List Operation)
      (split : ops = before ++ op :: after) (log : t.log = s.log ++ before.map (·, true) ++ [(op, false)]) :
      Attempted ops s (-1, t)

theorem attempted (ops : List Operation) (s : Stream) : Attempted ops s (attempt ops s) := by
  induction ops generalizing s with
  | nil => exact .all s (by simp) (by simp)
  | cons op ops ih =>
    cases hnext : s.next.succeeds with
    | true =>
      obtain ⟨hlog, hwritten⟩ := record_of_success hnext op
      rw [attempt_cons_of_success hnext]
      generalize hend : attempt ops (s.record op) = result
      have hrest := ih (s.record op)
      rw [hend] at hrest
      cases hrest with
      | all t log written =>
        apply Attempted.all
        · rw [log, hlog, List.append_assoc, List.map_cons, List.singleton_append]
        · rw [written, hwritten, List.append_assoc, List.flatMap_cons]
      | failed t before failing after split log =>
        apply Attempted.failed t (op :: before) failing after
        · rw [split, List.cons_append]
        · rw [log, hlog]
          simp
    | false =>
      rw [attempt_cons_of_failure hnext]
      apply Attempted.failed _ [] op ops rfl
      rw [Stream.record, hnext]
      simp

/-- On a stream that never fails, all operations are performed. -/
theorem attempt_of_neverFails (ops : List Operation) {s : Stream} (h : s.NeverFails) :
    (attempt ops s).1 = 0 ∧ (attempt ops s).2.written = s.written ++ ops.flatMap Operation.bytes := by
  induction ops generalizing s with
  | nil => exact ⟨rfl, by simp [attempt, done]⟩
  | cons op ops ih =>
    have hnext : s.next.succeeds = true := h _ (le_refl _)
    obtain ⟨hstatus, hwritten⟩ := ih (h.record op)
    rw [attempt_cons_of_success hnext]
    refine ⟨hstatus, ?_⟩
    rw [hwritten, (record_of_success hnext op).2, List.append_assoc, List.flatMap_cons]

theorem answer_attempt (ops : List Operation) (s : Stream) : (attempt ops s).2.answer = s.answer := by
  induction ops generalizing s with
  | nil => rfl
  | cons op ops ih =>
    cases hnext : s.next.succeeds with
    | true => rw [attempt_cons_of_success hnext, ih]; rfl
    | false => rw [attempt_cons_of_failure hnext]; rfl

/-- Whatever an attempt leaves on the stream is a beginning of what its operations write. -/
theorem written_attempt (ops : List Operation) (s : Stream) :
    ∃ beginning, (attempt ops s).2.written = s.written ++ beginning ∧ beginning <+: ops.flatMap Operation.bytes := by
  induction ops generalizing s with
  | nil => exact ⟨[], by simp [attempt, done], List.nil_prefix⟩
  | cons op ops ih =>
    cases hnext : s.next.succeeds with
    | true =>
      obtain ⟨beginning, hwritten, hprefix⟩ := ih (s.record op)
      rw [attempt_cons_of_success hnext, List.flatMap_cons]
      refine ⟨op.bytes ++ beginning, ?_, (List.prefix_append_right_inj _).mpr hprefix⟩
      rw [hwritten, (record_of_success hnext op).2, List.append_assoc]
    | false =>
      rw [attempt_cons_of_failure hnext, List.flatMap_cons]
      refine ⟨op.bytes.take s.next.code, ?_, (List.take_prefix _ _).trans (List.prefix_append _ _)⟩
      simp only [Stream.record, hnext, Bool.false_eq_true, if_false]

theorem attempt_append (ops ops' : List Operation) :
    attempt (ops ++ ops') = unlessNonzero (attempt ops) (attempt ops') := by
  induction ops with
  | nil => rfl
  | cons op ops ih =>
    funext s
    cases hnext : s.next.succeeds with
    | true =>
      rw [List.cons_append, attempt_cons_of_success hnext, ih, unlessNonzero, guarded, guarded,
        attempt_cons_of_success hnext]
    | false =>
      rw [List.cons_append, attempt_cons_of_failure hnext, unlessNonzero, guarded, attempt_cons_of_failure hnext]
      rfl

def Performs (x : Writer) (ops : List Operation) : Prop := x = attempt ops

theorem performs_done : Performs done [] := rfl

theorem performs_attempt (ops : List Operation) : Performs (attempt ops) ops := rfl

theorem Performs.nonzero {x next : Writer} {ops ops' : List Operation} (h : Performs x ops)
    (h' : Performs next ops') : Performs (unlessNonzero x next) (ops ++ ops') := by
  rw [Performs, attempt_append, h, h']

/-- The status of the operation tells whether it failed. -/
theorem performs_guarded {stops : ℤ → Bool} (status : Answer → ℤ) {op : Operation} {x next : Writer}
    {ops : List Operation} (hx : ∀ s, x s = (status s.next, s.record op))
    (hstops : ∀ a : Answer, stops (status a) = ! a.succeeds) (h : Performs next ops) :
    Performs (guarded stops x next) (op :: ops) := by
  funext s
  rw [guarded, hx, hstops, h]
  cases hnext : s.next.succeeds with
  | true => rw [attempt_cons_of_success hnext]; rfl
  | false => rw [attempt_cons_of_failure hnext]; rfl

theorem Performs.fputs {next : Writer} {ops : List Operation} (h : Performs next ops) (bytes : List UInt8) :
    Performs (unlessEof (fputs bytes) next) (.write bytes :: ops) := by
  refine performs_guarded (fun a => if a.succeeds then a.code else eof) (fun _ => rfl) (fun a => ?_) h
  cases a.succeeds with
  | true =>
    apply decide_eq_false
    rw [if_pos rfl, eof]
    omega
  | false => rfl

theorem Performs.fputc {next : Writer} {ops : List Operation} (h : Performs next ops) (byte : UInt8) :
    Performs (unlessEof (fputc byte) next) (.write [byte] :: ops) := by
  refine performs_guarded (fun a => if a.succeeds then byte.toNat else eof) (fun _ => rfl) (fun a => ?_) h
  cases a.succeeds with
  | true =>
    apply decide_eq_false
    rw [if_pos rfl, eof]
    omega
  | false => rfl

theorem Performs.fprintf {next : Writer} {ops : List Operation} (h : Performs next ops) (bytes : List UInt8) :
    Performs (unlessNegative (fprintf bytes) next) (.write bytes :: ops) := by
  refine performs_guarded (fun a => if a.succeeds then bytes.length else -(a.code + 1)) (fun _ => rfl) (fun a => ?_) h
  cases a.succeeds with
  | true =>
    apply decide_eq_false
    rw [if_pos rfl]
    omega
  | false =>
    apply decide_eq_true
    rw [if_neg Bool.false_ne_true]
    omega

theorem Performs.fflush {next : Writer} {ops : List Operation} (h : Performs next ops) :
    Performs (unlessNonzero fflush next) (.flush :: ops) := by
  refine performs_guarded (fun a => if a.succeeds then 0 else eof) (fun _ => rfl) (fun a => ?_) h
  cases a.succeeds <;> rfl

/-- The writer writes the bytes in pieces and then performs the operations, until one fails. -/
def Writes (x : Writer) (bytes : List UInt8) (after : List Operation := []) : Prop :=
  ∃ pieces : List (List UInt8), Performs x (pieces.map .write ++ after) ∧ pieces.flatten = bytes

variable {x next : Writer} {bytes bytes' : List UInt8} {after : List Operation}

theorem Performs.writes (h : Performs x after) : Writes x [] after := ⟨[], h, rfl⟩

theorem writes_done : Writes done [] := performs_done.writes

theorem writes_pieces (pieces : List (List UInt8)) : Writes (attempt (pieces.map .write)) pieces.flatten :=
  ⟨pieces, by rw [List.append_nil]; exact performs_attempt _, rfl⟩

theorem Writes.nonzero (h : Writes x bytes) (h' : Writes next bytes' after) :
    Writes (unlessNonzero x next) (bytes ++ bytes') after := by
  obtain ⟨pieces, hx, rfl⟩ := h
  obtain ⟨pieces', hnext, rfl⟩ := h'
  refine ⟨pieces ++ pieces', ?_, List.flatten_append⟩
  rw [List.append_nil] at hx
  rw [List.map_append, List.append_assoc]
  exact hx.nonzero hnext

theorem Writes.fputs (bytes : List UInt8) (h : Writes next bytes' after) :
    Writes (unlessEof (fputs bytes) next) (bytes ++ bytes') after := by
  obtain ⟨pieces, hnext, rfl⟩ := h
  exact ⟨bytes :: pieces, hnext.fputs bytes, rfl⟩

theorem Writes.fputc (byte : UInt8) (h : Writes next bytes' after) :
    Writes (unlessEof (fputc byte) next) (byte :: bytes') after := by
  obtain ⟨pieces, hnext, rfl⟩ := h
  exact ⟨[byte] :: pieces, hnext.fputc byte, rfl⟩

theorem Writes.fprintf (bytes : List UInt8) (h : Writes next bytes' after) :
    Writes (unlessNegative (fprintf bytes) next) (bytes ++ bytes') after := by
  obtain ⟨pieces, hnext, rfl⟩ := h
  exact ⟨bytes :: pieces, hnext.fprintf bytes, rfl⟩

def joined {α : Type*} (separator : List UInt8) (text : α → List UInt8) : Bool → List α → List UInt8
  | _, [] => []
  | true, a :: as => text a ++ joined separator text false as
  | false, a :: as => separator ++ (text a ++ joined separator text false as)

theorem writes_separated {α : Type*} {separator : List UInt8} {item : α → Writer} {text : α → List UInt8}
    {as : List α} (hitem : ∀ a ∈ as, Writes (item a) (text a)) (hnext : Writes next bytes after) (first : Bool) :
    Writes (separated separator item next first as) (joined separator text first as ++ bytes) after := by
  induction as generalizing first with
  | nil => exact hnext
  | cons a as ih =>
    have hrest := ih (fun b hb => hitem b (List.mem_cons_of_mem _ hb)) false
    have ha := (hitem a List.mem_cons_self).nonzero hrest
    rw [← List.append_assoc] at ha
    cases first with
    | true => exact ha
    | false =>
      have hseparated := ha.fputs separator
      rw [← List.append_assoc] at hseparated
      exact hseparated

end OutputStream
