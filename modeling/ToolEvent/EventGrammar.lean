import ToolEvent.EventFields

/-!
# The lines the parser accepts

An accepted line has the documented fields, up to the numbers that are read with
`strtol`: these may also start with white space or a sign, and the version with zeros.
-/

namespace ToolEvent.EventFormat

open FieldForm

def FieldForm.Accepts (reader : RecordReader) : FieldForm → Text → Prop
  | version, t => parseLongField t 0 longMax = some logVersion
  | runId, t => t.bytes ≠ []
  | long max, t => max ≤ longMax ∧ ∃ n, parseLongField t 0 max = some n
  | size, t => ∃ n, reader.parseSize t = some n
  | timestamp, t => ∃ n, parseOptionalSizeField reader t = some n
  | word words, t => t ∈ words
  | text, _ => True

/-- A number that is read with `strtol` starts with a digit, and the version with its own. -/
def FieldForm.StartsPlain : FieldForm → List UInt8 → Prop
  | version, bytes => bytes.head? = some 53
  | long _, bytes => ∃ b ∈ bytes.head?, Decimal.isDigit b
  | _, _ => True

theorem value_foldl_ge (bytes : List UInt8) (n : ℕ) :
    n * 10 ^ bytes.length ≤ bytes.foldl (fun n b => 10 * n + (b.toNat - 48)) n := by
  induction bytes generalizing n with
  | nil => simp
  | cons b bytes ih =>
    refine le_trans ?_ (ih _)
    rw [List.length_cons, Nat.pow_succ']
    calc n * (10 * 10 ^ bytes.length) = 10 * n * 10 ^ bytes.length := by
          rw [Nat.mul_comm 10 n, Nat.mul_assoc]
      _ ≤ (10 * n + (b.toNat - 48)) * 10 ^ bytes.length := Nat.mul_le_mul_right _ (by omega)

variable {reader : RecordReader}

/-- An accepted field is of the documented form when its number starts as it should. -/
theorem matches_iff_startsPlain {form : FieldForm} {t : Text} (h : form.Accepts reader t) :
    form.Matches t.bytes ↔ form.StartsPlain t.bytes := by
  cases form with
  | version =>
    constructor
    · intro hm
      rw [hm]
      rfl
    · intro hs
      obtain ⟨bs, hbytes⟩ := List.head?_eq_some_iff.mp hs
      obtain ⟨-, hvalue, -⟩ :=
        (parseLongField_of_digit (b := 53) hs (by decide) le_rfl logVersion).mp h
      have hvalue : Decimal.value (53 :: bs) = 5 := by
        rw [← hbytes]
        exact Int.ofNat.inj hvalue
      have hge := value_foldl_ge bs 5
      have hfold : bs.foldl (fun n b => 10 * n + (b.toNat - 48)) 5 = 5 := hvalue
      rw [hfold] at hge
      have hnil : bs = [] := by
        cases bs with
        | nil => rfl
        | cons b bs =>
          have hpos := Nat.pow_pos (n := bs.length) (show 0 < 10 by decide)
          rw [List.length_cons, Nat.pow_succ] at hge
          omega
      rw [hbytes, hnil]
      rfl
  | runId => exact ⟨fun _ => trivial, fun _ => h⟩
  | long max =>
    obtain ⟨hmax, n, hn⟩ := h
    constructor
    · exact fun hm => head?_of_isNumeral hm.1
    · rintro ⟨b, hhead, hb⟩
      obtain ⟨hnum, -, hle⟩ := (parseLongField_of_digit hhead hb hmax n).mp hn
      exact ⟨hnum, hle⟩
  | size =>
    obtain ⟨n, hn⟩ := h
    obtain ⟨hnum, rfl, hle⟩ := (reader.parseSize_eq_some t n).mp hn
    exact ⟨fun _ => trivial, fun _ => ⟨hnum, hle⟩⟩
  | timestamp =>
    obtain ⟨n, hn⟩ := h
    refine ⟨fun _ => trivial, fun _ => ?_⟩
    unfold parseOptionalSizeField at hn
    split at hn
    · next hdash =>
      left
      rw [hdash]
      decide
    · obtain ⟨m, hm, -⟩ := Option.map_eq_some_iff.mp hn
      obtain ⟨hnum, rfl, hle⟩ := (reader.parseSize_eq_some t m).mp hm
      exact .inr ⟨hnum, hle⟩
  | word words => exact ⟨fun _ => trivial, fun _ => ⟨t, h, rfl⟩⟩
  | text => exact Iff.rfl

/-- A property of the fields from an index on, each with its form. -/
def HoldFrom (P : FieldForm → Text → Prop) (fields : List Text) : List FieldForm → ℕ → Prop
  | [], _ => True
  | form :: forms, index => P form (fieldAt fields index) ∧ HoldFrom P fields forms (index + 1)

theorem forall₂_of_holdFrom {P : FieldForm → Text → Prop} {fields : List Text} :
    ∀ {forms : List FieldForm} {index : ℕ}, HoldFrom P fields forms index →
      fields.length = index + forms.length → List.Forall₂ P forms (fields.drop index)
  | [], index, _, hlen => by
    rw [List.drop_of_length_le (by simpa using hlen.le)]
    exact .nil
  | form :: forms, index, h, hlen => by
    have hindex : index < fields.length := by
      rw [hlen, List.length_cons]
      omega
    rw [List.drop_eq_getElem_cons hindex]
    have hfield : fieldAt fields index = fields[index] := by
      simp [fieldAt, List.getD_eq_getElem?_getD, hindex]
    refine .cons (hfield ▸ h.1) (forall₂_of_holdFrom h.2 ?_)
    rw [hlen, List.length_cons]
    omega

theorem holdFrom_append {P : FieldForm → Text → Prop} {fields : List Text} {forms' : List FieldForm} :
    ∀ {forms : List FieldForm} {index : ℕ}, HoldFrom P fields (forms ++ forms') index ↔
      HoldFrom P fields forms index ∧ HoldFrom P fields forms' (index + forms.length)
  | [], index => by simp [HoldFrom]
  | form :: forms, index => by
    rw [List.cons_append, HoldFrom, HoldFrom, holdFrom_append, and_assoc, List.length_cons,
      Nat.add_right_comm, Nat.add_assoc]

theorem requireArity_eq_ok {count needed : ℕ} (h : requireArity count metadataFields needed = .ok ()) :
    count = metadataFields + needed := by
  have harity := failIf_eq_ok.mp h
  simp only [payloadArityMatches, Bool.not_eq_false, decide_eq_true_eq] at harity
  omega

/-- The flag and the errno of a receipt as the parser reads them. -/
def ReceiptRead (fields : List Text) : Prop :=
  ∃ writeFailed writeErrno, parseLongField (fieldAt fields 8) 0 1 = some writeFailed ∧
    parseLongField (fieldAt fields 9) 0 intMax = some writeErrno ∧
    (writeErrno = 0 ↔ writeFailed = 0)

/-- The metadata that were parsed are of the documented forms. -/
theorem holdFrom_of_parseMetadata {fields : List Text} {record record' : EventRecord} {payload : ℕ}
    (h : parseMetadata reader fields record = .ok (record', payload)) :
    payload = metadataFields ∧ HoldFrom (FieldForm.Accepts reader) fields headerForms 0 := by
  simp only [parseMetadata, bind_eq_ok, orMalformed_eq_ok, failIf_eq_ok] at h
  obtain ⟨version, hversion, -, hfive, -, hrun, pid, hpid, contextId, hcontext, sequence, hsequence,
    monotonic, hmonotonic, wall, hwall, h⟩ := h
  split at hversion
  · cases h
    rw [not_not.mp hfive] at hversion
    rw [not_or, Text.isEmpty_iff] at hrun
    exact ⟨rfl, hversion, hrun.1, ⟨le_rfl, pid, hpid⟩, ⟨contextId, hcontext⟩, ⟨sequence, hsequence⟩,
      ⟨monotonic, hmonotonic⟩, ⟨wall, hwall⟩, trivial⟩
  · cases hversion

/-- The payload that was parsed is that of the magic, and its fields are of the documented forms. -/
theorem holdFrom_of_parsePayload {magic : Text} {fields : List Text} {record record' : EventRecord}
    (h : parsePayload reader magic fields metadataFields record = .ok record') :
    ∃ kind : RecordKind, magic = kind.magic ∧
      fields.length = metadataFields + (payloadForms kind).length ∧
      HoldFrom (FieldForm.Accepts reader) fields (payloadForms kind) metadataFields ∧
      (kind = .complete → ReceiptRead fields) := by
  have hmagic : ∀ kind, lookupRecordMagic reader magic = some kind → magic = kind.magic :=
    fun kind hkind => by rw [← reader.eventMagic_eq]; exact (lookupName_eq_some hkind).2.symm
  have hint : intMax ≤ longMax := by decide
  have hfd : eventFdMax ≤ longMax := by decide
  have hflag : 1 ≤ longMax := by decide
  unfold parsePayload at h
  split at h
  case h_10 => cases h
  all_goals simp only [bind_eq_ok, orMalformed_eq_ok, failIf_eq_ok] at h
  case h_1 hkind =>
    obtain ⟨⟨⟩, harity, kind, hword, fd, hfield, line, hline, h⟩ := h
    obtain ⟨-, hword⟩ := lookupName_eq_some hword
    rw [reader.fdKindName_eq] at hword
    refine ⟨.fd, hmagic _ hkind, requireArity_eq_ok harity, ⟨?_, ⟨hfd, fd, hfield⟩, ⟨hint, line, hline⟩,
      trivial, trivial, trivial⟩, fun h => absurd h (by decide)⟩
    exact List.mem_map.mpr ⟨kind, by cases kind <;> decide, hword⟩
  case h_2 hkind =>
    obtain ⟨⟨⟩, harity, kind, hword, size, hsize, line, hline, h⟩ := h
    obtain ⟨-, hword⟩ := lookupName_eq_some hword
    rw [reader.allocKindName_eq] at hword
    refine ⟨.alloc, hmagic _ hkind, requireArity_eq_ok harity, ⟨?_, trivial, trivial, ⟨size, hsize⟩,
      ⟨hint, line, hline⟩, trivial, trivial, trivial⟩, fun h => absurd h (by decide)⟩
    exact List.mem_map.mpr ⟨kind, by cases kind <;> decide, hword⟩
  case h_3 hkind =>
    obtain ⟨⟨⟩, harity, childPid, hchild, line, hline, h⟩ := h
    exact ⟨.fork, hmagic _ hkind, requireArity_eq_ok harity, ⟨⟨le_rfl, childPid, hchild⟩,
      ⟨hint, line, hline⟩, trivial, trivial, trivial⟩, fun h => absurd h (by decide)⟩
  case h_4 hkind =>
    obtain ⟨⟨⟩, harity, childPid, hchild, line, hline, h⟩ := h
    exact ⟨.spawn, hmagic _ hkind, requireArity_eq_ok harity, ⟨⟨le_rfl, childPid, hchild⟩,
      ⟨hint, line, hline⟩, trivial, trivial, trivial, trivial⟩, fun h => absurd h (by decide)⟩
  case h_5 hkind =>
    obtain ⟨⟨⟩, harity, fd, hfield, cloexec, hcloexec, line, hline, h⟩ := h
    exact ⟨.exec, hmagic _ hkind, requireArity_eq_ok harity, ⟨⟨hfd, fd, hfield⟩,
      ⟨hflag, cloexec, hcloexec⟩, ⟨hint, line, hline⟩, trivial, trivial, trivial, trivial⟩, fun h => absurd h (by decide)⟩
  case h_6 hkind =>
    obtain ⟨⟨⟩, harity, line, hline, h⟩ := h
    exact ⟨.execFail, hmagic _ hkind, requireArity_eq_ok harity, ⟨⟨hint, line, hline⟩, trivial,
      trivial, trivial, trivial⟩, fun h => absurd h (by decide)⟩
  case h_7 hkind =>
    obtain ⟨⟨⟩, harity, kind, hword, line, hline, h⟩ := h
    obtain ⟨-, hword⟩ := lookupName_eq_some hword
    rw [reader.callKindName_eq] at hword
    refine ⟨.call, hmagic _ hkind, requireArity_eq_ok harity, ⟨?_, ⟨hint, line, hline⟩, trivial,
      trivial, trivial, trivial, trivial, trivial⟩, fun h => absurd h (by decide)⟩
    exact List.mem_map.mpr ⟨kind, by cases kind <;> decide, hword⟩
  case h_8 hkind =>
    obtain ⟨⟨⟩, harity, kind, hword, size, hsize, line, hline, h⟩ := h
    obtain ⟨-, hword⟩ := lookupName_eq_some hword
    rw [reader.resourceKindName_eq] at hword
    refine ⟨.resource, hmagic _ hkind, requireArity_eq_ok harity, ⟨?_, trivial, trivial, trivial,
      ⟨size, hsize⟩, trivial, ⟨hint, line, hline⟩, trivial, trivial, trivial⟩, fun h => absurd h (by decide)⟩
    exact List.mem_map.mpr ⟨kind, by cases kind <;> decide, hword⟩
  case h_9 hkind =>
    obtain ⟨⟨⟩, harity, attempted, hattempted, failed, hfailed, errno, herrno, ⟨⟩, hagree, h⟩ := h
    refine ⟨.complete, hmagic _ hkind, requireArity_eq_ok harity, ⟨⟨attempted, hattempted⟩,
      ⟨hflag, failed, hfailed⟩, ⟨hint, errno, herrno⟩, trivial⟩, fun _ => ⟨failed, errno, hfailed, herrno, ?_⟩⟩
    omega

theorem fields_of_parseLine {line : Text} {record : EventRecord} (h : parseLine reader line = .ok record) :
    ∃ (kind : RecordKind) (fields : List Text), lineFields line = kind.magic.bytes :: fields.map Text.bytes ∧
      List.Forall₂ (FieldForm.Accepts reader) (headerForms ++ payloadForms kind) fields ∧
      (kind = .complete → ReceiptRead fields) := by
  obtain ⟨-, magic, fields, hfields, -, hparse⟩ := parseLine_eq_ok.mp h
  simp only [parseFields, bind_eq_ok] at hparse
  obtain ⟨⟨record', payload⟩, hmetadata, record'', hpayload, -⟩ := hparse
  obtain ⟨rfl, hheader⟩ := holdFrom_of_parseMetadata hmetadata
  obtain ⟨kind, rfl, hlen, hrest, hreceipt⟩ := holdFrom_of_parsePayload hpayload
  refine ⟨kind, fields, hfields, ?_, hreceipt⟩
  have hforms := forall₂_of_holdFrom (holdFrom_append.mpr ⟨hheader, hrest⟩)
    (by rw [hlen, List.length_append, Nat.zero_add]; rfl)
  rwa [List.drop_zero] at hforms

/-- Every number of the line that is read with `strtol` starts with a digit, and the version
with its own. -/
def StartsPlainly (line : Text) : Prop :=
  ∀ (kind : RecordKind) fields, lineFields line = kind.magic.bytes :: fields →
    List.Forall₂ FieldForm.StartsPlain (headerForms ++ payloadForms kind) fields

theorem magic_injective {kind kind' : RecordKind} (h : kind.magic.bytes = kind'.magic.bytes) :
    kind = kind' := by
  revert h
  cases kind <;> cases kind' <;> decide

theorem forall₂_iff_of_forall₂ {α β : Type*} {P Q R : α → β → Prop}
    (h : ∀ a b, P a b → (Q a b ↔ R a b)) {as : List α} {bs : List β} (hP : List.Forall₂ P as bs) :
    List.Forall₂ Q as bs ↔ List.Forall₂ R as bs := by
  induction hP with
  | nil => exact ⟨fun _ => .nil, fun _ => .nil⟩
  | @cons a b as bs hab _ ih => rw [List.forall₂_cons, List.forall₂_cons, h a b hab, ih]

theorem getD_of_forall₂ {α β : Type*} {P : α → β → Prop} {as : List α} {bs : List β}
    (h : List.Forall₂ P as bs) (index : ℕ) {a : α} (ha : as[index]? = some a) (d : β) :
    P a (bs.getD index d) := by
  induction h generalizing index with
  | nil => cases ha
  | cons hab _ ih =>
    cases index with
    | zero => exact Option.some.inj ha ▸ hab
    | succ index => exact ih index ha

/-- The value of a plain number is what `strtol` reads. -/
theorem value_of_startsPlain {max : ℕ} {t : Text} {n : ℤ} (hmax : max ≤ longMax)
    (hplain : (long max).StartsPlain t.bytes) (hn : parseLongField t 0 max = some n) :
    (Decimal.value t.bytes : ℤ) = n := by
  obtain ⟨b, hhead, hb⟩ := hplain
  exact ((parseLongField_of_digit hhead hb hmax n).mp hn).2.1

theorem receiptAgrees_of_read {fields : List Text} (hread : ReceiptRead fields)
    (hplain : List.Forall₂ FieldForm.StartsPlain (headerForms ++ payloadForms .complete)
      (fields.map Text.bytes)) : ReceiptAgrees (fields.map Text.bytes) := by
  obtain ⟨failed, errno, hfailed, herrno, hagree⟩ := hread
  have hfield : ∀ index, (fields.map Text.bytes).getD index [] = (fieldAt fields index).bytes :=
    fun index => by
      simp only [fieldAt, List.getD_eq_getElem?_getD, List.getElem?_map]
      cases fields[index]? <;> rfl
  have hflag := getD_of_forall₂ hplain 8 (a := long 1) rfl []
  have hnumber := getD_of_forall₂ hplain 9 (a := long intMax) rfl []
  rw [hfield] at hflag hnumber
  have hvalue₁ := value_of_startsPlain (by decide) hflag hfailed
  have hvalue₂ := value_of_startsPlain (by decide) hnumber herrno
  rw [ReceiptAgrees, hfield, hfield]
  omega

/-- An accepted line is in the documented grammar exactly when its numbers are spelled
plainly. -/
theorem isRecordLine_iff {line : Text} {record : EventRecord}
    (h : parseLine reader line = .ok record) : IsRecordLine line ↔ StartsPlainly line := by
  obtain ⟨kind, fields, hfields, haccepts, hreceipt⟩ := fields_of_parseLine h
  have hforms : List.Forall₂ FieldForm.Matches (headerForms ++ payloadForms kind) (fields.map Text.bytes) ↔
      List.Forall₂ FieldForm.StartsPlain (headerForms ++ payloadForms kind) (fields.map Text.bytes) := by
    rw [List.forall₂_map_right_iff, List.forall₂_map_right_iff]
    exact forall₂_iff_of_forall₂ (fun _ _ => matches_iff_startsPlain) haccepts
  constructor
  · rintro ⟨kind', fields', hfields', hmatches, -⟩ kind'' fields'' hfields''
    rw [hfields] at hfields' hfields''
    obtain ⟨hkind', rfl⟩ := List.cons.inj hfields'
    obtain ⟨hkind'', rfl⟩ := List.cons.inj hfields''
    obtain rfl := magic_injective hkind'
    obtain rfl := magic_injective hkind''
    exact hforms.mp hmatches
  · intro hplain
    have hstarts := hplain kind _ hfields
    refine ⟨kind, _, hfields, hforms.mpr hstarts, fun hcomplete => ?_⟩
    subst hcomplete
    exact receiptAgrees_of_read (hreceipt rfl) hstarts

/-- A line with a signed number, a number after a blank, and a negative zero. -/
def signedLine : Text := .ofString "P101FORK\t5\trun\t+7\t1\t1\t-\t-\t 8\t-0\tf\tc\n"

theorem isNumber_pid {line : Text} (h : IsRecordLine line) :
    IsNumber longMax ((lineFields line).getD 3 []) := by
  obtain ⟨kind, fields, hfields, hmatches, -⟩ := h
  rw [hfields]
  exact getD_of_forall₂ hmatches 2 (a := long longMax) rfl []

/-- Signed numbers are accepted although the grammar has none. -/
theorem signedLine_accepted :
    (parseLine .standard signedLine).toOption.isSome ∧ ¬ IsRecordLine signedLine :=
  ⟨by decide +kernel, fun h => absurd (isNumber_pid h) (by decide +kernel)⟩

def forkLine : Text := .ofString "P101FORK\t5\trun\t7\t1\t1\t-\t-\t8\t12\tf\tc\n"

def forkRecord : EventRecord :=
  { recordKind := .fork
    runId := some (.ofString "run")
    pid := 7
    childPid := 8
    contextId := 1
    sequence := 1
    fd := -1
    lineNumber := 12
    functionName := some (.ofString "f")
    fileName := some (.ofString "c") }

theorem isRecordLine_iff_forkLine :
    parseLine .standard forkLine = .ok forkRecord ∧
      (IsRecordLine forkLine ↔ StartsPlainly forkLine) :=
  have h : parseLine .standard forkLine = .ok forkRecord := by decide +kernel
  ⟨h, isRecordLine_iff h⟩

end ToolEvent.EventFormat
