import ToolEvent.EventFields

/-!
# Written records are read back

The parser recovers every record from the line it is written as, however the line
ends. Escaped texts contain no delimiter and no terminator, so the line is cut into
the fields that were joined, and no field of a text that is present is a dash.
-/

namespace ToolEvent.EventFormat

/-- The bytes that separate fields and end lines. -/
def IsSeparator (b : UInt8) : Prop := b = tab ∨ b = newline ∨ b = carriageReturn

def Separate (t : Text) : Prop := ∀ b ∈ t.bytes, ¬ IsSeparator b

instance (t : Text) : Decidable (Separate t) :=
  List.decidableBAll (fun b => ¬ (b = tab ∨ b = newline ∨ b = carriageReturn)) t.bytes

theorem not_separator_escape {b : UInt8} (hb : IsSeparator b) (bytes : List UInt8) :
    b ∉ fieldEscapes.escape bytes := by
  have hletter : ∀ t, fieldEscapes.letter t ≠ some b := by
    intro t
    simp only [fieldEscapes]
    rcases hb with rfl | rfl | rfl <;> split_ifs <;> decide
  apply Delimited.EscapeCode.not_mem_escape _ _ hletter
  · rcases hb with rfl | rfl | rfl <;> decide
  · rcases hb with rfl | rfl | rfl <;> decide

theorem separate_writeText (t : Text) : Separate (writeText t) := by
  intro b hmem hb
  unfold writeText at hmem
  split at hmem
  · rcases hb with rfl | rfl | rfl <;> revert hmem <;> decide
  · exact not_separator_escape hb t.bytes hmem

theorem separate_dash : Separate (.ofString "-") := by decide

theorem separate_writeOptional (t : Option Text) : Separate (writeOptional t) := by
  cases t with
  | none => exact separate_dash
  | some t => exact separate_writeText t

theorem separate_writeNumber (n : ℕ) : Separate (writeNumber n) := by
  intro b hmem hb
  rw [writeNumber, Text.bytes_decimal_natCast] at hmem
  refine Decimal.not_mem_digits ?_ n hmem
  rcases hb with rfl | rfl | rfl <;> decide

theorem separate_writeOptionalNumber (n : Option Size) : Separate (writeOptionalNumber n) := by
  cases n with
  | none => exact separate_dash
  | some n => exact separate_writeNumber n

theorem separate_magic (kind : RecordKind) : Separate kind.magic := by cases kind <;> decide

section Unescape

variable (reader : RecordReader)

theorem unescape_dash : reader.unescapeField (.ofString "-") = .ofString "-" := by
  obtain ⟨f, hf, hreader⟩ := reader.unescapeField_eq
  apply Text.ext
  rw [hreader]
  exact (hf.plain dash [] (by decide)).trans (congrArg _ hf.nil)

theorem unescape_writeText (t : Text) : reader.unescapeField (writeText t) = t := by
  obtain ⟨f, hf, hreader⟩ := reader.unescapeField_eq
  apply Text.ext
  rw [hreader, writeText]
  split
  · next h =>
    rw [h]
    exact (hf.marked dash []).trans (congrArg _ hf.nil)
  · exact hf.escape t.bytes

/-- No text is written as a single dash. -/
theorem writeText_ne_dash (t : Text) : writeText t ≠ .ofString "-" := by
  intro h
  have ht : t = .ofString "-" := by
    rw [← unescape_writeText .standard t, h]
    exact unescape_dash .standard
  rw [ht] at h
  revert h
  decide

theorem readBack_eq (t : Option Text) :
    some (reader.unescapeField (writeOptional t)) = readBack t := by
  cases t with
  | none => exact congrArg some (unescape_dash reader)
  | some t => exact congrArg some (unescape_writeText reader t)

theorem map_unescape_nullableField (t : Option Text) :
    (nullableField (writeOptional t)).map reader.unescapeField = t := by
  cases t with
  | none => rfl
  | some t =>
    rw [writeOptional, nullableField, if_neg (writeText_ne_dash t), Option.map_some,
      unescape_writeText]

end Unescape

section Fields

variable {reader : RecordReader}

theorem parseOptionalSizeField_written (n : Option Size) :
    parseOptionalSizeField reader (writeOptionalNumber n) =
      some ((n.map Fin.val).getD 0, (n.isSome.toNat : ℤ)) := by
  cases n with
  | none => rfl
  | some n =>
    have hn : (n : ℕ) ≤ sizeMax := Nat.le_of_lt_succ n.isLt
    have hne : writeNumber n ≠ .ofString "-" := by
      intro h
      have hbytes := congrArg Text.bytes h
      rw [writeNumber, Text.bytes_decimal_natCast] at hbytes
      have hmem : dash ∈ Decimal.digits n := by
        rw [hbytes]
        decide
      exact Decimal.not_mem_digits (by decide) n hmem
    rw [writeOptionalNumber, parseOptionalSizeField, if_neg hne, writeNumber, parseSize_decimal hn]
    rfl

theorem parseLong_long (n : Long) : parseLongField (writeNumber n) 0 longMax = some (n : ℤ) :=
  parseLongField_decimal (Nat.le_of_lt_succ n.isLt) le_rfl

theorem parseLong_line (n : LineNumber) : parseLongField (writeNumber n) 0 intMax = some (n : ℤ) :=
  parseLongField_decimal (Nat.le_of_lt_succ n.isLt) (by decide)

theorem parseLong_descriptor (n : Descriptor) :
    parseLongField (writeNumber n) 0 eventFdMax = some (n : ℤ) :=
  parseLongField_decimal (Nat.le_of_lt_succ n.isLt) (by decide)

theorem parseLong_flag (b : Bool) : parseLongField (writeNumber b.toNat) 0 1 = some (b.toNat : ℤ) :=
  have hmax : 1 ≤ longMax := by decide
  parseLongField_decimal (Bool.toNat_le b) hmax

theorem parseSize_size (n : Size) : reader.parseSize (writeNumber n) = some (n : ℕ) :=
  parseSize_decimal (Nat.le_of_lt_succ n.isLt)

theorem lookupRecordMagic_magic (kind : RecordKind) :
    lookupRecordMagic reader kind.magic = some kind := by
  have hnames : reader.eventMagic = RecordKind.magic := funext reader.eventMagic_eq
  rw [lookupRecordMagic, hnames]
  apply lookupName_of_injective
  · cases kind <;> decide
  · cases kind <;> decide

theorem lookupFdKind_word (kind : FdKind) : lookupFdKind reader kind.word = some kind := by
  have hnames : reader.fdKindName = FdKind.word := funext reader.fdKindName_eq
  rw [lookupFdKind, hnames]
  cases kind <;> decide

theorem lookupAllocKind_word (kind : AllocKind) :
    lookupAllocKind reader kind.word = some kind := by
  have hnames : reader.allocKindName = AllocKind.word := funext reader.allocKindName_eq
  rw [lookupAllocKind, hnames]
  cases kind <;> decide

theorem lookupCallKind_word (kind : CallKind) : lookupCallKind reader kind.word = some kind := by
  have hnames : reader.callKindName = CallKind.word := funext reader.callKindName_eq
  rw [lookupCallKind, hnames]
  cases kind <;> decide

theorem lookupResourceKind_word (kind : ResourceKind) :
    lookupResourceKind reader kind.word = some kind := by
  have hnames : reader.resourceKindName = ResourceKind.word := funext reader.resourceKindName_eq
  rw [lookupResourceKind, hnames]
  cases kind <;> decide

/-- The record after the metadata: the run identity is still as it was written. -/
def Header.readRecord {lib : RecordLibrary} (header : Header lib) : EventRecord :=
  { header.toRecord .fd with runId := some (writeText header.runId) }

theorem parseMetadata_written (header : Header reader.toRecordLibrary) (payload : List Text) :
    parseMetadata reader (header.fields ++ payload) initialRecord =
      .ok (header.readRecord, metadataFields) := by
  obtain ⟨hpos, hmax⟩ := header.runId_length
  have hrun : ¬ ((writeText header.runId).isEmpty = true ∨
      reader.runIdMaxBytes < (writeText header.runId).length) := by
    rintro (h | h)
    · rw [Text.length, Text.isEmpty_iff.mp h] at hpos
      cases hpos
    · omega
  have hversion : parseLongField (.ofString "5") 0 longMax = some logVersion := by decide
  have hcount : metadataFields ≤ (header.fields ++ payload).length := by
    simp [Header.fields, metadataFields]
  simp only [parseMetadata, if_pos hcount]
  simp only [Header.fields, List.cons_append, fieldAt_cons_zero, fieldAt_cons_succ, hversion,
    orMalformed, parseLong_long, parseSize_size, parseOptionalSizeField_written, bind_eq_ok]
  exact ⟨_, rfl, (), failIf_eq_ok.mpr (by decide), (), failIf_eq_ok.mpr hrun, _, rfl, _, rfl, _, rfl,
    _, rfl, _, rfl, rfl⟩

theorem fieldAt_payload {lib : RecordLibrary} (header : Header lib) (payload : List Text)
    (index : ℕ) : fieldAt (header.fields ++ payload) (metadataFields + index) = fieldAt payload index := by
  simp [fieldAt, Header.fields, metadataFields, Nat.add_comm 7 index]

theorem fieldAt_payload_zero {lib : RecordLibrary} (header : Header lib) (payload : List Text) :
    fieldAt (header.fields ++ payload) metadataFields = fieldAt payload 0 :=
  fieldAt_payload header payload 0

theorem requireArity_written {lib : RecordLibrary} (header : Header lib) {payload : List Text}
    {needed : ℕ} (h : payload.length = needed) (hle : needed ≤ 13) :
    requireArity (header.fields ++ payload).length metadataFields needed = .ok () := by
  have hcount : (header.fields ++ payload).length = 7 + needed := by
    rw [List.length_append, h]
    rfl
  have harity : payloadArityMatches (7 + needed) metadataFields needed := by
    simp [payloadArityMatches, metadataFields, maxFields]
    omega
  rw [hcount, requireArity, failIf, if_neg (by simp [harity])]

/-- The fields of a payload are parsed to the record, whose texts are unescaped last. -/
theorem parsePayload_written (header : Header reader.toRecordLibrary) (payload : Payload) :
    (parsePayload reader payload.kind.magic (header.fields ++ payload.fields) metadataFields
      header.readRecord).map (unescapeRecord reader) = .ok (toRecord header payload) := by
  have hrun := unescape_writeText reader header.runId
  cases payload <;>
    -- every field of the layout is parsed to the value it was written from
    simp only [Payload.kind, Payload.fields, parsePayload, lookupRecordMagic_magic,
      requireArity_written, fieldAt_payload, fieldAt_payload_zero, fieldAt_cons_zero,
      fieldAt_cons_succ, List.length_cons, List.length_nil, Nat.reduceAdd, Nat.reduceLeDiff,
      orMalformed, lookupFdKind_word, lookupAllocKind_word, lookupCallKind_word,
      lookupResourceKind_word, parseLong_long, parseLong_line, parseLong_descriptor,
      parseLong_flag, parseSize_size] <;>
    simp [bind, Except.bind, pure, Except.pure, Except.map, failIf, unescapeRecord, toRecord,
      Header.readRecord, Header.toRecord, readBack_eq, map_unescape_nullableField, hrun]

end Fields

variable {lib : RecordLibrary}

def recordFields (header : Header lib) (payload : Payload) : List Text :=
  payload.kind.magic :: (header.fields ++ payload.fields)

theorem separate_payload (payload : Payload) {t : Text} (h : t ∈ payload.fields) : Separate t := by
  have hfd : ∀ kind : FdKind, Separate kind.word := fun kind => by cases kind <;> decide
  have halloc : ∀ kind : AllocKind, Separate kind.word := fun kind => by cases kind <;> decide
  have hcall : ∀ kind : CallKind, Separate kind.word := fun kind => by cases kind <;> decide
  have hresource : ∀ kind : ResourceKind, Separate kind.word := fun kind => by
    cases kind <;> decide
  cases payload <;> simp only [Payload.fields, List.mem_cons, List.not_mem_nil, or_false] at h <;>
    grind [separate_writeNumber, separate_writeOptional]

theorem separate_recordFields (header : Header lib) (payload : Payload) :
    ∀ t ∈ recordFields header payload, Separate t := by
  have hversion : Separate (.ofString "5") := separate_writeNumber 5
  intro t ht
  rcases List.mem_cons.mp ht with rfl | ht
  · exact separate_magic _
  · rcases List.mem_append.mp ht with ht | ht
    · simp only [Header.fields, List.mem_cons, List.not_mem_nil, or_false] at ht
      grind [separate_writeNumber, separate_writeOptionalNumber, separate_writeText]
    · exact separate_payload payload ht

theorem bytes_writeLine (header : Header lib) (payload : Payload) (terminator : Terminator) :
    (writeLine header payload terminator).bytes =
      (joinFields (recordFields header payload)).bytes ++ terminator.text.bytes := rfl

/-- Only the terminator is stripped from a written line. -/
theorem strip_writeLine (header : Header lib) (payload : Payload) (terminator : Terminator) :
    stripTerminators (writeLine header payload terminator) =
      joinFields (recordFields header payload) := by
  have hclean : ∀ b ∈ (joinFields (recordFields header payload)).bytes,
      ¬ (b = newline ∨ b = carriageReturn) := by
    intro b hb hend
    rcases Delimited.mem_intercalate hb with rfl | ⟨bytes, hbytes, hb⟩
    · revert hend
      decide
    · obtain ⟨t, ht, rfl⟩ := List.mem_map.mp hbytes
      exact separate_recordFields header payload t ht b hb (.inr hend)
  have hkeep : (joinFields (recordFields header payload)).bytes.rdropWhile
      (fun b => b = newline ∨ b = carriageReturn) = (joinFields (recordFields header payload)).bytes := by
    rw [List.rdropWhile_eq_self_iff]
    intro hne
    simpa using hclean _ (List.getLast_mem hne)
  apply Text.ext
  change (writeLine header payload terminator).bytes.rdropWhile _ = _
  rw [bytes_writeLine]
  cases terminator with
  | lf =>
    rw [show Terminator.lf.text.bytes = [newline] by decide, List.rdropWhile_concat_pos _ _ _ (by decide)]
    exact hkeep
  | crlf =>
    rw [show Terminator.crlf.text.bytes = [carriageReturn] ++ [newline] by decide, ← List.append_assoc,
      List.rdropWhile_concat_pos _ _ _ (by decide), List.rdropWhile_concat_pos _ _ _ (by decide)]
    exact hkeep

theorem lineFields_writeLine (header : Header lib) (payload : Payload) (terminator : Terminator) :
    lineFields (writeLine header payload terminator) =
      (recordFields header payload).map Text.bytes := by
  rw [lineFields, strip_writeLine]
  apply List.splitOn_intercalate
  · intro bytes hbytes htab
    obtain ⟨t, ht, rfl⟩ := List.mem_map.mp hbytes
    exact separate_recordFields header payload t ht tab htab (.inl rfl)
  · exact List.cons_ne_nil _ _

theorem lineIsOurs_writeLine (header : Header lib) (payload : Payload) (terminator : Terminator) :
    lineIsOurs (writeLine header payload terminator) = true := by
  have hprefix : ∀ kind : RecordKind, ∃ start ∈ linePrefixes,
      start.bytes = kind.magic.bytes ++ [tab] := fun kind => by cases kind <;> decide
  obtain ⟨start, hmem, hstart⟩ := hprefix payload.kind
  refine List.any_eq_true.mpr ⟨start, hmem, List.isPrefixOf_iff_prefix.mpr ?_⟩
  rw [hstart, bytes_writeLine]
  change _ <+: [tab].intercalate (payload.kind.magic.bytes ::
    (header.fields ++ payload.fields).map Text.bytes) ++ terminator.text.bytes
  rw [List.intercalate_cons_of_ne_nil (by simp [Header.fields]), List.append_assoc]
  exact List.prefix_append _ _

/-- Every record is read back from the line it is written as, whatever its texts are and
however the line ends. -/
theorem parseLine_writeLine (reader : RecordReader) (header : Header reader.toRecordLibrary)
    (payload : Payload) (terminator : Terminator) :
    parseLine reader (writeLine header payload terminator) = .ok (toRecord header payload) := by
  have hcount : (header.fields ++ payload.fields).length ≤ maxFields := by
    cases payload <;> simp [Header.fields, Payload.fields, maxFields]
  refine parseLine_eq_ok.mpr ⟨lineIsOurs_writeLine header payload terminator, _, _,
    lineFields_writeLine header payload terminator, hcount, ?_⟩
  rw [parseFields, parseMetadata_written]
  exact parsePayload_written header payload

end ToolEvent.EventFormat
