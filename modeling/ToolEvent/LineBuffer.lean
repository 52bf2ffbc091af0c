import ToolEvent.EventParser
import ToolEvent.Library.Cells

/-!
# The lines of a stream and the buffer they are read into

`p101_tool_event_read_line` with its buffer, every write of which is checked against the
size. Repeated calls cut a stream into its lines, whatever was in the way before.
-/

namespace ToolEvent.LineBuffer

open Cells Delimited

inductive LineStatus
  | ok | eof | malformed | error
  deriving DecidableEq

/-- The local variables of `p101_tool_event_read_line`, with the buffer. -/
structure ReadState where
  sawByte : Bool := false
  malformed : Bool := false
  length : ℕ := 0
  line : List UInt8

/-- The body of the loop, up to the test for a newline. -/
def storeByte (state : ReadState) (ch : UInt8) : Option ReadState :=
  if state.length + 1 < state.line.length then do
    let line ← store state.line state.length ch
    return { sawByte := true, malformed := state.malformed || ch = 0, length := state.length + 1, line }
  else some { state with sawByte := true, malformed := true }

/-- The loop: the variables after it, whether it was left at the end of the stream, and
the bytes it did not take. -/
def readLoop : ReadState → List UInt8 → Option (ReadState × Bool × List UInt8)
  | state, [] => some (state, true, [])
  | state, ch :: rest => do
    let state ← storeByte state ch
    if ch = newline then return (state, false, rest) else readLoop state rest

/-- What a call leaves: its status, the buffer, and the stream. -/
structure Reading where
  status : LineStatus
  line : List UInt8
  stream : Stream
  deriving DecidableEq

/-- `p101_tool_event_read_line` on non-null arguments. -/
def readLineInto (line : List UInt8) (stream : Stream) : Option Reading :=
  if line = [] then some ⟨.error, line, stream⟩
  else do
    let line ← store line 0 0
    let (state, atEnd, rest) ← readLoop { line } stream.bytes
    let stream := { stream with bytes := rest }
    if atEnd ∧ stream.fails then
      let line ← store state.line state.length 0
      return ⟨.error, line, stream⟩
    else if ¬ state.sawByte then return ⟨.eof, state.line, stream⟩
    else
      let line ← store state.line state.length 0
      return ⟨if state.malformed then .malformed else .ok, line, stream⟩

/-- What the variables hold after the bytes taken: as many of them as leave room for the
terminating NUL are stored. -/
structure Holds (size : ℕ) (taken : List UInt8) (state : ReadState) : Prop where
  room : state.line.length = size
  sawByte : state.sawByte = true ↔ taken ≠ []
  malformed : state.malformed = true ↔ (0 : UInt8) ∈ taken ∨ size ≤ taken.length
  length : state.length = min taken.length (size - 1)
  stored : state.line.take state.length = taken.take (size - 1)

theorem storeByte_of_room {state : ReadState} (ch : UInt8) (h : state.length + 1 < state.line.length) :
    storeByte state ch =
      some { sawByte := true, malformed := state.malformed || ch = 0, length := state.length + 1,
             line := state.line.set state.length ch } := by
  have hin : state.length < state.line.length := by omega
  rw [storeByte, if_pos h, store, if_pos hin]
  rfl

theorem Holds.storeByte {size : ℕ} (hsize : 1 ≤ size) {taken : List UInt8} {state : ReadState}
    (h : Holds size taken state) (ch : UInt8) :
    ∃ next, storeByte state ch = some next ∧ Holds size (taken ++ [ch]) next := by
  have hlength := h.length
  have hlast : (taken ++ [ch]).length = taken.length + 1 := List.length_append
  by_cases hfits : taken.length + 1 < size
  · have hat : state.length = taken.length := by omega
    have hroom : state.length + 1 < state.line.length := by rw [h.room, hat]; exact hfits
    have hkept : state.line.take taken.length = taken := by
      rw [← hat, h.stored, List.take_of_length_le (by omega)]
    refine ⟨_, storeByte_of_room ch hroom, ?room, ?sawByte, ?malformed, ?length, ?stored⟩
    case room => exact List.length_set.trans h.room
    case sawByte => simp
    case malformed =>
      have hfew : ¬ size ≤ taken.length := by omega
      have hmalformed := h.malformed
      simp only [hfew, or_false] at hmalformed
      simp only [Bool.or_eq_true, hmalformed, decide_eq_true_eq, List.mem_append, List.mem_singleton,
        hlast]
      constructor
      · rintro (hmem | hzero)
        · exact .inl (.inl hmem)
        · exact .inl (.inr hzero.symm)
      · rintro ((hmem | hzero) | hmany)
        · exact .inl hmem
        · exact .inr hzero.symm
        · omega
    case length =>
      simp only
      omega
    case stored =>
      have hin : taken.length < state.line.length := by omega
      have hall : (taken ++ [ch]).length ≤ size - 1 := by omega
      rw [List.take_of_length_le hall]
      simp only [hat]
      rw [take_set_self hin, hkept]
  · have hfull : ¬ state.length + 1 < state.line.length := by rw [h.room]; omega
    refine ⟨_, if_neg hfull, h.room, by simp, ?_, ?_, ?_⟩
    · simp only [true_iff]
      exact .inr (by omega)
    · simp only
      omega
    · rw [List.take_append_of_le_length (by omega)]
      exact h.stored

theorem Holds.readLoop {size : ℕ} (hsize : 1 ≤ size) (bytes : List UInt8) {taken : List UInt8}
    {state : ReadState} (h : Holds size taken state) :
    ∃ final, readLoop state bytes =
        some (final, decide (newline ∉ (takeLine newline bytes).1), (takeLine newline bytes).2) ∧
      Holds size (taken ++ (takeLine newline bytes).1) final := by
  induction bytes generalizing taken state with
  | nil => exact ⟨state, rfl, by rwa [takeLine_nil, List.append_nil]⟩
  | cons ch rest ih =>
    obtain ⟨next, hstep, hnext⟩ := h.storeByte hsize ch
    by_cases hch : ch = newline
    · refine ⟨next, ?_, ?_⟩
      · rw [LineBuffer.readLoop, hstep, hch, takeLine_self]
        rfl
      · rwa [hch, takeLine_self, ← hch]
    · obtain ⟨final, hloop, hfinal⟩ := ih hnext
      refine ⟨final, ?_, ?_⟩
      · rw [LineBuffer.readLoop, hstep, takeLine_cons_of_ne hch]
        simp only [Option.bind_eq_bind, Option.bind_some, if_neg hch, hloop, List.mem_cons, not_or,
          Ne.symm hch, not_false_eq_true, true_and]
      · rw [takeLine_cons_of_ne hch]
        rwa [List.append_assoc, List.singleton_append] at hfinal

theorem holds_start {line : List UInt8} (h : line ≠ []) : Holds line.length [] { line := line.set 0 0 } := by
  have hpos := List.length_pos_iff.mpr h
  refine ⟨List.length_set, by simp, ?_, by simp, by simp⟩
  simp only [Bool.false_eq_true, List.not_mem_nil, List.length_nil, false_or, false_iff]
  omega

/-- The terminating NUL stands after what was stored. -/
theorem Holds.terminate {size : ℕ} (hsize : 1 ≤ size) {taken : List UInt8} {state : ReadState}
    (h : Holds size taken state) :
    ∃ line, store state.line state.length 0 = some line ∧ line.length = size ∧
      taken.take (size - 1) ++ [0] <+: line := by
  have hlength := h.length
  have hin : state.length < state.line.length := by rw [h.room]; omega
  refine ⟨_, if_pos hin, List.length_set.trans h.room, ?_⟩
  rw [← h.stored, ← take_set_self hin]
  exact List.take_prefix _ _

/-- The status of a call that takes a line, or nothing at the end of the stream. -/
def statusOf (size : ℕ) (line : List UInt8) : LineStatus :=
  if line = [] then .eof
  else if (0 : UInt8) ∈ line ∨ size ≤ line.length then .malformed
  else .ok

/-- What a call that takes a line leaves in a buffer of so many bytes. -/
structure ReadsLine (size : ℕ) (line : List UInt8) (reading : Reading) : Prop where
  status : reading.status = statusOf size line
  room : reading.line.length = size
  /-- The buffer starts with the line, as far as there is room, and a NUL. -/
  terminated : line.take (size - 1) ++ [0] <+: reading.line

/-- A call that does not meet a failure takes one line. -/
theorem readLineInto_spec {line : List UInt8} (h : line ≠ []) (bytes : List UInt8) :
    ∃ reading, readLineInto line ⟨bytes, false⟩ = some reading ∧
      ReadsLine line.length (takeLine newline bytes).1 reading ∧
      reading.stream = ⟨(takeLine newline bytes).2, false⟩ := by
  have hsize := List.length_pos_iff.mpr h
  obtain ⟨state, hloop, hstate⟩ := (holds_start h).readLoop hsize bytes
  rw [List.nil_append] at hstate
  obtain ⟨last, hwrite, hlast, hprefix⟩ := hstate.terminate hsize
  have hstart : store line 0 0 = some (line.set 0 0) := if_pos hsize
  simp only [readLineInto, if_neg h, hstart, hloop, Option.bind_eq_bind, Option.bind_some,
    Bool.false_eq_true, and_false, if_false, hwrite]
  by_cases hbytes : bytes = []
  · have hnone : ¬ state.sawByte = true := by
      rw [hstate.sawByte, hbytes]
      exact not_not_intro rfl
    rw [if_pos hnone]
    refine ⟨_, rfl, ⟨?_, hstate.room, ?_⟩, rfl⟩
    · rw [hbytes]
      rfl
    · -- nothing was written after the NUL at the start
      rw [hbytes] at hloop ⊢
      obtain rfl := (Prod.mk.inj (Option.some.inj hloop)).1
      obtain ⟨b, rest, rfl⟩ := List.exists_cons_of_ne_nil h
      rw [takeLine_nil, List.take_nil]
      exact ⟨rest, rfl⟩
  · have hline := takeLine_fst_ne_nil (d := newline) hbytes
    have hsaw : ¬ ¬ state.sawByte = true := not_not_intro (hstate.sawByte.mpr hline)
    rw [if_neg hsaw]
    refine ⟨_, rfl, ⟨?_, hlast, hprefix⟩, rfl⟩
    rw [statusOf, if_neg hline]
    exact if_congr hstate.malformed rfl rfl

def readCalls : List (List UInt8) → Stream → Option (List Reading)
  | [], _ => some []
  | line :: buffers, stream => do
    let reading ← readLineInto line stream
    let readings ← readCalls buffers reading.stream
    return reading :: readings

/-- The calls take the lines of the stream one after the other, and nothing after the last. -/
theorem readCalls_spec {size : ℕ} (hsize : 1 ≤ size) {buffers : List (List UInt8)}
    (hbuffers : ∀ buffer ∈ buffers, buffer.length = size) (bytes : List UInt8) :
    ∃ readings, readCalls buffers ⟨bytes, false⟩ = some readings ∧ readings.length = buffers.length ∧
      ∀ k reading, readings[k]? = some reading →
        ReadsLine size ((lines newline bytes)[k]?.getD []) reading ∧
        reading.stream = ⟨((lines newline bytes).drop (k + 1)).flatten, false⟩ := by
  induction buffers generalizing bytes with
  | nil => exact ⟨[], rfl, rfl, fun k reading h => by cases h⟩
  | cons line buffers ih =>
    have hline := hbuffers line List.mem_cons_self
    have hne : line ≠ [] := List.ne_nil_of_length_pos (by omega)
    obtain ⟨reading, hcall, hreads, hstream⟩ := readLineInto_spec hne bytes
    obtain ⟨readings, hcalls, hcount, hrest⟩ :=
      ih (fun buffer hmem => hbuffers buffer (List.mem_cons_of_mem _ hmem)) (takeLine newline bytes).2
    rw [hline] at hreads
    have hfirst : (lines newline bytes)[0]?.getD [] = (takeLine newline bytes).1 ∧
        (lines newline bytes).drop 1 = lines newline (takeLine newline bytes).2 := by
      by_cases hbytes : bytes = []
      · rw [hbytes]
        exact ⟨rfl, rfl⟩
      · rw [lines_eq_cons hbytes]
        exact ⟨rfl, rfl⟩
    refine ⟨reading :: readings, ?_, congrArg Nat.succ hcount, ?_⟩
    · rw [readCalls, hcall]
      simp only [Option.bind_eq_bind, Option.bind_some, hstream, hcalls]
      rfl
    · intro k other hk
      cases k with
      | zero =>
        cases hk
        rw [hfirst.1, hstream, hfirst.2, flatten_lines]
        exact ⟨hreads, rfl⟩
      | succ k =>
        obtain ⟨hother, hleft⟩ := hrest k other hk
        rw [← hfirst.2, List.getElem?_drop, List.drop_drop] at *
        rw [Nat.add_comm 1 k] at hother
        rw [show 1 + (k + 1) = k + 1 + 1 by omega] at hleft
        exact ⟨hother, hleft⟩

theorem ReadsLine.eof_iff {size : ℕ} {line : List UInt8} {reading : Reading}
    (h : ReadsLine size line reading) : reading.status = .eof ↔ line = [] := by
  rw [h.status, statusOf]
  split_ifs <;> simp_all

theorem ReadsLine.ok_iff {size : ℕ} {line : List UInt8} {reading : Reading}
    (h : ReadsLine size line reading) :
    reading.status = .ok ↔ line ≠ [] ∧ line.length < size ∧ (0 : UInt8) ∉ line := by
  rw [h.status, statusOf]
  split_ifs with hempty hbad
  · simp [hempty]
  · simp only [false_iff]
    rintro ⟨-, hfits, hclean⟩
    rcases hbad with hzero | hlong
    · exact hclean hzero
    · omega
  · rw [not_or, not_le] at hbad
    exact iff_of_true rfl ⟨hempty, hbad.2, hbad.1⟩

/-- A line that is reported as read is in the buffer as a whole. -/
theorem ReadsLine.delivered {size : ℕ} {line : List UInt8} {reading : Reading}
    (h : ReadsLine size line reading) (hok : reading.status = .ok) : line ++ [0] <+: reading.line := by
  have hfits := (h.ok_iff.mp hok).2.1
  have hwhole : line.take (size - 1) = line := List.take_of_length_le (by omega)
  rw [← hwhole]
  exact h.terminated

/-- Repeated calls partition the stream. The call of each number takes the line of that
number, whatever the lines before it were, or nothing when no byte is left. -/
theorem readCalls_partition {size : ℕ} (hsize : 1 ≤ size) {buffers : List (List UInt8)}
    (hbuffers : ∀ buffer ∈ buffers, buffer.length = size) (bytes : List UInt8) :
    (lines newline bytes).flatten = bytes ∧
    (∀ k line, (lines newline bytes)[k]? = some line →
      IsLine newline line ((lines newline bytes).drop (k + 1)).flatten) ∧
    ∃ readings, readCalls buffers ⟨bytes, false⟩ = some readings ∧ readings.length = buffers.length ∧
      ∀ k reading, readings[k]? = some reading →
        ReadsLine size ((lines newline bytes)[k]?.getD []) reading ∧
        (reading.status = .ok → (lines newline bytes)[k]?.getD [] ++ [0] <+: reading.line) ∧
        (reading.status = .eof ↔ ((lines newline bytes).drop k).flatten = []) ∧
        reading.stream = ⟨((lines newline bytes).drop (k + 1)).flatten, false⟩ := by
  obtain ⟨readings, hcalls, hcount, hreads⟩ := readCalls_spec hsize hbuffers bytes
  refine ⟨flatten_lines newline bytes, fun k line h => isLine_lines h, readings, hcalls, hcount, ?_⟩
  intro k reading hk
  obtain ⟨hline, hstream⟩ := hreads k reading hk
  refine ⟨hline, hline.delivered, ?_, hstream⟩
  rw [hline.eof_iff]
  cases hat : (lines newline bytes)[k]? with
  | none =>
    rw [List.drop_eq_nil_of_le (List.getElem?_eq_none_iff.mp hat)]
    exact iff_of_true rfl rfl
  | some line =>
    have hnonempty := (isLine_lines hat).nonempty
    rw [List.drop_eq_getElem?_toList_append, hat]
    simp [hnonempty]

/-- Three calls over a line that is too long, one that is not, and the end of the stream. -/
theorem readCalls_short :
    ∃ readings, readCalls (List.replicate 3 [7, 7, 7]) ⟨[65, 66, 67, 10, 68, 10], false⟩ = some readings ∧
      ∀ (k : ℕ) (reading : Reading), readings[k]? = some reading →
        ReadsLine 3 ((lines newline [65, 66, 67, 10, 68, 10])[k]?.getD []) reading := by
  obtain ⟨-, -, readings, hcalls, -, hreads⟩ := @readCalls_partition 3 (by decide)
    (List.replicate 3 [7, 7, 7]) (by decide) [65, 66, 67, 10, 68, 10]
  exact ⟨readings, hcalls, fun k reading hk => (hreads k reading hk).1⟩

def textIn (buffer : List UInt8) : Text :=
  ⟨buffer.takeWhile (· ≠ 0), fun h => by simpa using List.mem_takeWhile_imp h⟩

/-- What a call reports, with the text of the buffer. -/
def Reading.result (reading : Reading) : LineResult :=
  match reading.status with
  | .ok => .line (textIn reading.line)
  | .eof => .eof
  | .malformed => .malformed
  | .error => .error

structure Follows (size : ℕ) (taken : List UInt8) (state : LineState) : Prop where
  sawByte : state.sawByte = true ↔ taken ≠ []
  malformed : state.malformed = true ↔ (0 : UInt8) ∈ taken ∨ size ≤ taken.length
  line : state.line.reverse = taken.take (size - 1)

theorem Follows.step {size : ℕ} (hsize : 1 ≤ size) {taken : List UInt8} {state : LineState}
    (h : Follows size taken state) (ch : UInt8) (rest : List UInt8) :
    Follows size (taken ++ [ch])
      { state with
        sawByte := true
        malformed := state.malformed || ch = 0 || !decide (state.line.length + 1 < size)
        line := if state.line.length + 1 < size then ch :: state.line else state.line
        rest := rest } := by
  have hlength : state.line.length = min taken.length (size - 1) := by
    rw [← List.length_reverse, h.line, List.length_take, Nat.min_comm]
  have hlast : (taken ++ [ch]).length = taken.length + 1 := List.length_append
  refine ⟨by simp, ?_, ?_⟩
  · have hroom : (!decide (state.line.length + 1 < size)) = true ↔ size ≤ taken.length + 1 := by
      rw [Bool.not_eq_true', decide_eq_false_iff_not]
      omega
    simp only [Bool.or_eq_true, h.malformed, hroom, decide_eq_true_eq, List.mem_append,
      List.mem_singleton, hlast]
    constructor
    · rintro (((hzero | hlong) | hch) | hlong)
      · exact .inl (.inl hzero)
      · exact .inr (by omega)
      · exact .inl (.inr hch.symm)
      · exact .inr hlong
    · rintro ((hzero | hch) | hlong)
      · exact .inl (.inl (.inl hzero))
      · exact .inl (.inr hch.symm)
      · exact .inr hlong
  · by_cases hfits : state.line.length + 1 < size
    · have hall : (taken ++ [ch]).length ≤ size - 1 := by omega
      have hbefore : taken.length ≤ size - 1 := by omega
      rw [if_pos hfits, List.reverse_cons, h.line, List.take_of_length_le hall,
        List.take_of_length_le hbefore]
    · have hbefore : size - 1 ≤ taken.length := by omega
      rw [if_neg hfits, h.line, List.take_append_of_le_length hbefore]

theorem Follows.readLineLoop {size : ℕ} (hsize : 1 ≤ size) (bytes : List UInt8) {taken : List UInt8}
    {state : LineState} (hopen : state.atEnd = false) (hrest : bytes = [] → state.rest = [])
    (h : Follows size taken state) :
    Follows size (taken ++ (takeLine newline bytes).1) (readLineLoop size state bytes) ∧
      (readLineLoop size state bytes).atEnd = decide (newline ∉ (takeLine newline bytes).1) ∧
      (readLineLoop size state bytes).rest = (takeLine newline bytes).2 := by
  induction bytes generalizing taken state with
  | nil =>
    rw [takeLine_nil, List.append_nil]
    exact ⟨⟨h.sawByte, h.malformed, h.line⟩, rfl, hrest rfl⟩
  | cons ch rest ih =>
    have hnext := h.step hsize ch rest
    by_cases hch : ch = newline
    · simp only [ToolEvent.readLineLoop, if_pos hch]
      rw [hch, takeLine_self]
      rw [hch] at hnext
      exact ⟨hnext, by simpa using hopen, rfl⟩
    · obtain ⟨hfollows, hend, hleft⟩ := ih (by exact hopen) (by exact fun hnil => hnil) hnext
      simp only [ToolEvent.readLineLoop, if_neg hch]
      rw [takeLine_cons_of_ne hch]
      rw [List.append_assoc, List.singleton_append] at hfollows
      refine ⟨hfollows, ?_, hleft⟩
      rw [hend]
      simp [Ne.symm hch]

theorem follows_start (size : ℕ) (hsize : 1 ≤ size) : Follows size [] {} := by
  refine ⟨by simp, ?_, List.take_nil.symm⟩
  simp only [Bool.false_eq_true, List.not_mem_nil, List.length_nil, false_or, false_iff]
  omega

theorem bytes_textIn {buffer bytes : List UInt8} (hzero : (0 : UInt8) ∉ bytes)
    (h : bytes ++ [0] <+: buffer) : (textIn buffer).bytes = bytes := by
  obtain ⟨rest, rfl⟩ := h
  have hkeep : ∀ b ∈ bytes, decide (b ≠ 0) = true := fun b hb => decide_eq_true fun h0 => hzero (h0 ▸ hb)
  change (bytes ++ [0] ++ rest).takeWhile (· ≠ 0) = bytes
  rw [List.append_assoc, List.takeWhile_append_of_pos hkeep]
  simp

/-- The reading without the buffer reports what is in the buffer afterwards. -/
theorem readLine_eq_result {line : List UInt8} (h : line ≠ []) {stream : Stream} {reading : Reading}
    (hread : readLineInto line stream = some reading) :
    readLine line.length stream = (reading.result, reading.stream) := by
  have hsize := List.length_pos_iff.mpr h
  obtain ⟨state, hloop, hstate⟩ := (holds_start h).readLoop hsize stream.bytes
  obtain ⟨last, hwrite, -, hprefix⟩ := hstate.terminate hsize
  obtain ⟨hfollows, hend, hrest⟩ :=
    (follows_start line.length hsize).readLineLoop hsize stream.bytes rfl (fun _ => rfl)
  rw [List.nil_append] at hstate hfollows hprefix
  have hstart : store line 0 0 = some (line.set 0 0) := if_pos hsize
  simp only [readLineInto, if_neg h, hstart, hloop, Option.bind_eq_bind, Option.bind_some, hwrite] at hread
  simp only [readLine, hend, hrest]
  by_cases hfails : decide (newline ∉ (takeLine newline stream.bytes).1) = true ∧ stream.fails = true
  · rw [if_pos hfails] at hread ⊢
    cases hread
    rfl
  · rw [if_neg hfails] at hread ⊢
    by_cases hempty : (takeLine newline stream.bytes).1 = []
    · rw [if_pos (by rw [hstate.sawByte]; exact not_not_intro hempty)] at hread
      rw [if_pos (by rw [hfollows.sawByte]; exact not_not_intro hempty)]
      cases hread
      rfl
    · rw [if_neg (by rw [hstate.sawByte]; exact not_not_intro hempty)] at hread
      rw [if_neg (by rw [hfollows.sawByte]; exact not_not_intro hempty)]
      cases hread
      by_cases hbad : (0 : UInt8) ∈ (takeLine newline stream.bytes).1 ∨
          line.length ≤ (takeLine newline stream.bytes).1.length
      · rw [dif_neg (by rw [hfollows.malformed.mpr hbad]; exact Bool.noConfusion)]
        simp only [Reading.result, if_pos (hstate.malformed.mpr hbad)]
      · have hclean : (readLineLoop line.length {} stream.bytes).malformed = false :=
          Bool.eq_false_iff.mpr (mt hfollows.malformed.mp hbad)
        rw [not_or, not_le] at hbad
        rw [dif_pos hclean]
        simp only [Reading.result, if_neg (mt hstate.malformed.mp (not_or.mpr ⟨hbad.1, not_le.mpr hbad.2⟩))]
        refine Prod.ext (congrArg LineResult.line (Text.ext ?_)) rfl
        have hwhole : (takeLine newline stream.bytes).1.take (line.length - 1) =
            (takeLine newline stream.bytes).1 := List.take_of_length_le (by omega)
        rw [hwhole] at hprefix
        rw [bytes_textIn hbad.1 hprefix, ← hwhole]
        exact hfollows.line

end ToolEvent.LineBuffer
