import TransactionLog.Lib.File
import TransactionLog.Record.Reader
import TransactionLog.Streams.Held

/-!
# Recovering a log file

The validator scans a log from a trusted endpoint, or from its beginning, cuts off
what does not continue it and synchronizes the rest.  `scanRecords_triple` says
that it finds exactly `scanned`, and `validate_triple` what becomes of the file:
until the cut it is untouched, and after it only the tail is gone.
-/

namespace TransactionLog

open Lib

/-- Content that ends the accepted part of a log. -/
inductive LogTailError where
  | record (e : RecordReadError)
  | unexpectedRecordId (expected actual : RecordId)
  | extraData
  deriving DecidableEq, Repr

inductive LogFileValidationError where
  | invalidStart (reason : String)
  | io (e : ErrorKind)
  | read (e : RecordReadError)
  deriving DecidableEq, Repr

structure ValidatedLogFile where
  validatedEnd : Option RecordEndLocation
  suffixEnds : List LogFilePosition
  removedTail : Option LogTailError
  deriving DecidableEq, Repr

structure LogScanResult where
  validatedEnd : Option RecordEndLocation
  suffixEnds : List LogFilePosition
  tailError : Option LogTailError
  deriving DecidableEq, Repr

namespace LogFileValidator

/-- The local variables of the scan. -/
structure ScanState where
  count : Nat
  validatedEnd : Option RecordEndLocation
  suffixEnds : List LogFilePosition

/-- Where the next record has to start.  It stays in this file, so the position
needs no turn to the next one. -/
def ScanState.nextStart (fileId : LogFileId) (b : ScanState) : Option RecordStartLocation :=
  match b.validatedEnd with
  | none => some ⟨fileId.firstRecordId, .start⟩
  | some e => e.recordId.next.map (⟨·, e.position⟩)

/-- How many records of its file a trusted endpoint certifies. -/
def trustedCount (lastTrusted : Option RecordEndLocation) : Nat :=
  lastTrusted.elim 0 fun e => LogFileId.recordCountThrough e.recordId

def startPosition (lastTrusted : Option RecordEndLocation) : LogFilePosition :=
  lastTrusted.elim .start fun e => e.position

section Operations

variable [Crc32c]

/-- Takes one record of the batch, if the file has room for it. -/
def batchTurn (fileId : LogFileId) (b : ScanState) :
    Io (RecordReader × File) LogFileValidationError
      (ScanState ⊕ ScanState × Option LogTailError) := do
  if b.count < recordsPerFile then
    let s ← Io.get
    let (next, reader) ← Io.unwrap s.1.tryReadNext
    Io.modify fun s => (reader, s.2)
    match ← Io.ofExcept (next.mapError .read) with
    | none => pure (.inr (b, none))
    | some record => do
      let start ← Io.unwrap (b.nextStart fileId)
      if record.id ≠ start.recordId then
        pure (.inr (b, some (.unexpectedRecordId start.recordId record.id)))
      else do
        let endLocation ← Io.unwrap (start.toEnd record.length)
        pure (.inl ⟨b.count + 1, some endLocation, b.suffixEnds ++ [endLocation.position]⟩)
  else pure (.inr (b, none))

/-- One turn of the scan: waits for a batch and takes its records. -/
def scanTurn (fileId : LogFileId) (fileEnd : LogFilePosition) (b : ScanState) :
    Io (RecordReader × File) LogFileValidationError (ScanState ⊕ LogScanResult) := do
  if b.count = recordsPerFile then
    let endLocation ← Io.unwrap b.validatedEnd
    pure (.inr ⟨b.validatedEnd, b.suffixEnds,
      if endLocation.position.get < fileEnd.get then some .extraData else none⟩)
  else
    match ← Io.attempt (RecordReader.waitToRead File.source) with
    | .ok false => pure (.inr ⟨b.validatedEnd, b.suffixEnds, none⟩)
    | .ok true => do
      let (b, tail) ← Io.iterate (batchTurn fileId) (recordsPerFile + 1) b
      match tail with
      | none => pure (.inl b)
      | some error => pure (.inr ⟨b.validatedEnd, b.suffixEnds, some error⟩)
    | .error (.io e) => Io.throw (.read (.io e))
    | .error .readerFailed => Io.throw (.read .readerFailed)
    | .error error => pure (.inr ⟨b.validatedEnd, b.suffixEnds, some (.record error)⟩)

/-- Finds the accepted endpoint.  Every turn that goes on has taken a record, so the
turns are bounded by the records of a file. -/
def scanRecords (fileId : LogFileId) (lastTrusted : Option RecordEndLocation)
    (fileEnd : LogFilePosition) : Io File LogFileValidationError LogScanResult := do
  if lastTrusted.any fun e => e.logFileId ≠ fileId then Io.panic
  else do
    let (result, _) ← Io.withLocal RecordReader.new
      (Io.iterate (scanTurn fileId fileEnd) (recordsPerFile + 1)
        ⟨trustedCount lastTrusted, lastTrusted, []⟩)
    pure result

/-- Cuts off what the scan has not accepted. -/
def removeTail (scan : LogScanResult) : Io File ErrorKind Unit :=
  if scan.tailError.isSome then File.setLen (startPosition scan.validatedEnd).get else pure ()

/-- Scans, removes an invalid tail and synchronizes the log. -/
def validate (fileId : LogFileId) (lastTrusted : Option RecordEndLocation) :
    Io File LogFileValidationError ValidatedLogFile := do
  if lastTrusted.any fun e => e.logFileId ≠ fileId then
    Io.throw (.invalidStart "trusted endpoint belongs to another file")
  else do
    let fileEnd := LogFilePosition.ofNat (← Io.mapErr .io File.length)
    let start := startPosition lastTrusted
    let count := trustedCount lastTrusted
    if start.get > fileEnd.get ∨ ¬ (count * RecordLength.min.get ≤ start.get ∧
        start.get ≤ count * RecordLength.max.get) then
      Io.throw (.invalidStart "position is outside the possible trusted record extent")
    else do
      Io.mapErr .io (File.seek start.get)
      let scan ← scanRecords fileId lastTrusted fileEnd
      Io.mapErr .io (removeTail scan)
      Io.mapErr .io File.syncData
      pure ⟨scan.validatedEnd, scan.suffixEnds, scan.tailError⟩

end Operations

/-! ## What the scan finds -/

variable [Crc32c]

/-- A trusted endpoint that the checks before the scan accept. -/
structure Plausible (fileId : LogFileId) (lastTrusted : Option RecordEndLocation) : Prop where
  file : ∀ e ∈ lastTrusted, e.logFileId = fileId
  min_le : 16 * trustedCount lastTrusted ≤ (startPosition lastTrusted).get
  le_max : (startPosition lastTrusted).get ≤ 65535 * trustedCount lastTrusted

/-- The end of the last accepted record, or else the trusted endpoint. -/
def endAfter (lastTrusted : Option RecordEndLocation) (accepted : List Record) :
    Option RecordEndLocation :=
  accepted.getLast?.elim lastTrusted fun r =>
    some ⟨r.id, .ofNat ((startPosition lastTrusted).get + (encodings accepted).length)⟩

/-- Where the accepted part of the log ends. -/
def validLength (lastTrusted : Option RecordEndLocation) (accepted : List Record) : Nat :=
  (startPosition lastTrusted).get + (encodings accepted).length

/-- The positions where the accepted records end. -/
def suffixOf (lastTrusted : Option RecordEndLocation) (accepted : List Record) :
    List LogFilePosition :=
  (ends (startPosition lastTrusted).get accepted).map LogFilePosition.ofNat

/-- What ends the accepted records: bytes past a full file, a record of another
place, or whatever ends the input. -/
def tailOf (f : LogFileId) (t : Option RecordEndLocation) (bytes : List UInt8) :
    Option LogTailError :=
  let accepted := scanned f (trustedCount t) bytes
  if trustedCount t + accepted.length = recordsPerFile then
    if encodings accepted = bytes then none else some .extraData
  else match (records bytes).drop accepted.length with
    | record :: _ => (ScanState.nextStart f ⟨0, endAfter t accepted, []⟩).map fun start =>
        .unexpectedRecordId start.recordId record.id
    | [] => match parseEnd bytes with
      | .ok () => none
      | .error e => some (.record e)

variable {f : LogFileId} {t : Option RecordEndLocation} {bytes : List UInt8} {acc : List Record}
  {b : ScanState}

omit [Crc32c] in
theorem trustedCount_le (t : Option RecordEndLocation) : trustedCount t ≤ recordsPerFile := by
  cases t with
  | none => exact Nat.zero_le _
  | some e => exact LogFileId.recordCountThrough_le _

omit [Crc32c] in
theorem plausible_none (f : LogFileId) : Plausible f none :=
  ⟨by simp, Nat.le_refl _, Nat.le_refl _⟩

/-- The endpoint of records that fill a file is plausible. -/
theorem plausible_endOf {rs : List Record} (h : Fills f rs) : Plausible f (endOf rs) := by
  cases he : endOf rs with
  | none => exact plausible_none f
  | some e =>
    obtain ⟨hp, -, -, hfile, hcount⟩ := h.endOf_eq_some he
    refine ⟨fun e' he' => ?_, ?_, ?_⟩
    · obtain rfl := Option.some.inj he'
      exact hfile
    · show 16 * LogFileId.recordCountThrough e.recordId ≤ e.position.get
      rw [hp, hcount]
      exact encodings_length_ge rs
    · show e.position.get ≤ 65535 * LogFileId.recordCountThrough e.recordId
      rw [hp, hcount]
      exact encodings_length_le rs

/-- Accepted records of a plausible start, and the variables of the scan for them. -/
structure Scanning (f : LogFileId) (t : Option RecordEndLocation) (acc : List Record)
    (b : ScanState) : Prop where
  endpoint : Plausible f t
  consecutive : Consecutive f.streamId (f.firstRecordId.sequenceNumber.get + trustedCount t) acc
  count_le : b.count ≤ recordsPerFile
  count : b.count = trustedCount t + acc.length
  validatedEnd : b.validatedEnd = endAfter t acc
  suffixEnds : b.suffixEnds = suffixOf t acc

theorem scanning_start (h : Plausible f t) : Scanning f t [] ⟨trustedCount t, t, []⟩ :=
  ⟨h, trivial, trustedCount_le t, rfl, rfl, rfl⟩

theorem Scanning.validLength_lt (h : Scanning f t acc b) : validLength t acc + 65535 < 2 ^ 64 - 1 := by
  have h1 := h.endpoint.le_max
  have h2 := encodings_length_le acc
  have h3 := h.count_le
  rw [h.count] at h3
  simp only [recordsPerFile_eq, validLength] at *
  omega

theorem Scanning.run (h : Scanning f t acc b) : continuation f (trustedCount t) acc = acc := by
  have hle := h.count_le
  rw [h.count] at hle
  exact continuation_eq h.consecutive hle

/-- The position of the last accepted end. -/
theorem Scanning.startPosition_eq (h : Scanning f t acc b) :
    (startPosition b.validatedEnd).get = validLength t acc := by
  rw [h.validatedEnd, endAfter]
  cases hl : acc.getLast? with
  | none =>
    rw [List.getLast?_eq_none_iff.mp hl]
    rfl
  | some r =>
    have hlt := h.validLength_lt
    rw [validLength] at hlt
    exact LogFilePosition.get_ofNat (by omega)

/-- The last accepted end is the one before the next slot. -/
theorem Scanning.end_sequence (h : Scanning f t acc b) {e : RecordEndLocation}
    (he : b.validatedEnd = some e) : e.recordId.streamId = f.streamId ∧
      e.recordId.sequenceNumber.get + 1 = f.firstRecordId.sequenceNumber.get + b.count := by
  rw [h.validatedEnd, endAfter] at he
  cases hl : acc.getLast? with
  | none =>
    rw [hl] at he
    have hacc := List.getLast?_eq_none_iff.mp hl
    obtain ⟨hs, h1, h2⟩ := LogFileId.fromRecordId_eq_iff.mp (h.endpoint.file e he)
    have hcount := h.count
    rw [show t = some e from he, hacc] at hcount
    have hfirst : f.firstRecordId.sequenceNumber.get = f.fileNumber.get * 100000 := rfl
    have hc : trustedCount (some e) = e.recordId.sequenceNumber.get % 100000 + 1 := rfl
    rw [hc, List.length_nil] at hcount
    exact ⟨hs, by omega⟩
  | some r =>
    rw [hl] at he
    obtain rfl := Option.some.inj he
    obtain ⟨hs, hn⟩ := h.consecutive.last hl
    exact ⟨hs, by rw [h.count, ← Nat.add_assoc]; exact hn⟩

/-- The ID that the scan expects next has the sequence number of the next slot. -/
theorem Scanning.nextStart (h : Scanning f t acc b) :
    match b.nextStart f with
    | none => 2 ^ 64 ≤ f.firstRecordId.sequenceNumber.get + b.count
    | some start => start.recordId.streamId = f.streamId ∧
        start.recordId.sequenceNumber.get = f.firstRecordId.sequenceNumber.get + b.count ∧
        start.position.get = validLength t acc := by
  have hpos := h.startPosition_eq
  rw [ScanState.nextStart]
  cases he : b.validatedEnd with
  | none =>
    rw [he] at hpos
    refine ⟨rfl, ?_, hpos⟩
    have hnone := h.validatedEnd
    rw [he, endAfter] at hnone
    cases hl : acc.getLast? with
    | none =>
      rw [hl] at hnone
      have hcount := h.count
      rw [List.getLast?_eq_none_iff.mp hl, show t = none from hnone.symm] at hcount
      rw [hcount]
      exact (Nat.add_zero _).symm
    | some r =>
      rw [hl] at hnone
      cases hnone
  | some e =>
    obtain ⟨hs, hn⟩ := h.end_sequence he
    rw [he] at hpos
    simp only
    cases hnext : e.recordId.next with
    | none =>
      refine Nat.le_of_not_lt fun hlt => ?_
      rw [RecordId.next_of_lt (by rw [hn]; exact hlt)] at hnext
      cases hnext
    | some id =>
      obtain ⟨hs', hn'⟩ := RecordId.next_eq_some.mp hnext
      exact ⟨hs'.trans hs, hn'.trans hn, hpos⟩

/-- An accepted record and its end. -/
theorem Scanning.accept (h : Scanning f t acc b) (hroom : b.count < recordsPerFile)
    {start : RecordStartLocation} (hstart : b.nextStart f = some start) {record : Record}
    (hid : record.id = start.recordId) :
    ∃ e, start.toEnd record.length = some e ∧
      Scanning f t (acc ++ [record]) ⟨b.count + 1, some e, b.suffixEnds ++ [e.position]⟩ := by
  have hnext := h.nextStart
  rw [hstart] at hnext
  obtain ⟨hs, hn, hpos⟩ := hnext
  have hlt := h.validLength_lt
  have hlen : record.length.get ≤ 65535 := record.valid.le_max
  have hadvance : start.position.get + record.length.get < 2 ^ 64 := by
    rw [hpos]
    omega
  have hbytes : validLength t acc + record.length.get = validLength t (acc ++ [record]) := by
    rw [validLength, validLength, encodings_append, encodings_singleton, List.length_append,
      ← Nat.add_assoc]
    rfl
  refine ⟨⟨start.recordId, ⟨_, hadvance⟩⟩, by
    rw [RecordStartLocation.toEnd, LogFilePosition.advance_of_lt hadvance]; rfl,
    h.endpoint, ?_, hroom, ?_, ?_, ?_⟩
  · refine consecutive_append.mpr ⟨h.consecutive, by rw [hid, hs], ?_, trivial⟩
    rw [hid, hn, h.count, Nat.add_assoc]
  · rw [List.length_append, List.length_singleton, ← Nat.add_assoc, ← h.count]
  · have hlast : (acc ++ [record]).getLast? = some record := by
      rw [List.getLast?_append]
      rfl
    rw [endAfter, hlast, ← hid]
    refine congrArg (fun p => some (⟨record.id, p⟩ : RecordEndLocation)) (LogFilePosition.ext' ?_)
    show start.position.get + record.length.get = (LogFilePosition.ofNat (validLength t _)).get
    rw [← hbytes, hpos, LogFilePosition.get_ofNat (by omega)]
  · have hends : ends (startPosition t).get (acc ++ [record]) =
        ends (startPosition t).get acc ++ [validLength t (acc ++ [record])] := by
      rw [ends_append, ← hbytes]
      rfl
    rw [suffixOf, hends, List.map_append, h.suffixEnds]
    refine congrArg (suffixOf t acc ++ [·]) (LogFilePosition.ext' ?_)
    show start.position.get + record.length.get = (LogFilePosition.ofNat (validLength t _)).get
    rw [← hbytes, hpos, LogFilePosition.get_ofNat (by omega)]

/-! ### The scan -/

variable {c : Mode} {f₀ : File} {fileEnd : LogFilePosition}

/-- The scan touches nothing but the cursor. -/
def Untouched (f₀ s : File) : Prop := ∃ k, s = f₀.seekTo k

omit [Crc32c] in
theorem Untouched.seekTo {s : File} (h : Untouched f₀ s) (k : Nat) : Untouched f₀ (s.seekTo k) := by
  obtain ⟨n, rfl⟩ := h
  exact ⟨k, rfl⟩

omit [Crc32c] in
theorem untouched_lawful (f₀ : File) : File.source.Lawful (Untouched f₀) :=
  File.source_lawful _ fun n s ⟨k, hk⟩ => ⟨n, by rw [hk, File.seekTo_seekTo]⟩

/-- The bytes hold the last record ID there is. -/
def Exhausted (f : LogFileId) (t : Option RecordEndLocation) (bytes : List UInt8) : Prop :=
  2 ^ 64 ≤ f.firstRecordId.sequenceNumber.get +
    (trustedCount t + (scanned f (trustedCount t) bytes).length)

/-- Only the terminal file can. -/
theorem Exhausted.terminal (h : Exhausted f t bytes) : f.Terminal := by
  by_contra hterminal
  have hnumber := LogFileId.not_terminal_iff.mp hterminal
  have hfirst : f.firstRecordId.sequenceNumber.get = f.fileNumber.get * 100000 := rfl
  have hle := length_continuation_le (f := f) (records bytes) (trustedCount_le t)
  rw [Exhausted, scanned] at h
  simp only [recordsPerFile_eq] at hle
  omega

/-- Where a scan ends early: at a failing read, or past the last record ID. -/
def ScanExit (c : Mode) (f : LogFileId) (t : Option RecordEndLocation) (bytes : List UInt8)
    (f₀ : File) (e : Exit LogFileValidationError) (s : File) : Prop :=
  Untouched f₀ s ∧ match e with
    | .stopped => ¬ c.calm
    | .panicked => Exhausted f t bytes
    | .error e => ∃ code, e = .read (.io (.device code)) ∧ ¬ c.calm

/-- The accepted records are all that the reader has handed out. -/
def Reading (f : LogFileId) (t : Option RecordEndLocation) (bytes : List UInt8) (f₀ : File)
    (acc ready : List Record) (b : ScanState) (s : RecordReader × File) : Prop :=
  Scanning f t acc b ∧ RecordReader.Inv bytes acc ready s.1 (File.source.available s.2) ∧
    s.1.state = .active ∧ Untouched f₀ s.2

/-- The accepted records are all that the bytes hold. -/
def Scanned (f : LogFileId) (t : Option RecordEndLocation) (bytes : List UInt8)
    (r : LogScanResult) : Prop :=
  r.validatedEnd = endAfter t (scanned f (trustedCount t) bytes) ∧
    r.suffixEnds = suffixOf t (scanned f (trustedCount t) bytes) ∧
    (r.tailError = none ↔ encodings (scanned f (trustedCount t) bytes) = bytes) ∧
    r.tailError = tailOf f t bytes

/-- What follows the accepted records does not continue the file. -/
theorem Scanning.scanned_eq (h : Scanning f t acc b) {m : List Record}
    (hbytes : records bytes = acc ++ m)
    (hmore : continuation f b.count m = []) : scanned f (trustedCount t) bytes = acc := by
  rw [scanned, hbytes, continuation_append m h.run, ← h.count, hmore, List.append_nil]

/-- The accepted records are among those that the bytes hold. -/
theorem Scanning.isPrefix (h : Scanning f t acc b) (hacc : acc <+: records bytes) :
    acc <+: scanned f (trustedCount t) bytes := by
  obtain ⟨more, hmore⟩ := hacc
  rw [scanned, ← hmore, continuation_append more h.run]
  exact List.prefix_append _ _

theorem Scanning.exhausted (h : Scanning f t acc b) (hacc : acc <+: records bytes)
    (hnext : 2 ^ 64 ≤ f.firstRecordId.sequenceNumber.get + b.count) : Exhausted f t bytes := by
  have hle := (h.isPrefix hacc).length_le
  rw [h.count] at hnext
  rw [Exhausted]
  omega

theorem Scanning.done (h : Scanning f t acc b) (hacc : scanned f (trustedCount t) bytes = acc)
    {tail : Option LogTailError} (htail : tail = none ↔ encodings acc = bytes)
    (hexact : tail = tailOf f t bytes) :
    Scanned f t bytes ⟨b.validatedEnd, b.suffixEnds, tail⟩ := by
  rw [Scanned, hacc]
  exact ⟨h.validatedEnd, h.suffixEnds, htail, hexact⟩

theorem tailOf_full (hacc : scanned f (trustedCount t) bytes = acc)
    (hfull : trustedCount t + acc.length = recordsPerFile) :
    tailOf f t bytes = if encodings acc = bytes then none else some .extraData := by
  simp only [tailOf, hacc, if_pos hfull]

theorem Scanning.tailOf_more (h : Scanning f t acc b) (hroom : b.count < recordsPerFile)
    (hacc : scanned f (trustedCount t) bytes = acc) {record : Record} {more : List Record}
    (hrecords : records bytes = acc ++ record :: more) {start : RecordStartLocation}
    (hstart : b.nextStart f = some start) :
    tailOf f t bytes = some (.unexpectedRecordId start.recordId record.id) := by
  have hcount : trustedCount t + acc.length ≠ recordsPerFile := by
    rw [← h.count]
    exact Nat.ne_of_lt hroom
  have hdrop : (records bytes).drop acc.length = record :: more := by
    rw [hrecords, List.drop_left]
  have hnext : ScanState.nextStart f ⟨0, endAfter t acc, []⟩ = some start := by
    rw [← hstart, ScanState.nextStart, ScanState.nextStart, h.validatedEnd]
  simp only [tailOf, hacc, if_neg hcount, hdrop, hnext, Option.map_some]

theorem Scanning.tailOf_end (h : Scanning f t acc b) (hroom : b.count < recordsPerFile)
    (hacc : scanned f (trustedCount t) bytes = acc) (hrecords : acc = records bytes) :
    tailOf f t bytes = match parseEnd bytes with
      | .ok () => none
      | .error e => some (.record e) := by
  have hcount : trustedCount t + acc.length ≠ recordsPerFile := by
    rw [← h.count]
    exact Nat.ne_of_lt hroom
  have hdrop : (records bytes).drop acc.length = [] := by
    rw [hrecords, List.drop_length]
  simp only [tailOf, hacc, if_neg hcount, hdrop]

/-- A record too many means that bytes are left. -/
theorem encodings_ne_of_more {record : Record} (h : acc ++ [record] <+: records bytes) :
    encodings acc ≠ bytes := by
  rintro rfl
  have := h.length_le
  rw [records_encodings, List.length_append, List.length_singleton] at this
  omega

/-- After a batch: the scan has met a violation, or the batch is used up or the file full. -/
def BatchDone (f : LogFileId) (t : Option RecordEndLocation) (bytes : List UInt8) (f₀ : File)
    (n : Nat) (r : ScanState × Option LogTailError) (s : RecordReader × File) : Prop :=
  match r.2 with
  | none => n < r.1.count ∧ ∃ acc ready, Reading f t bytes f₀ acc ready r.1 s ∧
      (r.1.count < recordsPerFile → ready = [])
  | some error => Scanned f t bytes ⟨r.1.validatedEnd, r.1.suffixEnds, some error⟩ ∧
      Untouched f₀ s.2

/-- The invariant of the loop over a batch that began with `n` records. -/
def InBatch (f : LogFileId) (t : Option RecordEndLocation) (bytes : List UInt8) (f₀ : File)
    (n : Nat) (b : ScanState) (s : RecordReader × File) : Prop :=
  n < recordsPerFile ∧ n ≤ b.count ∧ ∃ acc ready, Reading f t bytes f₀ acc ready b s ∧
    (b.count = n → ready ≠ [])

theorem batchTurn_triple (n v : Nat) :
    Triple c (fun s => InBatch f t bytes f₀ n b s ∧ (c.calm → recordsPerFile - b.count = v))
      (batchTurn f b)
      (fun r s => match r with
        | .inl b' => InBatch f t bytes f₀ n b' s ∧ (c.calm → recordsPerFile - b'.count < v)
        | .inr r => BatchDone f t bytes f₀ n r s)
      (fun e s => ScanExit c f t bytes f₀ e s.2) := by
  refine .ofState fun s ⟨⟨hn, hle, acc, ready, ⟨hscan, hinv, hactive, hfile⟩, hready⟩, hv⟩ => ?_
  rw [batchTurn]
  by_cases hroom : b.count < recordsPerFile
  · rw [if_pos hroom]
    refine .getBind ?_
    cases ready with
    | nil =>
      -- the batch is used up
      have hlt : n < b.count := Nat.lt_of_le_of_ne hle fun h => hready h.symm rfl
      have htry := RecordReader.tryReadNext_nil hinv
      rw [if_neg (by simp [hactive])] at htry
      rw [htry, Io.unwrap_bind]
      refine .bind (R := fun _ s' => s' = s) (.modify ?_) fun _ => .pure ?_
      · rintro _ rfl
        rfl
      · rintro _ rfl
        exact ⟨hlt, acc, [], ⟨hscan, hinv, hactive, hfile⟩, fun _ => rfl⟩
    | cons record ready =>
      obtain ⟨reader, htry, hstate, hinv'⟩ := RecordReader.tryReadNext_cons hinv
      rw [htry, Io.unwrap_bind]
      refine .bind (R := fun _ s' => s' = (reader, s.2)) (.modify ?_) fun _ => ?_
      · rintro _ rfl
        rfl
      have hnext := hscan.nextStart
      show Triple c _ (Io.unwrap (b.nextStart f) >>= _) _ _
      refine .bind (R := fun start s' => b.nextStart f = some start ∧ s' = (reader, s.2))
        (.unwrap ?_ ?_) fun start => .assume fun hstart => ?_
      · exact fun start s' h hs => ⟨h, hs⟩
      · rintro _ hnone rfl
        rw [hnone] at hnext
        exact ⟨hfile, hscan.exhausted hinv.delivered_isPrefix hnext⟩
      rw [hstart] at hnext
      by_cases hid : record.id ≠ start.recordId
      · -- a record of another place
        rw [if_pos hid]
        refine .pure ?_
        rintro _ rfl
        obtain ⟨more, hmore⟩ := hinv'.delivered_isPrefix
        rw [List.append_assoc] at hmore
        have hacc : scanned f (trustedCount t) bytes = acc :=
          hscan.scanned_eq hmore.symm (continuation_cons_neg fun h => hid
            (RecordId.ext' (h.2.1.trans hnext.1.symm) (h.2.2.trans hnext.2.1.symm)))
        refine ⟨hscan.done hacc ?_ (hscan.tailOf_more hroom hacc hmore.symm hstart).symm, hfile⟩
        exact ⟨by simp, fun h => absurd h (encodings_ne_of_more hinv'.delivered_isPrefix)⟩
      · rw [if_neg hid]
        obtain ⟨e, he, hscan'⟩ := hscan.accept hroom hstart (not_not.mp hid)
        rw [he]
        refine .pure ?_
        rintro _ rfl
        refine ⟨⟨hn, Nat.le_succ_of_le hle, acc ++ [record], ready, ⟨hscan', hinv', ?_, hfile⟩, ?_⟩,
          fun hc => ?_⟩
        · exact hstate.trans hactive
        · exact fun h => absurd h (by simp only; omega)
        · rw [← hv hc]
          simp only
          omega
  · rw [if_neg hroom]
    refine .pure ?_
    rintro _ rfl
    have hlt : n < b.count := by omega
    exact ⟨hlt, acc, ready, ⟨hscan, hinv, hactive, hfile⟩, fun h => absurd h hroom⟩

/-- The invariant of the scan. -/
def InScan (f : LogFileId) (t : Option RecordEndLocation) (bytes : List UInt8) (f₀ : File)
    (b : ScanState) (s : RecordReader × File) : Prop :=
  ∃ acc ready, Reading f t bytes f₀ acc ready b s ∧ (b.count < recordsPerFile → ready = [])

omit [Crc32c] in
theorem trustedCount_none : trustedCount none = 0 := rfl

theorem Scanning.exists_end (h : Scanning f t acc b) (hpos : 0 < b.count) :
    ∃ e, b.validatedEnd = some e := by
  have hcount := h.count
  rw [h.validatedEnd, endAfter]
  cases hl : acc.getLast? with
  | none =>
    cases t with
    | none =>
      rw [List.getLast?_eq_none_iff.mp hl, trustedCount_none] at hcount
      exact absurd hcount (Nat.ne_of_gt hpos)
    | some e => exact ⟨e, rfl⟩
  | some r => exact ⟨_, rfl⟩

/-- Accepted bytes are all bytes exactly when their end is the end of the file. -/
theorem encodings_eq_iff (hbytes : bytes = f₀.content.drop (startPosition t).get)
    (hstart : (startPosition t).get ≤ f₀.content.length) (hacc : encodings acc <+: bytes) :
    encodings acc = bytes ↔ f₀.content.length ≤ validLength t acc := by
  have hlen : bytes.length = f₀.content.length - (startPosition t).get := by
    rw [hbytes, List.length_drop]
  rw [validLength]
  constructor
  · intro h
    rw [h]
    omega
  · intro h
    exact hacc.eq_of_length_le (by omega)

theorem Inv_scanned {ready : List Record} {s : RecordReader × File}
    (h : Reading f t bytes f₀ acc ready b s) : encodings acc <+: bytes :=
  (encodings_mono h.2.1.delivered_isPrefix).trans ⟨_, encodings_records_append_rest bytes⟩

/-- At the end of input the scan has accepted all records. -/
theorem Scanning.scanned_end (h : Scanning f t acc b) (hroom : b.count < recordsPerFile)
    (hacc : acc = records bytes) {tail : Option LogTailError}
    (htail : parseEnd bytes = .ok () ∧ tail = none ∨
      ∃ e, parseEnd bytes = .error e ∧ tail = some (.record e)) :
    Scanned f t bytes ⟨b.validatedEnd, b.suffixEnds, tail⟩ := by
  have hscanned : scanned f (trustedCount t) bytes = acc :=
    h.scanned_eq (m := []) (by rw [List.append_nil, hacc]) rfl
  have hexact := h.tailOf_end hroom hscanned hacc
  rcases htail with ⟨hend, rfl⟩ | ⟨e, hend, rfl⟩
  · rw [hend] at hexact
    refine h.done hscanned ?_ hexact.symm
    rw [hacc]
    exact ⟨fun _ => encodings_records_of_clean hend, fun _ => rfl⟩
  · rw [hend] at hexact
    refine h.done hscanned ⟨by simp, fun hall => ?_⟩ hexact.symm
    rw [← hall, parseEnd_encodings] at hend
    cases hend

/-- With no room for more records, what is left is extra. -/
theorem scanned_full {ready : List Record} {s : RecordReader × File}
    (hbytes : bytes = f₀.content.drop (startPosition t).get)
    (hstart : (startPosition t).get ≤ f₀.content.length)
    (h : Reading f t bytes f₀ acc ready b s) (hfull : b.count = recordsPerFile)
    {e : RecordEndLocation} (he : b.validatedEnd = some e) :
    Scanned f t bytes ⟨b.validatedEnd, b.suffixEnds,
      if e.position.get < (LogFilePosition.ofNat f₀.content.length).get then some .extraData
      else none⟩ := by
  obtain ⟨hscan, hinv, -⟩ := id h
  have hpos := hscan.startPosition_eq
  rw [he] at hpos
  have hlt : e.position.get < (LogFilePosition.ofNat f₀.content.length).get ↔
      ¬ encodings acc = bytes := by
    rw [encodings_eq_iff hbytes hstart (Inv_scanned h)]
    have hlt := hscan.validLength_lt
    have hmin : (LogFilePosition.ofNat f₀.content.length).get =
        min f₀.content.length (2 ^ 64 - 1) := rfl
    rw [show e.position.get = validLength t acc from hpos, hmin]
    omega
  obtain ⟨more, hmore⟩ := hinv.delivered_isPrefix
  have hacc : scanned f (trustedCount t) bytes = acc :=
    hscan.scanned_eq hmore.symm (continuation_full (Nat.le_of_eq hfull.symm))
  have hexact := tailOf_full hacc (hscan.count.symm.trans hfull)
  by_cases hall : encodings acc = bytes
  · rw [if_pos hall] at hexact
    rw [if_neg fun h => hlt.mp h hall]
    exact hscan.done hacc ⟨fun _ => hall, fun _ => rfl⟩ hexact.symm
  · rw [if_neg hall] at hexact
    rw [if_pos (hlt.mpr hall)]
    exact hscan.done hacc ⟨by simp, fun h => absurd h hall⟩ hexact.symm

/-- The loop over a batch. -/
theorem batch_triple (hroom : b.count < recordsPerFile) :
    Triple c (fun s => ∃ acc ready, ready ≠ [] ∧ Reading f t bytes f₀ acc ready b s)
      (Io.iterate (batchTurn f) (recordsPerFile + 1) b)
      (fun r s => BatchDone f t bytes f₀ b.count r s)
      (fun e s => ScanExit c f t bytes f₀ e s.2) := by
  refine (Triple.iterate (I := fun b' => InBatch f t bytes f₀ b.count b')
    (v := fun b' _ => recordsPerFile - b'.count)
    (fun b' v => (batchTurn_triple b.count v).post fun r _ h => by cases r <;> exact h) ?_
    (recordsPerFile + 1) b).pre ?_
  · intro b' s hc h
    obtain ⟨-, -, acc, ready, hread, -⟩ := h
    exact ⟨hread.2.2.2, hc⟩
  · intro s h
    obtain ⟨acc, ready, hne, hread⟩ := h
    exact ⟨⟨hroom, Nat.le_refl _, acc, ready, hread, fun _ => hne⟩, fun _ => by omega⟩

theorem scanTurn_triple (hbytes : bytes = f₀.content.drop (startPosition t).get)
    (hstart : (startPosition t).get ≤ f₀.content.length) (v : Nat) :
    Triple c (fun s => InScan f t bytes f₀ b s ∧ (c.calm → recordsPerFile - b.count = v))
      (scanTurn f (.ofNat f₀.content.length) b)
      (fun r s => match r with
        | .inl b' => InScan f t bytes f₀ b' s ∧ (c.calm → recordsPerFile - b'.count < v)
        | .inr r => Scanned f t bytes r ∧ Untouched f₀ s.2)
      (fun e s => ScanExit c f t bytes f₀ e s.2) := by
  refine .ofState fun s ⟨⟨acc, ready, hread, hready⟩, hv⟩ => ?_
  obtain ⟨hscan, hinv, hactive, hfile⟩ := hread
  rw [scanTurn]
  by_cases hfull : b.count = recordsPerFile
  · -- the file has no room for more records
    rw [if_pos hfull]
    obtain ⟨e, he⟩ := hscan.exists_end (by rw [hfull]; decide)
    have hscanned := scanned_full hbytes hstart ⟨hscan, hinv, hactive, hfile⟩ hfull he
    rw [he] at hscanned ⊢
    rw [Io.unwrap_bind]
    refine .pure ?_
    rintro _ rfl
    exact ⟨hscanned, hfile⟩
  · rw [if_neg hfull]
    have hroom : b.count < recordsPerFile := Nat.lt_of_le_of_ne hscan.count_le hfull
    have hnil := hready hroom
    subst hnil
    refine .bind (R := fun r s' => match r with
      | .ok found => RecordReader.Found bytes acc File.source found s' ∧ Untouched f₀ s'.2
      | .error e => ((acc = records bytes ∧ parseEnd bytes = .error e) ∨
          ∃ code, e = .io (.device code) ∧ ¬ c.calm) ∧ Untouched f₀ s'.2) (.attempt ?_) fun r => ?_
    · refine (RecordReader.waitToRead_triple (untouched_lawful f₀)).conseq ?_ (fun _ _ h => h) ?_
      · rintro _ rfl
        exact ⟨hinv, hactive, hfile⟩
      · rintro (e | _ | _) s' ⟨⟨-, h⟩, hfile'⟩
        · exact ⟨h.2.imp id (fun ⟨code, hcode, hc, _⟩ => ⟨code, hcode, hc⟩), hfile'⟩
        · exact ⟨hfile', h.1⟩
        · exact h.elim
    match r with
    | .ok false =>
      -- a clean end of input
      refine .pure ?_
      rintro s' ⟨⟨-, -, hacc, hend⟩, hfile'⟩
      exact ⟨hscan.scanned_end hroom hacc (.inl ⟨hend, rfl⟩), hfile'⟩
    | .ok true =>
      refine .bind (R := fun r s' => BatchDone f t bytes f₀ b.count r s') ?_ fun r => ?_
      · refine (batch_triple hroom).pre ?_
        rintro s' ⟨⟨ready', hne, hinv', hactive'⟩, hfile'⟩
        exact ⟨acc, ready', hne, hscan, hinv', hactive', hfile'⟩
      · obtain ⟨b', tail⟩ := r
        cases tail with
        | none =>
          refine .pure fun s' ⟨hlt, acc', ready', hread', hready'⟩ =>
            ⟨⟨acc', ready', hread', hready'⟩, fun hc => ?_⟩
          have hlt : b.count < b'.count := hlt
          have := hv hc
          have := hread'.1.count_le
          omega
        | some error => exact .pure fun _ h => h
    | .error (.io e) =>
      refine .throw ?_
      rintro s' ⟨h, hfile'⟩
      rcases h with ⟨-, hend⟩ | ⟨code, hcode, hc⟩
      · exact absurd rfl ((parseEnd_content hend).2 e)
      · obtain rfl := RecordReadError.io.inj hcode
        exact ⟨hfile', code, rfl, hc⟩
    | .error .readerFailed =>
      refine .throw ?_
      rintro s' ⟨h, hfile'⟩
      rcases h with ⟨-, hend⟩ | ⟨code, hcode, hc⟩
      · exact absurd rfl (parseEnd_content hend).1
      · cases hcode
    | .error (.truncatedHeader _) | .error (.invalidLength _) | .error (.invalidStreamId _)
    | .error (.truncatedRecord _ _) | .error (.crcMismatch _ _) =>
      refine .pure ?_
      rintro s' ⟨h, hfile'⟩
      rcases h with ⟨hacc, hend⟩ | ⟨code, hcode, hc⟩
      · exact ⟨hscan.scanned_end hroom hacc (.inr ⟨_, hend, rfl⟩), hfile'⟩
      · cases hcode

/-- **The scan** of the bytes after a trusted endpoint. -/
theorem scanRecords_triple (ht : Plausible f t)
    (hbytes : bytes = f₀.content.drop (startPosition t).get)
    (hstart : (startPosition t).get ≤ f₀.content.length) :
    Triple c (fun s => s = f₀.seekTo (startPosition t).get)
      (scanRecords f t (.ofNat f₀.content.length))
      (fun r s => Scanned f t bytes r ∧ Untouched f₀ s) (ScanExit c f t bytes f₀) := by
  have hany : ¬ (t.any fun e => e.logFileId ≠ f) = true := by
    simp only [Option.any_eq_true, decide_eq_true_eq, not_exists, not_and, not_not]
    exact fun e he => ht.file e he
  rw [scanRecords, if_neg hany]
  refine .bind (R := fun r s => Scanned f t bytes r.1 ∧ Untouched f₀ s) (.withLocal ?_) fun r =>
    .pure fun _ h => h
  refine (Triple.iterate (I := fun b => InScan f t bytes f₀ b)
    (Q := fun r s => Scanned f t bytes r ∧ Untouched f₀ s.2)
    (v := fun b _ => recordsPerFile - b.count)
    (fun b v => ((scanTurn_triple hbytes hstart v).post fun r _ h => by cases r <;> exact h).exits
      fun _ _ h => h) ?_ (recordsPerFile + 1) _).pre ?_
  · rintro b s hc ⟨acc, ready, hread, -⟩
    exact ⟨hread.2.2.2, hc⟩
  · rintro ⟨r, s⟩ ⟨rfl, rfl⟩
    refine ⟨⟨[], [], ⟨scanning_start ht, ?_, rfl, _, rfl⟩, fun _ => rfl⟩, fun _ => by omega⟩
    show RecordReader.Inv bytes [] [] .new (f₀.content.drop (startPosition t).get)
    rw [← hbytes]
    exact RecordReader.inv_new bytes

/-! ### The repair -/

/-- The trusted endpoint is plausible and within the file. -/
def Accepts (f : LogFileId) (t : Option RecordEndLocation) (f₀ : File) : Prop :=
  Plausible f t ∧ (startPosition t).get ≤ f₀.content.length

/-- The records that a scan of the file accepts after the trusted ones. -/
def found (f : LogFileId) (t : Option RecordEndLocation) (content : List UInt8) : List Record :=
  scanned f (trustedCount t) (content.drop (startPosition t).get)

/-- The length that the repair leaves. -/
def keptLength (f : LogFileId) (t : Option RecordEndLocation) (content : List UInt8) : Nat :=
  validLength t (found f t content)

/-- The file after the repair. -/
def repaired (f : LogFileId) (t : Option RecordEndLocation) (f₀ : File) : File :=
  (f₀.resized (keptLength f t f₀.content)).synchronized

theorem keptLength_le (h : (startPosition t).get ≤ f₀.content.length) :
    keptLength f t f₀.content ≤ f₀.content.length := by
  have hle := (encodings_scanned_isPrefix f (trustedCount t)
    (f₀.content.drop (startPosition t).get)).length_le
  rw [List.length_drop] at hle
  rw [keptLength, validLength, found]
  omega

theorem startPosition_le_keptLength (content : List UInt8) :
    (startPosition t).get ≤ keptLength f t content := Nat.le_add_right _ _

/-- A repair that ended early has changed nothing or has cut the tail. -/
def Repairing (f : LogFileId) (t : Option RecordEndLocation) (f₀ s : File) : Prop :=
  Untouched f₀ s ∨ Accepts f t f₀ ∧ keptLength f t f₀.content < f₀.content.length ∧
    Untouched (f₀.resized (keptLength f t f₀.content)) s

/-- What a validated log reports. -/
structure Validated (f : LogFileId) (t : Option RecordEndLocation) (f₀ : File)
    (r : ValidatedLogFile) : Prop where
  accepts : Accepts f t f₀
  validatedEnd : r.validatedEnd = endAfter t (found f t f₀.content)
  suffixEnds : r.suffixEnds = suffixOf t (found f t f₀.content)
  removedTail : r.removedTail = none ↔ f₀.content.length ≤ keptLength f t f₀.content
  tail : r.removedTail = tailOf f t (f₀.content.drop (startPosition t).get)

/-- Where the validation ends early.  Neither a rejected start nor a failing read
leads to a cut. -/
def ValidateExit (c : Mode) (f : LogFileId) (t : Option RecordEndLocation) (f₀ : File)
    (e : Exit LogFileValidationError) (s : File) : Prop :=
  match e with
  | .error (.invalidStart _) => ¬ Accepts f t f₀ ∧ Untouched f₀ s
  | .error (.read _) => ¬ c.calm ∧ Untouched f₀ s
  | .panicked => Exhausted f t (f₀.content.drop (startPosition t).get) ∧ Untouched f₀ s
  | .error (.io _) | .stopped => ¬ c.calm ∧ Repairing f t f₀ s

/-- A file operation of the validator fails with a fault only. -/
theorem io_triple {α : Type} {m : Io File ErrorKind α} {P : File → Prop} {Q : α → File → Prop}
    (h : Triple c P m Q (Faulted c P)) (hP : ∀ s, P s → Repairing f t f₀ s) :
    Triple c P (Io.mapErr LogFileValidationError.io m) Q (ValidateExit c f t f₀) := by
  refine .mapErr (h.exits ?_)
  rintro (e | _ | _) s ⟨hc, hp, hs⟩
  · exact ⟨hc, hP s hs⟩
  · exact ⟨hc, hP s hs⟩
  · exact absurd rfl hp

omit [Crc32c] in
/-- The checks before the scan. -/
theorem accepts_iff (hfile : ∀ e ∈ t, e.logFileId = f) (n : Nat) :
    ¬ ((startPosition t).get > (LogFilePosition.ofNat n).get ∨
        ¬ (trustedCount t * RecordLength.min.get ≤ (startPosition t).get ∧
          (startPosition t).get ≤ trustedCount t * RecordLength.max.get)) ↔
      Plausible f t ∧ (startPosition t).get ≤ n := by
  have hmin : RecordLength.min.get = 16 := rfl
  have hmax : RecordLength.max.get = 65535 := rfl
  have hof : (LogFilePosition.ofNat n).get = min n (2 ^ 64 - 1) := rfl
  have hcount := trustedCount_le t
  rw [recordsPerFile_eq] at hcount
  rw [hmin, hmax, hof]
  constructor
  · intro h
    exact ⟨⟨hfile, by omega, by omega⟩, by omega⟩
  · rintro ⟨⟨-, h1, h2⟩, h3⟩
    omega

omit [Crc32c] in
theorem resized_length_synchronized (f₀ : File) :
    (f₀.resized f₀.content.length).synchronized = f₀.synchronized := by
  have hcontent : resize f₀.content f₀.content.length = f₀.content := by
    rw [resize_of_le (Nat.le_refl _), List.take_length]
  simp only [File.synchronized, File.resized, hcontent]

omit [Crc32c] in
/-- The tail is removed if there is one. -/
theorem removeTail_triple {scan : LogScanResult} {kept : Nat}
    (hkept : (startPosition scan.validatedEnd).get = kept) (hle : kept ≤ f₀.content.length)
    (htail : scan.tailError = none ↔ f₀.content.length ≤ kept) :
    Triple c (Untouched f₀) (removeTail scan)
      (fun _ s => Untouched (f₀.resized kept) s ∧ kept < f₀.content.length ∨
        Untouched f₀ s ∧ kept = f₀.content.length) (Faulted c (Untouched f₀)) := by
  rw [removeTail]
  by_cases hsome : scan.tailError.isSome
  · rw [if_pos hsome, hkept]
    have hlt : kept < f₀.content.length := by
      refine Nat.lt_of_not_le fun h => ?_
      rw [htail.mpr h] at hsome
      cases hsome
    refine .effect ?_
    rintro _ ⟨k, rfl⟩
    exact .inl ⟨⟨k, rfl⟩, hlt⟩
  · rw [if_neg hsome]
    refine .pure fun s hs => .inr ⟨hs, Nat.le_antisymm hle (htail.mp ?_)⟩
    simpa using hsome

/-- **Validating a log** keeps exactly what the scan accepts. -/
theorem validate_triple (f : LogFileId) (t : Option RecordEndLocation) (f₀ : File) :
    Triple c (fun s => s = f₀) (validate f t)
      (fun r s => Validated f t f₀ r ∧ Untouched (repaired f t f₀) s)
      (ValidateExit c f t f₀) := by
  have hself : Untouched f₀ f₀ := ⟨_, (File.seekTo_self f₀).symm⟩
  rw [validate]
  by_cases hany : (t.any fun e => e.logFileId ≠ f) = true
  · rw [if_pos hany]
    simp only [Option.any_eq_true, decide_eq_true_eq] at hany
    obtain ⟨e, he, hne⟩ := hany
    refine .throw ?_
    rintro _ rfl
    exact ⟨fun h => hne (h.1.file e he), hself⟩
  rw [if_neg hany]
  have hfile : ∀ e ∈ t, e.logFileId = f := by
    simp only [Option.any_eq_true, decide_eq_true_eq, not_exists, not_and, not_not] at hany
    exact fun e he => hany e he
  refine .bind (R := fun n s => n = f₀.content.length ∧ s = f₀)
    (io_triple (.effect ?_) ?_) fun n => .assume fun hn => ?_
  · rintro _ rfl
    exact ⟨rfl, rfl⟩
  · rintro _ rfl
    exact .inl hself
  subst n
  have hcheck := accepts_iff hfile f₀.content.length
  simp only
  split
  · rename_i hbad
    refine .throw ?_
    rintro _ rfl
    exact ⟨fun h => hcheck.mpr h hbad, hself⟩
  rename_i hgood
  have hacc : Accepts f t f₀ := hcheck.mp hgood
  refine .bind (R := fun _ s => s = f₀.seekTo (startPosition t).get) (io_triple (.effect ?_) ?_)
    fun _ => ?_
  · rintro _ rfl
    rfl
  · rintro _ rfl
    exact .inl hself
  refine .bind ((scanRecords_triple hacc.1 rfl hacc.2).exits ?_) fun scan => ?_
  · rintro (e | _ | _) s ⟨hs, he⟩
    · obtain ⟨code, rfl, hc⟩ := he
      exact ⟨hc, hs⟩
    · exact ⟨he, .inl hs⟩
    · exact ⟨he, hs⟩
  refine .assume fun hscan => ?_
  obtain ⟨hend, hsuffix, htail, hexact⟩ := hscan
  have hfills : encodings (found f t f₀.content) <+: f₀.content.drop (startPosition t).get :=
    encodings_scanned_isPrefix _ _ _
  replace htail := htail.trans (encodings_eq_iff rfl hacc.2 hfills)
  have hkept : (startPosition scan.validatedEnd).get = keptLength f t f₀.content := by
    have hrun := consecutive_continuation (f := f)
      (records (f₀.content.drop (startPosition t).get)) (trustedCount t)
    have hlen := length_continuation_le (f := f)
      (records (f₀.content.drop (startPosition t).get)) (trustedCount_le t)
    have hscanning : Scanning f t (found f t f₀.content)
        ⟨_, scan.validatedEnd, scan.suffixEnds⟩ := ⟨hacc.1, hrun, hlen, rfl, hend, hsuffix⟩
    exact hscanning.startPosition_eq
  refine .bind (io_triple (removeTail_triple hkept (keptLength_le hacc.2) htail) fun s h => .inl h)
    fun _ => ?_
  refine .bind (R := fun _ s => Untouched (repaired f t f₀) s) (io_triple (.effect ?_) ?_)
    fun _ => .pure fun s hs => ⟨⟨hacc, hend, hsuffix, htail, hexact⟩, hs⟩
  · rintro s (⟨⟨k, rfl⟩, -⟩ | ⟨⟨k, rfl⟩, hsame⟩)
    · exact ⟨k, rfl⟩
    · refine ⟨k, ?_⟩
      rw [File.synchronized_seekTo, repaired, hsame, resized_length_synchronized]
  · rintro s (⟨hs, hlt⟩ | ⟨hs, -⟩)
    · exact .inr ⟨hacc, hlt, hs⟩
    · exact .inl hs

end LogFileValidator

end TransactionLog
