import TransactionLog.Lib.Channel
import TransactionLog.Record.Protocol

/-!
# The record reader

`RecordReader` receives bytes from a source in whatever pieces they arrive,
validates the records at the front of what it holds, and hands them out one by
one.  `waitToRead` receives and validates, `tryReadNext` hands out.

`Inv` says what the reader's fields mean: the bytes received so far are the
records handed out, the records of the batch not yet handed out, and the receive
buffer.  Each operation keeps it, whatever the source does, and so every run
agrees with the pure parser (`Outcome`).
-/

namespace TransactionLog

open Lib Protocol

inductive ReaderState where
  | active
  | finished
  | failed
  deriving DecidableEq, Repr

/-- The receiving half of a connection; its source is kept beside it.  A pending
length also means that the stream ID of that frame was already validated. -/
structure RecordReader where
  buffer : List UInt8
  pendingLength : Option Nat
  batch : List UInt8
  batchOffset : Nat
  state : ReaderState

namespace RecordReader

variable [Crc32c] {σ : Type}

def new : RecordReader := ⟨[], none, [], 0, .active⟩

/-- The header checks of the validation loop.  The error is the value the loop
breaks with. -/
def checkHeader (remaining : List UInt8) :
    Option Nat → Except (Except RecordReadError Unit) Nat
  | some length => .ok length
  | none =>
    if remaining.length < headerLen then .error (.ok ())
    else
      let declared := Read.length remaining
      if declared < minRecordLen then .error (.error (.invalidLength declared))
      else
        match StreamId.new (Read.streamId remaining) with
        | .error error => .error (.error (.invalidStreamId error))
        | .ok _ => .ok declared

/-- The validation loop: how it broke, `validated_len` and `pending_length`. -/
def validate : Nat → List UInt8 → Nat → Option Nat →
    Except RecordReadError Unit × Nat × Option Nat
  | 0, _, validatedLen, pendingLength => (.ok (), validatedLen, pendingLength)
  | fuel + 1, buffer, validatedLen, pendingLength =>
    let remaining := buffer.drop validatedLen
    match checkHeader remaining pendingLength with
    | .error validation => (validation, validatedLen, pendingLength)
    | .ok length =>
      if remaining.length < length then (.ok (), validatedLen, some length)
      else
        let frame := remaining.take length
        let stored := Read.crc frame
        let computed := Read.computeCrc frame
        if stored ≠ computed then
          (.error (.crcMismatch stored computed), validatedLen, some length)
        else validate fuel buffer (validatedLen + length) none

/-- Validates the records at the front of the receive buffer and splits them off. -/
def prepareBatch (r : RecordReader) : Except RecordReadError Bool × RecordReader :=
  let (validation, validatedLen, pendingLength) :=
    validate (r.buffer.length + 1) r.buffer 0 r.pendingLength
  if validatedLen = 0 then
    (validation.map fun _ => false, { r with pendingLength := pendingLength })
  else
    (.ok true, { r with
      pendingLength := pendingLength
      batch := r.buffer.take validatedLen
      buffer := r.buffer.drop validatedLen
      batchOffset := 0 })

/-- The next record of the batch.  The result is `none` where the source slices
out of bounds or wraps bytes that are not one frame. -/
def tryReadNext (r : RecordReader) :
    Option (Except RecordReadError (Option Record) × RecordReader) :=
  if r.state = .failed then some (.error .readerFailed, r)
  else if r.batch = [] then some (.ok none, r)
  else
    let start := r.batchOffset
    let stop := start + Read.length (r.batch.drop start)
    if stop = r.batch.length then
      (Record.fromValidatedBytes (r.batch.drop start)).map fun record =>
        (.ok (some record), { r with batch := [], batchOffset := 0 })
    else if stop < r.batch.length then
      (Record.fromValidatedBytes ((r.batch.drop start).take (stop - start))).map fun record =>
        (.ok (some record), { r with batchOffset := stop })
    else none

/-- Marks the reader as failed and reports `e`. -/
def fail {α : Type} (e : RecordReadError) : Io (RecordReader × σ) RecordReadError α := do
  Io.modify fun s => ({ s.1 with state := .failed }, s.2)
  Io.throw e

/-- One turn of the loop of `waitToRead`. -/
def waitTurn (src : Source σ) : Io (RecordReader × σ) RecordReadError (Unit ⊕ Bool) := do
  let s ← Io.get
  let (prepared, r) := s.1.prepareBatch
  Io.modify fun s => (r, s.2)
  match prepared with
  | .ok true => pure (.inr true)
  | .error error => fail error
  | .ok false => do
    let required := r.pendingLength.getD headerLen
    match ← Io.attempt (Io.zoom Prod.snd (fun t s => (s.1, t))
        (src.read (required - r.buffer.length))) with
    | .ok [] =>
      if r.buffer = [] then do
        Io.modify fun s => ({ s.1 with state := .finished }, s.2)
        pure (.inr false)
      else
        fail (match r.pendingLength with
          | some expected => .truncatedRecord expected r.buffer.length
          | none => .truncatedHeader r.buffer.length)
    | .ok received => do
      Io.modify fun s => ({ s.1 with buffer := s.1.buffer ++ received }, s.2)
      pure (.inl ())
    | .error .interrupted => pure (.inl ())
    | .error error => fail (.io error)

/-- Waits until a validated record is at hand; `false` at a clean end of input. -/
def waitToRead (src : Source σ) : Io (RecordReader × σ) RecordReadError Bool := do
  let s ← Io.get
  match s.1.state with
  | .finished => pure false
  | .failed => Io.throw .readerFailed
  | .active =>
    if s.1.batch ≠ [] then pure true
    else Io.loop (fun s => (src.available s.2).length) (fun _ => waitTurn src) ()

/-! ## Validation -/

/-- A pending length is the length in a header that has passed its checks. -/
def HeaderChecked (bytes : List UInt8) (pendingLength : Option Nat) : Prop :=
  ∀ l, pendingLength = some l →
    12 ≤ bytes.length ∧ Read.length bytes = l ∧ 16 ≤ l ∧ Read.streamId bytes < 4096

/-- How the validation loop breaks at bytes with this verdict. -/
def breakOf : Verdict RecordReadError → Except RecordReadError Unit
  | .bad e => .error e
  | _ => .ok ()

/-- The pending length of an unfinished frame. -/
def pendingOf (bytes : List UInt8) : Option Nat :=
  if bytes.length < 12 then none else some (Read.length bytes)

omit [Crc32c] in
theorem headerChecked_none (bytes : List UInt8) : HeaderChecked bytes none := by
  intro l h
  cases h

omit [Crc32c] in
theorem HeaderChecked.append {bytes : List UInt8} {p : Option Nat} (h : HeaderChecked bytes p)
    (ys : List UInt8) : HeaderChecked (bytes ++ ys) p := by
  intro l hl
  obtain ⟨h12, hlen, h16, hs⟩ := h l hl
  refine ⟨?_, ?_, h16, ?_⟩
  · rw [List.length_append]
    omega
  · rw [Read.length_append ys h12, hlen]
  · rw [Read.streamId_append ys h12]
    exact hs

omit [Crc32c] in
/-- A pending length stands for the header checks it skips. -/
theorem checkHeader_of_headerChecked {bytes : List UInt8} {p : Option Nat}
    (h : HeaderChecked bytes p) : checkHeader bytes p = checkHeader bytes none := by
  cases p with
  | none => rfl
  | some l =>
    obtain ⟨h12, hlen, h16, hs⟩ := h l rfl
    have h1 : ¬ bytes.length < 12 := by omega
    have h2 : ¬ l < 16 := by omega
    simp [checkHeader, hlen, h1, h2, StreamId.new_of_lt hs]

/-- One turn of the loop agrees with the layout's own verdict. -/
theorem validate_succ {fuel v : Nat} {buffer : List UInt8} {p : Option Nat}
    (h : HeaderChecked (buffer.drop v) p) :
    (∃ n, lookRecord (buffer.drop v) = .frame n ∧
      validate (fuel + 1) buffer v p = validate fuel buffer (v + n) none) ∨
    (recordFraming.Stuck (buffer.drop v) ∧
      ∃ p', validate (fuel + 1) buffer v p = (breakOf (lookRecord (buffer.drop v)), v, p') ∧
        HeaderChecked (buffer.drop v) p' ∧
        (lookRecord (buffer.drop v) = .more → p' = pendingOf (buffer.drop v))) := by
  rw [validate, checkHeader_of_headerChecked h]
  generalize buffer.drop v = bytes at h ⊢
  have hp : bytes.length < 12 → p = none := by
    intro hlt
    cases p with
    | none => rfl
    | some l => have := (h l rfl).1; omega
  have stuck : (∀ n, lookRecord bytes ≠ .frame n) → recordFraming.Stuck bytes := fun hn => hn
  by_cases h1 : bytes.length < 12
  · have hlook : lookRecord bytes = .more := by simp [lookRecord, h1]
    refine .inr ⟨stuck (by simp [hlook]), p, ?_, h, fun _ => ?_⟩
    · simp [checkHeader, h1, hlook, breakOf]
    · rw [hp h1, pendingOf, if_pos h1]
  by_cases h2 : Read.length bytes < 16
  · have hlook : lookRecord bytes = .bad (.invalidLength (Read.length bytes)) := by
      simp [lookRecord, h1, h2]
    refine .inr ⟨stuck (by simp [hlook]), p, ?_, h, by simp [hlook]⟩
    simp [checkHeader, h1, h2, hlook, breakOf]
  by_cases h3 : 4096 ≤ Read.streamId bytes
  · have hlook : lookRecord bytes = .bad (.invalidStreamId ⟨Read.streamId bytes⟩) := by
      simp [lookRecord, h1, h2, StreamId.count, h3]
    refine .inr ⟨stuck (by simp [hlook]), p, ?_, h, by simp [hlook]⟩
    simp [checkHeader, h1, h2, StreamId.new_of_le h3, hlook, breakOf]
  -- the header has passed its checks, so its length becomes the pending one
  have hcheck : checkHeader bytes none = .ok (Read.length bytes) := by
    simp [checkHeader, h1, h2, StreamId.new_of_lt (Nat.lt_of_not_le h3)]
  have hpending : HeaderChecked bytes (some (Read.length bytes)) := by
    intro l hl
    obtain rfl := Option.some.inj hl
    exact ⟨by omega, rfl, by omega, by omega⟩
  rw [hcheck]
  by_cases h4 : bytes.length < Read.length bytes
  · have hlook : lookRecord bytes = .more := by simp [lookRecord, h1, h2, StreamId.count, h3, h4]
    refine .inr ⟨stuck (by simp [hlook]), _, ?_, hpending, fun _ => ?_⟩
    · simp [h4, hlook, breakOf]
    · rw [pendingOf, if_neg h1]
  by_cases h5 : Read.crc (bytes.take (Read.length bytes)) =
      Read.computeCrc (bytes.take (Read.length bytes))
  · refine .inl ⟨Read.length bytes, ?_, ?_⟩
    · exact lookRecord_eq_frame.mpr ⟨rfl, by omega, by omega, by omega, h5⟩
    · simp [h4, h5]
  · have hlook : lookRecord bytes = .bad (.crcMismatch (Read.crc (bytes.take (Read.length bytes)))
        (Read.computeCrc (bytes.take (Read.length bytes)))) := by
      simp [lookRecord, h1, h2, StreamId.count, h3, h4, h5]
    refine .inr ⟨stuck (by simp [hlook]), _, ?_, hpending, by simp [hlook]⟩
    simp [h4, h5, hlook, breakOf]

/-- **The validation loop cuts off whole records** and leaves the pending length of
what remains. -/
theorem validate_eq : ∀ (fuel : Nat) (buffer : List UInt8) (v : Nat) (p : Option Nat),
    (buffer.drop v).length < fuel → HeaderChecked (buffer.drop v) p →
    ∃ p', validate fuel buffer v p =
        (breakOf (lookRecord (recordFraming.rest (buffer.drop v))),
          v + (encodings (records (buffer.drop v))).length, p') ∧
      HeaderChecked (recordFraming.rest (buffer.drop v)) p' ∧
      (lookRecord (recordFraming.rest (buffer.drop v)) = .more →
        p' = pendingOf (recordFraming.rest (buffer.drop v))) := by
  intro fuel
  induction fuel with
  | zero => intro _ _ _ h; omega
  | succ fuel ih =>
    intro buffer v p hfuel hp
    rcases validate_succ hp with ⟨n, hlook, heq⟩ | ⟨hstuck, p', heq, hp', hmore⟩
    · have hb := recordFraming.frame_bounds hlook
      have hlen : (buffer.drop (v + n)).length < fuel := by
        simp only [List.length_drop] at *
        omega
      obtain ⟨p', h1, h2, h3⟩ := ih buffer (v + n) none hlen (headerChecked_none _)
      have hdrop : buffer.drop (v + n) = (buffer.drop v).drop n := by rw [List.drop_drop]
      have hrest := rest_of_frame hlook
      have hrec := encodings_records_of_frame hlook
      rw [hdrop] at h1 h2 h3
      rw [heq, hrest, hrec, List.length_append, List.length_take, Nat.min_eq_left hb.2,
        ← Nat.add_assoc]
      exact ⟨p', h1, h2, h3⟩
    · rw [heq, Framing.rest_of_stuck hstuck, records_of_stuck hstuck]
      exact ⟨p', rfl, hp', hmore⟩

/-- What `prepareBatch` leaves when no whole record is at the front. -/
theorem prepareBatch_stuck {r : RecordReader} (hp : HeaderChecked r.buffer r.pendingLength)
    (h : recordFraming.Stuck r.buffer) :
    ∃ p', r.prepareBatch =
        ((breakOf (lookRecord r.buffer)).map fun _ => false, { r with pendingLength := p' }) ∧
      HeaderChecked r.buffer p' ∧ (lookRecord r.buffer = .more → p' = pendingOf r.buffer) := by
  obtain ⟨p', h1, h2, h3⟩ := validate_eq (r.buffer.length + 1) r.buffer 0 r.pendingLength
    (by rw [List.length_drop]; omega) (by rwa [List.drop_zero])
  rw [List.drop_zero, Framing.rest_of_stuck h] at h1 h2 h3
  rw [records_of_stuck h] at h1
  exact ⟨p', by rw [prepareBatch, h1]; rfl, h2, h3⟩

/-- What `prepareBatch` leaves when there are records at the front. -/
theorem prepareBatch_records {r : RecordReader} (hp : HeaderChecked r.buffer r.pendingLength)
    (h : records r.buffer ≠ []) :
    ∃ p', r.prepareBatch = (.ok true, { r with
        pendingLength := p'
        batch := encodings (records r.buffer)
        buffer := recordFraming.rest r.buffer
        batchOffset := 0 }) ∧
      HeaderChecked (recordFraming.rest r.buffer) p' := by
  obtain ⟨p', h1, h2, -⟩ := validate_eq (r.buffer.length + 1) r.buffer 0 r.pendingLength
    (by rw [List.length_drop]; omega) (by rwa [List.drop_zero])
  rw [List.drop_zero] at h1 h2
  have hne : ¬ 0 + (encodings (records r.buffer)).length = 0 := by
    rw [Nat.zero_add, List.length_eq_zero_iff]
    exact fun hn => h (encodings_eq_nil.mp hn)
  have hsplit := encodings_records_append_rest r.buffer
  have hbatch : r.buffer.take (0 + (encodings (records r.buffer)).length) =
      encodings (records r.buffer) := by
    rw [Nat.zero_add]
    exact List.prefix_iff_eq_take.mp ⟨_, hsplit⟩ |>.symm
  have hbuffer : r.buffer.drop (0 + (encodings (records r.buffer)).length) =
      recordFraming.rest r.buffer := by
    have := congrArg (List.drop (encodings (records r.buffer)).length) hsplit
    rw [List.drop_left] at this
    rw [Nat.zero_add, ← this]
  refine ⟨p', ?_, h2⟩
  rw [prepareBatch, h1]
  show (if _ then _ else _) = _
  rw [if_neg hne, hbatch, hbuffer]

/-! ## The meaning of the fields -/

/-- The reader has handed out `delivered`, holds `ready` in its batch, and has
`unread` still to receive, out of the input `bytes`. -/
structure Inv (bytes : List UInt8) (delivered ready : List Record) (r : RecordReader)
    (unread : List UInt8) : Prop where
  bytes_eq : encodings (delivered ++ ready) ++ (r.buffer ++ unread) = bytes
  batch_drop : r.batch.drop r.batchOffset = encodings ready
  batch_nil : r.batch = [] ↔ ready = []
  header : HeaderChecked r.buffer r.pendingLength
  active_of_ready : ready ≠ [] → r.state = .active

theorem inv_new (bytes : List UInt8) : Inv bytes [] [] new bytes :=
  ⟨rfl, rfl, by simp [new], headerChecked_none _, by simp⟩

variable {bytes unread : List UInt8} {delivered ready : List Record} {r : RecordReader}

theorem Inv.delivered_isPrefix (h : Inv bytes delivered ready r unread) :
    delivered <+: records bytes := by
  rw [← h.bytes_eq, records_encodings_append, List.append_assoc]
  exact List.prefix_append _ _

/-- `tryReadNext` hands out the first record that is ready. -/
theorem tryReadNext_cons {record : Record} (h : Inv bytes delivered (record :: ready) r unread) :
    ∃ r', r.tryReadNext = some (.ok (some record), r') ∧ r'.state = r.state ∧
      Inv bytes (delivered ++ [record]) ready r' unread := by
  have hactive := h.active_of_ready (by simp)
  have hbatch : r.batch ≠ [] := by simp [h.batch_nil]
  have hdrop := h.batch_drop
  rw [encodings_cons] at hdrop
  have hlength : Read.length (r.batch.drop r.batchOffset) = record.bytes.length := by
    rw [hdrop, Read.length_append _ (by have := record.valid.min_le; simp at this; omega)]
    exact record.valid.length_eq
  have hlen : r.batch.length = r.batchOffset + record.bytes.length + (encodings ready).length := by
    have := congrArg List.length hdrop
    have hpos := record.whole.length_pos
    simp only [List.length_drop, List.length_append] at this
    omega
  have hbytes : encodings (delivered ++ [record] ++ ready) ++ (r.buffer ++ unread) = bytes := by
    rw [List.append_assoc]
    exact h.bytes_eq
  have hstate : ¬ r.state = .failed := by simp [hactive]
  rw [tryReadNext, if_neg hstate, if_neg hbatch]
  simp only [hlength]
  by_cases hready : ready = []
  · -- the last record of the batch takes the whole of what is left of it
    subst hready
    rw [encodings_nil, List.append_nil] at hdrop
    rw [if_pos (by rw [hlen, encodings_nil]; rfl), hdrop, Record.fromValidatedBytes_bytes]
    refine ⟨_, rfl, rfl, hbytes, by simp, by simp, h.header, by simp⟩
  · have hpos : 0 < (encodings ready).length := by
      rw [List.length_pos_iff]
      exact fun hn => hready (encodings_eq_nil.mp hn)
    rw [if_neg (by omega), if_pos (by omega), hdrop, Nat.add_sub_cancel_left, List.take_left,
      Record.fromValidatedBytes_bytes]
    refine ⟨_, rfl, rfl, hbytes, ?_, by simp [hready, hbatch], h.header, fun _ => hactive⟩
    show r.batch.drop (r.batchOffset + record.bytes.length) = _
    rw [← List.drop_drop, hdrop, List.drop_left]

/-- With nothing ready, `tryReadNext` changes nothing. -/
theorem tryReadNext_nil (h : Inv bytes delivered [] r unread) :
    r.tryReadNext =
      some (if r.state = .failed then .error .readerFailed else .ok none, r) := by
  rw [tryReadNext]
  by_cases hf : r.state = .failed
  · rw [if_pos hf, if_pos hf]
  · rw [if_neg hf, if_neg hf, if_pos (h.batch_nil.mpr rfl)]

/-! ## Waiting -/

/-- Bytes that no record can start with end the reading. -/
theorem Inv.bad (h : Inv bytes delivered [] r unread) {e : RecordReadError}
    (hlook : lookRecord r.buffer = .bad e) :
    delivered = records bytes ∧ parseEnd bytes = .error e := by
  have hlook' : lookRecord (r.buffer ++ unread) = .bad e := by
    rw [lookRecord_append unread (by simp [hlook]), hlook]
  have hstuck : recordFraming.Stuck (r.buffer ++ unread) := Framing.stuck_of_bad hlook'
  rw [← h.bytes_eq, parseEnd, records_encodings_append, rest_encodings_append,
    records_of_stuck hstuck, Framing.rest_of_stuck hstuck, endOfInput, hlook']
  simp

/-- An unfinished frame at the end of input ends the reading. -/
theorem Inv.ended (h : Inv bytes delivered [] r unread) (hunread : unread = [])
    (hlook : lookRecord r.buffer = .more) :
    delivered = records bytes ∧ parseEnd bytes = endOfInput r.buffer := by
  subst hunread
  have hstuck : recordFraming.Stuck r.buffer := Framing.stuck_of_more hlook
  have hbytes := h.bytes_eq
  rw [List.append_nil, List.append_nil] at hbytes
  rw [← hbytes, parseEnd, records_encodings_append, rest_encodings_append,
    records_of_stuck hstuck, Framing.rest_of_stuck hstuck, List.append_nil]
  exact ⟨rfl, rfl⟩

/-- The frame that `pendingOf` describes is longer than what is there. -/
theorem length_lt_pendingOf {buffer : List UInt8} (h : lookRecord buffer = .more) :
    buffer.length < (pendingOf buffer).getD headerLen := by
  rw [pendingOf]
  by_cases h1 : buffer.length < 12
  · rw [if_pos h1]
    exact h1
  · rw [if_neg h1]
    simp only [Option.getD_some]
    by_contra hlt
    unfold lookRecord at h
    simp only [headerLen_eq, h1, hlt, if_false] at h
    split at h
    · cases h
    split at h
    · cases h
    split at h <;> cases h

/-- The error for an unfinished frame at the end of input. -/
theorem endOfInput_of_more {buffer : List UInt8} (h : lookRecord buffer = .more)
    (hne : buffer ≠ []) :
    endOfInput buffer = .error (match pendingOf buffer with
      | some expected => .truncatedRecord expected buffer.length
      | none => .truncatedHeader buffer.length) := by
  rw [endOfInput, h, pendingOf]
  simp only [hne, if_false, headerLen_eq]
  by_cases h1 : buffer.length < 12
  · simp only [h1, if_true]
  · simp only [h1, if_false]

variable {c : Mode} {src : Source σ} {J : σ → Prop}

/-- The state after a wait that has returned `b`. -/
def Found (bytes : List UInt8) (delivered : List Record) (src : Source σ) (b : Bool)
    (s : RecordReader × σ) : Prop :=
  if b then
    ∃ ready, ready ≠ [] ∧ Inv bytes delivered ready s.1 (src.available s.2) ∧
      s.1.state = .active
  else
    Inv bytes delivered [] s.1 (src.available s.2) ∧ s.1.state = .finished ∧
      delivered = records bytes ∧ parseEnd bytes = .ok ()

/-- The state after a wait that has failed or was abandoned.  Apart from faults of
the source, the error is the one that the whole input gives. -/
def Unfound (c : Mode) (bytes : List UInt8) (delivered : List Record) (src : Source σ)
    (e : Exit RecordReadError) (s : RecordReader × σ) : Prop :=
  Inv bytes delivered [] s.1 (src.available s.2) ∧
    match e with
    | .stopped => ¬ c.calm ∧ s.1.state = .active
    | .panicked => False
    | .error e => s.1.state = .failed ∧
      ((delivered = records bytes ∧ parseEnd bytes = .error e) ∨
        ∃ code, e = .io (.device code) ∧ ¬ c.calm ∧ c.faults (.device code))

theorem Inv.setState (h : Inv bytes delivered [] r unread) (state : ReaderState) :
    Inv bytes delivered [] { r with state := state } unread :=
  ⟨h.bytes_eq, h.batch_drop, h.batch_nil, h.header, by simp⟩

theorem Inv.setPending (h : Inv bytes delivered ready r unread) {p : Option Nat}
    (hp : HeaderChecked r.buffer p) :
    Inv bytes delivered ready { r with pendingLength := p } unread :=
  ⟨h.bytes_eq, h.batch_drop, h.batch_nil, hp, h.active_of_ready⟩

/-- Bytes that have arrived move from the source to the receive buffer. -/
theorem Inv.receive (h : Inv bytes delivered ready r unread) (n : Nat) :
    Inv bytes delivered ready { r with buffer := r.buffer ++ unread.take n } (unread.drop n) := by
  refine ⟨?_, h.batch_drop, h.batch_nil, h.header.append _, h.active_of_ready⟩
  rw [List.append_assoc, List.take_append_drop]
  exact h.bytes_eq

/-- What `prepareBatch` comes to: a batch, an error at bytes that no record can start
with, or an unfinished frame. -/
theorem Inv.prepareBatch (h : Inv bytes delivered [] r unread) (hactive : r.state = .active) :
    (∃ ready r', r.prepareBatch = (.ok true, r') ∧ ready ≠ [] ∧
      Inv bytes delivered ready r' unread ∧ r'.state = .active ∧ r'.batch = encodings ready ∧
      r'.batchOffset = 0) ∨
    (∃ e p', r.prepareBatch = (.error e, { r with pendingLength := p' }) ∧
      lookRecord r.buffer = .bad e ∧ HeaderChecked r.buffer p') ∨
    (r.prepareBatch = (.ok false, { r with pendingLength := pendingOf r.buffer }) ∧
      lookRecord r.buffer = .more ∧ HeaderChecked r.buffer (pendingOf r.buffer)) := by
  by_cases hrec : records r.buffer = []
  · have hstuck : recordFraming.Stuck r.buffer := by
      have hempty := map_bytes_records r.buffer
      have hsplit := Framing.flatten_frames_append_rest (F := recordFraming) r.buffer
      have hrest := Framing.stuck_rest (F := recordFraming) r.buffer
      rw [hrec] at hempty
      rw [← hempty] at hsplit
      change recordFraming.rest r.buffer = r.buffer at hsplit
      rwa [hsplit] at hrest
    obtain ⟨p', heq, hp', hmore⟩ := prepareBatch_stuck h.header hstuck
    cases hlook : lookRecord r.buffer with
    | frame n => exact absurd hlook (hstuck n)
    | bad e =>
      rw [hlook] at heq
      exact .inr (.inl ⟨e, p', heq, rfl, hp'⟩)
    | more =>
      rw [hlook] at heq
      rw [hmore hlook] at heq hp'
      exact .inr (.inr ⟨heq, rfl, hp'⟩)
  · obtain ⟨p', heq, hp'⟩ := prepareBatch_records h.header hrec
    refine .inl ⟨_, _, heq, hrec, ⟨?_, rfl, encodings_eq_nil, hp', fun _ => hactive⟩, hactive, rfl, rfl⟩
    have hbytes := h.bytes_eq
    rw [List.append_nil, ← encodings_records_append_rest r.buffer] at hbytes
    rw [← hbytes]
    simp only [encodings_append, List.append_assoc]

omit [Crc32c] in
theorem fail_triple {α : Type} {Q : α → RecordReader × σ → Prop} {e : RecordReadError}
    {P : RecordReader × σ → Prop} {X : Exit RecordReadError → RecordReader × σ → Prop}
    (h : ∀ s, P s → X (.error e) ({ s.1 with state := .failed }, s.2)) :
    Triple c P (fail e : Io (RecordReader × σ) RecordReadError α) Q X :=
  .bind (R := fun _ => X (.error e)) (.modify h) fun _ => .throw fun _ h => h

omit [Crc32c] in
theorem eq_zero_of_take_eq_nil {xs : List UInt8} {n : Nat} (hle : n ≤ xs.length)
    (h : xs.take n = []) : n = 0 := by
  have := congrArg List.length h
  rw [List.length_take, List.length_nil] at this
  omega

/-- What a read comes to: some of what is available, nothing only at its end, or a fault. -/
def Received (c : Mode) (src : Source σ) (r : RecordReader) (t : σ) :
    Except ErrorKind (List UInt8) → RecordReader × σ → Prop
  | .ok received, s => ∃ n, n ≤ (src.available t).length ∧ (n = 0 ↔ src.available t = []) ∧
      received = (src.available t).take n ∧ s = (r, src.advance n t)
  | .error e, s => s = (r, t) ∧ ∃ f, e = Fault.kind f ∧ ¬ c.calm ∧ c.faults f

omit [Crc32c] in
theorem read_triple {t : σ} {needed : Nat} (hneeded : 0 < needed) :
    Triple c (fun s => s = (r, t))
      (Io.attempt (Io.zoom Prod.snd (fun t s => (s.1, t)) (src.read needed)) :
        Io (RecordReader × σ) RecordReadError _)
      (Received c src r t) (fun e s => e = .stopped ∧ ¬ c.calm ∧ s = (r, t)) := by
  refine .attempt (.zoom ?_)
  rintro _ rfl
  refine .read hneeded ?_ ?_ ?_
  · rintro n _ hle hzero rfl
    exact ⟨n, hle, hzero, rfl, rfl⟩
  · rintro _ hc rfl
    exact ⟨rfl, hc, rfl⟩
  · rintro f _ hc hf rfl
    exact ⟨rfl, f, rfl, hc, hf⟩

omit [Crc32c] in
/-- A read that delivers nothing is at the end of input. -/
theorem Received.nil {t : σ} {s : RecordReader × σ} (h : Received c src r t (.ok []) s) :
    src.available t = [] ∧ s = (r, src.advance 0 t) := by
  obtain ⟨n, hle, hzero, hnil, rfl⟩ := h
  obtain rfl := eq_zero_of_take_eq_nil hle hnil.symm
  exact ⟨hzero.mp rfl, rfl⟩

omit [Crc32c] in
/-- A read that delivers something leaves less. -/
theorem Received.cons {t : σ} {s : RecordReader × σ} {b : UInt8} {received : List UInt8}
    (h : Received c src r t (.ok (b :: received)) s) :
    ∃ n, b :: received = (src.available t).take n ∧ s = (r, src.advance n t) ∧
      (src.available t).length - n < (src.available t).length := by
  obtain ⟨n, hle, -, hcons, rfl⟩ := h
  have hpos : n ≠ 0 := by
    rintro rfl
    cases hcons
  exact ⟨n, hcons, rfl, by omega⟩

/-- One turn of the wait: it ends with a batch, at the end of input or with an
error, or it goes on with more bytes in the receive buffer. -/
theorem waitTurn_triple (hsrc : src.Lawful J) (n : Nat) :
    Triple c
      (fun s => (Inv bytes delivered [] s.1 (src.available s.2) ∧ s.1.state = .active ∧ J s.2) ∧
        (c.calm → (src.available s.2).length = n))
      (waitTurn src)
      (fun b s => match b with
        | .inl _ => (Inv bytes delivered [] s.1 (src.available s.2) ∧ s.1.state = .active ∧
            J s.2) ∧ (c.calm → (src.available s.2).length < n)
        | .inr b => Found bytes delivered src b s ∧ J s.2)
      (fun e s => Unfound c bytes delivered src e s ∧ J s.2) := by
  refine .ofState fun s ⟨⟨hinv, hactive, hJ⟩, hv⟩ => ?_
  refine .getBind ?_
  rcases hinv.prepareBatch hactive with ⟨ready, r', heq, hne, hinv', hactive', -, -⟩ |
    ⟨e, p', heq, hlook, hp'⟩ | ⟨heq, hlook, hp'⟩
  · -- whole records are at hand
    rw [heq]
    refine .bind (R := fun _ s' => Found bytes delivered src true s' ∧ J s'.2)
      (.modify ?_) fun _ => .pure fun _ h => h
    rintro _ rfl
    exact ⟨⟨ready, hne, hinv', hactive'⟩, hJ⟩
  · -- the bytes at hand can never become a record
    rw [heq]
    refine .bind (R := fun _ s' => s' = ({ s.1 with pendingLength := p' }, s.2))
      (.modify ?_) fun _ => fail_triple ?_
    · rintro _ rfl
      rfl
    · rintro _ rfl
      exact ⟨⟨(hinv.setPending hp').setState .failed, rfl, .inl (hinv.bad hlook)⟩, hJ⟩
  · rw [heq]
    have hinv' := hinv.setPending hp'
    refine .bind (R := fun _ s' => s' = ({ s.1 with pendingLength := pendingOf s.1.buffer }, s.2))
      (.modify ?_) fun _ => ?_
    · rintro _ rfl
      rfl
    have hpos := Nat.sub_pos_of_lt (length_lt_pendingOf hlook)
    refine .bind (R := Received c src { s.1 with pendingLength := pendingOf s.1.buffer } s.2)
      ((read_triple hpos).conseq (fun _ h => h) (fun _ _ h => h) ?_) fun result => ?_
    · rintro _ _ ⟨rfl, hc, rfl⟩
      exact ⟨⟨hinv', hc, hactive⟩, hJ⟩
    match result with
    | .ok [] =>
      -- nothing arrives only at the end of input
      by_cases hbuf : s.1.buffer = []
      · rw [if_pos hbuf]
        refine .bind (R := fun _ s' => Found bytes delivered src false s' ∧ J s'.2)
          (.modify ?_) fun _ => .pure fun _ h => h
        intro s' hs'
        obtain ⟨hempty, rfl⟩ := hs'.nil
        obtain ⟨hd, hend⟩ := hinv'.ended hempty hlook
        refine ⟨⟨?_, rfl, hd, ?_⟩, hsrc.advance _ _ hJ⟩
        · rw [hsrc.available_advance _ _ hJ]
          exact hinv'.setState .finished
        · rw [hend]
          show endOfInput s.1.buffer = _
          rw [hbuf]
          rfl
      · rw [if_neg hbuf]
        refine fail_triple ?_
        intro s' hs'
        obtain ⟨hempty, rfl⟩ := hs'.nil
        obtain ⟨hd, hend⟩ := hinv'.ended hempty hlook
        refine ⟨⟨?_, rfl, .inl ⟨hd, ?_⟩⟩, hsrc.advance _ _ hJ⟩
        · rw [hsrc.available_advance _ _ hJ]
          exact hinv'.setState .failed
        · rw [hend]
          exact endOfInput_of_more hlook hbuf
    | .ok (b :: received) =>
      refine .bind (R := fun _ s' => (Inv bytes delivered [] s'.1 (src.available s'.2) ∧
          s'.1.state = .active ∧ J s'.2) ∧
          (c.calm → (src.available s'.2).length < n)) (.modify ?_) fun _ =>
        .pure fun _ h => h
      intro s' hs'
      obtain ⟨k, hcons, rfl, hless⟩ := hs'.cons
      refine ⟨⟨?_, hactive, hsrc.advance _ _ hJ⟩, fun hc => ?_⟩
      · rw [hsrc.available_advance _ _ hJ, hcons]
        exact hinv'.receive k
      · rw [hsrc.available_advance _ _ hJ, List.length_drop, ← hv hc]
        exact hless
    | .error .interrupted =>
      refine .pure ?_
      rintro _ ⟨rfl, f, -, hc, -⟩
      exact ⟨⟨hinv', hactive, hJ⟩, fun h => absurd h hc⟩
    | .error .notFound | .error .alreadyExists | .error .isADirectory
    | .error .notADirectory | .error .writeZero | .error .unexpectedEof
    | .error .invalidInput | .error (.device _) =>
      refine fail_triple ?_
      rintro _ ⟨rfl, f, hf, hc, hf'⟩
      cases f <;> cases hf
      all_goals exact ⟨⟨hinv'.setState .failed, rfl, .inr ⟨_, rfl, hc, hf'⟩⟩, hJ⟩

/-- **The wait**, from an active reader with nothing ready. -/
theorem waitToRead_triple (hsrc : src.Lawful J) :
    Triple c
      (fun s => Inv bytes delivered [] s.1 (src.available s.2) ∧ s.1.state = .active ∧ J s.2)
      (waitToRead src)
      (fun b s => Found bytes delivered src b s ∧ J s.2)
      (fun e s => Unfound c bytes delivered src e s ∧ J s.2) := by
  refine .ofState fun s ⟨hinv, hactive, hJ⟩ => ?_
  refine .getBind ?_
  have hbatch : ¬ s.1.batch ≠ [] := not_not.mpr (hinv.batch_nil.mpr rfl)
  simp only [hactive, if_neg hbatch]
  refine .loop (fun _ s => Inv bytes delivered [] s.1 (src.available s.2) ∧ s.1.state = .active ∧
    J s.2) (fun _ s => (src.available s.2).length)
    (fun _ n => (waitTurn_triple hsrc n).post fun r _ h => by cases r <;> exact h) ?_ ?_
  · exact fun _ s hc ⟨hinv, hactive, hJ⟩ => ⟨⟨hinv, hc, hactive⟩, hJ⟩
  · rintro _ rfl
    exact ⟨⟨hinv, hactive, hJ⟩, fun _ => Nat.le_refl _⟩

omit [Crc32c] in
/-- A wait does nothing while a batch is left, after the end and after a failure. -/
theorem waitToRead_apply (s : RecordReader × σ) (plan : Plan)
    (h : s.1.state = .active → s.1.batch ≠ []) [Crc32c] :
    (waitToRead src).run s plan = (match s.1.state with
      | .active => .ok true
      | .finished => .ok false
      | .failed => .error (.error .readerFailed), ⟨s, plan⟩) := by
  rw [Io.run, waitToRead, Io.bind_apply]
  cases hs : s.1.state with
  | active => simp [Io.get, hs, h hs, Io.pure_apply]
  | finished => simp [Io.get, hs, Io.pure_apply]
  | failed => simp [Io.get, hs, Io.throw]

end RecordReader

end TransactionLog
