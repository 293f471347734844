import TransactionLog.Record.ReaderRuns

/-!
# The reader stays within its buffers

The operations of the reader once more, with every access made explicit: they have no
result where the source would read or slice outside a buffer, wrap bytes that are not a
frame, or subtract below zero.

A wait suspends where it reads from its source.  It goes on with any answer of the
source, or is dropped.  `Reachable` holds the states that any interleaving of calls,
answers and cancellations leads to.
-/

namespace TransactionLog

open Lib Protocol

namespace RecordReader

/-! ### Accesses -/

/-- `&bytes[start..stop]` -/
def slice (bytes : List UInt8) (start stop : Nat) : Option (List UInt8) :=
  if start ≤ stop ∧ stop ≤ bytes.length then some ((bytes.take stop).drop start) else none

def subtract (n k : Nat) : Option Nat := if k ≤ n then some (n - k) else none

/-- Reads the header of a frame that is not checked to have one. -/
def headerUnchecked (frame : List UInt8) : Option (List UInt8) :=
  if headerLen ≤ frame.length then some (frame.take headerLen) else none

/-- Reads the trailer of a frame that is not checked to have one. -/
def crcUnchecked (frame : List UInt8) : Option UInt32 :=
  if crcLen ≤ frame.length then some (Read.crc frame) else none

def computeCrc [Crc32c] (frame : List UInt8) : Option UInt32 := do
  let stop ← subtract frame.length crcLen
  let content ← slice frame 0 stop
  some (crc32c content)

theorem slice_eq {bytes : List UInt8} {start stop : Nat} (h : start ≤ stop)
    (h' : stop ≤ bytes.length) : slice bytes start stop = some ((bytes.take stop).drop start) :=
  if_pos ⟨h, h'⟩

theorem slice_rest {bytes : List UInt8} {start : Nat} (h : start ≤ bytes.length) :
    slice bytes start bytes.length = some (bytes.drop start) := by
  rw [slice_eq h (Nat.le_refl _), List.take_length]

theorem slice_front {bytes : List UInt8} {stop : Nat} (h : stop ≤ bytes.length) :
    slice bytes 0 stop = some (bytes.take stop) := by
  rw [slice_eq (Nat.zero_le _) h, List.drop_zero]

variable [Crc32c]

theorem computeCrc_eq {frame : List UInt8} (h : crcLen ≤ frame.length) :
    computeCrc frame = some (Read.computeCrc frame) := by
  rw [computeCrc, subtract, if_pos h]
  show (slice frame 0 (frame.length - crcLen)).bind _ = _
  rw [slice_front (Nat.sub_le _ _)]
  rfl

namespace Checked

/-- One turn of the validation loop: it goes around with a new `validated_len` and
`pending_length`, or breaks. -/
def validateTurn (buffer : List UInt8) (validatedLen : Nat) (pendingLength : Option Nat) :
    Option ((Nat × Option Nat) ⊕ (Except RecordReadError Unit × Nat × Option Nat)) := do
  let remaining ← slice buffer validatedLen buffer.length
  match checkHeader remaining pendingLength with
  | .error validation => some (.inr (validation, validatedLen, pendingLength))
  | .ok length =>
    if remaining.length < length then some (.inr (.ok (), validatedLen, some length))
    else do
      let frame ← slice remaining 0 length
      let stored ← crcUnchecked frame
      let computed ← computeCrc frame
      if stored ≠ computed then
        some (.inr (.error (.crcMismatch stored computed), validatedLen, some length))
      else some (.inl (validatedLen + length, none))

/-- At most `fuel` turns of the validation loop. -/
def validate : Nat → List UInt8 → Nat → Option Nat →
    Option (Except RecordReadError Unit × Nat × Option Nat)
  | 0, _, _, _ => none
  | fuel + 1, buffer, validatedLen, pendingLength => do
    match ← validateTurn buffer validatedLen pendingLength with
    | .inl (validatedLen, pendingLength) => validate fuel buffer validatedLen pendingLength
    | .inr broken => some broken

/-- The loop is given one turn for each frame that fits in the buffer, and a last one. -/
def prepareBatch (r : RecordReader) : Option (Except RecordReadError Bool × RecordReader) := do
  let (validation, validatedLen, pendingLength) ←
    validate (r.buffer.length / minRecordLen + 1) r.buffer 0 r.pendingLength
  if validatedLen = 0 then
    some (validation.map fun _ => false, { r with pendingLength := pendingLength })
  else do
    let batch ← slice r.buffer 0 validatedLen
    let buffer ← slice r.buffer validatedLen r.buffer.length
    some (.ok true, { r with
      pendingLength := pendingLength
      batch := batch
      buffer := buffer
      batchOffset := 0 })

def tryReadNext (r : RecordReader) :
    Option (Except RecordReadError (Option Record) × RecordReader) :=
  if r.state = .failed then some (.error .readerFailed, r)
  else if r.batch = [] then some (.ok none, r)
  else do
    let start := r.batchOffset
    let unread ← slice r.batch start r.batch.length
    let header ← headerUnchecked unread
    let stop := start + Read.length header
    if stop = r.batch.length then do
      let record ← Record.fromValidatedBytes unread
      some (.ok (some record), { r with batch := [], batchOffset := 0 })
    else do
      let bytes ← slice r.batch start stop
      let record ← Record.fromValidatedBytes bytes
      some (.ok (some record), { r with batchOffset := stop })

/-- Where a wait stands: it has returned, or reads into at least this much room. -/
inductive Progress where
  | returned (result : Except RecordReadError Bool)
  | reads (additional : Nat)

/-- The loop of a wait, from its head up to where it returns or reads. -/
def fill (r : RecordReader) : Option (Progress × RecordReader) := do
  let (prepared, r) ← prepareBatch r
  match prepared with
  | .ok true => some (.returned (.ok true), r)
  | .error error => some (.returned (.error error), { r with state := .failed })
  | .ok false => do
    let additional ← subtract (r.pendingLength.getD headerLen) r.buffer.length
    some (.reads additional, r)

def waitToRead (r : RecordReader) : Option (Progress × RecordReader) :=
  match r.state with
  | .finished => some (.returned (.ok false), r)
  | .failed => some (.returned (.error .readerFailed), r)
  | .active => if r.batch ≠ [] then some (.returned (.ok true), r) else fill r

/-- How a wait goes on when its source has answered. -/
def resume (r : RecordReader) :
    Except ErrorKind (List UInt8) → Option (Progress × RecordReader)
  | .ok [] =>
    if r.buffer = [] then some (.returned (.ok false), { r with state := .finished })
    else some (.returned (.error (match r.pendingLength with
      | some expected => .truncatedRecord expected r.buffer.length
      | none => .truncatedHeader r.buffer.length)), { r with state := .failed })
  | .ok received => fill { r with buffer := r.buffer ++ received }
  | .error .interrupted => fill r
  | .error error => some (.returned (.error (.io error)), { r with state := .failed })

end Checked

/-! ### Every interleaving -/

/-- A reader, the room that a suspended wait reads into, and the input not yet received. -/
structure Connection where
  reader : RecordReader
  reading : Option Nat
  unread : List UInt8

/-- What a wait leaves: nothing suspended, or a read into at least the room asked for. -/
inductive Leaves : Checked.Progress → Option Nat → Prop
  | returned (result : Except RecordReadError Bool) : Leaves (.returned result) none
  | reads {additional spare : Nat} (reserved : additional ≤ spare) :
      Leaves (.reads additional) (some spare)

/-- A read into `spare` bytes of room takes `n` of the input, and none only without room
or at the end. -/
structure Delivers (spare n : Nat) (unread : List UInt8) : Prop where
  le_spare : n ≤ spare
  le_unread : n ≤ unread.length
  zero : n = 0 → spare = 0 ∨ unread = []

inductive Step : Connection → Connection → Prop
  | tryReadNext {r r' : RecordReader} {unread : List UInt8}
      {result : Except RecordReadError (Option Record)}
      (call : Checked.tryReadNext r = some (result, r')) :
      Step ⟨r, none, unread⟩ ⟨r', none, unread⟩
  | wait {r r' : RecordReader} {unread : List UInt8} {progress : Checked.Progress}
      {reading : Option Nat} (call : Checked.waitToRead r = some (progress, r'))
      (leaves : Leaves progress reading) : Step ⟨r, none, unread⟩ ⟨r', reading, unread⟩
  | received {r r' : RecordReader} {unread : List UInt8} {spare n : Nat}
      {progress : Checked.Progress} {reading : Option Nat} (delivers : Delivers spare n unread)
      (call : Checked.resume r (.ok (unread.take n)) = some (progress, r'))
      (leaves : Leaves progress reading) :
      Step ⟨r, some spare, unread⟩ ⟨r', reading, unread.drop n⟩
  | failed {r r' : RecordReader} {unread : List UInt8} {spare : Nat} {error : ErrorKind}
      {progress : Checked.Progress} {reading : Option Nat}
      (call : Checked.resume r (.error error) = some (progress, r'))
      (leaves : Leaves progress reading) : Step ⟨r, some spare, unread⟩ ⟨r', reading, unread⟩
  | cancelled {r : RecordReader} {unread : List UInt8} {spare : Nat} :
      Step ⟨r, some spare, unread⟩ ⟨r, none, unread⟩

inductive Reachable (bytes : List UInt8) : Connection → Prop
  | new : Reachable bytes ⟨new, none, bytes⟩
  | step {c c' : Connection} (before : Reachable bytes c) (step : Step c c') : Reachable bytes c'

/-- The turns of the validation loop from one point of it to another. -/
inductive Turns (buffer : List UInt8) (start : Nat × Option Nat) : Nat × Option Nat → Prop
  | start : Turns buffer start start
  | turn {v v' : Nat} {p p' : Option Nat} (before : Turns buffer start (v, p))
      (turn : Checked.validateTurn buffer v p = some (.inl (v', p'))) : Turns buffer start (v', p')

/-! ### The validation loop -/

variable {bytes buffer unread : List UInt8} {r r' : RecordReader} {v v' : Nat} {p p' : Option Nat}

omit [Crc32c] in
theorem le_of_checkHeader {length : Nat} (h : HeaderChecked bytes p)
    (hcheck : checkHeader bytes p = .ok length) : minRecordLen ≤ length := by
  rw [checkHeader_of_headerChecked h, checkHeader] at hcheck
  by_cases h1 : bytes.length < headerLen
  · rw [if_pos h1] at hcheck
    cases hcheck
  rw [if_neg h1] at hcheck
  by_cases h2 : Read.length bytes < minRecordLen
  · simp only [if_pos h2] at hcheck
    cases hcheck
  simp only [if_neg h2] at hcheck
  split at hcheck
  · cases hcheck
  · cases hcheck
    exact Nat.le_of_not_lt h2

/-- A turn accesses nothing outside the buffer, and is a turn of the plain loop.  Where
it goes around it has consumed a frame. -/
theorem validateTurn_defined (hv : v ≤ buffer.length) (h : HeaderChecked (buffer.drop v) p) :
    ∃ o, Checked.validateTurn buffer v p = some o ∧
      (∀ fuel, validate (fuel + 1) buffer v p =
        o.elim (fun next => validate fuel buffer next.1 next.2) id) ∧
      ∀ v' p', o = .inl (v', p') → p' = none ∧ v + 16 ≤ v' ∧ v' ≤ buffer.length := by
  simp only [Checked.validateTurn, slice_rest hv, Option.bind_eq_bind, Option.bind_some]
  cases hcheck : checkHeader (buffer.drop v) p with
  | error validation =>
    refine ⟨_, rfl, fun fuel => ?_, fun v' p' ho => by cases ho⟩
    simp only [validate, hcheck, Sum.elim_inr, id_eq]
  | ok length =>
    have hmin := le_of_checkHeader h hcheck
    by_cases hshort : (buffer.drop v).length < length
    · refine ⟨_, if_pos hshort, fun fuel => ?_, fun v' p' ho => by cases ho⟩
      simp only [validate, hcheck, if_pos hshort, Sum.elim_inr, id_eq]
    have hle := Nat.le_of_not_lt hshort
    have hframe : ((buffer.drop v).take length).length = length := List.length_take_of_le hle
    have htrailer : crcLen ≤ ((buffer.drop v).take length).length := by
      rw [hframe]
      exact Nat.le_trans (by decide) hmin
    simp only [if_neg hshort, slice_front hle, crcUnchecked, if_pos htrailer, computeCrc_eq htrailer,
      Option.bind_some]
    by_cases hcrc : Read.crc ((buffer.drop v).take length) ≠
        Read.computeCrc ((buffer.drop v).take length)
    · refine ⟨_, if_pos hcrc, fun fuel => ?_, fun v' p' ho => by cases ho⟩
      simp only [validate, hcheck, if_neg hshort, if_pos hcrc, Sum.elim_inr, id_eq]
    · refine ⟨_, if_neg hcrc, fun fuel => ?_, fun v' p' ho => ?_⟩
      · simp only [validate, hcheck, if_neg hshort, if_neg hcrc, Sum.elim_inl]
      · obtain ⟨rfl, rfl⟩ := Prod.mk.inj (Sum.inl.inj ho)
        rw [List.length_drop] at hle
        rw [minRecordLen_eq] at hmin
        exact ⟨rfl, by omega, by omega⟩

theorem validate_inl {k : Nat} (h : Checked.validateTurn buffer v p = some (.inl (v', p'))) :
    Checked.validate (k + 1) buffer v p = Checked.validate k buffer v' p' := by
  rw [Checked.validate, h]
  rfl

theorem validate_inr {k : Nat} {broken : Except RecordReadError Unit × Nat × Option Nat}
    (h : Checked.validateTurn buffer v p = some (.inr broken)) :
    Checked.validate (k + 1) buffer v p = some broken := by
  rw [Checked.validate, h]
  rfl

/-- The loop ends within one turn for each 16 bytes, and with it the plain loop. -/
theorem validate_defined (k : Nat) (hv : v ≤ buffer.length) (h : HeaderChecked (buffer.drop v) p)
    (hk : (buffer.length - v) / minRecordLen < k) :
    ∃ broken, Checked.validate k buffer v p = some broken ∧
      ∀ fuel, k ≤ fuel → validate fuel buffer v p = broken := by
  induction k generalizing v p with
  | zero => exact absurd hk (Nat.not_lt_zero _)
  | succ k ih =>
    have hfuel : ∀ fuel, k + 1 ≤ fuel → ∃ fuel', fuel = fuel' + 1 ∧ k ≤ fuel' := by
      intro fuel hle
      exact ⟨fuel - 1, by omega, by omega⟩
    obtain ⟨o, ho, hplain, hturn⟩ := validateTurn_defined hv h
    rcases o with ⟨v', p'⟩ | broken
    · obtain ⟨rfl, hadvance, hv'⟩ := hturn v' p' rfl
      have hrest : (buffer.length - v') / minRecordLen < k := by
        rw [minRecordLen_eq] at hk ⊢
        omega
      obtain ⟨broken, hbroken, hplain'⟩ := ih hv' (headerChecked_none _) hrest
      refine ⟨broken, (validate_inl ho).trans hbroken, fun fuel hle => ?_⟩
      obtain ⟨fuel', rfl, hle'⟩ := hfuel fuel hle
      exact (hplain fuel').trans (hplain' fuel' hle')
    · refine ⟨broken, validate_inr ho, fun fuel hle => ?_⟩
      obtain ⟨fuel', rfl, -⟩ := hfuel fuel hle
      exact hplain fuel'

/-- Every point that the loop comes to is within the buffer. -/
theorem Turns.bounded (h : Turns buffer (0, p) (v', p')) (hp : HeaderChecked buffer p) :
    v' ≤ buffer.length ∧ HeaderChecked (buffer.drop v') p' := by
  generalize hend : (v', p') = e at h
  induction h generalizing v' p' with
  | start =>
    obtain ⟨rfl, rfl⟩ := Prod.mk.inj hend
    exact ⟨Nat.zero_le _, hp⟩
  | turn before turn ih =>
    obtain ⟨rfl, rfl⟩ := Prod.mk.inj hend
    obtain ⟨hv, hheader⟩ := ih rfl
    obtain ⟨o, ho, -, hturn⟩ := validateTurn_defined hv hheader
    rw [turn] at ho
    obtain ⟨rfl, -, hle⟩ := hturn _ _ (Option.some.inj ho).symm
    exact ⟨hle, headerChecked_none _⟩

/-- **The validation stays within the buffer** and does what the plain one does. -/
theorem prepareBatch_checked (h : HeaderChecked r.buffer r.pendingLength) :
    Checked.prepareBatch r = some r.prepareBatch := by
  obtain ⟨⟨validation, validatedLen, pendingLength⟩, hchecked, hplain⟩ :=
    validate_defined (r.buffer.length / minRecordLen + 1) (Nat.zero_le r.buffer.length)
      (by rwa [List.drop_zero]) (Nat.lt_succ_self _)
  have hfuel : r.buffer.length / minRecordLen + 1 ≤ r.buffer.length + 1 :=
    Nat.succ_le_succ (Nat.div_le_self _ _)
  have hloop := hplain _ hfuel
  have hle : validatedLen ≤ r.buffer.length := by
    obtain ⟨p', heq, -⟩ := validate_eq (r.buffer.length + 1) r.buffer 0 r.pendingLength
      (by rw [List.length_drop]; omega) (by rwa [List.drop_zero])
    have hsplit := congrArg List.length (encodings_records_append_rest r.buffer)
    rw [hloop, List.drop_zero] at heq
    have hvalidated := (Prod.mk.inj (Prod.mk.inj heq).2).1
    rw [List.length_append] at hsplit
    omega
  simp only [Checked.prepareBatch, RecordReader.prepareBatch, hchecked, hloop, Option.bind_eq_bind,
    Option.bind_some, slice_front hle, slice_rest hle]
  by_cases hzero : validatedLen = 0
  · rw [if_pos hzero, if_pos hzero]
  · rw [if_neg hzero, if_neg hzero]

/-! ### The meaning of the buffers -/

/-- The reader has handed out `delivered`, of the batch at hand `handed`, and still
holds `ready`.  A suspended wait has room for a longer frame than there is. -/
structure Holds (bytes : List UInt8) (delivered handed ready : List Record) (c : Connection) :
    Prop where
  inv : Inv bytes delivered ready c.reader c.unread
  batch : ready ≠ [] → c.reader.batch = encodings (handed ++ ready) ∧
    c.reader.batchOffset = (encodings handed).length
  reading : ∀ spare, c.reading = some spare → ready = [] ∧ c.reader.state = .active ∧
    c.reader.buffer.length < c.reader.pendingLength.getD headerLen ∧
    c.reader.pendingLength.getD headerLen ≤ c.reader.buffer.length + spare

def Sound (bytes : List UInt8) (c : Connection) : Prop :=
  ∃ delivered handed ready, Holds bytes delivered handed ready c

variable {delivered handed ready : List Record} {c c' : Connection}

theorem sound_new (bytes : List UInt8) : Sound bytes ⟨new, none, bytes⟩ :=
  ⟨[], [], [], inv_new bytes, fun h => absurd rfl h, fun _ h => nomatch h⟩

/-- With nothing ready and no wait suspended there is nothing more to say. -/
theorem sound_idle (h : Inv bytes delivered [] r unread) : Sound bytes ⟨r, none, unread⟩ :=
  ⟨delivered, [], [], h, fun hne => absurd rfl hne, fun _ h => nomatch h⟩

/-- Where a header and the frame it declares are in the batch, the accesses are within it. -/
theorem tryReadNext_eq (h : r.batch ≠ [] → r.batchOffset ≤ r.batch.length ∧
    headerLen ≤ (r.batch.drop r.batchOffset).length ∧
    r.batchOffset + Read.length (r.batch.drop r.batchOffset) ≤ r.batch.length) :
    Checked.tryReadNext r = r.tryReadNext := by
  rw [Checked.tryReadNext, RecordReader.tryReadNext]
  by_cases hfailed : r.state = .failed
  · rw [if_pos hfailed, if_pos hfailed]
  rw [if_neg hfailed, if_neg hfailed]
  by_cases hempty : r.batch = []
  · rw [if_pos hempty, if_pos hempty]
  obtain ⟨hstart, hheader, hstop⟩ := h hempty
  have hread : headerUnchecked (r.batch.drop r.batchOffset) =
      some ((r.batch.drop r.batchOffset).take headerLen) := if_pos hheader
  have hlength : Read.length ((r.batch.drop r.batchOffset).take headerLen) =
      Read.length (r.batch.drop r.batchOffset) := Read.length_take (Nat.le_refl 12)
  rw [if_neg hempty, if_neg hempty]
  simp only [slice_rest hstart, hread, hlength, Option.bind_eq_bind, Option.bind_some]
  generalize hlen : Read.length (r.batch.drop r.batchOffset) = length at hstop
  by_cases hlast : r.batchOffset + length = r.batch.length
  · rw [if_pos hlast, if_pos hlast]
    cases Record.fromValidatedBytes (r.batch.drop r.batchOffset) <;> rfl
  · rw [if_neg hlast, if_neg hlast, if_pos (Nat.lt_of_le_of_ne hstop hlast),
      slice_eq (Nat.le_add_right _ _) hstop, Option.bind_some, List.drop_take]
    cases Record.fromValidatedBytes
      ((r.batch.drop r.batchOffset).take (r.batchOffset + length - r.batchOffset)) <;> rfl

/-- **Taking a record stays within the batch** and does what the plain one does. -/
theorem Holds.tryReadNext_checked (h : Holds bytes delivered handed ready c) :
    Checked.tryReadNext c.reader = c.reader.tryReadNext := by
  refine tryReadNext_eq fun hne => ?_
  have hready : ready ≠ [] := fun hn => hne (h.inv.batch_nil.mpr hn)
  obtain ⟨record, rest, rfl⟩ := List.exists_cons_of_ne_nil hready
  obtain ⟨hbatch, hoffset⟩ := h.batch hready
  have hdrop := h.inv.batch_drop
  have hmin := record.valid.min_le
  rw [encodings_cons] at hdrop
  rw [minRecordLen_eq] at hmin
  have hlength : Read.length (c.reader.batch.drop c.reader.batchOffset) = record.bytes.length := by
    rw [hdrop, Read.length_append _ (by omega)]
    exact record.valid.length_eq
  have hlen : c.reader.batch.length =
      c.reader.batchOffset + (record.bytes.length + (encodings rest).length) := by
    rw [hbatch, hoffset, encodings_append, encodings_cons, List.length_append, List.length_append]
  rw [hlength, hdrop, List.length_append, headerLen_eq]
  exact ⟨by omega, by omega, by omega⟩

/-- What the reader keeps of its batch when it hands out a record. -/
theorem tryReadNext_batch {record : Record}
    (h : r.tryReadNext = some (.ok (some record), r')) : r'.batch = [] ∨
      r'.batch = r.batch ∧
        r'.batchOffset = r.batchOffset + Read.length (r.batch.drop r.batchOffset) := by
  rw [tryReadNext] at h
  by_cases hfailed : r.state = .failed
  · rw [if_pos hfailed] at h
    cases h
  rw [if_neg hfailed] at h
  by_cases hempty : r.batch = []
  · rw [if_pos hempty] at h
    cases h
  rw [if_neg hempty] at h
  by_cases hlast : r.batchOffset + Read.length (r.batch.drop r.batchOffset) = r.batch.length
  · simp only [if_pos hlast, Option.map_eq_some_iff] at h
    obtain ⟨_, -, h⟩ := h
    obtain ⟨-, rfl⟩ := Prod.mk.inj h
    exact .inl rfl
  simp only [if_neg hlast] at h
  by_cases hstop : r.batchOffset + Read.length (r.batch.drop r.batchOffset) < r.batch.length
  · simp only [if_pos hstop, Option.map_eq_some_iff] at h
    obtain ⟨_, -, h⟩ := h
    obtain ⟨-, rfl⟩ := Prod.mk.inj h
    exact .inr ⟨rfl, rfl⟩
  · rw [if_neg hstop] at h
    cases h

theorem Holds.tryReadNext (h : Holds bytes delivered handed ready ⟨r, none, unread⟩)
    {result : Except RecordReadError (Option Record)}
    (hcall : Checked.tryReadNext r = some (result, r')) : Sound bytes ⟨r', none, unread⟩ := by
  have hcall := h.tryReadNext_checked.symm.trans hcall
  cases ready with
  | nil =>
    rw [tryReadNext_nil h.inv] at hcall
    obtain ⟨-, rfl⟩ := Prod.mk.inj (Option.some.inj hcall)
    exact sound_idle h.inv
  | cons record rest =>
    obtain ⟨r₁, heq, -, hinv⟩ := tryReadNext_cons h.inv
    have hkept := tryReadNext_batch heq
    rw [heq] at hcall
    obtain ⟨-, rfl⟩ := Prod.mk.inj (Option.some.inj hcall)
    refine ⟨_, handed ++ [record], rest, hinv, fun hrest => ?_, fun _ h => nomatch h⟩
    obtain ⟨hbatch, hoffset⟩ := h.batch (by simp)
    have hne : r₁.batch ≠ [] := fun hn => hrest (hinv.batch_nil.mp hn)
    obtain ⟨hbatch', hoffset'⟩ := hkept.resolve_left hne
    have hmin := record.valid.min_le
    have hdrop := h.inv.batch_drop
    rw [minRecordLen_eq] at hmin
    rw [encodings_cons] at hdrop
    refine ⟨?_, ?_⟩
    · rw [hbatch', hbatch, List.append_assoc]
      rfl
    · rw [hoffset', hdrop, Read.length_append _ (by omega), record.valid.length_eq, hoffset,
        encodings_append, List.length_append, encodings_cons, encodings_nil, List.append_nil]

/-! ### Waits -/

/-- The loop of a wait ends with nothing or a batch at hand, or goes on to read into room
for more than there is. -/
theorem Inv.fill (h : Inv bytes delivered [] r unread) (hactive : r.state = .active) :
    ∃ progress r', Checked.fill r = some (progress, r') ∧
      ∀ reading, Leaves progress reading → Sound bytes ⟨r', reading, unread⟩ := by
  have hchecked := prepareBatch_checked h.header
  rcases h.prepareBatch hactive with ⟨ready, r', heq, hne, hinv, -, hbatch, hoffset⟩ |
    ⟨e, p', heq, -, hp'⟩ | ⟨heq, hlook, hp'⟩
  · refine ⟨.returned (.ok true), r', by rw [Checked.fill, hchecked, heq]; rfl, fun reading hl => ?_⟩
    cases hl
    refine ⟨delivered, [], ready, hinv, fun _ => ⟨hbatch, ?_⟩, fun _ h => nomatch h⟩
    rw [hoffset]
    rfl
  · refine ⟨.returned (.error e), _, by rw [Checked.fill, hchecked, heq]; rfl, fun reading hl => ?_⟩
    cases hl
    exact sound_idle ((h.setPending hp').setState .failed)
  · have hlt := length_lt_pendingOf hlook
    refine ⟨.reads _, _, by
      rw [Checked.fill, hchecked, heq]
      show (subtract _ _).bind _ = _
      rw [subtract, if_pos (Nat.le_of_lt hlt)]
      rfl, fun reading hl => ?_⟩
    cases hl with
    | @reads _ spare hreserved =>
      refine ⟨delivered, [], [], h.setPending hp', fun hne => absurd rfl hne, fun spare' hs => ?_⟩
      obtain rfl := Option.some.inj hs
      have hroom := Nat.le_add_of_sub_le hreserved
      rw [Nat.add_comm] at hroom
      exact ⟨rfl, hactive, hlt, hroom⟩

theorem Holds.waitToRead (h : Holds bytes delivered handed ready ⟨r, none, unread⟩) :
    ∃ progress r', Checked.waitToRead r = some (progress, r') ∧
      ∀ reading, Leaves progress reading → Sound bytes ⟨r', reading, unread⟩ := by
  have idle : ∀ result reading, Leaves (.returned result) reading →
      Sound bytes ⟨r, reading, unread⟩ := by
    intro result reading hl
    cases hl
    exact ⟨delivered, handed, ready, h⟩
  cases hstate : r.state with
  | finished => exact ⟨_, r, by rw [Checked.waitToRead, hstate], idle _⟩
  | failed => exact ⟨_, r, by rw [Checked.waitToRead, hstate], idle _⟩
  | active =>
    by_cases hbatch : r.batch = []
    · obtain rfl := h.inv.batch_nil.mp hbatch
      obtain ⟨progress, r', hfill, hsound⟩ := h.inv.fill hstate
      refine ⟨progress, r', ?_, hsound⟩
      rw [Checked.waitToRead, hstate]
      exact (if_neg (not_not.mpr hbatch)).trans hfill
    · refine ⟨.returned (.ok true), r, ?_, idle _⟩
      rw [Checked.waitToRead, hstate]
      exact if_pos hbatch

/-- A suspended wait goes on with the answer of its source. -/
theorem Holds.resume {spare : Nat}
    (h : Holds bytes delivered handed ready ⟨r, some spare, unread⟩) (n : Nat) :
    ∃ progress r', Checked.resume r (.ok (unread.take n)) = some (progress, r') ∧
      ∀ reading, Leaves progress reading → Sound bytes ⟨r', reading, unread.drop n⟩ := by
  obtain ⟨rfl, hactive, -, -⟩ := h.reading spare rfl
  have hinv := h.inv.receive n
  cases hreceived : unread.take n with
  | nil =>
    have hsame := h.inv
    rw [← List.take_append_drop n unread, hreceived, List.nil_append] at hsame
    have done : ∀ result state reading, Leaves (.returned result) reading →
        Sound bytes ⟨{ r with state := state }, reading, unread.drop n⟩ := by
      intro result state reading hl
      cases hl
      exact sound_idle (hsame.setState state)
    by_cases hbuffer : r.buffer = []
    · exact ⟨_, _, if_pos hbuffer, done _ _⟩
    · exact ⟨_, _, if_neg hbuffer, done _ _⟩
  | cons b received =>
    rw [hreceived] at hinv
    exact hinv.fill hactive

theorem Holds.resume_failed {spare : Nat}
    (h : Holds bytes delivered handed ready ⟨r, some spare, unread⟩) (error : ErrorKind) :
    ∃ progress r', Checked.resume r (.error error) = some (progress, r') ∧
      ∀ reading, Leaves progress reading → Sound bytes ⟨r', reading, unread⟩ := by
  obtain ⟨rfl, hactive, -, -⟩ := h.reading spare rfl
  have failed : ∀ result reading, Leaves (.returned result) reading →
      Sound bytes ⟨{ r with state := .failed }, reading, unread⟩ := by
    intro result reading hl
    cases hl
    exact sound_idle (h.inv.setState .failed)
  cases error with
  | interrupted => exact h.inv.fill hactive
  | _ => exact ⟨_, _, rfl, failed _⟩

/-- **Every step** keeps the meaning of the buffers. -/
theorem Sound.step (h : Sound bytes c) (hstep : Step c c') : Sound bytes c' := by
  obtain ⟨delivered, handed, ready, h⟩ := h
  cases hstep with
  | tryReadNext call => exact h.tryReadNext call
  | wait call leaves =>
    obtain ⟨_, _, heq, hsound⟩ := h.waitToRead
    rw [heq] at call
    obtain ⟨rfl, rfl⟩ := Prod.mk.inj (Option.some.inj call)
    exact hsound _ leaves
  | @received _ _ _ _ n _ _ _ call leaves =>
    obtain ⟨_, _, heq, hsound⟩ := h.resume n
    rw [heq] at call
    obtain ⟨rfl, rfl⟩ := Prod.mk.inj (Option.some.inj call)
    exact hsound _ leaves
  | failed call leaves =>
    obtain ⟨_, _, heq, hsound⟩ := h.resume_failed _
    rw [heq] at call
    obtain ⟨rfl, rfl⟩ := Prod.mk.inj (Option.some.inj call)
    exact hsound _ leaves
  | cancelled =>
    obtain ⟨rfl, -⟩ := h.reading _ rfl
    exact sound_idle h.inv

theorem Reachable.sound (h : Reachable bytes c) : Sound bytes c := by
  induction h with
  | new => exact sound_new bytes
  | step before step ih => exact ih.step step

/-- The cursor is at a record of the batch that is not yet handed out. -/
theorem Holds.cursor (h : Holds bytes delivered handed ready c) :
    c.reader.batch = [] ∨ ∃ handed ready : List Record,
      c.reader.batch = encodings (handed ++ ready) ∧
      c.reader.batchOffset = (encodings handed).length ∧
      c.reader.batchOffset < c.reader.batch.length := by
  by_cases hready : ready = []
  · exact .inl (h.inv.batch_nil.mpr hready)
  · obtain ⟨hbatch, hoffset⟩ := h.batch hready
    have hpos := List.length_pos_iff.mpr fun hn => hready (encodings_eq_nil.mp hn)
    refine .inr ⟨handed, ready, hbatch, hoffset, ?_⟩
    rw [hoffset, hbatch, encodings_append, List.length_append]
    exact Nat.lt_add_of_pos_right hpos

/-- A suspended wait reads into some room, so nothing arrives only at the end of input. -/
theorem Holds.room {spare : Nat} (h : Holds bytes delivered handed ready ⟨r, some spare, unread⟩) :
    r.buffer.length < r.pendingLength.getD headerLen ∧ 0 < spare ∧
      ∀ n, Delivers spare n unread → (n = 0 ↔ unread = []) := by
  obtain ⟨-, -, hlt, hroom⟩ := h.reading spare rfl
  have hroom : r.pendingLength.getD headerLen ≤ r.buffer.length + spare := hroom
  have hpos : 0 < spare := Nat.pos_of_lt_add_right (Nat.lt_of_lt_of_le hlt hroom)
  refine ⟨hlt, hpos, fun n hn => ⟨fun hzero => ?_, fun hend => ?_⟩⟩
  · exact (hn.zero hzero).resolve_left (Nat.ne_of_gt hpos)
  · have hle := hn.le_unread
    rw [hend] at hle
    exact Nat.le_zero.mp hle

theorem Holds.tryReadNext_defined (h : Holds bytes delivered handed ready c) :
    Checked.tryReadNext c.reader ≠ none := by
  rw [h.tryReadNext_checked]
  cases ready with
  | nil => simp [tryReadNext_nil h.inv]
  | cons record rest =>
    obtain ⟨_, heq, -⟩ := tryReadNext_cons h.inv
    simp [heq]

/-- Every turn of the validation loop is defined, and consumes a frame if it goes around. -/
theorem Turns.advance (h : Turns buffer (0, p) (v', p')) (hp : HeaderChecked buffer p) :
    Checked.validateTurn buffer v' p' ≠ none ∧
      ∀ v'' p'', Checked.validateTurn buffer v' p' = some (.inl (v'', p'')) →
        v' + minRecordLen ≤ v'' ∧ v'' ≤ buffer.length := by
  obtain ⟨hv, hheader⟩ := h.bounded hp
  obtain ⟨o, ho, -, hturn⟩ := validateTurn_defined hv hheader
  rw [ho]
  exact ⟨by simp, fun v'' p'' heq => (hturn v'' p'' (Option.some.inj heq)).2⟩

/-! ### Runs of the plain reader -/

omit [Crc32c] in
/-- What a read of the input comes to: some of it, nothing only at its end, or a fault.
The plan gets shorter unless all of the input has arrived. -/
theorem read_cases (needed : Nat) (hneeded : 0 < needed) (unread : List UInt8) (plan : Plan) :
    (∃ n plan', byteSource.read needed ⟨unread, plan⟩ =
        (.ok (unread.take n), ⟨unread.drop n, plan'⟩) ∧ n ≤ unread.length ∧
        (n = 0 ↔ unread = []) ∧ (plan'.length < plan.length ∨ plan' = plan ∧ n = unread.length)) ∨
    (∃ fault plan', byteSource.read needed ⟨unread, plan⟩ =
        (.error (.error (Fault.kind fault)), ⟨unread, plan'⟩) ∧ plan'.length < plan.length) ∨
    byteSource.read needed ⟨unread, plan⟩ = (.error .stopped, ⟨unread, plan⟩) := by
  have delivered : ∀ a : Answer, a.received needed unread.length ≤ unread.length ∧
      (a.received needed unread.length = 0 ↔ unread = []) := by
    intro a
    rw [Answer.received_eq_zero hneeded, List.length_eq_zero_iff]
    exact ⟨a.received_le _ _, Iff.rfl⟩
  match plan with
  | .stop => exact .inr (.inr rfl)
  | .calm =>
    obtain ⟨hle, hzero⟩ := delivered .all
    exact .inl ⟨_, .calm, rfl, hle, hzero, .inr ⟨rfl, rfl⟩⟩
  | .next (.fault fault) rest => exact .inr (.inl ⟨fault, rest, rfl, Nat.lt_succ_self _⟩)
  | .next .all rest =>
    obtain ⟨hle, hzero⟩ := delivered .all
    exact .inl ⟨_, rest, rfl, hle, hzero, .inl (Nat.lt_succ_self _)⟩
  | .next (.upTo n slack) rest =>
    obtain ⟨hle, hzero⟩ := delivered (.upTo n slack)
    exact .inl ⟨_, rest, rfl, hle, hzero, .inl (Nat.lt_succ_self _)⟩

/-- At the head of the loop of a wait: wherever the loop leads is reachable. -/
structure AtHead (bytes : List UInt8) (s : RecordReader × List UInt8) : Prop where
  inv : ∃ delivered, Inv bytes delivered [] s.1 s.2
  active : s.1.state = .active
  reaches : ∀ progress r reading, Checked.fill s.1 = some (progress, r) →
    Leaves progress reading → Reachable bytes ⟨r, reading, s.2⟩

/-- A wait that has suspended is back at the head of its loop once some input arrives. -/
theorem atHead_received {spare n : Nat} (h : Reachable bytes ⟨r, some spare, unread⟩)
    (hinv : Inv bytes delivered [] r unread) (hactive : r.state = .active)
    (hdelivers : Delivers spare n unread) (hne : unread.take n ≠ []) :
    AtHead bytes ({ r with buffer := r.buffer ++ unread.take n }, unread.drop n) := by
  refine ⟨⟨delivered, hinv.receive n⟩, hactive, fun progress r' reading hfill hleaves => ?_⟩
  refine .step h (.received hdelivers ?_ hleaves)
  obtain ⟨b, received, hreceived⟩ := List.exists_cons_of_ne_nil hne
  rw [hreceived] at hfill ⊢
  exact hfill

theorem atHead_interrupted {spare : Nat} (h : Reachable bytes ⟨r, some spare, unread⟩)
    (hinv : Inv bytes delivered [] r unread) (hactive : r.state = .active) :
    AtHead bytes (r, unread) := by
  refine ⟨⟨delivered, hinv⟩, hactive, fun progress r' reading hfill hleaves => ?_⟩
  have hcall : Checked.resume r (.error .interrupted) = some (progress, r') := hfill
  exact .step h (.failed hcall hleaves)

/-- What the loop of a wait makes smaller. -/
def toRead (w : World (RecordReader × List UInt8)) : Nat := w.plan.length + w.sys.2.length

def Idle (bytes : List UInt8) (w : World (RecordReader × List UInt8)) : Prop :=
  Reachable bytes ⟨w.sys.1, none, w.sys.2⟩

/-- A turn that reads: its wait has suspended, and goes on with the answer. -/
theorem turned_reads {r₁ : RecordReader} {plan : Plan} (heq : r.prepareBatch = (.ok false, r₁))
    (hinv : Inv bytes delivered [] r₁ unread) (hactive : r₁.state = .active)
    (hlt : r₁.buffer.length < r₁.pendingLength.getD headerLen)
    (suspended : ∀ spare, r₁.pendingLength.getD headerLen - r₁.buffer.length ≤ spare →
      Reachable bytes ⟨r₁, some spare, unread⟩) :
    Io.Turned (fun _ w => AtHead bytes w.sys) toRead (Idle bytes) ⟨(r, unread), plan⟩
      (waitTurn byteSource ⟨(r, unread), plan⟩) := by
  generalize hk : r₁.pendingLength.getD headerLen - r₁.buffer.length = k at suspended
  have hpos : 0 < k := hk ▸ Nat.sub_pos_of_lt hlt
  rcases read_cases k hpos unread plan with
    ⟨n, plan', hread, hle, hzero, hless⟩ | ⟨fault, plan', hread, hless⟩ | hread
  · simp only [waitTurn, Io.bind_apply, Io.get, heq, Io.modify, Io.attempt, Io.zoom, hk, hread]
    have hsuspended := suspended (max k n) (Nat.le_max_left _ _)
    have hdelivers : Delivers (max k n) n unread :=
      ⟨Nat.le_max_right _ _, hle, fun hn => .inr (hzero.mp hn)⟩
    cases hreceived : unread.take n with
    | nil =>
      have returned : ∀ result r', Checked.resume r₁ (.ok []) = some (.returned result, r') →
          Reachable bytes ⟨r', none, unread.drop n⟩ := by
        intro result r' hcall
        exact .step hsuspended (.received hdelivers (hreceived ▸ hcall) (.returned result))
      by_cases hbuffer : r₁.buffer = []
      · simp only [if_pos hbuffer]
        exact returned _ _ (if_pos hbuffer)
      · simp only [if_neg hbuffer]
        exact returned _ _ (if_neg hbuffer)
    | cons b received =>
      have hne : unread.take n ≠ [] := by
        rw [hreceived]
        exact List.cons_ne_nil _ _
      refine ⟨hreceived ▸ atHead_received hsuspended hinv hactive hdelivers hne, ?_⟩
      have hn : n ≠ 0 := fun hn => hne (by rw [hn, List.take_zero])
      show plan'.length + (unread.drop n).length < plan.length + unread.length
      rw [List.length_drop]
      rcases hless with hless | ⟨rfl, hn⟩
      · omega
      · omega
  · simp only [waitTurn, Io.bind_apply, Io.get, heq, Io.modify, Io.attempt, Io.zoom, hk, hread]
    have hsuspended := suspended k (Nat.le_refl _)
    cases fault with
    | interrupted =>
      exact ⟨atHead_interrupted hsuspended hinv hactive, Nat.add_lt_add_right hless _⟩
    | device code =>
      have hcall : Checked.resume r₁ (.error (.device code)) = some (.returned (.error (.io
        (.device code))), { r₁ with state := .failed }) := rfl
      exact .step hsuspended (.failed hcall (.returned _))
  · simp only [waitTurn, Io.bind_apply, Io.get, heq, Io.modify, Io.attempt, Io.zoom, hk, hread]
    exact .step (suspended k (Nat.le_refl _)) .cancelled

/-- **Each turn of the plain loop** is steps of the suspending one. -/
theorem AtHead.turn {w : World (RecordReader × List UInt8)} (h : AtHead bytes w.sys) :
    Io.Turned (fun _ w => AtHead bytes w.sys) toRead (Idle bytes) w (waitTurn byteSource w) := by
  obtain ⟨⟨r, unread⟩, plan⟩ := w
  obtain ⟨⟨delivered, hinv⟩, hactive, hreaches⟩ := h
  have hchecked := prepareBatch_checked hinv.header
  rcases hinv.prepareBatch hactive with ⟨ready, r', heq, -⟩ | ⟨e, p', heq, -⟩ | ⟨heq, hlook, hp'⟩
  · simp only [waitTurn, Io.bind_apply, Io.get, heq, Io.modify]
    exact hreaches (.returned (.ok true)) r' none (by rw [Checked.fill, hchecked, heq]; rfl)
      (.returned _)
  · simp only [waitTurn, Io.bind_apply, Io.get, heq, Io.modify]
    exact hreaches (.returned (.error e)) _ none (by rw [Checked.fill, hchecked, heq]; rfl)
      (.returned _)
  · have hlt := length_lt_pendingOf hlook
    refine turned_reads heq (hinv.setPending hp') hactive hlt fun spare hspare => ?_
    refine hreaches _ _ _ ?_ (.reads hspare)
    rw [Checked.fill, hchecked, heq]
    show (subtract _ _).bind _ = _
    rw [subtract, if_pos (Nat.le_of_lt hlt)]
    rfl

/-- **A wait of the plain reader** is steps of the suspending one. -/
theorem wait_reachable {s : RecordReader × List UInt8} (h : Reachable bytes ⟨s.1, none, s.2⟩)
    (plan : Plan) : Idle bytes ((waitToRead byteSource).run s plan).2 := by
  by_cases hready : s.1.state = .active → s.1.batch ≠ []
  · rw [waitToRead_apply s plan hready]
    exact h
  obtain ⟨hactive, hbatch⟩ := Classical.not_imp.mp hready
  obtain ⟨delivered, handed, ready, hholds⟩ := h.sound
  obtain rfl := hholds.inv.batch_nil.mp (not_not.mp hbatch)
  have hhead : AtHead bytes s := by
    refine ⟨⟨delivered, hholds.inv⟩, hactive, fun progress r reading hfill hleaves => ?_⟩
    refine .step h (.wait ?_ hleaves)
    rw [Checked.waitToRead, hactive]
    exact (if_neg hbatch).trans hfill
  have hloop : (waitToRead byteSource).run s plan =
      Io.iterate (fun _ => waitTurn byteSource) (plan.length + s.2.length + 1) () ⟨s, plan⟩ := by
    rw [Io.run, waitToRead, Io.bind_ok (show Io.get ⟨s, plan⟩ = (.ok s, ⟨s, plan⟩) from rfl)]
    simp only [hactive, if_neg hbatch]
    rfl
  rw [hloop]
  exact Io.iterate_turned (fun _ _ h => AtHead.turn h) _ () _ hhead (Nat.lt_succ_self _)

/-- **Every run of the plain reader** stays within the reachable states. -/
theorem run_reachable {actions : List Action} {events : List Event}
    {s s' : RecordReader × List UInt8} (h : Reachable bytes ⟨s.1, none, s.2⟩)
    (hrun : run actions s = some (events, s')) : Reachable bytes ⟨s'.1, none, s'.2⟩ := by
  induction actions generalizing events s with
  | nil =>
    obtain ⟨-, rfl⟩ := Prod.mk.inj (Option.some.inj hrun)
    exact h
  | cons action actions ih =>
    simp only [run, Option.bind_eq_bind, Option.bind_eq_some_iff] at hrun
    obtain ⟨⟨event, s₁⟩, hact, ⟨events, s₂⟩, hrest, heq⟩ := hrun
    obtain ⟨-, rfl⟩ := Prod.mk.inj (Option.some.inj heq)
    refine ih ?_ hrest
    cases action with
    | wait plan =>
      obtain ⟨-, rfl⟩ := Prod.mk.inj (Option.some.inj hact)
      exact wait_reachable h plan
    | tryNext =>
      obtain ⟨⟨result, r⟩, hcall, heq⟩ := Option.map_eq_some_iff.mp hact
      obtain ⟨-, rfl⟩ := Prod.mk.inj heq
      obtain ⟨_, _, _, hholds⟩ := h.sound
      exact .step h (.tryReadNext (hholds.tryReadNext_checked.trans hcall))

/-! ### Every reachable state -/

/-- **The buffers in every reachable state.**  A pending length stands for a checked
header, the batch is whole frames with the cursor at one not yet read, a suspended read
has room, and no operation leaves its buffers; each turn of the validation loop consumes
at least 16 bytes.  The runs of the plain reader pass through no other states. -/
theorem buffers_sound (h : Reachable bytes c) :
    (∀ n, c.reader.pendingLength = some n → headerLen ≤ c.reader.buffer.length ∧
      Read.length c.reader.buffer = n ∧ minRecordLen ≤ n ∧
      Read.streamId c.reader.buffer < StreamId.count) ∧
    (c.reader.batch = [] ∨ ∃ handed ready : List Record,
      c.reader.batch = encodings (handed ++ ready) ∧
      c.reader.batchOffset = (encodings handed).length ∧
      c.reader.batchOffset < c.reader.batch.length) ∧
    (∀ spare, c.reading = some spare →
      c.reader.buffer.length < c.reader.pendingLength.getD headerLen ∧ 0 < spare ∧
      (∀ n, Delivers spare n c.unread → (n = 0 ↔ c.unread = [])) ∧
      ∀ n error, Checked.resume c.reader (.ok (c.unread.take n)) ≠ none ∧
        Checked.resume c.reader (.error error) ≠ none) ∧
    (c.reading = none → Checked.tryReadNext c.reader ≠ none ∧
      Checked.waitToRead c.reader ≠ none ∧
      ∀ actions events s, run actions (c.reader, c.unread) = some (events, s) →
        Reachable bytes ⟨s.1, none, s.2⟩) ∧
    Checked.tryReadNext c.reader = c.reader.tryReadNext ∧
    Checked.prepareBatch c.reader = some c.reader.prepareBatch ∧
    ∀ v p, Turns c.reader.buffer (0, c.reader.pendingLength) (v, p) →
      Checked.validateTurn c.reader.buffer v p ≠ none ∧
      ∀ v' p', Checked.validateTurn c.reader.buffer v p = some (.inl (v', p')) →
        v + minRecordLen ≤ v' ∧ v' ≤ c.reader.buffer.length := by
  obtain ⟨delivered, handed, ready, hholds⟩ := h.sound
  have hheader := hholds.inv.header
  refine ⟨hheader, hholds.cursor, fun spare hspare => ?_, fun hidle => ?_,
    hholds.tryReadNext_checked, prepareBatch_checked hheader,
    fun v p hturns => hturns.advance hheader⟩
  · obtain ⟨reader, reading, unread⟩ := c
    obtain rfl : reading = some spare := hspare
    obtain ⟨hlt, hpos, hzero⟩ := hholds.room
    refine ⟨hlt, hpos, hzero, fun n error => ?_⟩
    obtain ⟨_, _, hreceived, -⟩ := hholds.resume n
    obtain ⟨_, _, hfailed, -⟩ := hholds.resume_failed error
    rw [hreceived, hfailed]
    simp
  · obtain ⟨reader, reading, unread⟩ := c
    obtain rfl : reading = none := hidle
    obtain ⟨_, _, hwait, -⟩ := hholds.waitToRead
    rw [hwait]
    exact ⟨hholds.tryReadNext_defined, by simp, fun _ _ _ hrun => run_reachable h hrun⟩

omit [Crc32c] in
theorem buffers_sound_hello : letI := Crc32c.reference
    ∃ c, Reachable helloFrame c ∧ c.reading = some 7 ∧ c.reader.pendingLength = some 21 ∧
      Read.length c.reader.buffer = 21 ∧ c.reader.buffer.length < 21 := by
  let _ := Crc32c.reference
  have hwait : Checked.waitToRead new = some (.reads 12, new) := rfl
  have hreceived : Checked.resume new (.ok (helloFrame.take 14)) =
      some (.reads 7, ⟨helloFrame.take 14, some 21, [], 0, .active⟩) := rfl
  have h : Reachable helloFrame
      ⟨⟨helloFrame.take 14, some 21, [], 0, .active⟩, some 7, helloFrame.drop 14⟩ :=
    .step (.step .new (.wait hwait (.reads (show 12 ≤ 16 by decide))))
      (.received ⟨by decide, by decide, by decide⟩ hreceived (.reads (Nat.le_refl 7)))
  obtain ⟨hheader, -, hreading, -⟩ := buffers_sound h
  exact ⟨_, h, rfl, rfl, (hheader 21 rfl).2.1, (hreading 7 rfl).1⟩

end RecordReader

end TransactionLog
