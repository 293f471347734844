import TransactionLog.Lib.Bytes
import TransactionLog.Lib.Framing
import TransactionLog.Lib.Program
import TransactionLog.Record.Id

/-!
# The encoded record

A record is laid out as

    length (2)  stream ID (2)  sequence number (8)  payload  checksum (4)

with little-endian integers.  The length counts the whole record, and the
checksum is the CRC-32C of everything before it.

`Record` holds the bytes of one record together with the fact that they are one
(`ValidFrame`).  `encodeFrame` lays a record out from its ID and payload, and
`Record.encodeFrame_id_body` says that this is the only way to lay it out.
`recordFraming` is the record layout as a `Lib.Framing`: it fixes what counts as
a record at the front of a byte sequence, and so the pure parser `records`,
`parseEnd` that stops at the first violation.
-/

namespace TransactionLog

open Lib

/-- The checksum function, which the source takes from the `crc32c` crate. -/
class Crc32c where
  crc32c : List UInt8 → UInt32

export Crc32c (crc32c)

/-- The bitwise CRC-32C. -/
def referenceCrc (bytes : List UInt8) : UInt32 :=
  let shift (crc : UInt32) : UInt32 :=
    if crc &&& 1 = 0 then crc >>> 1 else crc >>> 1 ^^^ 0x82f63b78
  let byte (crc : UInt32) (b : UInt8) : UInt32 := (List.range 8).foldl (fun crc _ => shift crc)
    (crc ^^^ b.toUInt32)
  ~~~ bytes.foldl byte 0xffffffff

@[reducible] def Crc32c.reference : Crc32c := ⟨referenceCrc⟩

/-- The documented frame with payload "hello". -/
def helloFrame : List UInt8 :=
  [0x15, 0, 0x08, 0x07, 0x18, 0x17, 0x16, 0x15, 0x14, 0x13, 0x12, 0x11, 0x68, 0x65, 0x6c, 0x6c,
    0x6f, 0x44, 0xc7, 0x51, 0x8a]

example : referenceCrc [0x31, 0x32, 0x33, 0x34, 0x35, 0x36, 0x37, 0x38, 0x39] = 0xe3069283 := by
  decide +kernel

namespace Protocol

def lengthLen : Nat := 2
def streamIdLen : Nat := 2
def sequenceNumberLen : Nat := 8

def lengthOffset : Nat := 0
def streamIdOffset : Nat := lengthOffset + lengthLen
def sequenceNumberOffset : Nat := streamIdOffset + streamIdLen

def headerLen : Nat := sequenceNumberOffset + sequenceNumberLen
def crcLen : Nat := 4
def minRecordLen : Nat := headerLen + crcLen
def maxRecordLen : Nat := 65535
def maxPayloadLen : Nat := maxRecordLen - minRecordLen

@[simp] theorem headerLen_eq : headerLen = 12 := rfl
@[simp] theorem crcLen_eq : crcLen = 4 := rfl
@[simp] theorem minRecordLen_eq : minRecordLen = 16 := rfl
@[simp] theorem maxRecordLen_eq : maxRecordLen = 65535 := rfl
@[simp] theorem maxPayloadLen_eq : maxPayloadLen = 65519 := rfl

namespace Read

def readField (header : List UInt8) (offset len : Nat) : List UInt8 := (header.drop offset).take len

def length (header : List UInt8) : Nat := ofLe (readField header lengthOffset lengthLen)

def streamId (header : List UInt8) : Nat := ofLe (readField header streamIdOffset streamIdLen)

def sequenceNumber (header : List UInt8) : Nat :=
  ofLe (readField header sequenceNumberOffset sequenceNumberLen)

/-- The checksum stored in the last four bytes of a frame. -/
def crc (frame : List UInt8) : UInt32 := UInt32.ofNat (ofLe (frame.drop (frame.length - crcLen)))

def computeCrc [Crc32c] (frame : List UInt8) : UInt32 :=
  crc32c (frame.take (frame.length - crcLen))

end Read

namespace Write

def header (length : Nat) (id : RecordId) : List UInt8 :=
  toLe lengthLen length ++ (toLe streamIdLen id.streamId.get ++
    toLe sequenceNumberLen id.sequenceNumber.get)

/-- The trailer for the given header and payload. -/
def crc [Crc32c] (content : List UInt8) : List UInt8 := toLe crcLen (crc32c content).toNat

@[simp] theorem length_header (n : Nat) (id : RecordId) : (header n id).length = 12 := by
  simp [header, lengthLen, streamIdLen, sequenceNumberLen]

@[simp] theorem length_crc [Crc32c] (content : List UInt8) : (crc content).length = 4 := by
  simp [crc]

end Write

/-! ### Fields read from a header -/

namespace Read

theorem readField_append {xs : List UInt8} (ys : List UInt8) {offset len : Nat}
    (h : offset + len ≤ xs.length) : readField (xs ++ ys) offset len = readField xs offset len := by
  rw [readField, readField, List.drop_append_of_le_length (by omega),
    List.take_append_of_le_length (by rw [List.length_drop]; omega)]

theorem readField_take {xs : List UInt8} {offset len n : Nat} (h : offset + len ≤ n) :
    readField (xs.take n) offset len = readField xs offset len := by
  rw [readField, readField, List.drop_take, List.take_take, Nat.min_eq_left (by omega)]

theorem length_append {xs : List UInt8} (ys : List UInt8) (h : 12 ≤ xs.length) :
    length (xs ++ ys) = length xs := by
  have hlen : lengthOffset + lengthLen ≤ xs.length := Nat.le_trans (by decide) h
  exact congrArg ofLe (readField_append ys hlen)

theorem streamId_append {xs : List UInt8} (ys : List UInt8) (h : 12 ≤ xs.length) :
    streamId (xs ++ ys) = streamId xs := by
  have hlen : streamIdOffset + streamIdLen ≤ xs.length := Nat.le_trans (by decide) h
  exact congrArg ofLe (readField_append ys hlen)

theorem length_take {xs : List UInt8} {n : Nat} (h : 12 ≤ n) :
    length (xs.take n) = length xs := by
  have hlen : lengthOffset + lengthLen ≤ n := Nat.le_trans (by decide) h
  exact congrArg ofLe (readField_take hlen)

theorem streamId_take {xs : List UInt8} {n : Nat} (h : 12 ≤ n) :
    streamId (xs.take n) = streamId xs := by
  have hlen : streamIdOffset + streamIdLen ≤ n := Nat.le_trans (by decide) h
  exact congrArg ofLe (readField_take hlen)

/-- A field of `len` bytes holds a number below `256 ^ len`. -/
theorem ofLe_readField_lt (xs : List UInt8) (offset len : Nat) :
    ofLe (readField xs offset len) < 256 ^ len := by
  have h := ofLe_lt (readField xs offset len)
  have hlen : (readField xs offset len).length ≤ len := by
    rw [readField, List.length_take]
    omega
  exact Nat.lt_of_lt_of_le h (Nat.pow_le_pow_right (by omega) hlen)

theorem length_le (xs : List UInt8) : length xs ≤ 65535 :=
  Nat.le_of_lt_succ (ofLe_readField_lt xs lengthOffset lengthLen)

theorem sequenceNumber_lt (xs : List UInt8) : sequenceNumber xs < 2 ^ 64 :=
  ofLe_readField_lt xs sequenceNumberOffset sequenceNumberLen

/-- A field written back in front of what follows it. -/
theorem toLe_readField (bytes : List UInt8) (offset len : Nat) (h : offset + len ≤ bytes.length) :
    toLe len (ofLe (readField bytes offset len)) ++ bytes.drop (offset + len) =
      bytes.drop offset := by
  have hlen : (readField bytes offset len).length = len := by
    rw [readField, List.length_take, List.length_drop]
    omega
  have hfield := toLe_ofLe (readField bytes offset len)
  rw [hlen] at hfield
  rw [hfield, readField, ← List.drop_drop, List.take_append_drop]

/-! ### Fields read from a header just written -/

theorem length_header {n : Nat} {id : RecordId} (h : n ≤ 65535) (ys : List UInt8) :
    length (Write.header n id ++ ys) = n := by
  rw [length_append ys (by simp), length, readField, Write.header]
  simp only [lengthOffset, List.drop_zero]
  rw [List.take_left' (by simp)]
  exact ofLe_toLe_of_lt (by simp only [lengthLen]; omega)

theorem streamId_header {n : Nat} {id : RecordId} (ys : List UInt8) :
    streamId (Write.header n id ++ ys) = id.streamId.get := by
  have hlt := id.streamId.lt
  rw [streamId_append ys (by simp), streamId, readField, Write.header]
  rw [List.drop_left' (by simp [streamIdOffset, lengthOffset]), List.take_left' (by simp)]
  exact ofLe_toLe_of_lt (by simp only [streamIdLen]; omega)

theorem sequenceNumber_header {n : Nat} {id : RecordId} (ys : List UInt8) :
    sequenceNumber (Write.header n id ++ ys) = id.sequenceNumber.get := by
  have hlt := id.sequenceNumber.lt
  rw [sequenceNumber, readField_append ys (by
    simp [sequenceNumberOffset, streamIdOffset, lengthOffset, lengthLen, streamIdLen,
      sequenceNumberLen])]
  rw [readField, Write.header, ← List.append_assoc, List.drop_left' (by
    simp [sequenceNumberOffset, streamIdOffset, lengthOffset]), List.take_of_length_le (by simp)]
  exact ofLe_toLe_of_lt (by simp only [sequenceNumberLen]; omega)

theorem crc_append (content : List UInt8) (n : UInt32) :
    crc (content ++ toLe crcLen n.toNat) = n := by
  have hlt := n.toNat_lt
  rw [crc, List.length_append, length_toLe, Nat.add_sub_cancel, List.drop_left,
    ofLe_toLe_of_lt (by simp only [crcLen]; omega), UInt32.ofNat_toNat]

end Read

end Protocol

/-! ## Records -/

open Protocol

/-- `bytes` are exactly one encoded record. -/
structure ValidFrame [Crc32c] (bytes : List UInt8) : Prop where
  min_le : minRecordLen ≤ bytes.length
  le_max : bytes.length ≤ maxRecordLen
  length_eq : Read.length bytes = bytes.length
  streamId_lt : Read.streamId bytes < StreamId.count
  crc_eq : Read.crc bytes = Read.computeCrc bytes

instance [Crc32c] (bytes : List UInt8) : Decidable (ValidFrame bytes) :=
  decidable_of_iff (minRecordLen ≤ bytes.length ∧ bytes.length ≤ maxRecordLen ∧
      Read.length bytes = bytes.length ∧ Read.streamId bytes < StreamId.count ∧
      Read.crc bytes = Read.computeCrc bytes)
    ⟨fun ⟨h1, h2, h3, h4, h5⟩ => ⟨h1, h2, h3, h4, h5⟩,
      fun ⟨h1, h2, h3, h4, h5⟩ => ⟨h1, h2, h3, h4, h5⟩⟩

/-- A completed record: the bytes of one frame. -/
structure Record [Crc32c] where
  bytes : List UInt8
  valid : ValidFrame bytes
  deriving DecidableEq

namespace Record

variable [Crc32c]

/-- Wraps the bytes of a frame.  The source does not check them here: where they
are not one frame its behaviour is undefined, and the result is `none`. -/
def fromValidatedBytes (bytes : List UInt8) : Option Record :=
  if h : ValidFrame bytes then some ⟨bytes, h⟩ else none

theorem fromValidatedBytes_bytes (r : Record) : fromValidatedBytes r.bytes = some r :=
  dif_pos r.valid

@[ext] theorem ext' {r r' : Record} (h : r.bytes = r'.bytes) : r = r' := by
  obtain ⟨_, _⟩ := r
  obtain ⟨_, _⟩ := r'
  subst h
  rfl

def length (r : Record) : RecordLength := ⟨r.bytes.length, r.valid.min_le, r.valid.le_max⟩

def streamId (r : Record) : StreamId := ⟨Read.streamId r.bytes, r.valid.streamId_lt⟩

def sequenceNumber (r : Record) : SequenceNumber :=
  ⟨Read.sequenceNumber r.bytes, Read.sequenceNumber_lt r.bytes⟩

def id (r : Record) : RecordId := ⟨r.streamId, r.sequenceNumber⟩

def crc (r : Record) : UInt32 := Read.crc r.bytes

/-- The payload. -/
def body (r : Record) : List UInt8 := (r.bytes.take (r.bytes.length - crcLen)).drop headerLen

end Record

/-! ## Laying a record out -/

section Encode

variable [Crc32c]

/-- The frame of the record `id` with payload `body`. -/
def encodeFrame (id : RecordId) (body : List UInt8) : List UInt8 :=
  Write.header (body.length + minRecordLen) id ++ body ++
    Write.crc (Write.header (body.length + minRecordLen) id ++ body)

variable {id : RecordId} {body : List UInt8}

@[simp] theorem length_encodeFrame : (encodeFrame id body).length = body.length + 16 := by
  simp only [encodeFrame, List.length_append, Write.length_header, Write.length_crc]
  omega

theorem Protocol.Read.computeCrc_append (content trailer : List UInt8) (h : trailer.length = 4) :
    Read.computeCrc (content ++ trailer) = crc32c content := by
  rw [Read.computeCrc, List.length_append, h, crcLen_eq, Nat.add_sub_cancel, List.take_left]

/-- A laid out record is one frame. -/
theorem validFrame_encodeFrame (h : body.length ≤ maxPayloadLen) :
    ValidFrame (encodeFrame id body) where
  min_le := by simp
  le_max := by simp at h ⊢; omega
  length_eq := by
    simp only [maxPayloadLen_eq] at h
    rw [length_encodeFrame, encodeFrame, List.append_assoc, Read.length_header (by simp; omega)]
    simp
  streamId_lt := by
    rw [encodeFrame, List.append_assoc, Read.streamId_header]
    exact id.streamId.lt
  crc_eq := by
    rw [encodeFrame, Read.computeCrc_append _ _ (by simp), Write.crc, Read.crc_append]

def Record.encode (id : RecordId) (body : List UInt8) (h : body.length ≤ maxPayloadLen) : Record :=
  ⟨encodeFrame id body, validFrame_encodeFrame h⟩

@[simp] theorem Record.id_encode (h : body.length ≤ maxPayloadLen) :
    (Record.encode id body h).id = id := by
  apply RecordId.ext'
  · show (⟨Read.streamId (encodeFrame id body), _⟩ : StreamId) = _
    have : Read.streamId (encodeFrame id body) = id.streamId.get := by
      rw [encodeFrame, List.append_assoc, Read.streamId_header]
    simp only [this]
  · show Read.sequenceNumber (encodeFrame id body) = _
    rw [encodeFrame, List.append_assoc, Read.sequenceNumber_header]

@[simp] theorem Record.body_encode (h : body.length ≤ maxPayloadLen) :
    (Record.encode id body h).body = body := by
  show ((encodeFrame id body).take ((encodeFrame id body).length - crcLen)).drop headerLen = body
  have hlen : (encodeFrame id body).length - crcLen =
      (Write.header (body.length + minRecordLen) id ++ body).length := by
    simp only [length_encodeFrame, List.length_append, Write.length_header, crcLen_eq]
    omega
  rw [hlen, encodeFrame, List.take_left, List.drop_left' (by simp)]

theorem Record.length_body (r : Record) : r.body.length + 16 = r.bytes.length := by
  have := r.valid.min_le
  simp only [minRecordLen_eq] at this
  simp only [Record.body, List.length_drop, List.length_take, headerLen_eq, crcLen_eq]
  omega

theorem Record.length_body_le (r : Record) : r.body.length ≤ maxPayloadLen := by
  have := r.length_body
  have := r.valid.le_max
  simp only [maxRecordLen_eq, maxPayloadLen_eq] at *
  omega

/-- **A record is laid out in one way only**: from its ID and payload its bytes
come back. -/
theorem Record.encodeFrame_id_body (r : Record) : encodeFrame r.id r.body = r.bytes := by
  have hmin := r.valid.min_le
  have hbody := r.length_body
  simp only [minRecordLen_eq] at hmin
  have hheader : Write.header (r.body.length + minRecordLen) r.id ++ r.bytes.drop 12 = r.bytes := by
    have h1 := Read.toLe_readField r.bytes 0 2 (by omega)
    have h2 := Read.toLe_readField r.bytes 2 2 (by omega)
    have h3 := Read.toLe_readField r.bytes 4 8 (by omega)
    have hl : r.body.length + minRecordLen = Read.length r.bytes := by
      rw [r.valid.length_eq, minRecordLen_eq, hbody]
    rw [hl, Write.header, List.append_assoc, List.append_assoc]
    exact (congrArg₂ _ rfl ((congrArg₂ _ rfl h3).trans h2)).trans h1
  have hcontent : Write.header (r.body.length + minRecordLen) r.id ++ r.body =
      r.bytes.take (r.bytes.length - 4) := by
    have hb : r.body = (r.bytes.drop 12).take (r.bytes.length - 4 - 12) := by
      rw [Record.body, List.drop_take, headerLen_eq, crcLen_eq]
    conv_rhs => rw [← hheader]
    rw [List.length_append, Write.length_header, List.take_append,
      List.take_of_length_le (by simp; omega), hb, Write.length_header]
    congr 2
    simp only [List.length_drop]
    omega
  have htrailer : Write.crc (r.bytes.take (r.bytes.length - 4)) =
      r.bytes.drop (r.bytes.length - 4) := by
    have hc := r.valid.crc_eq
    rw [Read.crc, Read.computeCrc, crcLen_eq] at hc
    have hlen : (r.bytes.drop (r.bytes.length - 4)).length = 4 := by
      rw [List.length_drop]; omega
    have hlt := ofLe_lt (r.bytes.drop (r.bytes.length - 4))
    rw [hlen] at hlt
    rw [Write.crc, ← hc, UInt32.toNat_ofNat', Nat.mod_eq_of_lt (by omega), crcLen_eq]
    have hfield := toLe_ofLe (r.bytes.drop (r.bytes.length - 4))
    rwa [hlen] at hfield
  rw [encodeFrame, hcontent, htrailer, List.take_append_drop]

end Encode

/-! ## The layout as a framing -/

/-- What stops the reading of records. -/
inductive RecordReadError where
  | truncatedHeader (actual : Nat)
  | invalidLength (declared : Nat)
  | invalidStreamId (error : StreamIdError)
  | truncatedRecord (expected actual : Nat)
  | crcMismatch (stored computed : UInt32)
  | io (e : ErrorKind)
  | readerFailed
  deriving DecidableEq, Repr

section Framing

variable [Crc32c]

/-- What the bytes at hand say about the record they start with. -/
def lookRecord (bytes : List UInt8) : Verdict RecordReadError :=
  if bytes.length < headerLen then .more
  else if Read.length bytes < minRecordLen then .bad (.invalidLength (Read.length bytes))
  else if StreamId.count ≤ Read.streamId bytes then .bad (.invalidStreamId ⟨Read.streamId bytes⟩)
  else if bytes.length < Read.length bytes then .more
  else if Read.crc (bytes.take (Read.length bytes)) ≠
      Read.computeCrc (bytes.take (Read.length bytes)) then
    .bad (.crcMismatch (Read.crc (bytes.take (Read.length bytes)))
      (Read.computeCrc (bytes.take (Read.length bytes))))
  else .frame (Read.length bytes)

/-- The conditions under which a record stands at the front. -/
theorem lookRecord_eq_frame {bytes : List UInt8} {n : Nat} :
    lookRecord bytes = .frame n ↔ n = Read.length bytes ∧ 16 ≤ n ∧ n ≤ bytes.length ∧
      Read.streamId bytes < 4096 ∧ Read.crc (bytes.take n) = Read.computeCrc (bytes.take n) := by
  unfold lookRecord
  simp only [headerLen_eq, minRecordLen_eq, StreamId.count]
  have hmax := Read.length_le bytes
  constructor
  · intro h
    by_cases h1 : bytes.length < 12
    · simp [h1] at h
    by_cases h2 : Read.length bytes < 16
    · simp [h1, h2] at h
    by_cases h3 : 4096 ≤ Read.streamId bytes
    · simp [h1, h2, h3] at h
    by_cases h4 : bytes.length < Read.length bytes
    · simp [h1, h2, h3, h4] at h
    by_cases h5 : Read.crc (bytes.take (Read.length bytes)) =
        Read.computeCrc (bytes.take (Read.length bytes))
    · simp only [h1, h2, h3, h4, h5, if_false, ne_eq, not_true_eq_false] at h
      obtain rfl := Verdict.frame.inj h
      exact ⟨rfl, by omega, by omega, by omega, h5⟩
    · simp [h1, h2, h3, h4, h5] at h
  · rintro ⟨rfl, h1, h2, h3, h4⟩
    have h5 : ¬ bytes.length < 12 := by omega
    have h6 : ¬ Read.length bytes < 16 := by omega
    have h7 : ¬ 4096 ≤ Read.streamId bytes := by omega
    have h8 : ¬ bytes.length < Read.length bytes := by omega
    simp only [h4, h5, h6, h7, h8, if_false, ne_eq, not_true_eq_false]

theorem lookRecord_append {bytes : List UInt8} (ys : List UInt8)
    (h : lookRecord bytes ≠ .more) : lookRecord (bytes ++ ys) = lookRecord bytes := by
  unfold lookRecord at h ⊢
  by_cases h1 : bytes.length < headerLen
  · exact absurd (if_pos h1) h
  have h12 : 12 ≤ bytes.length := Nat.le_of_not_lt h1
  have h1' : ¬ (bytes ++ ys).length < headerLen := by
    rw [List.length_append, headerLen_eq]
    omega
  rw [if_neg h1] at h
  rw [if_neg h1, if_neg h1', Read.length_append ys h12, Read.streamId_append ys h12]
  by_cases h2 : Read.length bytes < minRecordLen
  · rw [if_pos h2, if_pos h2]
  by_cases h3 : StreamId.count ≤ Read.streamId bytes
  · rw [if_neg h2, if_neg h2, if_pos h3, if_pos h3]
  rw [if_neg h2, if_neg h3] at h
  rw [if_neg h2, if_neg h2, if_neg h3, if_neg h3]
  by_cases h4 : bytes.length < Read.length bytes
  · exact absurd (if_pos h4) h
  have h4' : ¬ (bytes ++ ys).length < Read.length bytes := by
    rw [List.length_append]
    omega
  rw [if_neg h4, if_neg h4', List.take_append_of_le_length (by omega)]

theorem lookRecord_take {bytes : List UInt8} {n m : Nat} (h : lookRecord bytes = .frame n)
    (hm : m < n) : lookRecord (bytes.take m) = .more := by
  obtain ⟨hn, h16, hle, hs, -⟩ := lookRecord_eq_frame.mp h
  have hlen : (bytes.take m).length = m := by rw [List.length_take]; omega
  unfold lookRecord
  by_cases h12 : m < 12
  · rw [if_pos (by rw [hlen]; exact h12)]
  · rw [if_neg (by rw [hlen]; exact h12), Read.length_take (by omega),
      Read.streamId_take (by omega), if_neg (by simp; omega), if_neg (by simp [StreamId.count]; omega),
      if_pos (by omega)]

/-- The record layout. -/
def recordFraming : Framing UInt8 RecordReadError where
  look := lookRecord
  look_nil := rfl
  frame_bounds := fun h => by
    obtain ⟨-, h16, hle, -⟩ := lookRecord_eq_frame.mp h
    omega
  look_append := lookRecord_append
  look_frame := fun {xs n} h => by
    obtain ⟨hn, h16, hle, hs, hc⟩ := lookRecord_eq_frame.mp h
    refine lookRecord_eq_frame.mpr ⟨?_, h16, ?_, ?_, ?_⟩
    · rw [Read.length_take (by omega)]; exact hn
    · rw [List.length_take]; omega
    · rw [Read.streamId_take (by omega)]; exact hs
    · rw [List.take_take, Nat.min_self]; exact hc
  look_take := lookRecord_take

theorem whole_iff {f : List UInt8} : recordFraming.Whole f ↔ ValidFrame f := by
  show lookRecord f = .frame f.length ↔ _
  rw [lookRecord_eq_frame, List.take_length]
  constructor
  · rintro ⟨hl, h16, -, hs, hc⟩
    exact ⟨h16, hl ▸ Read.length_le f, hl.symm, hs, hc⟩
  · rintro ⟨h16, -, hl, hs, hc⟩
    exact ⟨hl.symm, h16, Nat.le_refl _, hs, hc⟩

theorem Record.whole (r : Record) : recordFraming.Whole r.bytes := whole_iff.mpr r.valid

/-! ### The pure parser -/

/-- The records at the front of `bytes`, up to the first violation. -/
def records (bytes : List UInt8) : List Record :=
  (recordFraming.frames bytes).filterMap Record.fromValidatedBytes

/-- What stops the parser in a sequence that ends with `rest`: nothing, when no
bytes remain. -/
def endOfInput (rest : List UInt8) : Except RecordReadError Unit :=
  match lookRecord rest with
  | .bad e => .error e
  | _ =>
    if rest = [] then .ok ()
    else if rest.length < headerLen then .error (.truncatedHeader rest.length)
    else .error (.truncatedRecord (Read.length rest) rest.length)

def parseEnd (bytes : List UInt8) : Except RecordReadError Unit :=
  endOfInput (recordFraming.rest bytes)

theorem map_bytes_filterMap {fs : List (List UInt8)} (h : ∀ f ∈ fs, ValidFrame f) :
    (fs.filterMap Record.fromValidatedBytes).map Record.bytes = fs := by
  induction fs with
  | nil => rfl
  | cons f fs ih =>
    rw [List.filterMap_cons_some (dif_pos (h f List.mem_cons_self)), List.map_cons,
      ih fun g hg => h g (List.mem_cons_of_mem f hg)]

theorem map_bytes_records (bytes : List UInt8) :
    (records bytes).map Record.bytes = recordFraming.frames bytes :=
  map_bytes_filterMap fun f hf => whole_iff.mp (Framing.whole_of_mem_frames bytes f hf)

/-- The concatenated encodings of some records. -/
def encodings (rs : List Record) : List UInt8 := (rs.map Record.bytes).flatten

@[simp] theorem encodings_nil : encodings [] = [] := rfl

@[simp] theorem encodings_cons (r : Record) (rs : List Record) :
    encodings (r :: rs) = r.bytes ++ encodings rs := rfl

@[simp] theorem encodings_append (rs rs' : List Record) :
    encodings (rs ++ rs') = encodings rs ++ encodings rs' := by
  simp [encodings]

theorem whole_map_bytes (rs : List Record) : ∀ f ∈ rs.map Record.bytes, recordFraming.Whole f := by
  intro f hf
  obtain ⟨r, -, rfl⟩ := List.mem_map.mp hf
  exact r.whole

theorem map_bytes_injective {rs rs' : List Record}
    (h : rs.map Record.bytes = rs'.map Record.bytes) : rs = rs' :=
  List.map_injective_iff.mpr (fun _ _ => Record.ext') h

/-- The bytes are the records in front followed by the rest. -/
theorem encodings_records_append_rest (bytes : List UInt8) :
    encodings (records bytes) ++ recordFraming.rest bytes = bytes := by
  rw [encodings, map_bytes_records, Framing.flatten_frames_append_rest]

theorem records_encodings_append (rs : List Record) (ys : List UInt8) :
    records (encodings rs ++ ys) = rs ++ records ys := by
  apply map_bytes_injective
  rw [List.map_append, map_bytes_records, map_bytes_records, encodings,
    Framing.frames_flatten_append (whole_map_bytes rs)]

theorem rest_encodings_append (rs : List Record) (ys : List UInt8) :
    recordFraming.rest (encodings rs ++ ys) = recordFraming.rest ys :=
  Framing.rest_flatten_append (whole_map_bytes rs) ys

@[simp] theorem records_nil : records [] = [] := rfl

@[simp] theorem rest_nil : recordFraming.rest [] = [] := rfl

@[simp] theorem records_encodings (rs : List Record) : records (encodings rs) = rs := by
  simpa using records_encodings_append rs []

@[simp] theorem rest_encodings (rs : List Record) : recordFraming.rest (encodings rs) = [] := by
  simpa using rest_encodings_append rs []

theorem encodings_injective {rs rs' : List Record} (h : encodings rs = encodings rs') : rs = rs' := by
  rw [← records_encodings rs, h, records_encodings]

theorem encodings_eq_nil {rs : List Record} : encodings rs = [] ↔ rs = [] :=
  ⟨fun h => encodings_injective h, fun h => h ▸ rfl⟩

/-- A record cut off the front is the first one. -/
theorem encodings_records_of_frame {bytes : List UInt8} {n : Nat} (h : lookRecord bytes = .frame n) :
    encodings (records bytes) = bytes.take n ++ encodings (records (bytes.drop n)) := by
  have hframes := Framing.frames_of_frame (show recordFraming.look bytes = .frame n from h)
  rw [encodings, encodings, map_bytes_records, map_bytes_records, hframes, List.flatten_cons]

theorem rest_of_frame {bytes : List UInt8} {n : Nat} (h : lookRecord bytes = .frame n) :
    recordFraming.rest bytes = recordFraming.rest (bytes.drop n) :=
  Framing.rest_of_frame h

theorem records_of_stuck {ys : List UInt8} (h : recordFraming.Stuck ys) : records ys = [] := by
  rw [records, Framing.frames_of_stuck h]
  rfl

/-- The parser ends cleanly exactly where nothing remains. -/
theorem parseEnd_eq_ok {bytes : List UInt8} :
    parseEnd bytes = .ok () ↔ recordFraming.rest bytes = [] := by
  rw [parseEnd]
  generalize recordFraming.rest bytes = rest
  constructor
  · intro h
    by_contra hne
    unfold endOfInput at h
    split at h
    · cases h
    · rw [if_neg hne] at h
      split at h <;> cases h
  · rintro rfl
    rfl

/-- The parser reports content only, never a failure of the source. -/
theorem parseEnd_content {bytes : List UInt8} {e : RecordReadError}
    (h : parseEnd bytes = .error e) : e ≠ .readerFailed ∧ ∀ k, e ≠ .io k := by
  unfold parseEnd endOfInput lookRecord at h
  split at h
  · rename_i hbad
    obtain rfl := Except.error.inj h
    split at hbad
    · cases hbad
    split at hbad
    · cases hbad
      simp
    split at hbad
    · cases hbad
      simp
    split at hbad
    · cases hbad
    split at hbad <;> cases hbad
    simp
  · split at h
    · cases h
    split at h <;> cases h <;> simp

theorem encodings_records_of_clean {bytes : List UInt8} (h : parseEnd bytes = .ok ()) :
    encodings (records bytes) = bytes := by
  have := encodings_records_append_rest bytes
  rwa [parseEnd_eq_ok.mp h, List.append_nil] at this

theorem parseEnd_encodings (rs : List Record) : parseEnd (encodings rs) = .ok () :=
  parseEnd_eq_ok.mpr (rest_encodings rs)

/-- A prefix of some encodings holds the records that are complete in it and then
part of the next one. -/
theorem records_torn {rs : List Record} {bytes : List UInt8} (h : bytes <+: encodings rs) :
    records bytes <+: rs ∧ lookRecord (recordFraming.rest bytes) = .more := by
  obtain ⟨⟨k, hk⟩, hmore⟩ := Framing.torn (whole_map_bytes rs) bytes h
  refine ⟨?_, hmore⟩
  have : records bytes = rs.take k := by
    apply map_bytes_injective
    rw [map_bytes_records, hk, List.map_take]
  rw [this]
  exact List.take_prefix k rs

end Framing

end TransactionLog
