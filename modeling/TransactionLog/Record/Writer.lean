import TransactionLog.Lib.Output
import TransactionLog.Record.ReaderRuns

/-!
# Writing records

A `RecordWriter` buffers complete records and sends them as a batch.  In one mode
it copies the bytes of existing records; in the other a callback supplies the
payload of a new record through a `RecordBuilder`, which lays out the header and
the checksum around it.

`encode_decode` and `decode_encode` are the two round trips through a writer and
a reader.
-/

namespace TransactionLog

open Lib Protocol

inductive RecordBuildError where
  | payloadTooLarge
  deriving DecidableEq, Repr

abbrev RecordOutputError := OutputError

inductive RecordWriteError (ε : Type) where
  | build (error : RecordBuildError)
  | serialize (error : ε)
  | output (error : RecordOutputError)

/-! ## The builder -/

/-- The write destination for one record's payload, behind the records already in
the buffer. -/
structure RecordBuilder where
  buffer : List UInt8
  start : Nat
  payload : List UInt8
  error : Option RecordBuildError
  finished : Bool

namespace RecordBuilder

def new (buffer : List UInt8) : RecordBuilder := ⟨buffer, buffer.length, [], none, false⟩

def checkError (b : RecordBuilder) : Except RecordBuildError Unit :=
  match b.error with
  | some error => .error error
  | none => .ok ()

/-- Appends to the payload, all of `bytes` or nothing. -/
def write (b : RecordBuilder) (bytes : List UInt8) : Except RecordBuildError Nat × RecordBuilder :=
  match b.checkError with
  | .error error => (.error error, b)
  | .ok () =>
    if bytes.length > maxPayloadLen - b.payload.length then
      (.error .payloadTooLarge, { b with error := some .payloadTooLarge })
    else (.ok bytes.length, { b with payload := b.payload ++ bytes })

def flush (b : RecordBuilder) : Except RecordBuildError Unit := b.checkError

/-- Completes the record behind the earlier ones. -/
def finish [Crc32c] (b : RecordBuilder) (id : RecordId) :
    Except RecordBuildError Unit × RecordBuilder :=
  match b.checkError with
  | .error error => (.error error, b)
  | .ok () =>
    let content := Write.header (b.payload.length + minRecordLen) id ++ b.payload
    (.ok (), { b with buffer := b.buffer ++ (content ++ Write.crc content), finished := true })

/-- The buffer after the builder is dropped. -/
def drop (b : RecordBuilder) : List UInt8 :=
  if b.finished then b.buffer else b.buffer.take b.start

end RecordBuilder

/-- A serialization callback: it writes chunks, may look at the result of each
write, and returns or unwinds. -/
inductive Callback (ε : Type) where
  | done (result : Except ε Unit)
  | unwind
  | write (chunk : List UInt8) (next : Except RecordBuildError Nat → Callback ε)
  | flush (next : Except RecordBuildError Unit → Callback ε)

namespace Callback

variable {ε : Type}

/-- Runs the callback on a builder; without a result it unwinds. -/
def run : Callback ε → RecordBuilder → Option (Except ε Unit) × RecordBuilder
  | .done result, b => (some result, b)
  | .unwind, b => (none, b)
  | .write chunk next, b => (next (b.write chunk).1).run (b.write chunk).2
  | .flush next, b => (next b.flush).run b

/-- As long as its writes succeed, the callback supplies `body` and returns. -/
inductive Supplies : Callback ε → List UInt8 → Prop
  | done : Supplies (.done (.ok ())) []
  | write {chunk body : List UInt8} {next : Except RecordBuildError Nat → Callback ε} :
      Supplies (next (.ok chunk.length)) body → Supplies (.write chunk next) (chunk ++ body)
  | flush {body : List UInt8} {next : Except RecordBuildError Unit → Callback ε} :
      Supplies (next (.ok ())) body → Supplies (.flush next) body

/-- The callback that writes the given chunks. -/
def chunks : List (List UInt8) → Callback ε
  | [] => .done (.ok ())
  | chunk :: rest => .write chunk fun
    | .ok _ => chunks rest
    | .error _ => .unwind

theorem supplies_chunks : ∀ cs : List (List UInt8),
    Supplies (chunks cs : Callback ε) cs.flatten
  | [] => .done
  | _ :: cs => .write (supplies_chunks cs)

/-- A body within the limit reaches the builder whole. -/
theorem run_of_supplies {cb : Callback ε} {body : List UInt8} (h : Supplies cb body) :
    ∀ {b : RecordBuilder}, b.error = none → b.payload.length + body.length ≤ maxPayloadLen →
      cb.run b = (some (.ok ()), { b with payload := b.payload ++ body }) := by
  induction h with
  | done =>
    intro b _ _
    rw [run, List.append_nil]
  | @write chunk body next _ ih =>
    intro b hb hlen
    rw [List.length_append] at hlen
    have hwrite : b.write chunk = (.ok chunk.length, { b with payload := b.payload ++ chunk }) := by
      have hfits : ¬ chunk.length > maxPayloadLen - b.payload.length := by omega
      rw [RecordBuilder.write, RecordBuilder.checkError, hb]
      simp only [hfits, if_false]
    have hlen' : (b.payload ++ chunk).length + body.length ≤ maxPayloadLen := by
      rw [List.length_append]
      omega
    rw [run, hwrite]
    simp only
    rw [ih (b := { b with payload := b.payload ++ chunk }) hb hlen', List.append_assoc]
  | flush _ ih =>
    intro b hb hlen
    have hflush : b.flush = .ok () := by rw [RecordBuilder.flush, RecordBuilder.checkError, hb]
    rw [run, hflush]
    exact ih hb hlen

/-- The callback touches only the payload and the error of the builder. -/
theorem run_frame : ∀ (cb : Callback ε) (b : RecordBuilder),
    (cb.run b).2.buffer = b.buffer ∧ (cb.run b).2.start = b.start ∧
      (cb.run b).2.finished = b.finished := by
  intro cb
  induction cb with
  | done result => exact fun b => ⟨rfl, rfl, rfl⟩
  | unwind => exact fun b => ⟨rfl, rfl, rfl⟩
  | write chunk next ih =>
    intro b
    have hwrite : (b.write chunk).2.buffer = b.buffer ∧ (b.write chunk).2.start = b.start ∧
        (b.write chunk).2.finished = b.finished := by
      rw [RecordBuilder.write]
      split
      · exact ⟨rfl, rfl, rfl⟩
      · split <;> exact ⟨rfl, rfl, rfl⟩
    rw [run, ← hwrite.1, ← hwrite.2.1, ← hwrite.2.2]
    exact ih _ _
  | flush next ih => exact fun b => ih _ b

/-- Dropping an unfinished builder restores the buffer. -/
theorem drop_run (cb : Callback ε) (buffer : List UInt8) :
    (cb.run (.new buffer)).2.drop = buffer := by
  obtain ⟨hbuffer, hstart, hfinished⟩ := cb.run_frame (.new buffer)
  rw [RecordBuilder.drop, hfinished, hbuffer, hstart]
  exact List.take_length

end Callback

/-! ## The writer -/

/-- The batch of complete records and the permission to go on. -/
abbrev RecordWriter := Output

namespace RecordWriter

variable [Crc32c] {ε σ : Type}

def forSerialization : RecordWriter := Output.new

def forRecords : RecordWriter := Output.new

/-- Appends a new record whose payload the callback supplies.  The result is
`none` where the callback unwinds. -/
def write (w : RecordWriter) (id : RecordId) (writeBody : Callback ε) :
    Option (Except (RecordWriteError ε) Unit) × RecordWriter :=
  match w.checkUsable with
  | .error error => (some (.error (.output error)), w)
  | .ok () =>
    match writeBody.run (RecordBuilder.new w.buffer) with
    | (none, builder) => (none, { w with buffer := builder.drop })
    | (some (.error error), builder) =>
      match builder.checkError with
      | .error error => (some (.error (.build error)), { w with buffer := builder.drop })
      | .ok () => (some (.error (.serialize error)), { w with buffer := builder.drop })
    | (some (.ok ()), builder) =>
      match builder.finish id with
      | (.error error, builder) =>
        (some (.error (.build error)), { w with buffer := builder.drop })
      | (.ok (), builder) => (some (.ok ()), { w with buffer := builder.drop })

/-- Appends the bytes of an existing record. -/
def writeRecord (w : RecordWriter) (record : Record) : Except RecordOutputError RecordWriter :=
  w.append record.bytes

def flushBuffer (d : Dest σ) : Io (RecordWriter × σ) RecordOutputError Unit := Output.flushBuffer d

def flush (d : Dest σ) : Io (RecordWriter × σ) RecordOutputError Unit := Output.flush d

def syncData (d : Dest σ) : Io (RecordWriter × σ) RecordOutputError Unit := Output.syncData d

/-- A record that is supplied whole is appended whole. -/
theorem write_of_supplies {w : RecordWriter} (hw : w.usable = true) {id : RecordId}
    {body : List UInt8} (hlen : body.length ≤ maxPayloadLen) {cb : Callback ε}
    (hcb : cb.Supplies body) :
    w.write id cb = (some (.ok ()), ⟨w.buffer ++ encodeFrame id body, true⟩) := by
  have hrun := Callback.run_of_supplies hcb (b := .new w.buffer) rfl
    (by simpa [RecordBuilder.new] using hlen)
  obtain ⟨buffer, usable⟩ := w
  simp only at hw hrun
  subst hw
  rw [write, Output.checkUsable]
  simp only [if_true, hrun]
  rfl

/-- A write that does not succeed leaves the writer as it was. -/
theorem write_error {w w' : RecordWriter} {id : RecordId} {cb : Callback ε}
    {result : Option (Except (RecordWriteError ε) Unit)} (h : w.write id cb = (result, w'))
    (hresult : result ≠ some (.ok ())) : w' = w := by
  have hdrop := cb.drop_run w.buffer
  rw [write] at h
  split at h
  · exact (Prod.mk.inj h).2.symm
  rcases hrun : cb.run (.new w.buffer) with ⟨_ | _ | _, builder⟩ <;> rw [hrun] at h hdrop <;>
    simp only at h hdrop
  · rw [hdrop] at h
    exact (Prod.mk.inj h).2.symm
  · split at h <;> rw [hdrop] at h <;> exact (Prod.mk.inj h).2.symm
  · cases hfinish : builder.checkError with
    | error error =>
      rw [RecordBuilder.finish, hfinish] at h
      simp only [hdrop] at h
      exact (Prod.mk.inj h).2.symm
    | ok u =>
      rw [RecordBuilder.finish, hfinish] at h
      exact absurd (Prod.mk.inj h).1.symm hresult

/-! ## The round trips -/

/-- Writes new records one after another; without a result if one is not accepted. -/
def writeAll (w : RecordWriter) : List (RecordId × Callback ε) → Option RecordWriter
  | [] => some w
  | (id, cb) :: items =>
    match w.write id cb with
    | (some (.ok ()), w') => writeAll w' items
    | _ => none

def writeRecords (w : RecordWriter) : List Record → Except RecordOutputError RecordWriter
  | [] => .ok w
  | record :: records =>
    match w.writeRecord record with
    | .ok w' => writeRecords w' records
    | .error e => .error e

/-- Sending the batch to a fresh destination sends `bytes`, if it succeeds, and
without faults it does. -/
def Sends (w : RecordWriter) (bytes : List UInt8) : Prop :=
  ((flushBuffer Channel.dest).run (w, Channel.new) .calm).1 = .ok () ∧
    ∀ plan w', (flushBuffer Channel.dest).run (w, Channel.new) plan = (.ok (), w') →
      w'.sys.2.accepted = bytes

omit [Crc32c] in
theorem sends_buffer {w : RecordWriter} (hw : w.usable = true) : w.Sends w.buffer := by
  have hsend : ∀ (c : Mode) (plan : Plan), plan.Within c →
      match (flushBuffer Channel.dest).run (w, Channel.new) plan with
      | (.ok (), w') => w'.sys.2.accepted = w.buffer
      | (.error _, _) => ¬ c.calm := by
    intro c plan hplan
    -- what has been accepted and what is left make up the batch
    have htriple := Output.flushBuffer_triple (c := c) (b := w.buffer) (d := Channel.dest)
      (fun bs ch => ch.accepted ++ bs = w.buffer) (by
        intro bs n ch hn h
        show (ch.accepted ++ bs.take n) ++ bs.drop n = w.buffer
        rw [List.append_assoc, List.take_append_drop, h])
    obtain ⟨-, hr⟩ := htriple ⟨(w, Channel.new), plan⟩ ⟨by rw [← hw], rfl⟩ hplan
    rw [flushBuffer, Io.run]
    rcases hm : Output.flushBuffer Channel.dest ⟨(w, Channel.new), plan⟩ with ⟨e | _, w'⟩ <;>
      rw [hm] at hr
    · exact hr.1
    · simpa using hr.2
  constructor
  · have h := hsend ⟨True, fun _ => True⟩ .calm trivial
    rcases hm : (flushBuffer Channel.dest).run (w, Channel.new) .calm with ⟨e | _, w'⟩
    · rw [hm] at h
      exact absurd trivial h
    · rfl
  · intro plan w' hm
    have h := hsend ⟨False, fun _ => True⟩ plan (plan.within_any)
    rwa [hm] at h

theorem writeRecords_eq : ∀ (rs : List Record) {w : RecordWriter}, w.usable = true →
    w.writeRecords rs = .ok ⟨w.buffer ++ encodings rs, true⟩ := by
  intro rs
  induction rs with
  | nil =>
    intro w hw
    rw [writeRecords, encodings_nil, List.append_nil, ← hw]
  | cons r rs ih =>
    intro w hw
    rw [writeRecords, writeRecord, Output.append_usable hw]
    simp only
    rw [ih rfl, encodings_cons, List.append_assoc]

theorem writeAll_eq {items : List (RecordId × Callback ε)} {rs : List Record}
    (h : List.Forall₂ (fun r item => item.1 = r.id ∧ item.2.Supplies r.body) rs items) :
    ∀ {w : RecordWriter}, w.usable = true →
      w.writeAll items = some ⟨w.buffer ++ encodings rs, true⟩ := by
  induction h with
  | nil =>
    intro w hw
    rw [writeAll, encodings_nil, List.append_nil, ← hw]
  | @cons r item rs items hitem _ ih =>
    intro w hw
    obtain ⟨id, cb⟩ := item
    obtain ⟨rfl, hcb⟩ := hitem
    rw [writeAll, write_of_supplies hw r.length_body_le hcb, r.encodeFrame_id_body]
    simp only
    rw [ih rfl, encodings_cons, List.append_assoc]

/-- An ID and a payload within the limit are those of a record. -/
theorem exists_records {items : List (RecordId × List UInt8)}
    {calls : List (RecordId × Callback ε)}
    (h : List.Forall₂ (fun item call => item.2.length ≤ maxPayloadLen ∧ call.1 = item.1 ∧
      call.2.Supplies item.2) items calls) :
    ∃ rs : List Record, rs.map (fun r => (r.id, r.body)) = items ∧
      List.Forall₂ (fun r call => call.1 = r.id ∧ call.2.Supplies r.body) rs calls := by
  induction h with
  | nil => exact ⟨[], rfl, .nil⟩
  | @cons item call items calls hitem _ ih =>
    obtain ⟨rs, hmap, hcalls⟩ := ih
    obtain ⟨hlen, hid, hbody⟩ := hitem
    refine ⟨Record.encode item.1 item.2 hlen :: rs, ?_, .cons ?_ hcalls⟩
    · rw [List.map_cons, hmap, Record.id_encode, Record.body_encode]
    · rw [Record.id_encode, Record.body_encode]
      exact ⟨hid, hbody⟩

/-- **The round trips.**  New records that are written and sent are read back as
they were supplied; and records that were read completely are sent again, copied
or serialized anew, as the bytes they were read from. -/
theorem writer_reader_round_trip :
    (∀ (items : List (RecordId × List UInt8)) (calls : List (RecordId × Callback ε)),
      List.Forall₂ (fun item call => item.2.length ≤ maxPayloadLen ∧ call.1 = item.1 ∧
        call.2.Supplies item.2) items calls →
      ∃ w bytes, forSerialization.writeAll calls = some w ∧ w.Sends bytes ∧
        ∃ rs, rs.map (fun r => (r.id, r.body)) = items ∧ RecordReader.ReadsCleanly bytes rs) ∧
    ∀ (bytes : List UInt8) (as : List RecordReader.Action) (events : List RecordReader.Event)
      (s : RecordReader × List UInt8),
      (∀ a ∈ as, a.Transient) → RecordReader.run as (.new, bytes) = some (events, s) →
      s.1.state = .finished →
      (∃ w, forRecords.writeRecords (RecordReader.delivered events) = .ok w ∧ w.Sends bytes) ∧
      ∀ calls : List (RecordId × Callback ε),
        List.Forall₂ (fun r call => call.1 = r.id ∧ call.2.Supplies r.body)
          (RecordReader.delivered events) calls →
        ∃ w, forSerialization.writeAll calls = some w ∧ w.Sends bytes := by
  constructor
  · intro items calls h
    obtain ⟨rs, hmap, hcalls⟩ := exists_records h
    refine ⟨_, encodings rs, writeAll_eq hcalls rfl, sends_buffer rfl, rs, hmap, ?_⟩
    have hclean := RecordReader.readsCleanly (parseEnd_encodings rs)
    rwa [records_encodings] at hclean
  · intro bytes as events s has hrun hstate
    obtain rfl := RecordReader.encodings_delivered has hrun hstate
    exact ⟨⟨_, writeRecords_eq _ rfl, sends_buffer rfl⟩,
      fun calls hcalls => ⟨_, writeAll_eq hcalls rfl, sends_buffer rfl⟩⟩

omit [Crc32c] in
set_option maxRecDepth 10000 in
theorem run_hello : letI := Crc32c.reference
    ∃ events s, RecordReader.run [.wait (.next (.upTo 3 0) .calm), .tryNext, .wait .calm]
      (.new, helloFrame) = some (events, s) ∧ s.1.state = .finished :=
  ⟨_, _, rfl, rfl⟩

omit [Crc32c] in
theorem writer_reader_round_trip_hello : letI := Crc32c.reference
    let id : RecordId := ⟨⟨0x708, by decide⟩, ⟨0x1112131415161718, by decide⟩⟩
    (∃ w bytes, forSerialization.writeAll
        [(id, (Callback.chunks [[0x68, 0x65], [], [0x6c, 0x6c, 0x6f]] : Callback Unit))] = some w ∧
      w.Sends bytes ∧ ∃ rs, rs.map (fun r => (r.id, r.body)) = [(id, [0x68, 0x65, 0x6c, 0x6c, 0x6f])] ∧
        RecordReader.ReadsCleanly bytes rs) ∧
    ∃ events, ∃ w, forRecords.writeRecords (RecordReader.delivered events) = .ok w ∧
      w.Sends helloFrame := by
  let _ := Crc32c.reference
  have h := writer_reader_round_trip (ε := Unit)
  refine ⟨h.1 _ _ (.cons ⟨by decide, rfl, ?_⟩ .nil), ?_⟩
  · exact Callback.supplies_chunks [[0x68, 0x65], [], [0x6c, 0x6c, 0x6f]]
  · obtain ⟨events, s, hrun, hstate⟩ := run_hello
    exact ⟨events, (h.2 helloFrame _ events s
      (by simp [RecordReader.Action.Transient, Plan.Within]) hrun hstate).1⟩

end RecordWriter

end TransactionLog
