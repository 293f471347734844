import TransactionLog.Record.Append
import TransactionLog.Record.ReaderReports

/-!
# Records from a writer to a reader

A writer sends records through one end of a byte stream, and a reader takes them from the
other end.  What the writer's destination has accepted arrives in pieces, at any time, so
an output that is under way is one of which not everything has arrived yet.  The stream may
be closed after any byte that has arrived, and what is still on its way is lost then.

`Joined` is the invariant of the two ends: the destination has accepted some of the
encodings of the records sent, and the reader's caller was told the truth about the part of
them that has arrived.
-/

namespace TransactionLog

open Lib Protocol

/-! ## The writer's end -/

namespace RecordWriter

variable [Crc32c] {ε : Type} {mode : WriterMode} {s : State}

/-- The record that an operation appends when it ends in `r`. -/
def Op.sent (op : Op ε mode) (r : Except (Exit (RecordWriteError ε)) Unit) : List Record :=
  (Record.fromValidatedBytes (op.appended r)).toList

theorem not_validFrame_nil : ¬ ValidFrame [] := fun h => by
  have hmin := h.min_le
  rw [minRecordLen_eq] at hmin
  cases hmin

theorem encodings_toList {bytes : List UInt8} (h : bytes = [] ∨ ValidFrame bytes) :
    encodings (Record.fromValidatedBytes bytes).toList = bytes := by
  rcases h with rfl | h
  · rw [Record.fromValidatedBytes, dif_neg not_validFrame_nil]
    rfl
  · rw [Record.fromValidatedBytes, dif_pos h]
    exact List.append_nil _

/-- A payload that was appended fits into a record. -/
theorem length_payload_le {w w' : RecordWriter} {id : RecordId} {cb : Callback ε}
    (h : w.write id cb = (some (.ok ()), w')) : cb.payload.length ≤ maxPayloadLen := by
  obtain ⟨buffer, usable⟩ := w
  cases usable with
  | false => cases h
  | true =>
    obtain ⟨hanswered, hcases⟩ := cb.run_new_cases buffer
    have hpayload : (cb.run (.new buffer)).2.payload = cb.payload := by
      rw [cb.run_new, Callback.payload]
    rcases hrun : cb.run (.new buffer) with ⟨r, builder⟩
    rw [hrun] at hcases hpayload
    rw [write_eq hrun] at h
    rcases hcases with ⟨haccepted, -, hoffered⟩ | ⟨-, herror⟩
    · rw [← show builder.payload = cb.payload from hpayload, hoffered]
      exact (Callback.accepted_iff hanswered).mp haccepted
    · cases r with
      | none => cases h
      | some result =>
        have hrejected : builder.error = some .payloadTooLarge := herror
        simp only [concluded, hrejected] at h
        cases h

theorem Op.frame_of_ok {op : Op ε mode} {plan : Plan} (h : ((perform op).run s plan).1 = .ok ()) :
    op.frame = [] ∨ ValidFrame op.frame := by
  cases op with
  | write id cb =>
    rcases hw : s.1.write id cb with ⟨r, w'⟩
    simp only [perform, Io.run, Io.bind_apply, Io.get, Io.modify, hw] at h
    rcases r with _ | e | _
    · cases h
    · cases h
    · exact .inr (validFrame_encodeFrame (length_payload_le hw))
  | writeRecord record => exact .inr record.valid
  | flushBuffer => exact .inl rfl
  | flush => exact .inl rfl
  | syncData => exact .inl rfl

theorem Op.encodings_sent (op : Op ε mode) (plan : Plan) :
    encodings (op.sent ((perform op).run s plan).1) = op.appended ((perform op).run s plan).1 := by
  refine encodings_toList ?_
  cases hr : ((perform op).run s plan).1 with
  | error e => exact .inl rfl
  | ok u => exact Op.frame_of_ok hr

/-- What the destination has accepted. -/
theorem output_accepts {m : Io State RecordOutputError Unit} {op : Op ε mode}
    (hm : perform op = Io.mapErr .output m)
    (h : Triple ⟨False, fun _ => True⟩ (fun s' => s' = s) m
      (fun _ s' => s.2.accepted <+: s'.2.accepted) fun _ s' => s.2.accepted <+: s'.2.accepted)
    (plan : Plan) : s.2.accepted <+: ((perform op).run s plan).2.sys.2.accepted := by
  have ht : Triple ⟨False, fun _ => True⟩ (fun s' => s' = s) (perform op)
      (fun _ s' => s.2.accepted <+: s'.2.accepted) fun _ s' => s.2.accepted <+: s'.2.accepted := by
    rw [hm]
    refine .mapErr (h.conseq (fun _ h => h) (fun _ _ hs => hs) ?_)
    rintro (e | _ | _) s' hs <;> exact hs
  obtain ⟨-, hr⟩ := ht ⟨s, plan⟩ rfl plan.within_any
  rw [Io.run]
  rcases hp : perform op ⟨s, plan⟩ with ⟨e | a, w⟩ <;> rw [hp] at hr <;> exact hr

/-- **Nothing is taken back.** -/
theorem perform_accepts (op : Op ε mode) (plan : Plan) :
    s.2.accepted <+: ((perform op).run s plan).2.sys.2.accepted := by
  obtain ⟨⟨b, _ | _⟩, ch⟩ := s
  · have hrefused : Refuses (⟨b, false⟩, ch) op plan := perform_unusable rfl op plan
    rw [hrefused]
  have start : ∀ s' : State, s' = (⟨b, true⟩, ch) → s'.1 = ⟨b, true⟩ ∧ ch = s'.2 := by
    rintro _ rfl
    exact ⟨rfl, rfl⟩
  cases op with
  | write id cb =>
    rcases hw : RecordWriter.write ⟨b, true⟩ id cb with ⟨_ | _ | _, w'⟩ <;>
      simp only [perform, Io.run, Io.bind_apply, Io.get, Io.modify, hw] <;>
      exact List.prefix_refl _
  | writeRecord record => exact List.prefix_refl _
  | flushBuffer =>
    refine output_accepts rfl ((Output.flushBuffer_tracked (b := b)
      Output.tracked_channel).conseq start ?_ ?_) plan
    · rintro _ ⟨w, ch'⟩ ⟨-, rfl⟩
      exact List.prefix_append _ _
    · rintro e ⟨w, ch'⟩ ⟨-, -, -, bs, -, rfl⟩
      exact List.prefix_append _ _
  | flush =>
    refine output_accepts rfl ((Output.flush_tracked (b := b)
      Output.tracked_channel).conseq start ?_ ?_) plan
    · rintro _ ⟨w, ch'⟩ ⟨-, rfl⟩
      exact List.prefix_refl _
    · rintro e ⟨w, ch'⟩ ⟨-, -, -, rfl⟩
      exact List.prefix_refl _
  | syncData =>
    refine output_accepts rfl ((Output.syncData_tracked (b := b)
      Output.tracked_channel).conseq start ?_ ?_) plan
    · rintro _ ⟨w, ch'⟩ ⟨-, rfl⟩
      exact List.prefix_refl _
    · rintro e ⟨w, ch'⟩ ⟨-, -, -, rfl⟩
      exact List.prefix_refl _

end RecordWriter

/-! ## The two ends together -/

/-- A writer and a reader, and the byte stream between them: the records appended, how many
of the accepted bytes have arrived, whether the stream is closed, and what the reader's
caller was told. -/
structure Transfer [Crc32c] where
  writer : RecordWriter.State
  sent : List Record
  arrived : Nat
  closed : Bool
  connection : RecordReader.Connection
  events : List RecordReader.Event

namespace Transfer

open RecordReader (Event Connection Shows Seen Reported Torn delivered)
open RecordWriter (Op Carries perform)

variable [Crc32c] {ε : Type} {mode : RecordWriter.WriterMode} {t t' : Transfer} {past : List Event}

def new : Transfer := ⟨(Output.new, .new), [], 0, false, ⟨.new, none, []⟩, []⟩

/-- The bytes that have arrived. -/
def input (t : Transfer) : List UInt8 := t.writer.2.accepted.take t.arrived

def write (t : Transfer) (op : Op ε mode) (plan : Plan) : Transfer where
  writer := ((perform op).run t.writer plan).2.sys
  sent := t.sent ++ op.sent ((perform op).run t.writer plan).1
  arrived := t.arrived
  closed := t.closed
  connection := t.connection
  events := t.events

def arrive (t : Transfer) (n : Nat) : Transfer where
  writer := t.writer
  sent := t.sent
  arrived := t.arrived + n
  closed := t.closed
  connection := { t.connection with
    unread := t.connection.unread ++ (t.writer.2.accepted.drop t.arrived).take n }
  events := t.events

/-- The reader takes a step. -/
inductive Reads (faulty : Prop) : Transfer → Transfer → Prop
  | mk {t : Transfer} {events : List Event} {c : Connection}
      (shows : Shows (t.closed = true) faulty t.connection events c) :
      Reads faulty t { t with connection := c, events := t.events ++ events }

inductive Step (ε : Type) (mode : RecordWriter.WriterMode) : Transfer → Transfer → Prop
  | write {t : Transfer} (op : Op ε mode) (plan : Plan) : Step ε mode t (t.write op plan)
  | arrive {t : Transfer} (n : Nat) (ongoing : t.closed = false)
      (there : t.arrived + n ≤ t.writer.2.accepted.length) : Step ε mode t (t.arrive n)
  | close {t : Transfer} : Step ε mode t { t with closed := true }
  | read {faulty : Prop} {t t' : Transfer} (reads : Reads faulty t t') : Step ε mode t t'

inductive Reachable (ε : Type) (mode : RecordWriter.WriterMode) : Transfer → Prop
  | new : Reachable ε mode new
  | step {t t' : Transfer} (before : Reachable ε mode t) (step : Step ε mode t t') :
      Reachable ε mode t'

/-! ### What holds of the two ends -/

/-- The destination has accepted the records sent up to some byte, and the reader has told
the truth about the part of them that has arrived. -/
structure Joined (t : Transfer) : Prop where
  carries : Carries (encodings t.sent) t.writer
  arrived_le : t.arrived ≤ t.writer.2.accepted.length
  seen : Seen t.input (t.closed = true) True t.events t.connection

theorem joined_new : Joined new :=
  ⟨⟨List.prefix_rfl, fun _ => rfl⟩, Nat.le_refl 0, RecordReader.seen_new⟩

theorem Joined.input_isPrefix (h : Joined t) : t.input <+: encodings t.sent :=
  (List.take_prefix _ _).trans h.carries.1

theorem Joined.torn (h : Joined t) : Torn t.input := (records_torn h.input_isPrefix).2

theorem Joined.write (h : Joined t) (op : Op ε mode) (plan : Plan) : Joined (t.write op plan) := by
  have haccepts := RecordWriter.perform_accepts (s := t.writer) op plan
  refine ⟨?_, Nat.le_trans h.arrived_le haccepts.length_le, ?_⟩
  · have hcarries := RecordWriter.run_carried [(op, plan)] h.carries
    rw [RecordWriter.appended, RecordWriter.appended, List.append_nil, ← op.encodings_sent plan,
      ← encodings_append] at hcarries
    exact hcarries
  · have hsame : (t.write op plan).input = t.input := by
      obtain ⟨more, hmore⟩ := haccepts
      show List.take t.arrived ((perform op).run t.writer plan).2.sys.2.accepted = _
      rw [← hmore, List.take_append_of_le_length h.arrived_le]
      rfl
    rw [hsame]
    exact h.seen

theorem Joined.arrive (h : Joined t) {n : Nat} (hopen : t.closed = false)
    (hthere : t.arrived + n ≤ t.writer.2.accepted.length) : Joined (t.arrive n) := by
  refine ⟨h.carries, hthere, ?_⟩
  have hinput : (t.arrive n).input = t.input ++ (t.writer.2.accepted.drop t.arrived).take n :=
    List.take_add
  rw [hinput]
  exact h.seen.arrive (by simp [hopen]) _

theorem Joined.close (h : Joined t) : Joined { t with closed := true } :=
  ⟨h.carries, h.arrived_le, h.seen.mono (fun _ => rfl) id⟩

theorem Joined.read (h : Joined t) {faulty : Prop} (hreads : Reads faulty t t') : Joined t' := by
  cases hreads with
  | mk shows =>
    exact ⟨h.carries, h.arrived_le, (shows.mono fun _ => trivial).seen h.seen h.torn⟩

theorem Reachable.joined (h : Reachable ε mode t) : Joined t := by
  induction h with
  | new => exact joined_new
  | step before step ih =>
    cases step with
    | write op plan => exact ih.write op plan
    | arrive n ongoing there => exact ih.arrive ongoing there
    | close => exact ih.close
    | read reads => exact ih.read reads

/-! ### What the reader's caller was told -/

/-- The error for a record of which `n` bytes have arrived. -/
def cutOff (record : Record) (n : Nat) : RecordReadError :=
  if n < headerLen then .truncatedHeader n else .truncatedRecord record.bytes.length n

/-- What is left after the records that have arrived whole is the front of the next one. -/
theorem rest_torn {bytes : List UInt8} {rs : List Record} (h : bytes <+: encodings rs)
    (hne : recordFraming.rest bytes ≠ []) :
    ∃ record n, records bytes ++ [record] <+: rs ∧ 0 < n ∧ n < record.bytes.length ∧
      recordFraming.rest bytes = record.bytes.take n := by
  obtain ⟨⟨later, hlater⟩, hmore⟩ := records_torn h
  have hsplit := encodings_records_append_rest bytes
  have hrest : recordFraming.rest bytes <+: encodings later := by
    rw [← hsplit, ← hlater, encodings_append] at h
    exact (List.prefix_append_right_inj _).mp h
  cases later with
  | nil => exact absurd (List.prefix_nil.mp hrest) hne
  | cons record later =>
    rw [encodings_cons] at hrest
    have hlt : (recordFraming.rest bytes).length < record.bytes.length := by
      by_contra hle
      -- the whole record would have been cut off
      obtain ⟨more, hwhole⟩ := List.prefix_of_prefix_length_le (List.prefix_append _ _) hrest
        (Nat.not_lt.mp hle)
      have hframe := record.whole.look_append more
      rw [hwhole] at hframe
      cases hmore.symm.trans hframe
    refine ⟨record, _, ⟨later, ?_⟩, List.length_pos_iff.mpr hne, hlt, ?_⟩
    · rw [List.append_assoc]
      exact hlater
    · have htake := List.prefix_iff_eq_take.mp hrest
      rwa [List.take_append_of_le_length (Nat.le_of_lt hlt)] at htake

theorem endOfInput_take {record : Record} {n : Nat} (hpos : 0 < n) (hlt : n < record.bytes.length)
    (hmore : lookRecord (record.bytes.take n) = .more) :
    endOfInput (record.bytes.take n) = .error (cutOff record n) := by
  have hlength : (record.bytes.take n).length = n := List.length_take_of_le (Nat.le_of_lt hlt)
  have hne : record.bytes.take n ≠ [] := by
    rw [← List.length_pos_iff, hlength]
    exact hpos
  rw [endOfInput, hmore, cutOff]
  simp only [if_neg hne, hlength]
  by_cases hheader : n < headerLen
  · rw [if_pos hheader, if_pos hheader]
  · rw [headerLen_eq] at hheader
    rw [headerLen_eq, if_neg hheader, if_neg hheader, Read.length_take (by omega),
      record.valid.length_eq]

/-- What the reader's caller was told, in terms of the records sent: a batch or nothing yet;
the end, after just the records that have arrived; that the stream was closed within the next
record; or a failure of the source. -/
inductive Told (t : Transfer) : ReaderState → List Event → Prop
  | reading {past : List Event} (before : ∀ e ∈ past, Event.Of .active e) : Told t .active past
  | finished {past post : List Event} (before : ∀ e ∈ past, Event.Of .active e)
      (closed : t.closed = true) (input : t.input = encodings (delivered past))
      (after : ∀ e ∈ post, Event.Of .finished e) :
      Told t .finished (past ++ .waited (.ok false) :: post)
  | truncated {past post : List Event} {record : Record} {n : Nat}
      (before : ∀ e ∈ past, Event.Of .active e) (closed : t.closed = true)
      (next : delivered past ++ [record] <+: t.sent) (pos : 0 < n) (lt : n < record.bytes.length)
      (input : t.input = encodings (delivered past) ++ record.bytes.take n)
      (after : ∀ e ∈ post, Event.Of .failed e) :
      Told t .failed (past ++ .waited (.error (.error (cutOff record n))) :: post)
  | broken {past post : List Event} {kind : ErrorKind} (before : ∀ e ∈ past, Event.Of .active e)
      (after : ∀ e ∈ post, Event.Of .failed e) :
      Told t .failed (past ++ .waited (.error (.error (.io kind))) :: post)

theorem Joined.told (h : Joined t) : Told t t.connection.reader.state t.events := by
  have hreported := h.seen.reported
  revert hreported
  generalize t.connection.reader.state = state
  generalize t.events = events
  intro hreported
  have hsplit := encodings_records_append_rest t.input
  cases hreported with
  | reading before => exact .reading before
  | finished before closed records result after =>
    refine .finished before closed ?_ after
    rw [records]
    exact (encodings_records_of_clean result).symm
  | @truncated past post error before closed records result after =>
    have hne : recordFraming.rest t.input ≠ [] := fun hnil => by
      rw [parseEnd_eq_ok.mpr hnil] at result
      cases result
    obtain ⟨record, n, hnext, hpos, hlt, hrest⟩ := rest_torn h.input_isPrefix hne
    have htorn := h.torn
    rw [Torn, hrest] at htorn
    rw [parseEnd, hrest, endOfInput_take hpos hlt htorn] at result
    obtain rfl := Except.error.inj result
    rw [hrest, ← records] at hsplit
    exact .truncated before closed (records ▸ hnext) hpos hlt hsplit.symm after
  | broken before _ after => exact .broken before after

/-- Everything sent has arrived: the writer may go on, and holds nothing back. -/
def Through (t : Transfer) : Prop :=
  t.writer.1.usable = true ∧ t.writer.1.buffer = [] ∧ t.arrived = t.writer.2.accepted.length

instance (t : Transfer) : Decidable t.Through := inferInstanceAs (Decidable (_ ∧ _ ∧ _))

theorem Joined.input_eq (h : Joined t) (hthrough : t.Through) : t.input = encodings t.sent := by
  obtain ⟨husable, hbuffer, harrived⟩ := hthrough
  have hall := h.carries.2 husable
  rw [hbuffer, List.append_nil] at hall
  rw [input, harrived, List.take_length, hall]

/-- **What the two ends agree on.**  The records handed out are the first ones sent, the
caller was told the truth about them, and a reader that has finished has handed out all
records, where they have all arrived. -/
structure Transferred (t : Transfer) : Prop where
  delivered : delivered t.events <+: t.sent
  told : Told t t.connection.reader.state t.events
  complete : t.Through → t.connection.reader.state = .finished →
    RecordReader.delivered t.events = t.sent

theorem Joined.transferred (h : Joined t) : Transferred t := by
  refine ⟨h.seen.delivered_isPrefix.trans (records_torn h.input_isPrefix).1, h.told, ?_⟩
  intro hthrough hstate
  have hreported := h.seen.reported
  rw [h.input_eq hthrough] at hreported
  rw [hstate] at hreported
  exact hreported.delivered_eq

/-- A closed stream without faults is read to its end. -/
theorem Joined.drains (h : Joined t) (hclosed : t.closed = true)
    (hseen : Seen t.input (t.closed = true) False t.events t.connection) :
    ∃ t', Relation.ReflTransGen (Reads False) t t' ∧ t'.connection.reader.state ≠ .active ∧
      Joined t' ∧ t'.sent = t.sent ∧
      Seen t.input (t.closed = true) False t'.events t'.connection := by
  induction hleft : RecordReader.left t.input t.events t.connection using Nat.strongRecOn
    generalizing t with
  | ind k ih =>
    by_cases hactive : t.connection.reader.state = .active
    · obtain ⟨events, c, hshows, hless⟩ := hseen.progress hclosed hactive
      have hreads : Reads False t { t with connection := c, events := t.events ++ events } :=
        .mk hshows
      have hseen' := hshows.seen hseen h.torn
      by_cases hactive' : c.reader.state = .active
      · obtain ⟨t', hsteps, hended, hjoined, hsent, hseen''⟩ :=
          ih _ (hleft ▸ hless hactive') (h.read hreads) hclosed hseen' rfl
        exact ⟨t', .head hreads hsteps, hended, hjoined, hsent, hseen''⟩
      · exact ⟨_, .single hreads, hactive', h.read hreads, rfl, hseen'⟩
    · exact ⟨t, .refl, hactive, h, rfl, hseen⟩

/-- **Records come through.**  In every interleaving of a writer's operations, of the arrival
of what its destination has accepted, and of a reader's calls, with any fault at either end
and the stream closed at any point, the two ends agree; and once the stream is closed, a
reader that goes on without faults comes to an end, with all records sent if they have all
arrived. -/
theorem records_transferred (h : Reachable ε mode t) :
    Transferred t ∧ (t.closed = true → ∃ t', Relation.ReflTransGen (Reads False) t t' ∧
      t'.connection.reader.state ≠ .active ∧ Transferred t' ∧
      (t.connection.reader.state = .active → t.Through → delivered t'.events = t.sent)) := by
  have hjoined := h.joined
  refine ⟨hjoined.transferred, fun hclosed => ?_⟩
  by_cases hactive : t.connection.reader.state = .active
  · obtain ⟨t', hsteps, hended, hjoined', hsent, hseen⟩ :=
      hjoined.drains hclosed (hjoined.seen.faultless hactive)
    refine ⟨t', hsteps, hended, hjoined'.transferred, fun _ hthrough => ?_⟩
    have hreported := hseen.reported
    rw [hjoined.input_eq hthrough] at hreported
    exact (hreported.complete hended).resolve_right id
  · exact ⟨t, .refl, hactive, hjoined.transferred, fun hstate => absurd hstate hactive⟩

omit [Crc32c] in
/-- One record, sent and arrived before the stream is closed. -/
theorem records_transferred_payload : letI := Crc32c.reference
    let payload : List UInt8 := [112, 97, 121, 108, 111, 97, 100]
    let body : Callback Unit := .write payload fun _ => .done (.ok ())
    let id : RecordId := ⟨⟨42, by decide⟩, ⟨123, by decide⟩⟩
    let sent : Transfer := (new.write (Op.write id body) .calm).write
      (Op.flushBuffer : Op Unit .serializeRecords) .calm
    ∃ t, Relation.ReflTransGen (Reads False) { sent.arrive 23 with closed := true } t ∧
      (delivered t.events).map Record.body = [payload] := by
  let _ := Crc32c.reference
  intro payload body id sent
  have hthere : sent.arrived + 23 ≤ sent.writer.2.accepted.length := by decide +kernel
  have hthrough : Through { sent.arrive 23 with closed := true } := by decide +kernel
  have hsent : sent.sent.map Record.body = [payload] := by decide +kernel
  have h : Reachable Unit .serializeRecords sent :=
    .step (.step .new (.write (.write id body) .calm)) (.write .flushBuffer .calm)
  have h' : Reachable Unit .serializeRecords { sent.arrive 23 with closed := true } :=
    .step (.step h (.arrive 23 rfl hthere)) .close
  obtain ⟨t, hsteps, -, -, hall⟩ := (records_transferred h').2 rfl
  refine ⟨t, hsteps, ?_⟩
  rw [hall rfl hthrough]
  exact hsent

end Transfer

end TransactionLog
