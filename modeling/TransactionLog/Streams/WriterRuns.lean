import TransactionLog.Streams.WriterInvariant

/-!
# Runs of the paired writer

A run calls the writer's operations one after another, each flush and each
synchronization under a plan of its own for the calls to the two destinations.
An operation that is cancelled is one whose plan stops, so the state at any
moment inside an operation is the state at the end of a run.

`run_respects` is the invariant over whole runs and `index_follows_log` the order
in which the two destinations see a record.
-/

namespace TransactionLog

open Lib

namespace IndexedLogWriter

/-- The writer and what its two destinations have seen. -/
abbrev State := IndexedLogWriter × Channel × Channel

def logDest : Dest (Channel × Channel) :=
  Channel.dest.lift Prod.fst fun l s => (l, s.2)

def indexDest : Dest (Channel × Channel) :=
  Channel.dest.lift Prod.snd fun i s => (s.1, i)

variable [Crc32c]

omit [Crc32c] in
theorem tracks_channels : Tracks logDest indexDest fun l i s => s = (l, i) where
  log _ := ⟨fun _ _ _ h => by rw [h]; rfl, fun _ _ h => by rw [h]; rfl, fun _ _ h => by rw [h]; rfl⟩
  index _ :=
    ⟨fun _ _ _ h => by rw [h]; rfl, fun _ _ h => by rw [h]; rfl, fun _ _ h => by rw [h]; rfl⟩

inductive Op where
  | writeRecord (record : Record)
  | flush (plan : Plan)
  | syncData (plan : Plan)
  | finalize

inductive Reply where
  | appended (outcome : AppendOutcome)
  | done
  | finalized (endLocation : RecordEndLocation)

abbrev Outcome := Except (Exit IndexedLogWriteError) Reply

def step (s : State) : Op → Outcome × State
  | .writeRecord record =>
    let (r, w) := (writeRecord record).run s .calm
    (r.map .appended, w.sys)
  | .flush plan =>
    let (r, w) := (flush logDest indexDest).run s plan
    (r.map fun _ => .done, w.sys)
  | .syncData plan =>
    let (r, w) := (syncData logDest indexDest).run s plan
    (r.map fun _ => .done, w.sys)
  | .finalize =>
    let (r, w) := finalize.run s .calm
    (r.map .finalized, w.sys)

def run : State → List Op → State
  | s, [] => s
  | s, op :: ops => run (step s op).2 ops

def outcomes : State → List Op → List Outcome
  | _, [] => []
  | s, op :: ops => (step s op).1 :: outcomes (step s op).2 ops

/-- The record that an operation has appended. -/
def Op.written : Op → Outcome → List Record
  | .writeRecord record, .ok _ => [record]
  | _, _ => []

/-- The records that the operations have appended. -/
def written : State → List Op → List Record
  | _, [] => []
  | s, op :: ops => op.written (step s op).1 ++ written (step s op).2 ops

/-- The start of a run: a new writer, or one of a recovered pair holding `base`. -/
def Starts (f : LogFileId) (base : List Record) (w : IndexedLogWriter) : Prop :=
  base = [] ∧ w = new f ∨ Fills f base ∧ ofInitialized ⟨f, endOf base⟩ = some w

/-- The state invariant, with `rs` the records appended so far. -/
def RunInv (f : LogFileId) (base rs : List Record) (s : State) : Prop :=
  ∃ flushed synced, WriterInv f ⟨base, rs, flushed, synced⟩ s.1 s.2.1 s.2.2

/-- What an operation says of a writer that is no longer open. -/
def closedError (w : IndexedLogWriter) : IndexedLogWriteError :=
  if w.state = .finalized then .finalized else .unusable

/-- The marks other than `flushedEnd`. -/
def SameMarks (w w' : IndexedLogWriter) : Prop :=
  w'.recordCount = w.recordCount ∧ w'.bufferedEnd = w.bufferedEnd ∧
    w'.expectedRecordId = w.expectedRecordId ∧ w'.syncedEnd = w.syncedEnd

/-- What each operation of an open writer may do. -/
inductive Effect (s s' : State) : Op → Outcome → Prop where
  | appended {record : Record} {outcome : AppendOutcome} (notFull : s.1.isFull = false)
      (expected : record.id = s.1.expectedRecordId) (opened : s'.1.state = .opened)
      (sent : s'.2 = s.2) (count : s'.1.recordCount = s.1.recordCount + 1)
      (ends : s'.1.bufferedEnd = some outcome.endLocation)
      (full : outcome.fileFull = s'.1.isFull) :
      Effect s s' (.writeRecord record) (.ok (.appended outcome))
  | rejected {record : Record} {e : IndexedLogWriteError} (unchanged : s' = s) :
      Effect s s' (.writeRecord record) (.error (.error e))
  | flushed {plan : Plan} (opened : s'.1.state = .opened) (marks : SameMarks s.1 s'.1)
      (all : s'.1.flushedEnd = s.1.bufferedEnd) : Effect s s' (.flush plan) (.ok .done)
  | notFlushed {plan : Plan} {e : Exit IndexedLogWriteError} (unusable : s'.1.state = .unusable)
      (fault : plan ≠ .calm) (marks : SameMarks s.1 s'.1)
      (same : s'.1.flushedEnd = s.1.flushedEnd) : Effect s s' (.flush plan) (.error e)
  | synced {plan : Plan} (opened : s'.1.state = .opened)
      (count : s'.1.recordCount = s.1.recordCount) (buffered : s'.1.bufferedEnd = s.1.bufferedEnd)
      (all : s'.1.flushedEnd = s.1.bufferedEnd) (durable : s'.1.syncedEnd = s.1.bufferedEnd) :
      Effect s s' (.syncData plan) (.ok .done)
  | notSynced {plan : Plan} {e : Exit IndexedLogWriteError} (unusable : s'.1.state = .unusable)
      (fault : plan ≠ .calm) (marks : SameMarks s.1 s'.1)
      (flush : s'.1.flushedEnd = s.1.flushedEnd ∨ s'.1.flushedEnd = s.1.bufferedEnd) :
      Effect s s' (.syncData plan) (.error e)
  | finalized {endLocation : RecordEndLocation} (full : s.1.isFull)
      (durable : s.1.syncedEnd = s.1.bufferedEnd) (ends : s.1.bufferedEnd = some endLocation)
      (state : s' = ({ s.1 with state := .finalized }, s.2)) :
      Effect s s' .finalize (.ok (.finalized endLocation))
  | notFinalized {e : IndexedLogWriteError}
      (early : ¬ (s.1.isFull ∧ s.1.syncedEnd = s.1.bufferedEnd)) (unchanged : s' = s) :
      Effect s s' .finalize (.error (.error e))

/-- What an operation may do: a closed writer refuses it. -/
def Respects (s : State) (op : Op) (r : Outcome × State) : Prop :=
  (s.1.state ≠ .opened → r = (.error (.error s.1.closedError), s)) ∧
    (s.1.state = .opened → Effect s r.2 op r.1)

/-! ### One operation -/

variable {f : LogFileId} {base rs : List Record} {s : State} {g : Ghost}

theorem RunInv.at (h : RunInv f base rs s) :
    ∃ flushed synced, At f (fun l i s => s = (l, i)) ⟨base, rs, flushed, synced⟩ s := by
  obtain ⟨flushed, synced, h⟩ := h
  exact ⟨flushed, synced, _, _, h, rfl⟩

theorem At.inv (h : At f (fun l i s => s = (l, i)) g s) : WriterInv f g s.1 s.2.1 s.2.2 := by
  obtain ⟨l, i, h, hs⟩ := h
  rw [hs]
  exact h

theorem At.runInv (h : At f (fun l i s => s = (l, i)) g s) : RunInv f g.base g.written s :=
  ⟨g.flushed, g.synced, h.inv⟩

/-- States of one ghost agree on the marks. -/
theorem sameMarks {g' : Ghost} {w w' : IndexedLogWriter} {l i l' i' : Channel}
    (h : WriterInv f g w l i) (h' : WriterInv f g' w' l' i') (hall : g'.all = g.all)
    (hsynced : g'.synced = g.synced) : SameMarks w w' := by
  refine ⟨?_, ?_, ?_, ?_⟩
  · rw [h.marks.count, h'.marks.count, hall]
  · rw [h.marks.buffered, h'.marks.buffered, hall]
  · refine RecordId.ext' ?_ ?_
    · rw [h.marks.expected_stream, h'.marks.expected_stream]
    · rw [h.marks.expected, h'.marks.expected, hall]
  · rw [h.marks.syncedEnd, h'.marks.syncedEnd, hall, hsynced]

/-- A closed writer refuses every operation. -/
theorem step_closed (h : s.1.state ≠ .opened) (op : Op) :
    step s op = (.error (.error s.1.closedError), s) := by
  obtain ⟨w, d⟩ := s
  have hcheck : w.checkOpen = .error w.closedError := by
    rw [checkOpen, closedError]
    cases hs : w.state with
    | opened => exact absurd hs h
    | unusable => rfl
    | finalized => rfl
  cases op <;>
    simp only [step, writeRecord, flush, syncData, finalize, Io.run, Io.bind_apply, Io.get, hcheck,
      Io.ofExcept, Io.throw, Except.map]

/-- A step that keeps the invariant and does what its operation may do; in the
terminal file an append may panic instead, and then changes nothing. -/
def StepsTo (f : LogFileId) (base rs : List Record) (s : State) (op : Op)
    (r : Outcome × State) : Prop :=
  RunInv f base (rs ++ op.written r.1) r.2 ∧ (¬ f.Terminal → Effect s r.2 op r.1)

theorem step_writeRecord (h : RunInv f base rs s) (record : Record) :
    StepsTo f base rs s (.writeRecord record) (step s (.writeRecord record)) := by
  obtain ⟨flushed, synced, hat⟩ := h.at
  have hw := hat.inv
  obtain ⟨-, hr⟩ := writeRecord_triple (c := ⟨True, fun _ => False⟩) record s hat ⟨s, .calm⟩ rfl
    trivial
  rw [step, Io.run]
  rcases hm : writeRecord record ⟨s, .calm⟩ with ⟨e | a, w⟩ <;> rw [hm] at hr
  · obtain ⟨hsame, hstop, hpanic, -⟩ := hr
    simp only at hsame
    refine ⟨by simpa [Op.written, Except.map, hsame] using h, fun hord => ?_⟩
    cases e with
    | error e => exact .rejected hsame
    | stopped => exact absurd rfl hstop
    | panicked => exact absurd (hpanic rfl) hord
  · obtain ⟨hat', hopen', -, hid, hend, hfull, hcount, hsent⟩ := hr
    have hw' := hat'.inv
    refine ⟨hat'.runInv, fun _ => .appended hcount hid hopen' hsent ?_ ?_ hfull⟩
    · rw [hw'.marks.count, hw.marks.count, Ghost.all_append, List.length_append]
      rfl
    · rw [hw'.marks.buffered, hend]

theorem step_flush (h : RunInv f base rs s) (hopen : s.1.state = .opened) (plan : Plan) :
    StepsTo f base rs s (.flush plan) (step s (.flush plan)) := by
  obtain ⟨flushed, synced, hat⟩ := h.at
  have hw := hat.inv
  obtain ⟨-, hr⟩ := flush_triple (c := ⟨plan = .calm, fun _ => True⟩) tracks_channels .opened
    ⟨s, plan⟩ ⟨hat, hopen⟩ plan.within_self
  rw [step, Io.run]
  rcases hm : flush logDest indexDest ⟨s, plan⟩ with ⟨e | a, w⟩ <;> rw [hm] at hr
  · obtain ⟨-, hat', -, hunusable, -⟩ := hr
    have hw' := hat'.inv
    refine ⟨by simpa [Op.written, Except.map] using hat'.runInv, fun _ => .notFlushed
      (hunusable rfl).2 (hunusable rfl).1 (sameMarks hw hw' rfl rfl) ?_⟩
    rw [hw.marks.flushedEnd, hw'.marks.flushedEnd]
  · obtain ⟨hat', hopen', -⟩ := hr
    have hw' := hat'.inv
    refine ⟨by simpa [Op.written, Except.map] using hat'.runInv, fun _ => .flushed hopen'
      (sameMarks hw hw' rfl rfl) ?_⟩
    rw [hw.marks.buffered, hw'.marks.flushedEnd]
    exact congrArg endOf List.take_length

theorem step_syncData (h : RunInv f base rs s) (hopen : s.1.state = .opened) (plan : Plan) :
    StepsTo f base rs s (.syncData plan) (step s (.syncData plan)) := by
  obtain ⟨flushed, synced, hat⟩ := h.at
  have hw := hat.inv
  obtain ⟨-, hr⟩ := syncData_triple (c := ⟨plan = .calm, fun _ => True⟩) tracks_channels .opened
    ⟨s, plan⟩ ⟨hat, hopen⟩ plan.within_self
  rw [step, Io.run]
  rcases hm : syncData logDest indexDest ⟨s, plan⟩ with ⟨e | a, w⟩ <;> rw [hm] at hr
  · rcases hr with ⟨-, hat', -, hunusable, -⟩ | ⟨-, -, hat', -, hunusable, -⟩
    · have hw' := hat'.inv
      refine ⟨by simpa [Op.written, Except.map] using hat'.runInv, fun _ => .notSynced
        (hunusable rfl).2 (hunusable rfl).1 (sameMarks hw hw' rfl rfl) (.inl ?_)⟩
      rw [hw.marks.flushedEnd, hw'.marks.flushedEnd]
    · have hw' := hat'.inv
      refine ⟨by simpa [Op.written, Except.map] using hat'.runInv, fun _ => .notSynced
        (hunusable rfl).2 (hunusable rfl).1 (sameMarks hw hw' rfl rfl) (.inr ?_)⟩
      rw [hw.marks.buffered, hw'.marks.flushedEnd]
      exact congrArg endOf List.take_length
  · obtain ⟨hat', hopen', -⟩ := hr
    have hw' := hat'.inv
    refine ⟨by simpa [Op.written, Except.map] using hat'.runInv, fun _ => .synced hopen' ?_ ?_ ?_ ?_⟩
    · rw [hw.marks.count, hw'.marks.count]
      rfl
    · rw [hw.marks.buffered, hw'.marks.buffered]
      rfl
    · rw [hw.marks.buffered, hw'.marks.flushedEnd]
      exact congrArg endOf List.take_length
    · rw [hw.marks.buffered, hw'.marks.syncedEnd]
      exact congrArg endOf List.take_length

theorem step_finalize (h : RunInv f base rs s) (hopen : s.1.state = .opened) :
    StepsTo f base rs s .finalize (step s .finalize) := by
  obtain ⟨flushed, synced, hat⟩ := h.at
  have hw := hat.inv
  obtain ⟨-, hr⟩ := finalize_triple (c := ⟨True, fun _ => False⟩) s hat ⟨s, .calm⟩ rfl trivial
  rw [step, Io.run]
  rcases hm : finalize ⟨s, .calm⟩ with ⟨e | a, w⟩ <;> rw [hm] at hr
  · obtain ⟨hsame, hstop, hpanic, hearly⟩ := hr
    simp only at hsame
    refine ⟨by simpa [Op.written, Except.map, hsame] using h, fun _ => ?_⟩
    cases e with
    | error e =>
      refine .notFinalized (fun hn => hearly ⟨hopen, ?_, hw.marks.synced_eq hn.2⟩) hsame
      have := hn.1
      simp only [isFull, decide_eq_true_eq] at this
      exact hw.marks.count.symm.trans this
    | stopped => exact absurd rfl hstop
    | panicked => exact absurd rfl hpanic
  · obtain ⟨hat', hstate, hsent, -, hfull, hsynced, hend⟩ := hr
    refine ⟨by simpa [Op.written, Except.map] using hat'.runInv, fun _ => .finalized ?_ ?_ ?_ ?_⟩
    · simpa only [isFull, decide_eq_true_eq] using hw.marks.count.trans hfull
    · rw [hw.marks.syncedEnd, hw.marks.buffered, hsynced, List.take_length]
    · rw [hw.marks.buffered, hend]
    · exact Prod.ext hstate hsent

/-- Every operation keeps the invariant. -/
theorem step_runInv (h : RunInv f base rs s) (op : Op) :
    RunInv f base (rs ++ op.written (step s op).1) (step s op).2 := by
  by_cases hopen : s.1.state = .opened
  · cases op with
    | writeRecord record => exact (step_writeRecord h record).1
    | flush plan => exact (step_flush h hopen plan).1
    | syncData plan => exact (step_syncData h hopen plan).1
    | finalize => exact (step_finalize h hopen).1
  · rw [step_closed hopen]
    cases op <;> simpa [Op.written] using h

theorem step_respects (h : RunInv f base rs s) (hord : ¬ f.Terminal) (op : Op) :
    Respects s op (step s op) := by
  refine ⟨fun hclosed => step_closed hclosed op, fun hopen => ?_⟩
  cases op with
  | writeRecord record => exact (step_writeRecord h record).2 hord
  | flush plan => exact (step_flush h hopen plan).2 hord
  | syncData plan => exact (step_syncData h hopen plan).2 hord
  | finalize => exact (step_finalize h hopen).2 hord

/-! ### Runs -/

theorem run_runInv : ∀ (ops : List Op) {rs : List Record} {s : State}, RunInv f base rs s →
    RunInv f base (rs ++ written s ops) (run s ops) := by
  intro ops
  induction ops with
  | nil =>
    intro rs s h
    rwa [written, List.append_nil]
  | cons op ops ih =>
    intro rs s h
    rw [written, ← List.append_assoc]
    exact ih (step_runInv h op)

theorem Starts.runInv {w : IndexedLogWriter} (h : Starts f base w) :
    RunInv f base [] (w, .new, .new) := by
  rcases h with ⟨rfl, rfl⟩ | ⟨hf, hw⟩
  · exact ⟨_, _, inv_new f⟩
  · exact ⟨_, _, inv_ofInitialized hf hw⟩

/-- **The state of the paired writer in every run** is what the records appended so
far determine, and each operation does to it what `Effect` lists. -/
theorem run_respects {f : LogFileId} (hord : ¬ f.Terminal) {base : List Record}
    {w : IndexedLogWriter} (hw : Starts f base w) (ops : List Op) :
    RunInv f base (written (w, .new, .new) ops) (run (w, .new, .new) ops) ∧
      ∀ op, Respects (run (w, .new, .new) ops) op (step (run (w, .new, .new) ops) op) := by
  have h := run_runInv ops hw.runInv
  rw [List.nil_append] at h
  exact ⟨h, step_respects h hord⟩

omit [Crc32c] in
/-- A recovered pair of one record takes two more: one is flushed in two writes, and the
synchronization of the other fails after its bytes are out. -/
theorem run_respects_resumed : letI := Crc32c.reference
    let f : LogFileId := .first ⟨0, by decide⟩
    let base := [Fills.firstRecord f]
    let second : Record := .encode ⟨f.streamId, ⟨1, by decide⟩⟩ [] (Nat.zero_le _)
    let third : Record := .encode ⟨f.streamId, ⟨2, by decide⟩⟩ [0x68] (by decide)
    let fails := Plan.stop.after [.all, .all, .all, .all, .all, .fault (.device 5)]
    let ops := [.writeRecord second, .flush (.next (.upTo 3 0) .calm), .writeRecord third,
      .syncData fails, .finalize]
    let w := (ofInitialized ⟨f, endOf base⟩).getD (new f)
    (written (w, .new, .new) ops = [second, third] ∧
      (run (w, .new, .new) ops).1.flushedEnd = endOf [Fills.firstRecord f, second, third] ∧
      (run (w, .new, .new) ops).1.syncedEnd = endOf base ∧
      (run (w, .new, .new) ops).1.state = .unusable) ∧
    RunInv f base (written (w, .new, .new) ops) (run (w, .new, .new) ops) ∧
      ∀ op, Respects (run (w, .new, .new) ops) op (step (run (w, .new, .new) ops) op) := by
  intro f base second third fails ops w
  have hw : ofInitialized ⟨f, @endOf .reference base⟩ = some w := by decide +kernel
  have h := @run_respects .reference f (by decide) base w (.inr ⟨@Fills.first .reference f, hw⟩) ops
  exact ⟨by decide +kernel, h⟩

/-- **An index entry follows its record.**  In every run, and so at every moment of
every operation, the destinations have seen what they were to see, in its order
and once, and a complete entry points into the part of the log that was flushed. -/
theorem index_follows_log {f : LogFileId} {base : List Record} {w : IndexedLogWriter}
    (hw : Starts f base w) (ops : List Op) :
    let s := run (w, .new, .new) ops
    let rs := written (w, .new, .new) ops
    s.2.1.accepted <+: encodings rs ∧
      s.2.2.accepted <+: entries (encodings base).length rs ∧
      s.2.1.flushed ≤ s.2.1.accepted.length ∧
      ∀ k, indexEntryLen * (k + 1) ≤ s.2.2.accepted.length →
        entryAt s.2.2.accepted k ≤ (encodings base).length + s.2.1.flushed := by
  intro s rs
  have h := run_runInv ops hw.runInv
  rw [List.nil_append] at h
  obtain ⟨flushed, synced, h⟩ := h
  have hm := h.marks
  refine ⟨hm.log_accepted, hm.index_accepted, hm.log_flushed_le, fun k hk => ?_⟩
  have hlt := hm.fills.encodings_lt
  rw [Ghost.all, encodings_append, List.length_append] at hlt
  rw [entryAt_of_isPrefix hm.index_accepted hk hlt]
  exact Nat.add_le_add_left (hm.visible (k + 1) hk) _

omit [Crc32c] in
/-- The second flush stops after three bytes of its record, before anything of the entry. -/
theorem index_follows_log_torn : letI := Crc32c.reference
    let f : LogFileId := .first ⟨0, by decide⟩
    let base := [Fills.firstRecord f]
    let second : Record := .encode ⟨f.streamId, ⟨1, by decide⟩⟩ [] (Nat.zero_le _)
    let third : Record := .encode ⟨f.streamId, ⟨2, by decide⟩⟩ [0x68] (by decide)
    let ops := [.writeRecord second, .flush .calm, .writeRecord third,
      .flush (Plan.stop.after [.upTo 3 0, .fault (.device 5)])]
    let w := (ofInitialized ⟨f, endOf base⟩).getD (new f)
    let s := run (w, .new, .new) ops
    let rs := written (w, .new, .new) ops
    (s.2.1.accepted.length = 19 ∧ s.2.1.flushed = 16 ∧
      s.2.2.accepted = [32, 0, 0, 0, 0, 0, 0, 0]) ∧
    s.2.1.accepted <+: encodings rs ∧
      s.2.2.accepted <+: entries (encodings base).length rs ∧
      s.2.1.flushed ≤ s.2.1.accepted.length ∧
      ∀ k, indexEntryLen * (k + 1) ≤ s.2.2.accepted.length →
        entryAt s.2.2.accepted k ≤ (encodings base).length + s.2.1.flushed := by
  intro f base second third ops w
  have hw : ofInitialized ⟨f, @endOf .reference base⟩ = some w := by decide +kernel
  have h := @index_follows_log .reference f base w (.inr ⟨@Fills.first .reference f, hw⟩) ops
  exact ⟨by decide +kernel, h⟩

end IndexedLogWriter

end TransactionLog
