import TransactionLog.Record.Writer

/-!
# Runs of the record writer

A run calls the operations that a writer's mode offers one after another, each
under a plan of its own for the calls to the destination.  A cancelled operation
is one whose plan stops, so the state at any moment inside an operation is the
state at the end of a run.

`run_carries` says what the destination has accepted at any moment, and that an
output which has failed once is never resumed.
-/

namespace TransactionLog

open Lib Protocol

namespace Callback

variable {ε : Type}

/-- What the callback leaves in the builder as its payload. -/
def payload (cb : Callback ε) : List UInt8 := (cb.run (.new [])).2.payload

/-- The callback cannot see the records already in the buffer. -/
theorem run_rebase (buffer : List UInt8) (start : Nat) : ∀ (cb : Callback ε) (b : RecordBuilder),
    cb.run { b with buffer := buffer, start := start } =
      ((cb.run b).1, { (cb.run b).2 with buffer := buffer, start := start }) := by
  intro cb
  induction cb with
  | done result => exact fun b => rfl
  | unwind => exact fun b => rfl
  | write chunk next ih =>
    intro b
    have hwrite : RecordBuilder.write { b with buffer := buffer, start := start } chunk =
        ((b.write chunk).1, { (b.write chunk).2 with buffer := buffer, start := start }) := by
      obtain ⟨_, _, payload, _ | error, finished⟩ := b
      · simp only [RecordBuilder.write, RecordBuilder.checkError]
        split <;> rfl
      · rfl
    rw [run, hwrite, ih]
    rfl
  | flush next ih => exact fun b => ih _ b

theorem run_new (cb : Callback ε) (buffer : List UInt8) :
    cb.run (.new buffer) = ((cb.run (.new [])).1,
      { (cb.run (.new [])).2 with buffer := buffer, start := buffer.length }) :=
  cb.run_rebase buffer buffer.length (.new [])

end Callback

namespace RecordWriter

/-- The two append interfaces of a writer. -/
inductive WriterMode where
  | serializeRecords
  | existingRecords

variable [Crc32c]

/-- The operations of a writer.  Each mode has its own way to append. -/
inductive Op (ε : Type) : WriterMode → Type where
  | write (id : RecordId) (writeBody : Callback ε) : Op ε .serializeRecords
  | writeRecord (record : Record) : Op ε .existingRecords
  | flushBuffer {mode : WriterMode} : Op ε mode
  | flush {mode : WriterMode} : Op ε mode
  | syncData {mode : WriterMode} : Op ε mode

/-- The operations that call the destination. -/
def Op.isOutput {ε : Type} {mode : WriterMode} : Op ε mode → Bool
  | .write _ _ | .writeRecord _ => false
  | .flushBuffer | .flush | .syncData => true

variable {ε : Type} {mode : WriterMode}

/-- A writer and what its destination has seen. -/
abbrev State := RecordWriter × Channel

/-- An operation as a caller meets it; a callback that unwinds takes the call with it. -/
def perform : Op ε mode → Io State (RecordWriteError ε) Unit
  | .write id writeBody => do
    let s ← Io.get
    Io.modify fun t => ((s.1.write id writeBody).2, t.2)
    match (s.1.write id writeBody).1 with
    | some r => Io.ofExcept r
    | none => Io.panic
  | .writeRecord record => do
    let s ← Io.get
    match s.1.writeRecord record with
    | .ok w => Io.modify fun t => (w, t.2)
    | .error e => Io.throw (.output e)
  | .flushBuffer => Io.mapErr .output (Output.flushBuffer Channel.dest)
  | .flush => Io.mapErr .output (Output.flush Channel.dest)
  | .syncData => Io.mapErr .output (Output.syncData Channel.dest)

/-- The bytes that an operation appends if it succeeds. -/
def Op.frame : Op ε mode → List UInt8
  | .write id writeBody => encodeFrame id writeBody.payload
  | .writeRecord record => record.bytes
  | .flushBuffer | .flush | .syncData => []

/-- What one operation appends when it ends in `r`. -/
def Op.appended (op : Op ε mode) : Except (Exit (RecordWriteError ε)) Unit → List UInt8
  | .ok () => op.frame
  | .error _ => []

def run : List (Op ε mode × Plan) → State → State
  | [], s => s
  | (op, plan) :: ops, s => run ops ((perform op).run s plan).2.sys

/-- The frames successfully appended by the operations, in order. -/
def appended : List (Op ε mode × Plan) → State → List UInt8
  | [], _ => []
  | (op, plan) :: ops, s =>
    op.appended ((perform op).run s plan).1 ++ appended ops ((perform op).run s plan).2.sys

/-- The destination has accepted some of `sent` from its start, and the rest of it is in
the buffer of a writer that may go on. -/
def Carries (sent : List UInt8) (s : State) : Prop :=
  s.2.accepted <+: sent ∧ (s.1.usable = true → s.2.accepted ++ s.1.buffer = sent)

/-- The call is turned down before it reaches the destination. -/
def Refuses (s : State) (op : Op ε mode) (plan : Plan) : Prop :=
  (perform op).run s plan = (.error (.error (.output .unusable)), ⟨s, plan⟩)

/-! ### One operation -/

theorem perform_unusable {s : State} (h : s.1.usable = false) (op : Op ε mode) (plan : Plan) :
    Refuses s op plan := by
  obtain ⟨⟨buffer, usable⟩, ch⟩ := s
  simp only at h
  subst h
  cases op <;> rfl

theorem write_ok {w w' : RecordWriter} {id : RecordId} {cb : Callback ε} (hw : w.usable = true)
    (h : w.write id cb = (some (.ok ()), w')) :
    w' = ⟨w.buffer ++ encodeFrame id cb.payload, true⟩ := by
  obtain ⟨buffer, usable⟩ := w
  simp only at hw
  subst hw
  have hframe := cb.run_frame (.new buffer)
  have hpayload : (cb.run (.new buffer)).2.payload = cb.payload := by
    rw [cb.run_new, Callback.payload]
  rw [write, Output.checkUsable] at h
  simp only [if_true] at h
  rcases hrun : cb.run (.new buffer) with ⟨_ | _ | _, builder⟩ <;> rw [hrun] at h hframe hpayload
  · cases h
  · simp only at h
    split at h <;> cases h
  · simp only [RecordBuilder.finish] at h hpayload
    cases hcheck : builder.checkError with
    | error e =>
      rw [hcheck] at h
      cases h
    | ok u =>
      rw [hcheck] at h
      rw [← (Prod.mk.inj h).2, RecordBuilder.drop, encodeFrame, hframe.1, hpayload]
      rfl

variable {b sent : List UInt8} {s : State}

omit [Crc32c] in
theorem Carries.append {ch : Channel} (h : Carries sent (⟨b, true⟩, ch)) (frame : List UInt8) :
    Carries (sent ++ frame) (⟨b ++ frame, true⟩, ch) :=
  ⟨h.1.trans (List.prefix_append _ _), fun _ => by rw [← h.2 rfl, List.append_assoc]⟩

/-- What an operation of a usable writer ends in.  An output that does not succeed is the
last one; an append that does not succeed changes nothing. -/
def Carried (sent b : List UInt8) (op : Op ε mode) (r : Except (Exit (RecordWriteError ε)) Unit)
    (s : State) : Prop :=
  Carries (sent ++ op.appended r) s ∧
    ((r = .ok () ∨ op.isOutput = false) → s.1.usable = true) ∧
    (r ≠ .ok () → s.1.buffer = b ∧ (op.isOutput = true → s.1.usable = false))

theorem carried_ok {op : Op ε mode} (h : Carries (sent ++ op.frame) s) (hs : s.1.usable = true) :
    Carried sent b op (.ok ()) s :=
  ⟨h, fun _ => hs, fun hr => absurd rfl hr⟩

theorem carried_rejected {op : Op ε mode} {e : Exit (RecordWriteError ε)} {ch : Channel}
    (hop : op.isOutput = false) (h : Carries sent (⟨b, true⟩, ch)) :
    Carried sent b op (.error e) (⟨b, true⟩, ch) := by
  refine ⟨?_, fun _ => rfl, fun _ => ⟨rfl, fun h => ?_⟩⟩
  · rw [Op.appended, List.append_nil]
    exact h
  · rw [hop] at h
    cases h

/-- A failed output has sent some of the batch and leaves the batch in the buffer. -/
theorem carried_failed {op : Op ε mode} {e : Exit (RecordWriteError ε)} {ch : Channel}
    (hop : op.isOutput = true) (h : ch.accepted <+: sent) :
    Carried sent b op (.error e) (⟨b, false⟩, ch) := by
  refine ⟨⟨?_, fun h => absurd h (by simp)⟩, ?_, fun _ => ⟨rfl, fun _ => rfl⟩⟩
  · rw [Op.appended, List.append_nil]
    exact h
  · rintro (hr | hr)
    · cases hr
    · rw [hop] at hr
      cases hr

/-- A call to the destination that `m` makes, seen through the writer's error type. -/
theorem output_carried {m : Io State RecordOutputError Unit} {op : Op ε mode} {ch : Channel}
    (hop : op.isOutput = true) (hm : perform op = Io.mapErr .output m)
    (h : Triple ⟨False, fun _ => True⟩ (fun s => s = (⟨b, true⟩, ch)) m
      (fun _ s => s.1.usable = true ∧ Carries sent s)
      fun _ s => s.1 = ⟨b, false⟩ ∧ s.2.accepted <+: sent) (plan : Plan) :
    Carried sent b op ((perform op).run (⟨b, true⟩, ch) plan).1
      ((perform op).run (⟨b, true⟩, ch) plan).2.sys := by
  have hframe : op.frame = [] := by
    cases op <;> first | rfl | cases hop
  have hfail : ∀ (e : Exit (RecordWriteError ε)) (s : State),
      s.1 = ⟨b, false⟩ ∧ s.2.accepted <+: sent → Carried sent b op (.error e) s := by
    rintro e ⟨w, ch⟩ ⟨rfl, hs⟩
    exact carried_failed hop hs
  have ht : Triple ⟨False, fun _ => True⟩ (fun s => s = (⟨b, true⟩, ch)) (perform op)
      (fun _ s => Carried sent b op (.ok ()) s) fun e s => Carried sent b op (.error e) s := by
    rw [hm]
    refine .mapErr (h.conseq (fun _ h => h) ?_ ?_)
    · exact fun _ s hs => carried_ok (by rw [hframe, List.append_nil]; exact hs.2) hs.1
    · rintro (e | _ | _) s hs <;> exact hfail _ s hs
  obtain ⟨-, hr⟩ := ht ⟨(⟨b, true⟩, ch), plan⟩ rfl plan.within_any
  rw [Io.run]
  rcases hp : perform op ⟨(⟨b, true⟩, ch), plan⟩ with ⟨e | a, w⟩ <;> rw [hp] at hr <;> exact hr

theorem perform_carried {ch : Channel} (h : Carries sent (⟨b, true⟩, ch)) (op : Op ε mode)
    (plan : Plan) : Carried sent b op ((perform op).run (⟨b, true⟩, ch) plan).1
      ((perform op).run (⟨b, true⟩, ch) plan).2.sys := by
  have hsent : ch.accepted ++ b = sent := h.2 rfl
  cases op with
  | write id cb =>
    rcases hw : RecordWriter.write ⟨b, true⟩ id cb with ⟨r, w'⟩
    by_cases hr : r = some (.ok ())
    · subst hr
      have := write_ok rfl hw
      subst this
      simp only [perform, Io.run, Io.bind_apply, Io.get, Io.modify, hw]
      exact carried_ok (h.append _) rfl
    · have := write_error hw hr
      subst this
      simp only [perform, Io.run, Io.bind_apply, Io.get, Io.modify, hw]
      rcases r with _ | e | _
      · exact carried_rejected rfl h
      · exact carried_rejected rfl h
      · exact absurd rfl hr
  | writeRecord record => exact carried_ok (h.append _) rfl
  | flushBuffer =>
    refine output_carried rfl rfl (Triple.conseq (P := fun s => s.1 = ⟨b, true⟩ ∧ ch = s.2)
      (Output.flushBuffer_tracked Output.tracked_channel) ?_ ?_ ?_) plan
    · rintro _ rfl
      exact ⟨rfl, rfl⟩
    · rintro _ ⟨w, ch'⟩ ⟨rfl, rfl⟩
      refine ⟨rfl, ?_, fun _ => ?_⟩
      · rw [hsent]
      · rw [hsent, List.append_nil]
    · rintro e ⟨w, ch'⟩ ⟨-, -, rfl, bs, hbs, rfl⟩
      refine ⟨rfl, ?_⟩
      rw [← hsent]
      exact (List.prefix_append_right_inj _).mpr hbs
  | flush =>
    refine output_carried rfl rfl (Triple.conseq (P := fun s => s.1 = ⟨b, true⟩ ∧ ch = s.2)
      (Output.flush_tracked Output.tracked_channel) ?_ ?_ ?_) plan
    · rintro _ rfl
      exact ⟨rfl, rfl⟩
    · rintro _ ⟨w, ch'⟩ ⟨rfl, rfl⟩
      exact ⟨rfl, h⟩
    · rintro e ⟨w, ch'⟩ ⟨-, -, rfl, rfl⟩
      exact ⟨rfl, h.1⟩
  | syncData =>
    refine output_carried rfl rfl (Triple.conseq (P := fun s => s.1 = ⟨b, true⟩ ∧ ch = s.2)
      (Output.syncData_tracked Output.tracked_channel) ?_ ?_ ?_) plan
    · rintro _ rfl
      exact ⟨rfl, rfl⟩
    · rintro _ ⟨w, ch'⟩ ⟨rfl, rfl⟩
      exact ⟨rfl, h⟩
    · rintro e ⟨w, ch'⟩ ⟨-, -, rfl, rfl⟩
      exact ⟨rfl, h.1⟩

/-! ### Runs -/

theorem run_carried : ∀ (ops : List (Op ε mode × Plan)) {sent : List UInt8} {s : State},
    Carries sent s → Carries (sent ++ appended ops s) (run ops s) := by
  intro ops
  induction ops with
  | nil =>
    intro sent s h
    rw [appended, List.append_nil]
    exact h
  | cons x ops ih =>
    intro sent s h
    obtain ⟨op, plan⟩ := x
    obtain ⟨⟨b, _ | _⟩, ch⟩ := s
    · have hrefused : Refuses (⟨b, false⟩, ch) op plan := perform_unusable rfl op plan
      rw [appended, run, hrefused, Op.appended, List.nil_append]
      exact ih h
    · have hcarried := (perform_carried h op plan).1
      rw [appended, run, ← List.append_assoc]
      exact ih hcarried

theorem run_unusable {s : State} (h : s.1.usable = false) :
    ∀ ops : List (Op ε mode × Plan), run ops s = s
  | [] => rfl
  | (op, plan) :: ops => by
    have hrefused : Refuses s op plan := perform_unusable h op plan
    rw [run, hrefused]
    exact run_unusable h ops

/-- **Record output never replays or loses anything.**  At any moment the destination has
accepted the frames appended so far up to some byte; between the operations of a usable
writer the buffer holds exactly the rest.  Once an output has failed or was abandoned,
the batch stays in the buffer, and every later call is turned down with nothing done. -/
theorem run_carries (ops : List (Op ε mode × Plan)) :
    let s := run ops (Output.new, Channel.new)
    Carries (appended ops (Output.new, Channel.new)) s ∧
      ∀ (op : Op ε mode) (plan : Plan), op.isOutput = true →
        ((perform op).run s plan).1 ≠ .ok () →
        let s' := ((perform op).run s plan).2.sys
        s'.1 = ⟨s.1.buffer, false⟩ ∧ ∀ later : List (Op ε mode × Plan), run later s' = s' ∧
          ∀ (op' : Op ε mode) (plan' : Plan), Refuses (run later s') op' plan' := by
  have hstart : Carries [] (Output.new, Channel.new) := ⟨List.prefix_rfl, fun _ => rfl⟩
  have hcarries := run_carried ops hstart
  rw [List.nil_append] at hcarries
  refine ⟨hcarries, fun op plan hop hfail => ?_⟩
  generalize run ops (Output.new, Channel.new) = s at hcarries hfail ⊢
  have hdead : ((perform op).run s plan).2.sys.1 = ⟨s.1.buffer, false⟩ := by
    obtain ⟨⟨b, _ | _⟩, ch⟩ := s
    · have hrefused : Refuses (⟨b, false⟩, ch) op plan := perform_unusable rfl op plan
      rw [hrefused]
    · obtain ⟨hbuffer, husable⟩ := (perform_carried hcarries op plan).2.2 hfail
      exact congrArg₂ Output.mk hbuffer (husable hop)
  refine ⟨hdead, fun later => ?_⟩
  have hsame := run_unusable (by rw [hdead]) later
  exact ⟨hsame, fun op' plan' => by rw [hsame]; exact perform_unusable (by rw [hdead]) op' plan'⟩

end RecordWriter

end TransactionLog
