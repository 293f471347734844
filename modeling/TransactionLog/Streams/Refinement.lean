import TransactionLog.Lib.DurableLog
import TransactionLog.Streams.Service

/-!
# A stream is a durable log

`answer` is what the client of a stream sees of an operation.  In every run of sessions the
answers are those of a durable log whose entries are the history: which records are
accepted, and at which offsets, when a writer can be finalized, and with how many records a
stream is opened again.

`Abstracts` is the simulation.  While a writer is open, what is acknowledged is just what
the invariant of the sessions has as durable.
-/

namespace TransactionLog

open Lib

namespace Sessions

open StreamInitializer (initializeStream recordsThrough HandedOver countThrough)
open IndexedLogWriter (At Tracks Ghost Marks ofInitialized)

section Operations

variable [Crc32c]

/-- What an operation of the open writer returns. -/
def reply {α : Type} (st : State) (plan : Plan)
    (m : IndexedLogWriter → Io (IndexedLogWriter × Tree) IndexedLogWriteError α) : Option α :=
  st.writer.bind fun writer => ((m writer).run (writer, st.tree) plan).1.toOption

/-- With how many records a stream is handed over. -/
def countOf (i : InitializedStream) : Nat := i.endLocation.elim i.fileId.before countThrough

variable [CheckpointReader] (p : StorageProvider) (s : StreamId)

/-- What the client sees. -/
def answer (st : State) : Op p s → LogEvent Record
  | .start plan => .openLog (((initializeStream p s).run st.tree plan).1.toOption.map countOf)
  | .writeRecord record => .append record
    ((reply st .calm fun _ => IndexedLogWriter.writeRecord record).map
      fun outcome => outcome.endLocation.recordId.sequenceNumber.get)
  | .flush plan =>
    .flush (reply st plan fun w => IndexedLogWriter.flush (logDest p w) (indexDest p w)).isSome
  | .syncData plan =>
    .sync (reply st plan fun w => IndexedLogWriter.syncData (logDest p w) (indexDest p w)).isSome
  | .finalize => .finalize
    ((reply st .calm fun _ => (IndexedLogWriter.finalize : Io (IndexedLogWriter × Tree) _ _)).map
      countThrough)
  | .drop => .close
  | .crash _ => .close

def answers : State → List (Op p s) → List (LogEvent Record)
  | _, [] => []
  | st, op :: ops => answer p s st op :: answers (step p s st op) ops

end Operations

def modeOf : IndexedLogWriterState → WriterMode
  | .opened => .opened
  | .unusable => .failed
  | .finalized => .finalized

theorem modeOf_eq_opened {state : IndexedLogWriterState} :
    modeOf state = .opened ↔ state = .opened := by
  cases state <;> simp [modeOf]

/-- The writer of the log. -/
def writerOf (w : IndexedLogWriter) : LogWriter :=
  ⟨w.fileId.before + recordsPerFile, modeOf w.state⟩

/-- How many records are synchronized, as the writer has it. -/
def durableThrough (w : IndexedLogWriter) : Nat :=
  w.syncedEnd.elim w.fileId.before countThrough

variable [Crc32c]

/-- A stream takes the record with the next ID, up to the last but one. -/
def logSpec (s : StreamId) : LogSpec Record where
  admits n record := record.id.streamId = s ∧ record.id.sequenceNumber.get = n
  capacity := recordsPerFile
  bound := 2 ^ 64

variable {p : StorageProvider} {s : StreamId} {st : State} {n : Nat}
  {d : Disk} {cp : Option StreamCheckpoint} {plan : Plan} {i : InitializedStream}
  {w : IndexedLogWriter} {l l' : DurableLog Record} {g : Ghost} {tree : Tree}
  {J : Channel → Channel → Tree → Prop}

/-! ### The open writer -/

/-- The records of a file and those before it. -/
theorem count_endOf {rs : List Record} {f : LogFileId} (h : Fills f rs) :
    (endOf rs).elim f.before countThrough = f.before + rs.length := by
  cases he : endOf rs with
  | none =>
    rw [endOf_eq_none.mp he, Option.elim_none, List.length_nil, Nat.add_zero]
  | some e =>
    obtain ⟨-, -, hn, -⟩ := h.endOf_eq_some he
    rw [Option.elim_some, countThrough, hn, LogFileId.first_sequence]

theorem At.marks {f : LogFileId} {x : IndexedLogWriter × Tree} (h : At f J g x) :
    ∃ l k, Marks f g x.1 l k := by
  obtain ⟨l, k, hinv, -⟩ := h
  exact ⟨l, k, hinv.marks⟩

theorem At.durable {f : LogFileId} {x : IndexedLogWriter × Tree} (h : At f J g x) :
    x.1.fileId = f ∧ durableThrough x.1 = f.before + g.synced := by
  obtain ⟨l, k, hm⟩ := At.marks h
  have hle := Nat.le_trans hm.synced_le hm.flushed_le
  refine ⟨hm.file, ?_⟩
  rw [durableThrough, hm.file, hm.syncedEnd, count_endOf (hm.fills.of_isPrefix (List.take_prefix _ _)),
    List.length_take_of_le hle]

/-- What the invariant says of the open writer. -/
structure Tracked (p : StorageProvider) (s : StreamId) (J : Channel → Channel → Tree → Prop)
    (g : Ghost) (st : State) (w : IndexedLogWriter) (n : Nat) : Prop where
  tracks : Tracks (logDest p w) (indexDest p w) J
  at_tree : At w.fileId J g (w, st.tree)
  length : st.history.length = w.fileId.before + g.all.length
  durable : n = w.fileId.before + g.synced
  stream : w.fileId.streamId = s

variable [CheckpointReader]

theorem Holds.tracked (h : Holds p s st n) (hw : st.writer = some w) :
    ∃ J g, Tracked p s J g st w n := by
  cases h with
  | fresh _ closed => rw [closed] at hw; cases hw
  | there on _ _ writer =>
    obtain ⟨-, g, l, k, L, I, hwriting⟩ := writer w hw
    have hlength := IndexedLogWriter.length_extended (g := g) hwriting.before_le
    rw [← hwriting.history] at hlength
    exact ⟨_, g, IndexedLogWriter.tracks_carries hwriting.stream _ _ _ _, hwriting.at_carries on,
      hlength, hwriting.durable, hwriting.stream⟩

/-- The stream as a durable log. -/
structure Abstracts (p : StorageProvider) (s : StreamId) (st : State) (l : DurableLog Record)
    (n : Nat) : Prop where
  holds : Holds p s st n
  entries : l.entries = st.history
  writer : l.writer = st.writer.map writerOf
  acked_le : l.acked ≤ n
  acked : st.writer.isSome → l.acked = n

/-! ### Operations of the writer -/

section Writer

variable {α : Type} {records : List Record}
  {m : IndexedLogWriter → Io (IndexedLogWriter × Tree) IndexedLogWriteError α}
  {x : World (IndexedLogWriter × Tree)}

omit [CheckpointReader] in
/-- How an operation of the writer ends. -/
theorem perform_cases (st : State) (records : List Record) (plan : Plan)
    (m : IndexedLogWriter → Io (IndexedLogWriter × Tree) IndexedLogWriteError α) :
    (st.writer = none ∧ perform st records plan m = st ∧ reply st plan m = none) ∨
    (∃ w e x, st.writer = some w ∧ (m w).run (w, st.tree) plan = (.error e, x) ∧
      perform st records plan m = { st with tree := x.sys.2, writer := some x.sys.1 } ∧
      reply st plan m = none) ∨
    ∃ w a x, st.writer = some w ∧ (m w).run (w, st.tree) plan = (.ok a, x) ∧
      perform st records plan m = { st with
        tree := x.sys.2, writer := some x.sys.1, history := st.history ++ records } ∧
      reply st plan m = some a := by
  unfold perform reply
  cases hw : st.writer with
  | none => exact .inl ⟨rfl, rfl, rfl⟩
  | some w =>
    rcases hrun : (m w).run (w, st.tree) plan with ⟨e | a, x⟩
    · refine .inr (.inl ⟨w, e, x, rfl, hrun, ?_⟩)
      simp only [hrun, Option.bind_some]
      exact ⟨trivial, rfl⟩
    · refine .inr (.inr ⟨w, a, x, rfl, hrun, ?_⟩)
      simp only [hrun, Option.bind_some]
      exact ⟨trivial, rfl⟩

/-- The log after an operation of the writer: what is durable can be read off the writer. -/
theorem Abstracts.of_at {st' : State} {x : IndexedLogWriter × Tree} {f : LogFileId} {n' : Nat}
    (hholds : Holds p s st' n') (hx : st'.writer = some x.1) (hat : At f J g x)
    (hentries : l'.entries = st'.history) (hwriter : l'.writer = some (writerOf x.1))
    (hacked : l'.acked = f.before + g.synced) : Abstracts p s st' l' n' := by
  obtain ⟨J', g', htracked⟩ := hholds.tracked hx
  have hsame : l'.acked = n' := by
    rw [hacked, ← (At.durable hat).2, (At.durable htracked.at_tree).2, htracked.durable]
  exact ⟨hholds, hentries, by rw [hx, hwriter]; rfl, Nat.le_of_eq hsame, fun _ => hsame⟩

omit [CheckpointReader] in
/-- When the log takes a record, in terms of the writer. -/
theorem Tracked.accepts_iff (h : Tracked p s J g st w n) (hentries : l.entries = st.history)
    (hwriter : l.writer = some (writerOf w)) {record : Record} :
    l.Accepts (logSpec s) record ↔ w.state = .opened ∧ g.all.length < recordsPerFile ∧
      w.fileId.before + g.all.length + 1 < 2 ^ 64 ∧ record.id = w.expectedRecordId := by
  obtain ⟨_, _, hinv, -⟩ := h.at_tree
  have hm := hinv.marks
  have hstream : w.expectedRecordId.streamId = s := hm.expected_stream.trans h.stream
  have hexpected : w.expectedRecordId.sequenceNumber.get = st.history.length := by
    rw [hm.expected, h.length, LogFileId.first_sequence]
  constructor
  · rintro ⟨w', ⟨hw', hopen⟩, hlt, hbound, hs, hn⟩
    obtain rfl := Option.some.inj (hwriter.symm.trans hw')
    rw [hentries, h.length] at hlt hbound
    rw [hentries] at hn
    exact ⟨modeOf_eq_opened.mp hopen, Nat.lt_of_add_lt_add_left hlt, hbound,
      RecordId.ext' (hs.trans hstream.symm) (hn.trans hexpected.symm)⟩
  · rintro ⟨hopen, hlt, hbound, hid⟩
    refine ⟨_, ⟨hwriter, modeOf_eq_opened.mpr hopen⟩, ?_, ?_, hid ▸ hstream, ?_⟩
    · rw [hentries, h.length]
      exact Nat.add_lt_add_left hlt _
    · rw [hentries, h.length]
      exact hbound
    · rw [hentries, hid]
      exact hexpected

theorem Abstracts.writer_some (h : Abstracts p s st l n) (hw : st.writer = some w) :
    l.writer = some (writerOf w) := by
  rw [h.writer, hw]
  rfl

/-- Without a writer the log refuses everything. -/
theorem Abstracts.unusable (h : Abstracts p s st l n) (hw : st.writer = none) (w' : LogWriter) :
    ¬ l.Usable w' := by
  rintro ⟨hw', -⟩
  rw [h.writer, hw] at hw'
  cases hw'

/-- The records stay where they are held when an operation runs. -/
theorem Abstracts.performed {α : Type} {records : List Record}
    {m : IndexedLogWriter → Io (IndexedLogWriter × Tree) IndexedLogWriteError α}
    (h : Abstracts p s st l n) (plan : Plan) (hm : Appends p records m) :
    ∃ n', Holds p s (perform st records plan m) n' := by
  obtain ⟨n', -, hholds⟩ := h.holds.perform hm
  exact ⟨n', hholds⟩

/-- What one operation does to the stream, the log does with the same answer. -/
def Matched (p : StorageProvider) (s : StreamId) (st : State) (l : DurableLog Record)
    (op : Op p s) : Prop :=
  ∃ l' n', DurableLog.Step (logSpec s) l (answer p s st op) l' ∧
    Abstracts p s (act p s st op) l' n'

theorem Abstracts.writeRecord (h : Abstracts p s st l n) (record : Record) :
    Matched p s st l (.writeRecord record) := by
  obtain ⟨n', hholds⟩ := h.performed .calm (appends_writeRecord record)
  rcases perform_cases st [record] .calm fun _ => IndexedLogWriter.writeRecord record with
    ⟨hw, hact, hreply⟩ | ⟨w, e, x, hw, hrun, hact, hreply⟩ | ⟨w, a, x, hw, hrun, hact, hreply⟩
  · refine ⟨l, n, ?_, by rw [act, hact]; exact h⟩
    rw [answer, hreply]
    refine .refused fun haccepts => ?_
    obtain ⟨w', hw', -⟩ := haccepts
    exact h.unusable hw w' hw'
  · obtain ⟨J, g, ht⟩ := h.holds.tracked hw
    obtain ⟨hx, -, -, hwhy⟩ := (IndexedLogWriter.writeRecord_triple (c := ⟨False, fun _ => True⟩)
      record (w, st.tree) ht.at_tree).error_of_run rfl (Plan.within_any _) hrun
    refine ⟨l, n, ?_, by rw [act, hact, hx, ← hw]; exact h⟩
    rw [answer, hreply]
    refine .refused fun haccepts => ?_
    obtain ⟨hopen, hlt, hbound, hid⟩ :=
      (ht.accepts_iff h.entries (h.writer_some hw)).mp haccepts
    have hlast := (hwhy hopen hid hlt).2
    rw [LogFileId.first_sequence] at hlast
    omega
  · obtain ⟨J, g, ht⟩ := h.holds.tracked hw
    obtain ⟨hat, hopen', hopen, hid, hend, -, hfull, -⟩ :=
      (IndexedLogWriter.writeRecord_triple (c := ⟨False, fun _ => True⟩)
        record (w, st.tree) ht.at_tree).ok_of_run rfl (Plan.within_any _) hrun
    obtain ⟨_, _, hmarks⟩ := At.marks hat
    have hlength : (g.append record).all.length = g.all.length + 1 := by
      rw [Ghost.all_append, List.length_append, List.length_singleton]
    have hfits := hmarks.fills.length_le
    have hexpected := hmarks.expected
    have hid_lt := x.sys.1.expectedRecordId.sequenceNumber.lt
    obtain ⟨-, -, hn, -⟩ := hmarks.fills.endOf_eq_some hend
    rw [LogFileId.first_sequence, hlength] at hexpected hn
    have hoffset : a.endLocation.recordId.sequenceNumber.get = l.entries.length := by
      rw [h.entries, ht.length]
      omega
    have haccepts : l.Accepts (logSpec s) record :=
      (ht.accepts_iff h.entries (h.writer_some hw)).mpr ⟨hopen, by omega, by omega, hid⟩
    have hwriter : l.writer = some (writerOf x.sys.1) := by
      rw [h.writer_some hw, writerOf, writerOf, hmarks.file, hopen, hopen']
    rw [hact] at hholds
    refine ⟨{ l with entries := l.entries ++ [record] }, n', ?_, ?_⟩
    · rw [answer, hreply, Option.map_some, hoffset]
      exact .accepted haccepts
    · rw [act, hact]
      refine .of_at hholds rfl hat (congrArg (· ++ [record]) h.entries) hwriter ?_
      rw [h.acked (by rw [hw]; rfl), ht.durable]
      rfl

omit [CheckpointReader] in
/-- A writer that is closed by a failure is one of the failed log. -/
theorem writer_fail {c : Mode} {e : Exit IndexedLogWriteError} {x : IndexedLogWriter × Tree}
    (hwriter : l.writer = some (writerOf w))
    (h : IndexedLogWriter.Closed c w.fileId J w.state g e x) :
    l.fail.writer = some (writerOf x.1) := by
  obtain ⟨-, hat, -, hopen, hclosed⟩ := h
  rw [DurableLog.fail, hwriter, Option.map_some, writerOf, writerOf, (At.durable hat).1]
  by_cases hw : w.state = .opened
  · rw [if_pos (modeOf_eq_opened.mpr hw), (hopen hw).2]
    rfl
  · rw [if_neg fun hm => hw (modeOf_eq_opened.mp hm), hclosed hw]

/-- Nothing fails where no writer is open. -/
theorem Abstracts.fail (h : Abstracts p s st l n) (hw : st.writer = none) :
    Abstracts p s st l.fail n where
  holds := h.holds
  entries := h.entries
  writer := by rw [DurableLog.fail, h.writer, hw]; rfl
  acked_le := h.acked_le
  acked := h.acked

/-- A failed flush or synchronization. -/
theorem Abstracts.failed {n' : Nat} {w' : IndexedLogWriter} {tree : Tree} {f : LogFileId}
    (h : Abstracts p s st l n) (hw : st.writer = some w)
    (hholds : Holds p s { st with tree := tree, writer := some w' } n')
    (hwriter : l.fail.writer = some (writerOf w')) (hat : At f J g (w', tree))
    (hn : n = f.before + g.synced) :
    Abstracts p s { st with tree := tree, writer := some w' } l.fail n' := by
  refine .of_at hholds rfl hat h.entries hwriter ?_
  rw [DurableLog.acked_fail, h.acked (by rw [hw]; rfl), hn]

theorem Abstracts.flush (h : Abstracts p s st l n) (plan : Plan) :
    Matched p s st l (.flush plan) := by
  obtain ⟨n', hholds⟩ := h.performed plan appends_flush
  rcases perform_cases st [] plan fun w => IndexedLogWriter.flush (logDest p w) (indexDest p w) with
    ⟨hw, hact, hreply⟩ | ⟨w, e, x, hw, hrun, hact, hreply⟩ | ⟨w, a, x, hw, hrun, hact, hreply⟩
  · refine ⟨l.fail, n, ?_, by rw [act, hact]; exact h.fail hw⟩
    rw [answer, hreply]
    exact .unflushed
  · obtain ⟨J, g, ht⟩ := h.holds.tracked hw
    have hclosed := (IndexedLogWriter.flush_triple (c := ⟨False, fun _ => True⟩) ht.tracks
      w.state).error_of_run ⟨ht.at_tree, rfl⟩ (Plan.within_any _) hrun
    rw [hact] at hholds
    refine ⟨l.fail, n', by rw [answer, hreply]; exact .unflushed, ?_⟩
    rw [act, hact]
    exact h.failed hw hholds (writer_fail (h.writer_some hw) hclosed) hclosed.2.1 ht.durable
  · obtain ⟨J, g, ht⟩ := h.holds.tracked hw
    obtain ⟨hat, hopen', hopen⟩ := (IndexedLogWriter.flush_triple (c := ⟨False, fun _ => True⟩)
      ht.tracks w.state).ok_of_run ⟨ht.at_tree, rfl⟩ (Plan.within_any _) hrun
    have hwriter : l.writer = some (writerOf x.sys.1) := by
      rw [h.writer_some hw, writerOf, writerOf, (At.durable hat).1, hopen, hopen']
    rw [hact] at hholds
    refine ⟨l, n', ?_, ?_⟩
    · rw [answer, hreply]
      exact .flushed ⟨h.writer_some hw, modeOf_eq_opened.mpr hopen⟩
    · rw [act, hact]
      refine .of_at hholds rfl hat (h.entries.trans (List.append_nil _).symm) hwriter ?_
      rw [h.acked (by rw [hw]; rfl), ht.durable]

theorem Abstracts.syncData (h : Abstracts p s st l n) (plan : Plan) :
    Matched p s st l (.syncData plan) := by
  obtain ⟨n', hholds⟩ := h.performed plan appends_syncData
  rcases perform_cases st [] plan fun w => IndexedLogWriter.syncData (logDest p w) (indexDest p w)
    with ⟨hw, hact, hreply⟩ | ⟨w, e, x, hw, hrun, hact, hreply⟩ | ⟨w, a, x, hw, hrun, hact, hreply⟩
  · refine ⟨l.fail, n, ?_, by rw [act, hact]; exact h.fail hw⟩
    rw [answer, hreply]
    exact .unsynced
  · obtain ⟨J, g, ht⟩ := h.holds.tracked hw
    have hclosed := (IndexedLogWriter.syncData_triple (c := ⟨False, fun _ => True⟩) ht.tracks
      w.state).error_of_run ⟨ht.at_tree, rfl⟩ (Plan.within_any _) hrun
    rw [hact] at hholds
    refine ⟨l.fail, n', by rw [answer, hreply]; exact .unsynced, ?_⟩
    rw [act, hact]
    -- all records may have been flushed before the failure
    rcases hclosed with hclosed | ⟨-, hclosed⟩
    · exact h.failed hw hholds (writer_fail (h.writer_some hw) hclosed) hclosed.2.1 ht.durable
    · exact h.failed hw hholds (writer_fail (h.writer_some hw) hclosed) hclosed.2.1 ht.durable
  · obtain ⟨J, g, ht⟩ := h.holds.tracked hw
    obtain ⟨hat, hopen', hopen⟩ := (IndexedLogWriter.syncData_triple (c := ⟨False, fun _ => True⟩)
      ht.tracks w.state).ok_of_run ⟨ht.at_tree, rfl⟩ (Plan.within_any _) hrun
    have hwriter : l.writer = some (writerOf x.sys.1) := by
      rw [h.writer_some hw, writerOf, writerOf, (At.durable hat).1, hopen, hopen']
    rw [hact] at hholds
    refine ⟨{ l with acked := l.entries.length }, n', ?_, ?_⟩
    · rw [answer, hreply]
      exact .synced ⟨h.writer_some hw, modeOf_eq_opened.mpr hopen⟩
    · rw [act, hact]
      refine .of_at hholds rfl hat (h.entries.trans (List.append_nil _).symm) hwriter ?_
      rw [h.entries, ht.length]

omit [CheckpointReader] in
/-- When the log is final, in terms of the writer. -/
theorem Tracked.final_iff (h : Tracked p s J g st w n) (hentries : l.entries = st.history)
    (hwriter : l.writer = some (writerOf w)) (hacked : l.acked = n) :
    l.Final ↔ w.state = .opened ∧ g.all.length = recordsPerFile ∧ g.synced = g.all.length := by
  constructor
  · rintro ⟨w', ⟨hw', hopen⟩, hfull, hsynced⟩
    obtain rfl := Option.some.inj (hwriter.symm.trans hw')
    rw [hentries, h.length] at hfull hsynced
    rw [hacked, h.durable] at hsynced
    exact ⟨modeOf_eq_opened.mp hopen, Nat.add_left_cancel hfull, Nat.add_left_cancel hsynced⟩
  · rintro ⟨hopen, hfull, hsynced⟩
    refine ⟨_, ⟨hwriter, modeOf_eq_opened.mpr hopen⟩, ?_, ?_⟩
    · rw [hentries, h.length, hfull]
      rfl
    · rw [hacked, hentries, h.length, h.durable, hsynced]

theorem Abstracts.finalize (h : Abstracts p s st l n) : Matched p s st l .finalize := by
  obtain ⟨n', hholds⟩ := h.performed .calm appends_finalize
  rcases perform_cases st [] .calm fun _ => IndexedLogWriter.finalize with
    ⟨hw, hact, hreply⟩ | ⟨w, e, x, hw, hrun, hact, hreply⟩ | ⟨w, a, x, hw, hrun, hact, hreply⟩
  · refine ⟨l, n, ?_, by rw [act, hact]; exact h⟩
    rw [answer, hreply]
    refine .unfinalized fun hfinal => ?_
    obtain ⟨w', hw', -⟩ := hfinal
    exact h.unusable hw w' hw'
  · obtain ⟨J, g, ht⟩ := h.holds.tracked hw
    obtain ⟨hx, -, -, hwhy⟩ := (IndexedLogWriter.finalize_triple (c := ⟨False, fun _ => True⟩)
      (w, st.tree) ht.at_tree).error_of_run rfl (Plan.within_any _) hrun
    refine ⟨l, n, ?_, by rw [act, hact, hx, ← hw]; exact h⟩
    rw [answer, hreply]
    refine .unfinalized fun hfinal => hwhy ?_
    exact (ht.final_iff h.entries (h.writer_some hw) (h.acked (by rw [hw]; rfl))).mp hfinal
  · obtain ⟨J, g, ht⟩ := h.holds.tracked hw
    obtain ⟨hat, hx, -, hopen, hfull, hsynced, hend⟩ :=
      (IndexedLogWriter.finalize_triple (c := ⟨False, fun _ => True⟩) (w, st.tree)
        ht.at_tree).ok_of_run rfl (Plan.within_any _) hrun
    have hacked : l.acked = n := h.acked (by rw [hw]; rfl)
    have hfinal : l.Final :=
      (ht.final_iff h.entries (h.writer_some hw) hacked).mpr ⟨hopen, hfull, hsynced⟩
    obtain ⟨_, _, hmarks⟩ := At.marks hat
    have hcount := count_endOf hmarks.fills
    rw [hend, Option.elim_some, ← ht.length, ← h.entries] at hcount
    have hwriter : l.finalized.writer = some (writerOf x.sys.1) := by
      rw [DurableLog.finalized, h.writer_some hw, hx]
      rfl
    rw [hact] at hholds
    refine ⟨l.finalized, n', ?_, ?_⟩
    · rw [answer, hreply, Option.map_some, hcount]
      exact .finalized hfinal
    · rw [act, hact]
      refine .of_at hholds rfl hat (h.entries.trans (List.append_nil _).symm) hwriter ?_
      rw [← ht.durable]
      exact hacked

end Writer

/-! ### Initializing -/

omit [CheckpointReader]

/-- A recovered stream is handed over with all records that are there. -/
theorem countOf_eq {H : List Record} (h : HandedOver s H d i)
    (hfills : Fills i.fileId (part i.fileId H)) : countOf i = H.length := by
  rw [countOf, h.end_eq, count_endOf hfills, ← h.count]

/-- The writer of the pair that is handed over takes records up to the end of its file. -/
theorem writerOf_initialized {H : List Record} (h : HandedOver s H d i)
    (hw : ofInitialized i = some w) :
    writerOf w = ⟨(H.length / recordsPerFile + 1) * recordsPerFile, .opened⟩ := by
  obtain ⟨id, -, rfl⟩ := Option.map_eq_some_iff.mp hw
  have hroom := h.room
  have hcount := h.count
  have hdiv : H.length / recordsPerFile = i.fileId.fileNumber.get := by
    rw [hcount, LogFileId.before_eq]
    rw [recordsPerFile_eq] at hroom ⊢
    omega
  rw [hdiv, writerOf, LogFileId.before_eq, recordsPerFile_eq, Nat.succ_mul]
  rfl

variable [CheckpointReader]

theorem Abstracts.start (h : Abstracts p s st l n) (plan : Plan) :
    Matched p s st l (.start plan) := by
  rcases hrun : (initializeStream p s).run st.tree plan with ⟨e | i, w⟩
  · obtain ⟨n', hn, hholds⟩ := h.holds.interrupted hrun
    refine ⟨{ l with writer := none }, n', ?_, ?_⟩
    · rw [answer, hrun]
      exact .unopened
    · simp only [act, hrun]
      exact ⟨hholds, h.entries, rfl, Nat.le_trans h.acked_le hn, fun hs => by cases hs⟩
  · have hrecovers := h.holds.initialized hrun
    have hconsistent := hrecovers.consistent
    have hhanded := hrecovers.handedOver
    obtain ⟨writer, hwriter⟩ := hhanded.writer hconsistent.consecutive hconsistent.short
    have hcount := countOf_eq hhanded (hconsistent.fills hhanded.stream)
    have hle := hrecovers.isPrefix.length_le
    have hdurable := hrecovers.durable.length_le
    have htake := List.prefix_iff_eq_take.mp hrecovers.isPrefix
    rw [List.length_take_of_le h.holds.le] at hdurable
    generalize hR : recordsThrough (diskOf p w.sys) i = R at *
    refine ⟨⟨l.entries.take R.length, R.length, some
      ⟨(R.length / recordsPerFile + 1) * recordsPerFile, .opened⟩⟩, R.length, ?_, ?_⟩
    · rw [answer, hrun]
      show DurableLog.Step _ l (.openLog (some (countOf i))) _
      rw [hcount]
      exact .opened (Nat.le_trans h.acked_le hdurable) (by rw [h.entries]; exact hle)
    · simp only [act, hrun, hR]
      refine ⟨?_, ?_, ?_, Nat.le_refl _, fun _ => rfl⟩
      · have hholds := hrecovers.holds st.reported
        rwa [hR] at hholds
      · rw [h.entries]
        exact htake.symm
      · rw [hwriter, Option.map_some, writerOf_initialized hhanded hwriter]

theorem Abstracts.close (h : Abstracts p s st l n) {tree : Tree}
    (hholds : Holds p s { st with tree := tree, writer := none } n) :
    Abstracts p s { st with tree := tree, writer := none } { l with writer := none } n :=
  ⟨hholds, h.entries, rfl, h.acked_le, fun hs => by cases hs⟩

/-- **One operation.** -/
theorem Abstracts.act (h : Abstracts p s st l n) (op : Op p s) : Matched p s st l op := by
  cases op with
  | start plan => exact h.start plan
  | writeRecord record => exact h.writeRecord record
  | flush plan => exact h.flush plan
  | syncData plan => exact h.syncData plan
  | finalize => exact h.finalize
  | drop => exact ⟨_, n, .closed, h.close h.holds.close⟩
  | crash c => exact ⟨_, n, .closed, h.close (h.holds.crashed c)⟩

/-- **A run of sessions** is one of the log, with the same answers. -/
theorem Abstracts.run : ∀ (ops : List (Op p s)) {st : State} {l : DurableLog Record} {n : Nat},
    Abstracts p s st l n → ∃ l' n', DurableLog.Run (logSpec s) l (answers p s st ops) l' ∧
      Abstracts p s (run p s st ops) l' n' := by
  intro ops
  induction ops with
  | nil => exact fun h => ⟨_, _, .nil, h⟩
  | cons op ops ih =>
    intro st l n h
    obtain ⟨l₁, n₁, hstep, h₁⟩ := h.act op
    have hreported : Abstracts p s (step p s st op) l₁ n₁ :=
      ⟨h₁.holds.report, h₁.entries, h₁.writer, h₁.acked_le, h₁.acked⟩
    obtain ⟨l', n', hrest, h'⟩ := ih hreported
    exact ⟨l', n', .cons hstep hrest, h'⟩

theorem abstracts_new {t : Tree} (h : Fresh p s t) : Abstracts p s (.new t) .empty 0 :=
  ⟨holds_new h, rfl, rfl, Nat.le_refl 0, fun hs => by cases hs⟩

/-! ### The service -/

omit [CheckpointReader] in
theorem Alike.reply {α : Type} {st' : State}
    {m : IndexedLogWriter → Io (IndexedLogWriter × Tree) IndexedLogWriteError α}
    (h : Alike p s st st') (hm : Blind p s m) : reply st' plan m = reply st plan m := by
  unfold Sessions.reply
  rw [h.writer]
  cases hwriter : st.writer with
  | none => rfl
  | some writer =>
    obtain ⟨r, x, x', rest, hrun, hrun', -⟩ := hm writer st.tree st'.tree (h.own writer hwriter)
      (writer, st.tree) (writer, st'.tree) plan ⟨rfl, rfl, h.agree⟩
    simp only [Io.run, hrun, hrun', Option.bind_some]

/-- The client of a stream sees the same in both trees. -/
theorem Alike.answer {st' : State} (h : Alike p s st st') (op : Op p s) :
    answer p s st' op = answer p s st op := by
  cases op with
  | start plan =>
    obtain ⟨r, t, t', rest, hrun, hrun', -⟩ :=
      StreamInitializer.respects_initializeStream st.tree st'.tree plan h.agree
    simp only [Sessions.answer, Io.run, hrun, hrun']
  | writeRecord record => rw [Sessions.answer, Sessions.answer, h.reply (blind_writeRecord record)]
  | flush plan => rw [Sessions.answer, Sessions.answer, h.reply blind_flush]
  | syncData plan => rw [Sessions.answer, Sessions.answer, h.reply blind_syncData]
  | finalize => rw [Sessions.answer, Sessions.answer, h.reply blind_finalize]
  | drop => rfl
  | crash c => rfl

end Sessions

namespace Service

open Sessions (Alike Abstracts logSpec)
open StreamInitializer (initializeStream recordsThrough)

variable [Crc32c] [CheckpointReader] {p : StorageProvider} {s : StreamId} {st : State}
  {st' : Sessions.State} {l : DurableLog Record} {n : Nat}

variable (p) in
/-- What the client of one stream sees of a run of the service. -/
def answers (s : StreamId) : State → List (Event p) → List (LogEvent Record)
  | _, [] => []
  | st, event :: events =>
    ((event.onto s).map fun op => Sessions.answer p s (st.at s) op).toList ++
      answers s (step p st event) events

/-- A client cannot tell the service from its stream alone. -/
theorem answers_eq : ∀ (events : List (Event p)) {st : State} {st' : Sessions.State}, Ready p st →
    Alike p s (st.at s) st' → answers p s st events =
      Sessions.answers p s st' (events.filterMap (Event.onto s)) := by
  intro events
  induction events with
  | nil => exact fun _ _ => rfl
  | cons event events ih =>
    intro st st' hready h
    have hrest := ih (hready.step event) (hready.alike h event)
    rw [answers, hrest]
    cases honto : event.onto s with
    | none => rw [List.filterMap_cons_none honto]; rfl
    | some op =>
      rw [List.filterMap_cons_some honto, Sessions.answers, h.answer]
      rfl

variable {t : Tree} {plan : Plan} {i : InitializedStream} {w : World Tree}

/-- The log of a stream of the service. -/
theorem exists_log (hestablished : StorageProvider.Established p t) (hfresh : Fresh p s t)
    (events : List (Event p)) : ∃ st' l n, Alike p s ((run p (.new t) events).at s) st' ∧
      DurableLog.Run (logSpec s) .empty (answers p s (.new t) events) l ∧ Abstracts p s st' l n := by
  have hready := ready_new hestablished
  obtain ⟨l, n, hrun, habstracts⟩ := (Sessions.abstracts_new hfresh).run
    (events.filterMap (Event.onto s))
  have hanswers : answers p s (.new t) events = Sessions.answers p s (.new t) _ :=
    answers_eq events hready (hready s)
  rw [← hanswers] at hrun
  exact ⟨_, l, n, hready.run_alike events (hready s), hrun, habstracts⟩

/-- **The service refines a durable log for each stream.**  Whatever the others do, the
answers to the client of a stream are those of a log that holds the stream's history and
has room for fewer than 2^64 records.  Crashes keep entries and renames. -/
theorem service_refines_logs (hestablished : StorageProvider.Established p t)
    (hfresh : ∀ s, Fresh p s t) (events : List (Event p)) (s : StreamId) :
    let st := run p (.new t) events
    ∃ l, DurableLog.Run (logSpec s) .empty (answers p s (.new t) events) l ∧
      l.entries = (st.client s).history ∧
      l.writer = (st.client s).writer.map Sessions.writerOf := by
  obtain ⟨st', l, n, halike, hrun, habstracts⟩ := exists_log hestablished (hfresh s) events
  refine ⟨l, hrun, ?_, ?_⟩
  · rw [habstracts.entries, halike.history]
    rfl
  · rw [habstracts.writer, halike.writer]
    rfl

omit [Crc32c] [CheckpointReader] in
theorem service_refines_logs_interleaved : letI := Crc32c.reference
    letI := CheckpointReader.canonical
    let p : StorageProvider := ⟨[]⟩
    let f : LogFileId := .first ⟨0, by decide⟩
    let g : LogFileId := .first ⟨1, by decide⟩
    let events : List (Event p) := [.on f.streamId (.start .calm) trivial,
      .on g.streamId (.start (.next .all .stop)) trivial,
      .on f.streamId (.writeRecord (Fills.firstRecord f)) trivial,
      .on f.streamId (.syncData .calm) trivial, .crash (.worst p),
      .on f.streamId (.start .calm) trivial]
    let st := run p (.new StorageProvider.bases) events
    answers p f.streamId (.new StorageProvider.bases) events =
      [.openLog (some 0), .append (Fills.firstRecord f) (some 0), .sync true, .close,
        .openLog (some 1)] ∧
    ∃ l, DurableLog.Run (logSpec f.streamId) .empty
        (answers p f.streamId (.new StorageProvider.bases) events) l ∧
      l.entries = (st.client f.streamId).history ∧
      l.writer = (st.client f.streamId).writer.map Sessions.writerOf := by
  intro p f g events st
  exact ⟨by decide +kernel, @service_refines_logs Crc32c.reference CheckpointReader.canonical p _
    StorageProvider.established_bases StorageProvider.fresh_bases events f.streamId⟩

/-- **What the client of a stream may rely on.**  A record that was accepted at an offset,
and then synchronized before the stream was opened again, is at this offset of every
recovery, however often the streams crash and fail in between.  Crashes keep entries and
renames. -/
theorem acknowledged_recovered (hestablished : StorageProvider.Established p t)
    (hfresh : ∀ s, Fresh p s t) {events : List (Event p)} {s : StreamId} {record : Record}
    {offset : Nat} {before between after : List (LogEvent Record)}
    (hanswers : answers p s (.new t) events =
      before ++ .append record (some offset) :: (between ++ .sync true :: after))
    (hbetween : ∀ k, .openLog (some k) ∉ between)
    (hrun : (initializeStream p s).run (run p (.new t) events).tree plan = (.ok i, w)) :
    (recordsThrough (diskOf p w.sys) i)[offset]? = some record := by
  obtain ⟨st', l, n, halike, hlog, habstracts⟩ := exists_log hestablished (hfresh s) events
  obtain ⟨r, w₁, w', hrun₁, hrun', hrecords, -⟩ := initialize_alone halike plan
  obtain ⟨rfl, rfl⟩ := Prod.mk.inj (hrun₁.symm.trans hrun)
  -- the recovery is one more step of the log
  obtain ⟨l₁, n₁, hstep, habstracts₁⟩ := habstracts.start plan
  have hentries : l₁.entries = recordsThrough (diskOf p w₁.sys) i := by
    rw [habstracts₁.entries, ← hrecords i rfl]
    simp only [Sessions.act, hrun']
  have hlog₁ := DurableLog.run_append_iff.mpr ⟨l, hlog, .cons hstep .nil⟩
  rw [hanswers, List.append_assoc, List.cons_append, List.append_assoc, List.cons_append] at hlog₁
  rw [← hentries]
  exact DurableLog.acknowledged_kept hlog₁ hbetween

omit [Crc32c] [CheckpointReader] in
theorem acknowledged_recovered_crashed : letI := Crc32c.reference
    letI := CheckpointReader.canonical
    let p : StorageProvider := ⟨[]⟩
    let f : LogFileId := .first ⟨0, by decide⟩
    let g : LogFileId := .first ⟨1, by decide⟩
    let events : List (Event p) := [.on f.streamId (.start .calm) trivial,
      .on g.streamId (.start (.next .all .stop)) trivial,
      .on f.streamId (.writeRecord (Fills.firstRecord f)) trivial,
      .on g.streamId (.start .calm) trivial, .on f.streamId (.syncData .calm) trivial,
      .crash (.worst p), .on f.streamId (.start (.next .all .stop)) trivial]
    ∃ i w, (initializeStream p f.streamId).run (run p (.new StorageProvider.bases) events).tree
      .calm = (.ok i, w) ∧ (recordsThrough (diskOf p w.sys) i)[0]? = some (Fills.firstRecord f) := by
  intro p f g events
  have hanswers : @answers Crc32c.reference CheckpointReader.canonical p f.streamId
      (@State.new Crc32c.reference StorageProvider.bases) events =
        [.openLog (some 0)] ++ .append (@Fills.firstRecord Crc32c.reference f) (some 0) ::
          ([] ++ .sync true :: [.close, .openLog none]) := by
    decide +kernel
  let _ := Crc32c.reference
  let _ := CheckpointReader.canonical
  obtain ⟨st', l, n, halike, -, habstracts⟩ := exists_log StorageProvider.established_bases
    (StorageProvider.fresh_bases f.streamId) events
  obtain ⟨i, w, hrun⟩ := habstracts.holds.completes (show Plan.Smooth .calm from trivial)
  obtain ⟨r, w₁, w', hrun₁, hrun', -⟩ := initialize_alone halike .calm
  obtain ⟨rfl, rfl⟩ := Prod.mk.inj (hrun'.symm.trans hrun)
  exact ⟨i, w₁, hrun₁, acknowledged_recovered StorageProvider.established_bases
    StorageProvider.fresh_bases hanswers (by simp) hrun₁⟩

end Service

end TransactionLog
