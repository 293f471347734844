import TransactionLog.Streams.IndexedLogWriter

/-!
# The invariant of the paired writer

`WriterInv f g w l i` says that the writer `w` of file `f` has accepted the
records of `g`, that its marks are the ends of prefixes of them, and what the
log destination `l` and the index destination `i` have seen:

* the log destination has accepted a prefix of the records' encodings and the
  index destination a prefix of their entries, in which every complete entry is
  that of a record whose bytes the log destination has flushed;
* a record before `flushedEnd` was flushed by both destinations, and one before
  `syncedEnd` was synchronized by both.

The destinations may be parts of any system that keeps a relation `J` to what
they have seen (`Tracks`).  `writeRecord_triple`, `flush_triple`,
`syncData_triple` and `finalize_triple` say what each operation does to the
invariant.
-/

namespace TransactionLog

open Lib

namespace IndexedLogWriter

variable [Crc32c] {σ : Type}

/-- The records a writer started from and those it has accepted, and how many of
all these its flushed and synchronized marks cover. -/
structure Ghost where
  base : List Record
  written : List Record
  flushed : Nat
  synced : Nat

def Ghost.all (g : Ghost) : List Record := g.base ++ g.written

/-- Two destinations in one system. -/
structure Tracks (logDest indexDest : Dest σ) (J : Channel → Channel → σ → Prop) : Prop where
  log : ∀ i, Output.Tracked logDest fun l => J l i
  index : ∀ l, Output.Tracked indexDest fun i => J l i

/-- The part of the invariant that does not read the inner writers. -/
structure Marks (f : LogFileId) (g : Ghost) (w : IndexedLogWriter) (l i : Channel) : Prop where
  file : w.fileId = f
  fills : Fills f g.all
  count : w.recordCount = g.all.length
  expected_stream : w.expectedRecordId.streamId = f.streamId
  expected : w.expectedRecordId.sequenceNumber.get =
    f.firstRecordId.sequenceNumber.get + g.all.length
  buffered : w.bufferedEnd = endOf g.all
  flushedEnd : w.flushedEnd = endOf (g.all.take g.flushed)
  syncedEnd : w.syncedEnd = endOf (g.all.take g.synced)
  synced_le : g.synced ≤ g.flushed
  flushed_le : g.flushed ≤ g.all.length
  log_accepted : l.accepted <+: encodings g.written
  index_accepted : i.accepted <+: entries (encodings g.base).length g.written
  /-- A complete index entry follows the flushed bytes of its record. -/
  visible : ∀ k, 8 * k ≤ i.accepted.length → (encodings (g.written.take k)).length ≤ l.flushed
  log_flushed_le : l.flushed ≤ l.accepted.length
  index_flushed_le : i.flushed ≤ i.accepted.length
  log_synced_le : l.synced ≤ l.flushed
  index_synced_le : i.synced ≤ i.flushed
  log_flushed : (encodings (g.all.take g.flushed)).length ≤ (encodings g.base).length + l.flushed
  index_flushed : 8 * g.flushed ≤ 8 * g.base.length + i.flushed
  log_synced : (encodings (g.all.take g.synced)).length ≤ (encodings g.base).length + l.synced
  index_synced : 8 * g.synced ≤ 8 * g.base.length + i.synced

/-- The inner writers hold what was not yet sent. -/
structure Pending (g : Ghost) (w : IndexedLogWriter) (l i : Channel) : Prop where
  log_usable : w.log.usable = true
  log_buffer : l.accepted ++ w.log.buffer = encodings g.written
  index_usable : w.index.usable = true
  index_buffer : i.accepted ++ w.index.buffer = entries (encodings g.base).length g.written

structure WriterInv (f : LogFileId) (g : Ghost) (w : IndexedLogWriter) (l i : Channel) : Prop where
  marks : Marks f g w l i
  pending : w.state ≠ .unusable → Pending g w l i
  finalized : w.state = .finalized → g.all.length = recordsPerFile ∧ g.synced = g.all.length

/-- A fresh writer of a file whose records are `base`. -/
def Ghost.start (base : List Record) : Ghost := ⟨base, [], base.length, base.length⟩

theorem inv_new (f : LogFileId) : WriterInv f (.start []) (new f) .new .new where
  marks := {
    file := rfl
    fills := .nil f
    count := rfl
    expected_stream := rfl
    expected := (Nat.add_zero _).symm
    buffered := rfl
    flushedEnd := rfl
    syncedEnd := rfl
    synced_le := Nat.le_refl _
    flushed_le := Nat.le_refl _
    log_accepted := List.nil_prefix
    index_accepted := List.nil_prefix
    visible := fun k _ => by simp [Ghost.start]
    log_flushed_le := Nat.le_refl _
    index_flushed_le := Nat.le_refl _
    log_synced_le := Nat.le_refl _
    index_synced_le := Nat.le_refl _
    log_flushed := Nat.le_refl _
    index_flushed := Nat.le_refl _
    log_synced := Nat.le_refl _
    index_synced := Nat.le_refl _ }
  pending := fun _ => ⟨rfl, rfl, rfl, rfl⟩
  finalized := by simp [new]

/-- A writer made from a recovered pair whose file holds exactly `base`. -/
theorem inv_ofInitialized {f : LogFileId} {base : List Record} (hf : Fills f base)
    {w : IndexedLogWriter} (hw : ofInitialized ⟨f, endOf base⟩ = some w) :
    WriterInv f (.start base) w .new .new := by
  have hall : (Ghost.start base).all = base := List.append_nil base
  have htake : base.take base.length = base := List.take_length
  rw [ofInitialized, Option.map_eq_some_iff] at hw
  obtain ⟨id, hid, rfl⟩ := hw
  have hexpected : id.streamId = f.streamId ∧
      id.sequenceNumber.get = f.firstRecordId.sequenceNumber.get + base.length := by
    cases he : endOf base with
    | none =>
      rw [he] at hid
      obtain rfl := Option.some.inj hid
      rw [endOf_eq_none.mp he]
      exact ⟨rfl, (Nat.add_zero _).symm⟩
    | some e =>
      rw [he] at hid
      obtain ⟨hs, hn⟩ := RecordId.next_eq_some.mp hid
      obtain ⟨-, hs', hn', -⟩ := hf.endOf_eq_some he
      exact ⟨hs.trans hs', by omega⟩
  exact {
    marks := {
      file := rfl
      fills := hall.symm ▸ hf
      count := by rw [hall, hf.length_eq_of_endOf]
      expected_stream := hexpected.1
      expected := by rw [hall]; exact hexpected.2
      buffered := by rw [hall]
      flushedEnd := by rw [hall]; exact congrArg endOf htake.symm
      syncedEnd := by rw [hall]; exact congrArg endOf htake.symm
      synced_le := Nat.le_refl _
      flushed_le := by rw [hall]; exact Nat.le_refl _
      log_accepted := List.nil_prefix
      index_accepted := List.nil_prefix
      visible := fun k _ => by simp [Ghost.start]
      log_flushed_le := Nat.le_refl _
      index_flushed_le := Nat.le_refl _
      log_synced_le := Nat.le_refl _
      index_synced_le := Nat.le_refl _
      log_flushed := by
        rw [hall, show base.take (Ghost.start base).flushed = base from htake]
        exact Nat.le_refl _
      index_flushed := Nat.le_refl _
      log_synced := by
        rw [hall, show base.take (Ghost.start base).synced = base from htake]
        exact Nat.le_refl _
      index_synced := Nat.le_refl _ }
    pending := fun _ => ⟨rfl, rfl, rfl, rfl⟩
    finalized := by simp }

/-! ### Appending -/

variable {f : LogFileId} {g : Ghost} {w : IndexedLogWriter} {l i : Channel}

def Ghost.append (g : Ghost) (record : Record) : Ghost := { g with written := g.written ++ [record] }

theorem Ghost.all_append (g : Ghost) (record : Record) :
    (g.append record).all = g.all ++ [record] := (List.append_assoc _ _ _).symm

/-- The writer after it has accepted a record. -/
def accepted (w : IndexedLogWriter) (record : Record) (endLocation : RecordEndLocation)
    (nextId : RecordId) : IndexedLogWriter :=
  { w with
    log := ⟨w.log.buffer ++ record.bytes, true⟩
    index := ⟨w.index.buffer ++ toLe 8 endLocation.position.get, true⟩
    recordCount := w.recordCount + 1
    bufferedEnd := some endLocation
    expectedRecordId := nextId
    state := .opened }

theorem Marks.fills_append (h : Marks f g w l i) {record : Record}
    (hid : record.id = w.expectedRecordId) (hcount : g.all.length < recordsPerFile) :
    Fills f (g.append record).all := by
  rw [Ghost.all_append]
  refine ⟨consecutive_append.mpr ⟨h.fills.consecutive, ?_, ?_, trivial⟩, ?_⟩
  · rw [hid, h.expected_stream]
  · rw [hid, h.expected]
  · rw [List.length_append, List.length_singleton]
    omega

/-- The start that the writer computes for the next record is the end of the last
one: it never turns to the next file. -/
theorem Marks.start_eq (h : Marks f g w l i) (hcount : g.all.length < recordsPerFile) :
    w.nextStart = some ⟨w.expectedRecordId, .ofNat (encodings g.all).length⟩ := by
  rw [nextStart, h.buffered]
  have hpos := LogFilePosition.get_ofNat h.fills.encodings_lt
  cases he : endOf g.all with
  | none =>
    have hnil := endOf_eq_none.mp he
    simp only [hnil, h.file]
    congr 2
    refine RecordId.ext' h.expected_stream.symm ?_
    rw [h.expected, hnil, List.length_nil, Nat.add_zero]
  | some e =>
    obtain ⟨hp, hs, hn, hfile, -⟩ := h.fills.endOf_eq_some he
    have hnext : e.recordId.next = some w.expectedRecordId :=
      RecordId.next_eq_some.mpr ⟨by rw [h.expected_stream, hs], by rw [h.expected]; omega⟩
    have hsame : LogFileId.fromRecordId w.expectedRecordId = e.logFileId := by
      rw [hfile]
      have hfirst : f.firstRecordId.sequenceNumber.get = f.fileNumber.get * 100000 := rfl
      have := h.expected
      simp only [recordsPerFile_eq] at hcount
      exact LogFileId.fromRecordId_eq_iff.mpr ⟨h.expected_stream, by omega, by omega⟩
    simp only [RecordEndLocation.nextRecordStart, hnext, Option.map_some, if_pos hsame]
    congr 2
    exact LogFilePosition.ext' (hp.trans hpos.symm)

theorem Marks.toEnd_eq (h : Marks f g w l i) {record : Record}
    (hid : record.id = w.expectedRecordId) (hcount : g.all.length < recordsPerFile) :
    ∃ e, RecordStartLocation.toEnd ⟨w.expectedRecordId, .ofNat (encodings g.all).length⟩
        record.length = some e ∧ endOf (g.append record).all = some e ∧
      e.position.get = (encodings g.all).length + record.bytes.length := by
  have hfills := h.fills_append hid hcount
  have hlt := hfills.encodings_lt
  rw [Ghost.all_append, encodings_append, encodings_singleton, List.length_append] at hlt
  have hpos : (LogFilePosition.ofNat (encodings g.all).length).get = (encodings g.all).length :=
    LogFilePosition.get_ofNat (by omega)
  have hadvance : (LogFilePosition.ofNat (encodings g.all).length).get + record.length.get <
      2 ^ 64 := by
    rw [hpos]
    exact hlt
  refine ⟨_, by rw [RecordStartLocation.toEnd, LogFilePosition.advance_of_lt hadvance]; rfl, ?_, ?_⟩
  · rw [Ghost.all_append, endOf_append_singleton, hid]
    congr 2
    apply LogFilePosition.ext'
    rw [encodings_append, encodings_singleton, List.length_append, LogFilePosition.get_ofNat hlt]
    exact congrArg (· + record.bytes.length) hpos.symm
  · exact congrArg (· + record.bytes.length) hpos

/-- **An accepted record** keeps the invariant. -/
theorem WriterInv.append (h : WriterInv f g w l i) (hopen : w.state = .opened) {record : Record}
    (hid : record.id = w.expectedRecordId) (hcount : g.all.length < recordsPerFile)
    {e : RecordEndLocation} (he : endOf (g.append record).all = some e)
    (hpos : e.position.get = (encodings g.all).length + record.bytes.length)
    {nextId : RecordId} (hnext : w.expectedRecordId.next = some nextId) :
    WriterInv f (g.append record) (w.accepted record e nextId) l i := by
  have hm := h.marks
  have hp := h.pending (by simp [hopen])
  have hlen : (g.append record).all.length = g.all.length + 1 := by
    rw [Ghost.all_append, List.length_append, List.length_singleton]
  have htake : ∀ n, n ≤ g.all.length → (g.append record).all.take n = g.all.take n := by
    intro n hn
    rw [Ghost.all_append, List.take_append_of_le_length hn]
  obtain ⟨hs, hn⟩ := RecordId.next_eq_some.mp hnext
  have hflushed := hm.flushed_le
  have hsynced := Nat.le_trans hm.synced_le hm.flushed_le
  refine ⟨{ hm with
    fills := hm.fills_append hid hcount
    count := by rw [hlen, ← hm.count]; rfl
    expected_stream := hs.trans hm.expected_stream
    expected := by
      rw [hlen]
      show nextId.sequenceNumber.get = _
      rw [hn, hm.expected, Nat.add_assoc]
    buffered := he.symm
    flushedEnd := by
      show w.flushedEnd = endOf ((g.append record).all.take g.flushed)
      rw [htake _ hflushed, hm.flushedEnd]
    syncedEnd := by
      show w.syncedEnd = endOf ((g.append record).all.take g.synced)
      rw [htake _ hsynced, hm.syncedEnd]
    flushed_le := by rw [hlen]; exact Nat.le_succ_of_le hflushed
    log_accepted := hm.log_accepted.trans (encodings_mono (List.prefix_append _ _))
    index_accepted := hm.index_accepted.trans (by
      show _ <+: entries _ (g.written ++ [record])
      rw [entries_append]
      exact List.prefix_append _ _)
    visible := by
      intro k hk
      have hle := hm.index_accepted.length_le
      rw [length_entries] at hle
      show (encodings ((g.written ++ [record]).take k)).length ≤ _
      rw [List.take_append_of_le_length (by omega)]
      exact hm.visible k hk
    log_flushed := by
      show (encodings ((g.append record).all.take g.flushed)).length ≤ _
      rw [htake _ hflushed]
      exact hm.log_flushed
    log_synced := by
      show (encodings ((g.append record).all.take g.synced)).length ≤ _
      rw [htake _ hsynced]
      exact hm.log_synced }, fun _ => ⟨rfl, ?_, rfl, ?_⟩, by simp [accepted]⟩
  · show l.accepted ++ (w.log.buffer ++ record.bytes) = encodings (g.written ++ [record])
    rw [← List.append_assoc, hp.log_buffer, encodings_append, encodings_singleton]
  · show i.accepted ++ (w.index.buffer ++ toLe 8 e.position.get) =
      entries (encodings g.base).length (g.written ++ [record])
    rw [← List.append_assoc, hp.index_buffer, entries_append, entries_singleton, hpos, Ghost.all,
      encodings_append, List.length_append]

/-! ### Sending, flushing and synchronizing -/

theorem Marks.log_sent (h : Marks f g w l i) {b : List UInt8}
    (hbs : l.accepted ++ b <+: encodings g.written) :
    Marks f g w { l with accepted := l.accepted ++ b } i :=
  { h with
    log_accepted := hbs
    log_flushed_le := by
      have := h.log_flushed_le
      simp only [List.length_append]
      omega }

theorem Marks.log_flush (h : Marks f g w l i) :
    Marks f g w { l with flushed := l.accepted.length } i := by
  have hle := h.log_flushed_le
  exact { h with
    visible := fun k hk => Nat.le_trans (h.visible k hk) hle
    log_flushed_le := Nat.le_refl _
    log_synced_le := Nat.le_trans h.log_synced_le hle
    log_flushed := Nat.le_trans h.log_flushed (Nat.add_le_add_left hle _) }

/-- Everything was sent and both destinations were flushed. -/
theorem Marks.all_sent (h : Marks f g w l i) :
    Marks f g w
      { l with accepted := encodings g.written, flushed := (encodings g.written).length }
      { i with
        accepted := entries (encodings g.base).length g.written
        flushed := (entries (encodings g.base).length g.written).length } := by
  have hl := h.log_accepted.length_le
  have hi := h.index_accepted.length_le
  have h1 := h.log_flushed_le
  have h2 := h.index_flushed_le
  have h3 := h.log_synced_le
  have h4 := h.index_synced_le
  have h5 := h.log_flushed
  have h6 := h.index_flushed
  exact { h with
    log_accepted := List.prefix_refl _
    index_accepted := List.prefix_refl _
    visible := fun k _ => (encodings_mono (List.take_prefix k g.written)).length_le
    log_flushed_le := Nat.le_refl _
    index_flushed_le := Nat.le_refl _
    log_synced_le := by simp only; omega
    index_synced_le := by simp only; omega
    log_flushed := by simp only; omega
    index_flushed := by simp only; omega }

/-- Index entries are accepted once the log has been flushed. -/
theorem Marks.index_sent (h : Marks f g w l i) (hl : l.flushed = (encodings g.written).length)
    {b : List UInt8} (hbs : i.accepted ++ b <+: entries (encodings g.base).length g.written) :
    Marks f g w l { i with accepted := i.accepted ++ b } :=
  { h with
    index_accepted := hbs
    visible := fun k _ => by
      rw [hl]
      exact (encodings_mono (List.take_prefix k g.written)).length_le
    index_flushed_le := by
      have := h.index_flushed_le
      simp only [List.length_append]
      omega }

theorem Marks.log_sync (h : Marks f g w l i) : Marks f g w { l with synced := l.flushed } i :=
  { h with
    log_synced_le := Nat.le_refl _
    log_synced := Nat.le_trans h.log_synced (Nat.add_le_add_left h.log_synced_le _) }

theorem Marks.index_sync (h : Marks f g w l i) : Marks f g w l { i with synced := i.flushed } :=
  { h with
    index_synced_le := Nat.le_refl _
    index_synced := Nat.le_trans h.index_synced (Nat.add_le_add_left h.index_synced_le _) }

/-- Marks do not read the inner writers and the state. -/
theorem Marks.inner (h : Marks f g w l i) (log : RecordWriter) (index : IndexWriter)
    (state : IndexedLogWriterState) :
    Marks f g { w with log := log, index := index, state := state } l i := { h with }

/-- Everything was sent and flushed. -/
theorem Marks.flushed_all (h : Marks f g w l i) (hl : l.flushed = (encodings g.written).length)
    (hi : i.flushed = 8 * g.written.length) :
    Marks f { g with flushed := g.all.length } { w with flushedEnd := w.bufferedEnd } l i := by
  have htake : ({ g with flushed := g.all.length } : Ghost).all.take g.all.length = g.all :=
    List.take_length
  exact { h with
    flushedEnd := by rw [htake]; exact h.buffered
    synced_le := Nat.le_trans h.synced_le h.flushed_le
    flushed_le := Nat.le_refl _
    log_flushed := by
      rw [htake, hl, Ghost.all, encodings_append, List.length_append]
    index_flushed := by
      show 8 * g.all.length ≤ 8 * g.base.length + _
      rw [hi, Ghost.all, List.length_append]
      omega }

/-- Everything that was flushed is synchronized. -/
theorem Marks.synced_all (h : Marks f g w l i) (hl : l.synced = l.flushed)
    (hi : i.synced = i.flushed) :
    Marks f { g with synced := g.flushed } { w with syncedEnd := w.flushedEnd } l i :=
  { h with
    syncedEnd := h.flushedEnd
    synced_le := Nat.le_refl _
    log_synced := by rw [hl]; exact h.log_flushed
    index_synced := by rw [hi]; exact h.index_flushed }

/-! ## The operations -/

variable {c : Mode} {J : Channel → Channel → σ → Prop} {logDest indexDest : Dest σ}

/-- The invariant of a writer together with the system its destinations are in. -/
def At (f : LogFileId) (J : Channel → Channel → σ → Prop) (g : Ghost)
    (s : IndexedLogWriter × σ) : Prop :=
  ∃ l i, WriterInv f g s.1 l i ∧ J l i s.2

section Rules

omit [Crc32c]

variable {b b' : List UInt8} {P Q X : σ → Prop} {w' w'' : IndexedLogWriter}

/-- The rule for an operation of an inner writer. -/
theorem onInner_triple {get : IndexedLogWriter → Output}
    {set : Output → IndexedLogWriter → IndexedLogWriter} {error : OutputError → IndexedLogWriteError}
    {m : Io (Output × σ) OutputError Unit}
    (h : Triple c (fun s => s.1 = ⟨b, true⟩ ∧ P s.2) m (fun _ s => s.1 = ⟨b', true⟩ ∧ Q s.2)
      (fun e s => ¬ c.calm ∧ e ≠ .panicked ∧ s.1 = ⟨b, false⟩ ∧ X s.2))
    (ho : get w = ⟨b, true⟩) :
    Triple c (fun s => s.1 = w ∧ P s.2) (onInner get set error m)
      (fun _ s => s.1 = set ⟨b', true⟩ w ∧ Q s.2)
      (fun e s => ¬ c.calm ∧ e ≠ .panicked ∧ s.1 = set ⟨b, false⟩ w ∧ X s.2) := by
  refine .mapErr_exits (.zoom ?_)
  rintro s ⟨rfl, hP⟩
  refine h.conseq ?_ ?_ ?_
  · rintro _ rfl
    exact ⟨ho, hP⟩
  · rintro _ t ⟨ht, hQ⟩
    exact ⟨by rw [ht], hQ⟩
  · rintro e t ⟨hc, hp, ht, hX⟩
    exact ⟨hc, Exit.map_ne_panicked _ hp, by rw [ht], hX⟩

theorem update_triple {u : IndexedLogWriter → IndexedLogWriter}
    {X : Exit IndexedLogWriteError → IndexedLogWriter × σ → Prop} :
    Triple c (fun s => s.1 = w ∧ P s.2) (update u) (fun _ s => s.1 = u w ∧ P s.2) X :=
  .modify fun _ h => ⟨congrArg u h.1, h.2⟩

theorem checkOpen_bind {α : Type} {k : Unit → Io (IndexedLogWriter × σ) IndexedLogWriteError α}
    {s : IndexedLogWriter × σ} {Q : α → IndexedLogWriter × σ → Prop}
    {X : Exit IndexedLogWriteError → IndexedLogWriter × σ → Prop}
    (hopen : s.1.state = .opened → Triple c (fun s' => s' = s) (k ()) Q X)
    (hclosed : s.1.state ≠ .opened → ∀ e, X (.error e) s) :
    Triple c (fun s' => s' = s) (Io.ofExcept s.1.checkOpen >>= k) Q X := by
  rw [checkOpen]
  cases hs : s.1.state with
  | opened => exact hopen hs
  | unusable =>
    refine .bind (R := fun _ _ => False) (.throw ?_) fun _ => fun _ h => h.elim
    rintro _ rfl
    exact hclosed (by simp [hs]) _
  | finalized =>
    refine .bind (R := fun _ _ => False) (.throw ?_) fun _ => fun _ h => h.elim
    rintro _ rfl
    exact hclosed (by simp [hs]) _

end Rules

/-- Where an output operation ends early: the invariant still holds, and the
writer is not open.  A writer that was open is closed by a fault only. -/
def Closed (c : Mode) (f : LogFileId) (J : Channel → Channel → σ → Prop)
    (st : IndexedLogWriterState) (g : Ghost) (e : Exit IndexedLogWriteError)
    (s : IndexedLogWriter × σ) : Prop :=
  e ≠ .panicked ∧ At f J g s ∧ s.1.state ≠ .opened ∧
    (st = .opened → ¬ c.calm ∧ s.1.state = .unusable) ∧ (st ≠ .opened → s.1.state = st)

theorem Marks.closed (h : Marks f g w l i) (hw : w.state = .unusable) {e : Exit IndexedLogWriteError}
    {s : IndexedLogWriter × σ} (hc : ¬ c.calm) (he : e ≠ .panicked) (hs : s.1 = w)
    (hJ : J l i s.2) : Closed c f J .opened g e s := by
  refine ⟨he, ⟨l, i, ?_, hJ⟩, by rw [hs, hw]; simp, fun _ => ⟨hc, by rw [hs, hw]⟩,
    fun hn => absurd rfl hn⟩
  rw [hs]
  exact ⟨h, fun hn => absurd hw hn, fun hf => by rw [hw] at hf; cases hf⟩

/-- The calls of a flush, from marks that are all in place. -/
theorem flush_calls (hT : Tracks logDest indexDest J) (hm : Marks f g w l i) (hp : Pending g w l i) :
    Triple c (fun s => s.1 = { w with state := .unusable } ∧ J l i s.2)
      (flushCalls logDest indexDest)
      (fun _ s => s.1 = { w with state := .unusable, log := ⟨[], true⟩, index := ⟨[], true⟩ } ∧
        J { l with accepted := encodings g.written, flushed := (encodings g.written).length }
          { i with
            accepted := entries (encodings g.base).length g.written
            flushed := (entries (encodings g.base).length g.written).length } s.2)
      (fun e s => Closed c f J .opened g e s) := by
  have hlog : w.log = ⟨w.log.buffer, true⟩ := by rw [← hp.log_usable]
  have hindex : w.index = ⟨w.index.buffer, true⟩ := by rw [← hp.index_usable]
  rw [← hp.log_buffer, ← hp.index_buffer]
  have hm1 := hm.log_sent (b := w.log.buffer) (by rw [hp.log_buffer])
  have hm2 := hm1.log_flush
  have hflushed : (l.accepted ++ w.log.buffer).length = (encodings g.written).length := by
    rw [hp.log_buffer]
  have hm3 := hm2.index_sent hflushed (b := w.index.buffer)
    (by rw [hp.index_buffer])
  -- the log's batch and its flush
  refine .bind ((onInner_triple (w := { w with state := .unusable })
    (X := fun s => ∃ bs, bs <+: w.log.buffer ∧ J { l with accepted := l.accepted ++ bs } i s)
    (Output.flushBuffer_tracked (hT.log i)) hlog).exits ?_) fun _ => ?_
  · rintro e s ⟨hc, he, hs, bs, hbs, hJ⟩
    have hsent : l.accepted ++ bs <+: encodings g.written := by
      rw [← hp.log_buffer]
      exact (List.prefix_append_right_inj _).mpr hbs
    exact ((hm.log_sent hsent).inner _ _ _).closed rfl hc he hs hJ
  refine .bind ((onInner_triple (w := { w with state := .unusable, log := ⟨[], true⟩ })
    (Output.flush_tracked (hT.log i)) rfl).exits ?_) fun _ => ?_
  · rintro e s ⟨hc, he, hs, hJ⟩
    exact (hm1.inner _ _ _).closed rfl hc he hs hJ
  -- the index's batch and its flush
  refine .bind ((onInner_triple (w := { w with state := .unusable, log := ⟨[], true⟩ })
    (X := fun s => ∃ bs, bs <+: w.index.buffer ∧
      J _ { i with accepted := i.accepted ++ bs } s)
    (Output.flushBuffer_tracked (hT.index _)) hindex).exits ?_) fun _ => ?_
  · rintro e s ⟨hc, he, hs, bs, hbs, hJ⟩
    have hsent : i.accepted ++ bs <+: entries (encodings g.base).length g.written := by
      rw [← hp.index_buffer]
      exact (List.prefix_append_right_inj _).mpr hbs
    exact ((hm2.index_sent hflushed hsent).inner _ _ _).closed rfl hc he hs hJ
  refine (onInner_triple (w := { w with state := .unusable, log := ⟨[], true⟩, index := ⟨[], true⟩ })
    (Output.flush_tracked (hT.index _)) rfl).exits ?_
  rintro e s ⟨hc, he, hs, hJ⟩
  exact (hm3.inner _ _ _).closed rfl hc he hs hJ

theorem Closed.refl {st : IndexedLogWriterState} {s : IndexedLogWriter × σ} (h : At f J g s)
    (hs : s.1.state = st) (hst : st ≠ .opened) (e : IndexedLogWriteError) :
    Closed c f J st g (.error e) s :=
  ⟨by simp, h, by rw [hs]; exact hst, fun ho => absurd ho hst, fun _ => hs⟩

/-- Equal buffered and flushed marks mean that all records are flushed. -/
theorem Marks.flushed_eq (h : Marks f g w l i) (hsame : w.bufferedEnd = w.flushedEnd) :
    g.flushed = g.all.length := by
  have h1 := h.fills.length_eq_of_endOf
  have h2 := (h.fills.of_isPrefix (List.take_prefix g.flushed g.all)).length_eq_of_endOf
  rw [← h.flushedEnd, ← hsame, h.buffered, ← h1, List.length_take] at h2
  have := h.flushed_le
  omega

/-- Equal buffered and synchronized marks mean that all records are synchronized. -/
theorem Marks.synced_eq (h : Marks f g w l i) (hsame : w.syncedEnd = w.bufferedEnd) :
    g.synced = g.all.length := by
  have h1 := h.fills.length_eq_of_endOf
  have h2 := (h.fills.of_isPrefix (List.take_prefix g.synced g.all)).length_eq_of_endOf
  rw [← h.syncedEnd, hsame, h.buffered, ← h1, List.length_take] at h2
  have := h.synced_le
  have := h.flushed_le
  omega

/-- **Flushing** brings the flushed mark to the buffered one. -/
theorem flush_triple (hT : Tracks logDest indexDest J) (st : IndexedLogWriterState) :
    Triple c (fun s => At f J g s ∧ s.1.state = st) (flush logDest indexDest)
      (fun _ s => At f J { g with flushed := g.all.length } s ∧ s.1.state = .opened ∧
        st = .opened)
      (Closed c f J st g) := by
  refine .ofState fun s ⟨hat, hst⟩ => ?_
  refine .getBind (checkOpen_bind (fun hopen => ?_) fun hclosed e => .refl hat hst (hst ▸ hclosed) e)
  obtain rfl := hst.symm.trans hopen
  obtain ⟨l, i, h, hJ⟩ := hat
  have hm := h.marks
  have hp := h.pending (by simp [hopen])
  by_cases hsame : s.1.bufferedEnd = s.1.flushedEnd
  · rw [if_pos hsame]
    refine .pure ?_
    rintro _ rfl
    exact ⟨⟨l, i, by rw [← hm.flushed_eq hsame]; exact h, hJ⟩, hopen, rfl⟩
  · rw [if_neg hsame]
    refine .bind (update_triple (w := s.1) (P := J l i) |>.pre ?_) fun _ => ?_
    · rintro _ rfl
      exact ⟨rfl, hJ⟩
    refine .bind (flush_calls hT hm hp) fun _ => .modify ?_
    rintro s' ⟨hs', hJ'⟩
    refine ⟨⟨_, _, ?_, hJ'⟩, rfl, rfl⟩
    have hall := hm.all_sent
    rw [hs']
    exact ⟨(hall.flushed_all rfl (length_entries _ _)).inner ⟨[], true⟩ ⟨[], true⟩ .opened,
      fun _ => ⟨rfl, List.append_nil _, rfl, List.append_nil _⟩, by simp⟩

/-- The calls of a synchronization, after a flush. -/
theorem sync_calls (hT : Tracks logDest indexDest J) (hm : Marks f g w l i) (hp : Pending g w l i)
    (hst : w.state = .unusable) :
    Triple c (fun s => s.1 = w ∧ J l i s.2) (syncCalls logDest indexDest)
      (fun _ s => s.1 = w ∧ J { l with synced := l.flushed } { i with synced := i.flushed } s.2)
      (fun e s => Closed c f J .opened g e s) := by
  have hlog : w.log = ⟨w.log.buffer, true⟩ := by rw [← hp.log_usable]
  have hindex : w.index = ⟨w.index.buffer, true⟩ := by rw [← hp.index_usable]
  have hw : { w with log := ⟨w.log.buffer, true⟩ } = w := by rw [← hlog]
  have hw' : { w with index := ⟨w.index.buffer, true⟩ } = w := by rw [← hindex]
  refine .bind ((onInner_triple (w := w) (Output.syncData_tracked (hT.log i)) hlog).exits ?_)
    fun _ => ?_
  · rintro e s ⟨hc, he, hs, hJ⟩
    exact (hm.inner ⟨w.log.buffer, false⟩ w.index w.state).closed hst hc he hs hJ
  rw [hw]
  refine ((onInner_triple (w := w) (Output.syncData_tracked (hT.index _)) hindex).exits ?_).post ?_
  · rintro e s ⟨hc, he, hs, hJ⟩
    exact (hm.log_sync.inner w.log ⟨w.index.buffer, false⟩ w.state).closed hst hc he hs hJ
  · rintro _ s ⟨hs, hJ⟩
    exact ⟨hs.trans hw', hJ⟩

/-- A synchronization that ends early may have flushed all records. -/
def SyncClosed (c : Mode) (f : LogFileId) (J : Channel → Channel → σ → Prop)
    (st : IndexedLogWriterState) (g : Ghost) (e : Exit IndexedLogWriteError)
    (s : IndexedLogWriter × σ) : Prop :=
  Closed c f J st g e s ∨ st = .opened ∧ Closed c f J st { g with flushed := g.all.length } e s

/-- **Synchronizing** brings both marks to the buffered one. -/
theorem syncData_triple (hT : Tracks logDest indexDest J) (st : IndexedLogWriterState) :
    Triple c (fun s => At f J g s ∧ s.1.state = st) (syncData logDest indexDest)
      (fun _ s => At f J { g with flushed := g.all.length, synced := g.all.length } s ∧
        s.1.state = .opened ∧ st = .opened)
      (SyncClosed c f J st g) := by
  refine .bind ((flush_triple hT st).exits fun e s h => .inl h) fun _ => ?_
  refine .ofState fun s ⟨⟨l, i, h, hJ⟩, hopen, hst⟩ => ?_
  subst hst
  have hm := h.marks
  have hp := h.pending (by simp [hopen])
  refine .bind (update_triple (w := s.1) (P := J l i) |>.pre ?_) fun _ => ?_
  · rintro _ rfl
    exact ⟨rfl, hJ⟩
  refine .bind ((sync_calls hT (hm.inner s.1.log s.1.index .unusable)
    ⟨hp.log_usable, hp.log_buffer, hp.index_usable, hp.index_buffer⟩ rfl).exits
    fun e s h => .inr ⟨rfl, h⟩) fun _ => .modify ?_
  rintro s' ⟨hs', hJ'⟩
  refine ⟨⟨_, _, ?_, hJ'⟩, rfl, rfl⟩
  rw [hs']
  have hsynced := hm.log_sync.index_sync.synced_all rfl rfl
  exact ⟨hsynced.inner _ _ _,
    fun _ => ⟨hp.log_usable, hp.log_buffer, hp.index_usable, hp.index_buffer⟩, by simp⟩

/-- A writer can be made from a recovered pair that has not reached the last record ID. -/
theorem exists_ofInitialized_of_lt {base : List Record} (hf : Fills f base)
    (hlt : f.firstRecordId.sequenceNumber.get + base.length < 2 ^ 64) :
    ∃ w, ofInitialized ⟨f, endOf base⟩ = some w := by
  rw [ofInitialized]
  cases he : endOf base with
  | none => exact ⟨_, rfl⟩
  | some e =>
    obtain ⟨-, -, hn, -⟩ := hf.endOf_eq_some he
    have hlt : e.recordId.sequenceNumber.get + 1 < 2 ^ 64 := by omega
    have hnext := RecordId.next_of_lt hlt
    exact ⟨_, congrArg (Option.map _) hnext⟩

/-- **Appending** accepts a record with the expected ID; a rejected one changes
nothing.  Only in the terminal file can it panic: where the record is the one after
which there is no ID. -/
theorem writeRecord_triple (record : Record) (s₀ : IndexedLogWriter × σ) (hat : At f J g s₀) :
    Triple c (fun s => s = s₀) (writeRecord record)
      (fun a s => At f J (g.append record) s ∧ s.1.state = .opened ∧ s₀.1.state = .opened ∧
        record.id = s₀.1.expectedRecordId ∧ endOf (g.append record).all = some a.endLocation ∧
        a.fileFull = s.1.isFull ∧ s₀.1.isFull = false ∧ s.2 = s₀.2)
      (fun e s => s = s₀ ∧ e ≠ .stopped ∧ (e = .panicked → f.Terminal) ∧
        (s₀.1.state = .opened → record.id = s₀.1.expectedRecordId →
          g.all.length < recordsPerFile →
          e = .panicked ∧ 2 ^ 64 ≤ f.firstRecordId.sequenceNumber.get + g.all.length + 1)) := by
  obtain ⟨l, i, h, hJ⟩ := hat
  have hm := h.marks
  refine .getBind (checkOpen_bind (fun hopen => ?_) fun hclosed e =>
    ⟨rfl, by simp, by simp, fun hopen => absurd hopen hclosed⟩)
  have hp := h.pending (by simp [hopen])
  by_cases hfull : s₀.1.isFull
  · rw [if_pos hfull]
    refine .throw fun _ hs => ⟨hs, by simp, by simp, fun _ _ hcount => ?_⟩
    simp only [isFull, decide_eq_true_eq] at hfull
    exact absurd (hm.count.symm.trans hfull) (Nat.ne_of_lt hcount)
  rw [if_neg hfull]
  by_cases hid : record.id ≠ s₀.1.expectedRecordId
  · rw [if_pos hid]
    exact .throw fun _ hs => ⟨hs, by simp, by simp, fun _ hsame => absurd hsame hid⟩
  rw [if_neg hid]
  have hid := not_not.mp hid
  have hcount : g.all.length < recordsPerFile := by
    have := hm.fills.length_le
    have := hm.count
    simp only [isFull, decide_eq_true_eq] at hfull
    omega
  obtain ⟨e, he, hend, hpos⟩ := hm.toEnd_eq hid hcount
  rw [hm.start_eq hcount]
  refine .bind (R := fun start s => start = ⟨s₀.1.expectedRecordId, .ofNat (encodings g.all).length⟩ ∧
    s = s₀) (.unwrap ?_ ?_) fun start => .assume fun hstart => ?_
  · rintro a s ha rfl
    exact ⟨(Option.some.inj ha).symm, rfl⟩
  · intro s hs
    cases hs
  subst hstart
  refine .bind (R := fun e' s => e' = e ∧ s = s₀) (.unwrap ?_ ?_) fun e' => .assume fun he' => ?_
  · rintro a s ha rfl
    exact ⟨Option.some.inj (ha.symm.trans he), rfl⟩
  · intro s hs
    rw [he] at hs
    cases hs
  subst he'
  refine .bind (R := fun nextId s => s₀.1.expectedRecordId.next = some nextId ∧ s = s₀)
    (.unwrap ?_ ?_) fun nextId => .assume fun hnext => ?_
  · rintro a s ha rfl
    exact ⟨ha, rfl⟩
  · -- only the last sequence number has no successor
    rintro s hs rfl
    have hexpected := hm.expected
    have hlast : 2 ^ 64 ≤ f.firstRecordId.sequenceNumber.get + g.all.length + 1 := by
      refine Nat.le_of_not_lt fun hlt => ?_
      rw [RecordId.next_of_lt (by omega)] at hs
      cases hs
    refine ⟨rfl, by simp, fun _ => ?_, fun _ _ _ => ⟨rfl, hlast⟩⟩
    by_contra hterminal
    have hfirst : f.firstRecordId.sequenceNumber.get = f.fileNumber.get * 100000 := rfl
    have hnumber := LogFileId.not_terminal_iff.mp hterminal
    simp only [recordsPerFile_eq] at hcount
    omega
  have hlog : s₀.1.log.writeRecord record = .ok ⟨s₀.1.log.buffer ++ record.bytes, true⟩ :=
    Output.append_usable hp.log_usable _
  have hindex : s₀.1.index.write e'.position =
      .ok ⟨s₀.1.index.buffer ++ toLe 8 e'.position.get, true⟩ := Output.append_usable hp.index_usable _
  rw [hlog, hindex]
  intro w hw hplan
  obtain ⟨s, plan⟩ := w
  simp only at hw
  subst hw
  exact ⟨hplan, ⟨l, i, h.append hopen hid hcount hend hpos hnext, hJ⟩, rfl, hopen, hid, hend, rfl,
    Bool.eq_false_iff.mpr hfull, rfl⟩

/-- **Finalizing** succeeds exactly on a full and synchronized pair; otherwise it
changes nothing. -/
theorem finalize_triple (s₀ : IndexedLogWriter × σ) (hat : At f J g s₀) :
    Triple c (fun s => s = s₀) (finalize : Io (IndexedLogWriter × σ) IndexedLogWriteError _)
      (fun e s => At f J g s ∧ s.1 = { s₀.1 with state := .finalized } ∧ s.2 = s₀.2 ∧
        s₀.1.state = .opened ∧ g.all.length = recordsPerFile ∧ g.synced = g.all.length ∧
        endOf g.all = some e)
      (fun e s => s = s₀ ∧ e ≠ .stopped ∧ e ≠ .panicked ∧
        ¬ (s₀.1.state = .opened ∧ g.all.length = recordsPerFile ∧ g.synced = g.all.length)) := by
  obtain ⟨l, i, h, hJ⟩ := hat
  have hm := h.marks
  refine .getBind (checkOpen_bind (fun hopen => ?_) fun hclosed e =>
    ⟨rfl, by simp, by simp, fun hn => hclosed hn.1⟩)
  have hp := h.pending (by simp [hopen])
  by_cases hfull : s₀.1.isFull
  · have hcount : g.all.length = recordsPerFile := by
      simp only [isFull, decide_eq_true_eq] at hfull
      exact hm.count.symm.trans hfull
    simp only [hfull, Bool.not_true, Bool.false_eq_true, if_false]
    by_cases hsync : s₀.1.syncedEnd ≠ s₀.1.bufferedEnd
    · rw [if_pos hsync]
      refine .throw fun _ hs => ⟨hs, by simp, by simp, fun hn => hsync ?_⟩
      rw [hm.syncedEnd, hm.buffered, hn.2.2, List.take_length]
    rw [if_neg hsync]
    have hsynced := hm.synced_eq (not_not.mp hsync)
    cases hend : endOf g.all with
    | none =>
      rw [endOf_eq_none.mp hend] at hcount
      simp at hcount
    | some e =>
      refine .bind (R := fun e' s => e' = e ∧ s = s₀) (.unwrap ?_ ?_) fun e' => .assume fun he => ?_
      · rintro a s ha rfl
        exact ⟨Option.some.inj (ha.symm.trans (hm.buffered.trans hend)), rfl⟩
      · intro s hs
        rw [hm.buffered, hend] at hs
        cases hs
      subst he
      refine .bind (R := fun _ s => s = ({ s₀.1 with state := .finalized }, s₀.2))
        (.modify fun s hs => by rw [hs]) fun _ => .pure ?_
      rintro _ rfl
      exact ⟨⟨l, i, ⟨hm.inner _ _ _, fun _ => ⟨hp.log_usable, hp.log_buffer, hp.index_usable,
        hp.index_buffer⟩, fun _ => ⟨hcount, hsynced⟩⟩, hJ⟩, rfl, rfl, hopen, hcount, hsynced, rfl⟩
  · simp only [hfull, Bool.not_false, if_true]
    refine .throw fun _ hs => ⟨hs, by simp, by simp, fun hn => hfull ?_⟩
    simpa only [isFull, decide_eq_true_eq] using hm.count.trans hn.2.1

end IndexedLogWriter

end TransactionLog
