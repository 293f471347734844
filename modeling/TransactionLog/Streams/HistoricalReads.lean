import TransactionLog.Streams.IndexedHistory
import TransactionLog.Streams.RecordRange
import TransactionLog.Streams.Refinement

/-!
# Historical reads

The indexes and the range locations are there for readers with handles of their own: one
looks up in the indexes where the first record of a request starts and where the last one
ends, makes a range of the two, and takes from each log the portion that the range's
iterator names.  The service does not serve such requests yet, and the lookup below is the
one that the dense format of the index prescribes.

`Readable s H m d` says what it relies on: the logs and indexes of `d` begin with the first
`m` records of `H` and their ends.  The published boundaries of a stream, those of its
checkpoint and of its open writer, are such an `m` after every run, whatever is in the
files after it.
-/

namespace TransactionLog

open Lib Lib.Tree

variable [Crc32c] {s : StreamId} {H rs : List Record} {f : LogFileId} {m n : Nat}
  {d : Disk}

/-! ## The layout of a history -/

/-- Records of a stream from its first one on, as a layout of its files. -/
def StreamLayout.ofRecords (s : StreamId) (rs : List Record) (h : rs.length ≤ 2 ^ 64) :
    StreamLayout where
  streamId := s
  record n := rs[n]?.elim (List.replicate Protocol.minRecordLen 0) Record.bytes
  count := rs.length
  min_le n := by
    cases rs[n]? with
    | none => exact Nat.le_of_eq List.length_replicate.symm
    | some r => exact r.valid.min_le
  le_max n := by
    cases rs[n]? with
    | none => exact Nat.le_trans (Nat.le_of_eq List.length_replicate) (by decide)
    | some r => exact r.valid.le_max
  count_le := h

namespace StreamLayout

variable {h : rs.length ≤ 2 ^ 64} {k : Nat}

theorem span_ofRecords (hk : n + k ≤ rs.length) :
    (ofRecords s rs h).span n k = encodings ((rs.drop n).take k) := by
  induction k generalizing n with
  | zero => rfl
  | succ k ih =>
    have hn : n < rs.length := by omega
    have hrecord : (ofRecords s rs h).record n = rs[n].bytes := by
      show rs[n]?.elim _ Record.bytes = _
      rw [List.getElem?_eq_getElem hn]
      rfl
    rw [List.drop_eq_getElem_cons hn, List.take_succ_cons, encodings_cons, ← ih (by omega), span,
      List.range'_succ, List.flatMap_cons, hrecord]
    rfl

theorem content_ofRecords (f : LogFileId) :
    (ofRecords s rs h).content f = encodings (part f rs) := by
  by_cases hf : f.before ≤ rs.length
  · rw [content, span_ofRecords, part]
    · show encodings (((rs.drop f.before).take (min recordsPerFile (rs.length - f.before)))) = _
      rw [← List.length_drop, ← List.take_eq_take_min]
    · show f.before + min recordsPerFile (rs.length - f.before) ≤ rs.length
      omega
  · have hnone : (ofRecords s rs h).count - f.fileNumber.get * recordsPerFile = 0 :=
      Nat.sub_eq_zero_of_le (Nat.le_of_not_le hf)
    rw [part_eq_nil (Nat.le_of_not_le hf), content, hnone, Nat.min_zero]
    rfl

/-- The first records of a file. -/
theorem span_before (f : LogFileId) (hk : k ≤ recordsPerFile) (hle : f.before + k ≤ rs.length) :
    (ofRecords s rs h).span f.before k = encodings ((part f rs).take k) := by
  rw [span_ofRecords hle, part, List.take_take, Nat.min_eq_left hk]

end StreamLayout

/-! ## Looking up a record -/

/-- Where the record numbered `n` of a file ends, if the index has a whole entry for it. -/
def endPosition (d : Disk) (f : LogFileId) (n : Nat) : Option LogFilePosition :=
  (d (.index f)).bind fun I =>
    if indexEntryLen * (n + 1) ≤ I.file.content.length then
      some (.ofNat (entryAt I.file.content n))
    else none

/-- Which record of its file it is. -/
def RecordId.place (id : RecordId) : Nat :=
  id.sequenceNumber.get - (LogFileId.fromRecordId id).firstRecordId.sequenceNumber.get

def lookupStart (d : Disk) (id : RecordId) : Option RecordStartLocation :=
  if id.place = 0 then some ⟨id, .start⟩
  else (endPosition d (.fromRecordId id) (id.place - 1)).map fun position => ⟨id, position⟩

def lookupEnd (d : Disk) (id : RecordId) : Option RecordEndLocation :=
  (endPosition d (.fromRecordId id) id.place).map fun position => ⟨id, position⟩

/-- The bytes that the portions have in the logs. -/
def readPortions (d : Disk) (items : List (LogFileId × LogFileRange)) : List UInt8 :=
  items.flatMap fun item => (d (.log item.1)).elim [] fun L => item.2.select L.file.content

/-- Every range of the first `m` records is read back: the indexes lead to its endpoints,
these make a range, and its portions are the records from the first to the last one. -/
def ReadsBack (d : Disk) (s : StreamId) (H : List Record) (m : Nat) : Prop :=
  ∀ i j : SequenceNumber, i.get ≤ j.get → j.get < m →
    ∃ start endLocation range items, lookupStart d ⟨s, i⟩ = some start ∧
      lookupEnd d ⟨s, j⟩ = some endLocation ∧
      RecordRangeLocation.new start endLocation = .ok range ∧ range.iter = some items ∧
      readPortions d items = encodings ((H.drop i.get).take (j.get + 1 - i.get))

/-- A whole entry is the end of its record, whatever follows in the index. -/
theorem entryAt_of_prefix {content : List UInt8} (h : indexBytes rs <+: content)
    (hn : n < rs.length) (hlt : (encodings rs).length < 2 ^ 64) :
    entryAt content n = (encodings (rs.take (n + 1))).length := by
  obtain ⟨rest, rfl⟩ := h
  have hlen : 8 * (n + 1) ≤ (indexBytes rs).length := by
    rw [length_indexBytes]
    omega
  rw [entryAt, indexEntryLen_eq, List.drop_append_of_le_length (by omega),
    List.take_append_of_le_length (by rw [List.length_drop]; omega), indexBytes,
    take_drop_entries hn, Nat.zero_add]
  exact ofLe_toLe_of_lt (Nat.lt_of_le_of_lt (encodings_mono (List.take_prefix _ _)).length_le hlt)

/-! ## What a reader relies on -/

/-- The log and the index of the file begin with those of the first `m` records that are
assigned to it and with their ends.  If the `m` records go on after the file, its log holds
nothing else. -/
structure ReadableAt (H : List Record) (m : Nat) (d : Disk) (f : LogFileId) : Prop where
  log : ∃ L, d (.log f) = some L ∧ encodings (part f (H.take m)) <+: L.file.content ∧
    (f.before + recordsPerFile < m → L.file.content = encodings (part f H))
  index : ∃ I, d (.index f) = some I ∧ indexBytes (part f (H.take m)) <+: I.file.content

/-- The first `m` records of a history can be read. -/
structure Readable (s : StreamId) (H : List Record) (m : Nat) (d : Disk) : Prop where
  consecutive : Consecutive s 0 H
  le : m ≤ H.length
  short : H.length < 2 ^ 64
  file : ∀ f : LogFileId, f.streamId = s → f.before < m → ReadableAt H m d f

theorem ReadableAt.mono (h : ReadableAt H m d f) (hn : n ≤ m) : ReadableAt H n d f := by
  obtain ⟨⟨L, hL, hlog, hfull⟩, I, hI, hindex⟩ := h
  have hpart := part_isPrefix (List.take_prefix_take_left (l := H) hn) f
  exact ⟨⟨L, hL, (encodings_mono hpart).trans hlog, fun hlt => hfull (Nat.lt_of_lt_of_le hlt hn)⟩,
    I, hI, (indexBytes_mono hpart).trans hindex⟩

theorem Readable.mono (h : Readable s H m d) (hn : n ≤ m) : Readable s H n d :=
  ⟨h.consecutive, Nat.le_trans hn h.le, h.short,
    fun f hf hlt => (h.file f hf (Nat.lt_of_lt_of_le hlt hn)).mono hn⟩

theorem ReadableAt.endPosition_eq (h : ReadableAt H m d f) (hfills : Fills f (part f (H.take m)))
    (hn : n < (part f (H.take m)).length) :
    endPosition d f n = some (.ofNat (encodings ((part f (H.take m)).take (n + 1))).length) := by
  obtain ⟨-, I, hI, hindex⟩ := h
  have hlen := hindex.length_le
  rw [length_indexBytes] at hlen
  rw [endPosition, hI, Option.bind_some,
    if_pos (by rw [indexEntryLen_eq]; omega), entryAt_of_prefix hindex hn hfills.encodings_lt]

namespace Readable

variable {i j : SequenceNumber}

/-- The layout of the records that can be read. -/
def layout (h : Readable s H m d) : StreamLayout :=
  .ofRecords s (H.take m) (Nat.le_trans (List.length_take_le' _ _) (Nat.le_of_lt h.short))

theorem length_take (h : Readable s H m d) : (H.take m).length = m := List.length_take_of_le h.le

theorem fills (h : Readable s H m d) (hf : f.streamId = s) : Fills f (part f (H.take m)) :=
  fills_part (h.consecutive.of_isPrefix (List.take_prefix m H)) hf

/-- The record is among those of its file. -/
theorem place_lt (h : Readable s H m d) (hi : i.get < m) :
    let f := LogFileId.fromRecordId ⟨s, i⟩
    f.before + RecordId.place ⟨s, i⟩ = i.get ∧ RecordId.place ⟨s, i⟩ < recordsPerFile ∧
      RecordId.place ⟨s, i⟩ < (part f (H.take m)).length := by
  intro f
  obtain ⟨-, hle, hlt⟩ := LogFileId.fromRecordId_eq_iff.mp (Eq.refl f)
  rw [← LogFileId.before_eq] at hle hlt
  have hplace : RecordId.place ⟨s, i⟩ = i.get - f.before := rfl
  rw [length_part, h.length_take, recordsPerFile_eq, hplace]
  simp only at hle hlt
  omega

theorem layout_span (h : Readable s H m d) {k : Nat} (hk : k ≤ recordsPerFile)
    (hle : f.before + k ≤ m) :
    h.layout.span f.before k = encodings ((part f (H.take m)).take k) :=
  StreamLayout.span_before f hk (by rwa [h.length_take])

theorem layout_startOf (h : Readable s H m d) (hi : i.get < m) :
    h.layout.startOf i = ⟨⟨s, i⟩, .ofNat (encodings ((part (.fromRecordId ⟨s, i⟩)
      (H.take m)).take (RecordId.place ⟨s, i⟩))).length⟩ := by
  obtain ⟨hsum, hfits, -⟩ := h.place_lt hi
  rw [← h.layout_span (Nat.le_of_lt hfits) (by omega)]
  rfl

theorem layout_endOf (h : Readable s H m d) (hj : j.get < m) :
    h.layout.endOf j = ⟨⟨s, j⟩, .ofNat (encodings ((part (.fromRecordId ⟨s, j⟩)
      (H.take m)).take (RecordId.place ⟨s, j⟩ + 1))).length⟩ := by
  obtain ⟨hsum, hfits, -⟩ := h.place_lt hj
  have hcount : j.get + 1 - StreamLayout.base j.get = RecordId.place ⟨s, j⟩ + 1 :=
    Nat.succ_sub (StreamLayout.base_le j.get)
  rw [← h.layout_span (Nat.succ_le_of_lt hfits) (by omega), StreamLayout.endOf, hcount]
  rfl

/-- **The index leads to where a record starts.** -/
theorem lookupStart_eq (h : Readable s H m d) (hi : i.get < m) :
    lookupStart d ⟨s, i⟩ = some (h.layout.startOf i) := by
  obtain ⟨hsum, hfits, hplace⟩ := h.place_lt hi
  rw [h.layout_startOf hi, lookupStart]
  by_cases hfirst : RecordId.place ⟨s, i⟩ = 0
  · rw [if_pos hfirst, hfirst]
    rfl
  · have hprev := Nat.lt_of_le_of_lt (Nat.sub_le _ 1) hplace
    have hfile := h.file (.fromRecordId ⟨s, i⟩) rfl (by omega)
    rw [if_neg hfirst, hfile.endPosition_eq (h.fills rfl) hprev,
      Nat.sub_add_cancel (Nat.pos_of_ne_zero hfirst)]
    rfl

/-- **And to where it ends.** -/
theorem lookupEnd_eq (h : Readable s H m d) (hj : j.get < m) :
    lookupEnd d ⟨s, j⟩ = some (h.layout.endOf j) := by
  obtain ⟨hsum, hfits, hplace⟩ := h.place_lt hj
  have hfile := h.file (.fromRecordId ⟨s, j⟩) rfl (by omega)
  rw [h.layout_endOf hj, lookupEnd, hfile.endPosition_eq (h.fills rfl) hplace]
  rfl

/-! ### Reading a range -/

omit [Crc32c] in
/-- What follows the end of a range in its last file does not matter. -/
theorem select_last {range : RecordRangeLocation} {content content' : List UInt8}
    (hf : f = range.endLocation.logFileId) (hp : content <+: content')
    (hle : range.endLocation.position.get ≤ content.length) :
    (range.portion f).select content' = (range.portion f).select content := by
  obtain ⟨rest, rfl⟩ := hp
  have htake : (content ++ rest).take range.endLocation.position.get =
      content.take range.endLocation.position.get := List.take_append_of_le_length hle
  rw [RecordRangeLocation.portion]
  split
  · rw [LogFileRange.select, LogFileRange.select, htake]
  · rename_i hne
    have hstart : f ≠ range.start.logFileId := fun heq => hne (heq.symm.trans hf)
    rw [if_neg hstart, LogFileRange.select, LogFileRange.select, htake]

/-- A log of the range gives what the layout's file does. -/
theorem selected {range : RecordRangeLocation} (h : Readable s H (j.get + 1) d)
    (hend : range.endLocation = h.layout.endOf j) (hf : f.streamId = s)
    (hle : f.fileNumber.get ≤ range.endLocation.logFileId.fileNumber.get) :
    (d (.log f)).elim [] (fun L => (range.portion f).select L.file.content) =
      h.layout.selected range f := by
  have hlast : range.endLocation.logFileId = .fromRecordId ⟨s, j⟩ := by rw [hend]; rfl
  obtain ⟨hsum, -, -⟩ := h.place_lt (Nat.lt_succ_self j.get)
  rw [← hlast] at hsum
  rcases Nat.lt_or_eq_of_le hle with hlt | heq
  · -- the file is full, and its log holds nothing else
    have hbefore := LogFileId.before_add_le hlt
    obtain ⟨L, hL, -, hfull⟩ := (h.file f hf (by rw [recordsPerFile_eq] at hbefore; omega)).log
    rw [hL, Option.elim_some, hfull (by omega), StreamLayout.selected, layout,
      StreamLayout.content_ofRecords, part_take_of_le (by omega)]
  · have hsame : f = range.endLocation.logFileId :=
      LogFileId.ext' (hf.trans (congrArg LogFileId.streamId hlast).symm) heq
    obtain ⟨L, hL, hlog, -⟩ := (h.file f hf (by rw [hsame]; omega)).log
    rw [hL, Option.elim_some, StreamLayout.selected, layout, StreamLayout.content_ofRecords]
    refine select_last hsame hlog ?_
    have hfills := (h.fills hf).of_isPrefix (List.take_prefix (RecordId.place ⟨s, j⟩ + 1) _)
    rw [hend, h.layout_endOf (Nat.lt_succ_self _), ← hlast, ← hsame,
      LogFilePosition.get_ofNat hfills.encodings_lt]
    exact (encodings_mono (List.take_prefix _ _)).length_le

/-- **A range that can be read is read back.** -/
theorem readsBack (h : Readable s H m d) : ReadsBack d s H m := by
  intro i j hij hj
  have h' := h.mono (Nat.succ_le_of_lt hj)
  obtain ⟨range, hnew, hstart, hend⟩ := StreamLayout.new_startOf_endOf (L := h'.layout) hij
  refine ⟨_, _, range, _, h'.lookupStart_eq (Nat.lt_succ_of_le hij), h'.lookupEnd_eq (Nat.lt_succ_self _),
    hnew, range.iter_eq, ?_⟩
  have hcount : h'.layout.count = j.get + 1 := h'.length_take
  have hall := StreamLayout.selected_all (L := h'.layout) hstart hend
    (by rw [hcount]; exact Nat.lt_succ_self _) hij
  have hspan : h'.layout.span i.get (j.get + 1 - i.get) =
      encodings ((H.drop i.get).take (j.get + 1 - i.get)) := by
    rw [layout, StreamLayout.span_ofRecords (by rw [h'.length_take]; omega), List.drop_take,
      List.take_take, Nat.min_self]
  rw [readPortions, List.flatMap_map, ← hspan, ← hall]
  refine List.flatMap_congr fun f hf => ?_
  have hle := range.logFileId_le
  have hmax := range.endLocation.logFileId.fileNumber.le
  obtain ⟨hs, -, hn⟩ := (LogFileId.mem_successors _ _ _ (by omega)).mp hf
  have hstream : range.start.logFileId.streamId = s := by
    rw [hstart]
    rfl
  exact h'.selected (f := f) hend (hs.trans hstream) (by omega)

/-- A reader looks at the files of the stream only. -/
theorem congr {d' : Disk} (h : Readable s H m d) (hsame : ∀ f : LogFileId, f.streamId = s →
    d' (.log f) = d (.log f) ∧ d' (.index f) = d (.index f)) : Readable s H m d' := by
  refine ⟨h.consecutive, h.le, h.short, fun f hf hlt => ?_⟩
  obtain ⟨⟨L, hL, hlog⟩, I, hI, hindex⟩ := h.file f hf hlt
  obtain ⟨hsameLog, hsameIndex⟩ := hsame f hf
  exact ⟨⟨L, hsameLog.trans hL, hlog⟩, I, hsameIndex.trans hI, hindex⟩

theorem zero (hconsecutive : Consecutive s 0 H) (hshort : H.length < 2 ^ 64) :
    Readable s H 0 d :=
  ⟨hconsecutive, Nat.zero_le _, hshort, fun _ _ hlt => absurd hlt (Nat.not_lt_zero _)⟩

theorem max (hm : Readable s H m d) (hn : Readable s H n d) : Readable s H (max m n) d := by
  rcases Nat.le_total m n with hle | hle
  · rw [Nat.max_eq_right hle]
    exact hn
  · rw [Nat.max_eq_left hle]
    exact hm

end Readable

/-! ## What can be read -/

namespace StreamInitializer

/-- All of the files before one that can be read are full, durable and indexed. -/
theorem Consistent.readable {g : LogFileId} (h : Consistent s H n d)
    (hx : Indexed s H g.fileNumber.get d) (hg : g.streamId = s) (hm : m ≤ H.length)
    (hbefore : g.before ≤ n) (hlast : m ≤ g.before + recordsPerFile)
    (hat : g.before < m → ReadableAt H m d g) : Readable s H m d := by
  refine ⟨h.consecutive, hm, h.short, fun f hf hlt => ?_⟩
  rcases Nat.lt_trichotomy f.fileNumber.get g.fileNumber.get with hfg | hfg | hfg
  · have hfull := Nat.le_trans (LogFileId.before_add_le hfg) hbefore
    obtain ⟨L, hL⟩ := Option.ne_none_iff_exists'.mp
      (h.there f hf (by rw [recordsPerFile_eq] at hfull; omega))
    obtain ⟨I, hI, hindex⟩ := hx f hf hfg
    obtain ⟨hcontent, -⟩ := (h.log f L hf hL).full hfull
    have hpart := part_isPrefix (List.take_prefix m H) f
    exact ⟨⟨L, hL, hcontent ▸ encodings_mono hpart, fun _ => hcontent⟩, I, hI,
      (indexBytes_mono hpart).trans hindex.isPrefix⟩
  · obtain rfl : f = g := LogFileId.ext' (hf.trans hg.symm) hfg
    exact hat hlt
  · have := LogFileId.before_add_le hfg
    omega

/-- **Up to the checkpoint.** -/
theorem Consistent.readable_checkpoint {e : RecordEndLocation} (h : Consistent s H n d)
    (hx : Indexed s H e.logFileId.fileNumber.get d) (hs : e.recordId.streamId = s)
    (hp : PairBacked e d) (hle : countThrough e ≤ n) : Readable s H (countThrough e) d := by
  obtain ⟨base, L, I, hL, hI, hfills, hend, hlog, hindex⟩ := hp
  obtain ⟨hbefore, hlast⟩ := before_le_countThrough e
  have hfront : base <+: part e.logFileId H :=
    (hfills.le_held hlog.isPrefix).trans (h.log _ L hs hL).held_isPrefix
  have hcount : countThrough e = e.logFileId.before + base.length := by
    obtain ⟨-, -, hn, -⟩ := hfills.endOf_eq_some hend
    rw [countThrough, hn, LogFileId.first_sequence]
  refine h.readable hx hs (Nat.le_trans hle h.le) (by omega) hlast fun _ => ?_
  have hpart : part e.logFileId (H.take (countThrough e)) = base := by
    rw [hcount, part_take_length hfront]
  exact ⟨⟨L, hL, by rw [hpart]; exact hlog.isPrefix, fun hlt => by omega⟩, I, hI,
    by rw [hpart]; exact hindex.isPrefix⟩

end StreamInitializer

/-- **Up to what the writer has flushed.** -/
theorem IndexedLogWriter.Writing.readable {w : IndexedLogWriter} {g : IndexedLogWriter.Ghost}
    {l k : Channel} {L I : Stored} (h : Writing s H n d w g l k L I)
    (hc : StreamInitializer.Consistent s H n d)
    (hx : StreamInitializer.Indexed s H w.fileId.fileNumber.get d) :
    Readable s H (w.fileId.before + g.flushed) d := by
  have hm := h.inv.marks
  have hlength := length_extended (g := g) h.before_le
  rw [← h.history] at hlength
  have hpart : part w.fileId (H.take (w.fileId.before + g.flushed)) = g.all.take g.flushed := by
    rw [part_take, h.part_eq, Nat.add_sub_cancel_left]
  have hsynced := hm.synced_le
  have hflushed := hm.flushed_le
  have hfits := hm.fills.length_le
  have hdurable := h.durable
  refine hc.readable hx h.stream (by omega) (by omega) (by omega) fun _ => ?_
  refine ⟨⟨L, h.log, ?_, fun hlt => by omega⟩, I, h.index, ?_⟩
  · have hcontent : L.file.content <+: encodings g.all := by
      rw [h.log_receives.content, Ghost.all, encodings_append]
      exact (List.prefix_append_right_inj _).mpr hm.log_accepted
    rw [hpart]
    refine List.prefix_of_prefix_length_le (encodings_mono (List.take_prefix _ _)) hcontent ?_
    have hlog := hm.log_flushed
    have hle := hm.log_flushed_le
    rw [h.log_receives.content, List.length_append]
    omega
  · have hcontent : I.file.content <+: indexBytes g.all := by
      rw [h.index_receives.content, Ghost.all, indexBytes_append]
      exact (List.prefix_append_right_inj _).mpr hm.index_accepted
    rw [hpart]
    refine List.prefix_of_prefix_length_le (indexBytes_mono (List.take_prefix _ _)) hcontent ?_
    have hindex := hm.index_flushed
    have hle := hm.index_flushed_le
    rw [h.index_receives.content, List.length_append, length_indexBytes, length_indexBytes,
      List.length_take]
    omega

/-! ### The published boundaries -/

namespace Sessions

open StreamInitializer (initializeStream recordsThrough countThrough)

/-- How many records are flushed, as the writer has it. -/
def flushedThrough (w : IndexedLogWriter) : Nat :=
  w.flushedEnd.elim w.fileId.before countThrough

variable [CheckpointReader] {p : StorageProvider} {st : State} {plan : Plan}
  {i : InitializedStream} {w : World Tree}

/-- How many records a reader may be told of: those up to the checkpoint, and those that the
open writer has flushed. -/
def published (p : StorageProvider) (s : StreamId) (st : State) : Nat :=
  max ((checkpointEnd p s st.tree).elim 0 countThrough) (st.writer.elim 0 flushedThrough)

/-- **What is published can be read.** -/
theorem Holds.readable (h : Holds p s st n) (hx : IndexedTo p s st) :
    Readable s st.history (published p s st) (diskOf p st.tree) := by
  cases h with
  | fresh fresh closed history =>
    rw [published, checkpointEnd_fresh fresh, closed, history]
    exact .zero trivial (Nat.two_pow_pos 64)
  | @there _ d cp on hc hp hopen =>
    have hd := on.2
    subst hd
    refine .max ?_ ?_
    · rw [checkpointEnd_on on hp]
      cases cp with
      | none => exact .zero hc.consecutive hc.short
      | some k =>
        exact hc.readable_checkpoint (hx.checkpoint _ hp.reads) (hp.stream k rfl) (hp.pair k rfl)
          (hp.le k rfl)
    · cases hw : st.writer with
      | none => exact .zero hc.consecutive hc.short
      | some w =>
        obtain ⟨-, g, l, k, L, I, hwriting⟩ := hopen w hw
        have hm := hwriting.inv.marks
        have hflushed : flushedThrough w = w.fileId.before + g.flushed := by
          rw [flushedThrough, hm.flushedEnd, count_endOf (hm.fills.of_isPrefix (List.take_prefix _ _)),
            List.length_take_of_le hm.flushed_le]
        rw [Option.elim_some, hflushed]
        exact hwriting.readable hc (hx.writer w hw)

/-- **So can all that an initialization has recovered.** -/
theorem Holds.readable_initialized (h : Holds p s st n) (hx : IndexedTo p s st)
    (hrun : (initializeStream p s).run st.tree plan = (.ok i, w)) :
    Readable s (recordsThrough (diskOf p w.sys) i) (recordsThrough (diskOf p w.sys) i).length
      (diskOf p w.sys) := by
  have hrecovers := h.initialized hrun
  have hhanded := hrecovers.handedOver
  have hcount := hhanded.count
  have hroom := hhanded.room
  refine hrecovers.consistent.readable (hx.initialized h hrun) hhanded.stream (Nat.le_refl _)
    (by omega) (by omega) fun _ => ?_
  obtain ⟨L, hL, hlog⟩ := Option.map_eq_some_iff.mp hhanded.log
  obtain ⟨I, hI, hindex⟩ := Option.map_eq_some_iff.mp hhanded.index
  refine ⟨⟨L, hL, ?_, fun hlt => by omega⟩, I, hI, ?_⟩
  · rw [List.take_length, hlog]
    exact List.prefix_refl _
  · rw [List.take_length, hindex]
    exact List.prefix_refl _

/-- What can be read after a run. -/
theorem exists_indexed {t : Tree} (h : Fresh p s t) (ops : List (Op p s)) :
    ∃ n, Holds p s (run p s (.new t) ops) n ∧ IndexedTo p s (run p s (.new t) ops) :=
  (indexedTo_new h).run ops (holds_new h) (List.prefix_refl _)

theorem Alike.published {st' : State} (h : Alike p s st st') :
    published p s st' = published p s st := by
  unfold Sessions.published
  rw [checkpointEnd_congr h.tree, h.writer]

omit [CheckpointReader] in
/-- The files of the stream are the same in related trees. -/
theorem readable_congr {t t' : Tree} (h : Readable s H m (diskOf p t'))
    (hsame : SameIn (below (p.streamDirectory s)) t t') : Readable s H m (diskOf p t) := by
  refine h.congr fun f hf => ?_
  have hlog := hsame.get _ (StorageProvider.below_logFilePath (p := p) hf)
  have hindex := hsame.get _ (StorageProvider.below_indexFilePath (p := p) hf)
  exact ⟨congrArg storedEntry hlog.symm, congrArg storedEntry hindex.symm⟩

end Sessions

namespace Service

open Sessions (published)
open StreamInitializer (initializeStream recordsThrough)

variable [CheckpointReader] {p : StorageProvider} {t : Tree}

/-- **Published ranges can be read**, after every run of all streams, and so can all that an
initialization has recovered.  Crashes keep entries and renames. -/
theorem published_ranges_readable (hestablished : StorageProvider.Established p t)
    (hfresh : ∀ s, Fresh p s t) (events : List (Event p)) (s : StreamId) :
    let st := run p (.new t) events
    ReadsBack (diskOf p st.tree) s (st.client s).history (published p s (st.at s)) ∧
    ∀ plan i w, (initializeStream p s).run st.tree plan = (.ok i, w) →
      ReadsBack (diskOf p w.sys) s (recordsThrough (diskOf p w.sys) i)
        (recordsThrough (diskOf p w.sys) i).length := by
  intro st
  have halike : Sessions.Alike p s (st.at s)
      (Sessions.run p s (.new t) (events.filterMap (Event.onto s))) :=
    (ready_new hestablished).run_alike events (ready_new hestablished s)
  obtain ⟨n, hholds, hindexed⟩ := Sessions.exists_indexed (hfresh s)
    (events.filterMap (Event.onto s))
  constructor
  · have hreadable := Sessions.readable_congr (hholds.readable hindexed) halike.tree
    rw [halike.history, halike.published] at hreadable
    exact hreadable.readsBack
  · intro plan i w hrun
    obtain ⟨w', hrun', hi, hsame⟩ := initialized_alone halike hrun
    have hreadable := Sessions.readable_congr (hholds.readable_initialized hindexed hrun') hsame
    rw [Sessions.recordsThrough_congr hi hsame] at hreadable
    exact hreadable.readsBack

omit [Crc32c] [CheckpointReader] in
/-- A record that was flushed and not synchronized, beside a stream that is not there. -/
theorem published_ranges_readable_flushed : letI := Crc32c.reference
    letI := CheckpointReader.canonical
    let p : StorageProvider := ⟨[]⟩
    let f : LogFileId := .first ⟨0, by decide⟩
    let g : LogFileId := .first ⟨1, by decide⟩
    let n : SequenceNumber := ⟨0, by decide⟩
    let events : List (Event p) := [.on f.streamId (.start .calm) trivial,
      .on f.streamId (.writeRecord (Fills.firstRecord f)) trivial,
      .on g.streamId (.start (.next .all .stop)) trivial,
      .on f.streamId (.flush .calm) trivial]
    let st := run p (.new StorageProvider.bases) events
    ∃ start endLocation range items,
      lookupStart (diskOf p st.tree) ⟨f.streamId, n⟩ = some start ∧
      lookupEnd (diskOf p st.tree) ⟨f.streamId, n⟩ = some endLocation ∧
      RecordRangeLocation.new start endLocation = .ok range ∧ range.iter = some items ∧
      readPortions (diskOf p st.tree) items =
        encodings (((st.client f.streamId).history.drop n.get).take (n.get + 1 - n.get)) := by
  intro p f g n events st
  have hpublished : n.get < @published Crc32c.reference CheckpointReader.canonical p f.streamId
      (@State.at Crc32c.reference st f.streamId) := by
    decide +kernel
  let _ := Crc32c.reference
  let _ := CheckpointReader.canonical
  have hreads : ReadsBack (diskOf p st.tree) f.streamId (st.client f.streamId).history
      (published p f.streamId (st.at f.streamId)) :=
    (published_ranges_readable StorageProvider.established_bases StorageProvider.fresh_bases
      events f.streamId).1
  clear_value st
  exact hreads n n (Nat.le_refl _) hpublished

end Service

end TransactionLog
