import TransactionLog.Streams.Location

/-!
# Ranges of records

A `RecordRangeLocation` holds the outer byte boundaries of consecutive records of
one stream.  Its iterator names, file by file, which bytes belong to the range.

`StreamLayout` says what such a request means: the records of a stream, one
encoding after the other within each file, every file but the last complete.
`portions_select` reads a range back through its iterator.
-/

namespace TransactionLog

inductive RecordRangeLocationError where
  | differentStreams (startStreamId endStreamId : StreamId)
  | reversedRecords (startSequenceNumber endSequenceNumber : SequenceNumber)
  | invalidByteSpan (logFileId : LogFileId) (startPosition endPosition : LogFilePosition)
  deriving DecidableEq, Repr

/-- Which bytes to take from a file. -/
inductive LogFileRange where
  | fileRange (startPosition endPosition : LogFilePosition)
  | filePostfix (startPosition : LogFilePosition)
  | entireFile
  | filePrefix (endPosition : LogFilePosition)
  deriving DecidableEq, Repr

/-- The endpoints of a range, in one stream and in order. -/
structure RecordRangeLocation where
  start : RecordStartLocation
  endLocation : RecordEndLocation
  streams : start.recordId.streamId = endLocation.recordId.streamId
  ordered : start.recordId.sequenceNumber.get ≤ endLocation.recordId.sequenceNumber.get

namespace RecordRangeLocation

def new (start : RecordStartLocation) (endLocation : RecordEndLocation) :
    Except RecordRangeLocationError RecordRangeLocation :=
  if hs : start.recordId.streamId ≠ endLocation.recordId.streamId then
    .error (.differentStreams start.recordId.streamId endLocation.recordId.streamId)
  else if ho : start.recordId.sequenceNumber.get > endLocation.recordId.sequenceNumber.get then
    .error (.reversedRecords start.recordId.sequenceNumber endLocation.recordId.sequenceNumber)
  else
    let endFileStart := if start.logFileId = endLocation.logFileId then start.position else .start
    if endLocation.position.get ≤ endFileStart.get then
      .error (.invalidByteSpan endLocation.logFileId endFileStart endLocation.position)
    else .ok ⟨start, endLocation, not_not.mp hs, Nat.le_of_not_lt ho⟩

/-- What the range takes from one of its files. -/
def portion (range : RecordRangeLocation) (file : LogFileId) : LogFileRange :=
  if range.start.logFileId = range.endLocation.logFileId then
    .fileRange range.start.position range.endLocation.position
  else if file = range.start.logFileId then .filePostfix range.start.position
  else if file = range.endLocation.logFileId then .filePrefix range.endLocation.position
  else .entireFile

/-- The portions of the range in ascending order of files; no result where the iteration
panics. -/
def iter (range : RecordRangeLocation) : Option (List (LogFileId × LogFileRange)) :=
  (LogFileId.visited range.endLocation.logFileId ⟨some range.start.logFileId⟩).map
    (List.map fun file => (file, range.portion file))

theorem logFileId_streams (range : RecordRangeLocation) :
    range.endLocation.logFileId.streamId = range.start.logFileId.streamId :=
  range.streams.symm

theorem logFileId_le (range : RecordRangeLocation) :
    range.start.logFileId.fileNumber.get ≤ range.endLocation.logFileId.fileNumber.get :=
  Nat.div_le_div_right range.ordered

/-- The iterator of a range visits each file once, and never panics. -/
theorem iter_eq (range : RecordRangeLocation) :
    range.iter = some ((LogFileId.successors (range.endLocation.logFileId.fileNumber.get -
      range.start.logFileId.fileNumber.get) range.start.logFileId).map
        fun file => (file, range.portion file)) := by
  rw [iter, LogFileId.visited_eq ⟨range.logFileId_streams, range.logFileId_le, Nat.le_refl _⟩]
  rfl

end RecordRangeLocation

/-! ## Reading a range back -/

/-- The bytes of a file that a portion selects. -/
def LogFileRange.select (content : List UInt8) : LogFileRange → List UInt8
  | .fileRange s e => (content.take e.get).drop s.get
  | .filePostfix s => content.drop s.get
  | .entireFile => content
  | .filePrefix e => content.take e.get

/-- A stream of `count` records, with the encoding of each sequence number. -/
structure StreamLayout where
  streamId : StreamId
  record : Nat → List UInt8
  count : Nat
  min_le : ∀ n, 16 ≤ (record n).length
  le_max : ∀ n, (record n).length ≤ 65535
  count_le : count ≤ 2 ^ 64

namespace StreamLayout

variable (L : StreamLayout)

/-- The encodings of `k` records from number `n` on. -/
def span (n k : Nat) : List UInt8 := (List.range' n k).flatMap L.record

/-- The number of the first record assigned to the file of record `n`. -/
def base (n : Nat) : Nat := n / recordsPerFile * recordsPerFile

/-- What a file of the stream holds: those of its assigned records that exist.  So every
file but the last one is complete. -/
def content (f : LogFileId) : List UInt8 :=
  L.span (f.fileNumber.get * recordsPerFile)
    (min recordsPerFile (L.count - f.fileNumber.get * recordsPerFile))

def startOf (n : SequenceNumber) : RecordStartLocation :=
  ⟨⟨L.streamId, n⟩, .ofNat (L.span (base n.get) (n.get - base n.get)).length⟩

def endOf (n : SequenceNumber) : RecordEndLocation :=
  ⟨⟨L.streamId, n⟩, .ofNat (L.span (base n.get) (n.get + 1 - base n.get)).length⟩

theorem span_add (n k l : Nat) : L.span n (k + l) = L.span n k ++ L.span (n + k) l := by
  rw [span, ← List.range'_append_1, List.flatMap_append]
  rfl

theorem span_split {n m k : Nat} (hn : n ≤ m) (hk : m ≤ k) :
    L.span n (k - n) = L.span n (m - n) ++ L.span m (k - m) := by
  have hsum : k - n = (m - n) + (k - m) := by omega
  rw [hsum, span_add, Nat.add_sub_cancel' hn]

theorem length_span_le (n k : Nat) : (L.span n k).length ≤ 65535 * k := by
  induction k with
  | zero => exact Nat.zero_le _
  | succ k ih =>
    have := L.le_max (n + k)
    rw [span_add, List.length_append]
    show _ + ([n + k].flatMap L.record).length ≤ _
    rw [List.flatMap_singleton]
    omega

theorem length_span_pos {n k : Nat} (hk : 0 < k) : 0 < (L.span n k).length := by
  obtain ⟨k, rfl⟩ := Nat.exists_eq_succ_of_ne_zero (Nat.pos_iff_ne_zero.mp hk)
  have := L.min_le n
  rw [span, List.range'_succ, List.flatMap_cons, List.length_append]
  omega

theorem base_le (n : Nat) : base n ≤ n := Nat.div_mul_le_self _ _

theorem lt_base (n : Nat) : n < base n + 100000 := by
  simp only [base, recordsPerFile_eq]
  omega

theorem startOf_get (n : SequenceNumber) :
    (L.startOf n).position.get = (L.span (base n.get) (n.get - base n.get)).length := by
  have := L.length_span_le (base n.get) (n.get - base n.get)
  have := lt_base n.get
  exact LogFilePosition.get_ofNat (by omega)

theorem endOf_get (n : SequenceNumber) :
    (L.endOf n).position.get = (L.span (base n.get) (n.get + 1 - base n.get)).length := by
  have := L.length_span_le (base n.get) (n.get + 1 - base n.get)
  have := lt_base n.get
  exact LogFilePosition.get_ofNat (by omega)

variable {L}

theorem fileNumber_startOf (n : SequenceNumber) :
    (L.startOf n).logFileId.fileNumber.get = n.get / recordsPerFile := rfl

theorem fileNumber_endOf (n : SequenceNumber) :
    (L.endOf n).logFileId.fileNumber.get = n.get / recordsPerFile := rfl

/-! ### Cutting a file's contents -/

theorem take_content {f : LogFileId} {n : Nat} (hf : f.fileNumber.get * recordsPerFile = base n)
    (hn : n < L.count) :
    (L.content f).take (L.span (base n) (n + 1 - base n)).length =
      L.span (base n) (n + 1 - base n) := by
  have hlo := base_le n
  have hhi := lt_base n
  have hsum : min recordsPerFile (L.count - base n) = (n + 1 - base n) +
      (min recordsPerFile (L.count - base n) - (n + 1 - base n)) := by
    rw [recordsPerFile_eq]
    omega
  rw [content, hf, hsum, span_add]
  exact List.take_left

theorem drop_content {f : LogFileId} {n : Nat} (hf : f.fileNumber.get * recordsPerFile = base n)
    (hn : base n + 100000 ≤ L.count) :
    (L.content f).drop (L.span (base n) (n - base n)).length =
      L.span n (base n + 100000 - n) := by
  have hlo := base_le n
  have hhi := lt_base n
  have hsum : min recordsPerFile (L.count - base n) =
      (n - base n) + (base n + 100000 - n) := by
    rw [recordsPerFile_eq]
    omega
  rw [content, hf, hsum, span_add, List.drop_left, Nat.add_sub_cancel' hlo]

theorem content_complete {f : LogFileId}
    (h : f.fileNumber.get * recordsPerFile + 100000 ≤ L.count) :
    L.content f = L.span (f.fileNumber.get * recordsPerFile) 100000 := by
  rw [content, recordsPerFile_eq, Nat.min_eq_left (by rw [recordsPerFile_eq] at h; omega)]

/-! ### The portions -/

/-- The bytes that a range selects from a file. -/
def selected (L : StreamLayout) (range : RecordRangeLocation) (f : LogFileId) : List UInt8 :=
  (range.portion f).select (L.content f)

variable {range : RecordRangeLocation} {i j : SequenceNumber}

theorem selected_single (hstart : range.start = L.startOf i) (hend : range.endLocation = L.endOf j)
    (hfile : range.start.logFileId = range.endLocation.logFileId) (hj : j.get < L.count)
    (hij : i.get ≤ j.get) :
    L.selected range range.start.logFileId = L.span i.get (j.get + 1 - i.get) := by
  have hbase : base i.get = base j.get := by
    rw [base, base, ← L.fileNumber_startOf i, ← L.fileNumber_endOf j, ← hstart, ← hend, hfile]
  have hfirst : range.start.logFileId.fileNumber.get * recordsPerFile = base j.get := by
    rw [← hbase, hstart, fileNumber_startOf, base]
  have hlo := base_le i.get
  rw [selected, RecordRangeLocation.portion, if_pos hfile, LogFileRange.select, hstart, hend,
    startOf_get, endOf_get, ← hstart, take_content hfirst hj, hbase,
    L.span_split (n := base j.get) (m := i.get) (k := j.get + 1) (by omega) (by omega),
    List.drop_left]

/-- The files after the first one contribute everything up to the last record. -/
theorem selected_later (hend : range.endLocation = L.endOf j) (hj : j.get < L.count) :
    ∀ (n : Nat) (f : LogFileId), f.streamId = L.streamId →
      f.fileNumber.get + n = range.endLocation.logFileId.fileNumber.get →
      range.start.logFileId.fileNumber.get < f.fileNumber.get →
      (LogFileId.successors n f).flatMap (L.selected range) =
        L.span (f.fileNumber.get * recordsPerFile) (j.get + 1 - f.fileNumber.get * recordsPerFile) := by
  intro n
  have hlast : range.endLocation.logFileId.fileNumber.get = j.get / recordsPerFile := by
    rw [hend, fileNumber_endOf]
  induction n with
  | zero =>
    intro f hs hn hlt
    have heq : f = range.endLocation.logFileId := by
      refine LogFileId.ext' ?_ hn
      rw [hs, hend]
      rfl
    have hbase : f.fileNumber.get * recordsPerFile = base j.get := by
      rw [Nat.add_zero, hlast] at hn
      rw [hn, base]
    rw [LogFileId.successors, List.flatMap_singleton, selected, RecordRangeLocation.portion,
      if_neg (by rintro h; rw [heq, h] at hlt; omega), if_neg (by rintro rfl; omega), if_pos heq,
      LogFileRange.select, hend, endOf_get, take_content hbase hj, hbase]
  | succ n ih =>
    intro f hs hn hlt
    have hle := range.endLocation.logFileId.fileNumber.le
    obtain ⟨f', hf'⟩ := LogFileId.exists_next (f := f) (LogFileId.not_terminal_iff.mpr (by omega))
    obtain ⟨hs', hn'⟩ := LogFileId.next_eq_some.mp hf'
    have hfull : f.fileNumber.get * 100000 + 100000 ≤ j.get := by
      rw [hlast, recordsPerFile_eq] at hn
      omega
    have hnext : f'.fileNumber.get * 100000 = f.fileNumber.get * 100000 + 100000 := by omega
    have hsize : f.fileNumber.get * 100000 + 100000 - f.fileNumber.get * 100000 = 100000 := by omega
    have hsplit := L.span_split (n := f.fileNumber.get * 100000)
      (Nat.le_add_right _ 100000) (Nat.le_succ_of_le hfull)
    rw [LogFileId.successors, hf', List.flatMap_cons, ih f' (by rw [hs', hs]) (by omega) (by omega),
      selected, RecordRangeLocation.portion, if_neg (by rintro h; rw [h] at hlt; omega),
      if_neg (by rintro rfl; omega), if_neg (by rintro rfl; omega), LogFileRange.select,
      content_complete (by rw [recordsPerFile_eq]; omega), recordsPerFile_eq, hnext, hsplit, hsize]

/-- Everything that the files of a range contribute. -/
theorem selected_all (hstart : range.start = L.startOf i) (hend : range.endLocation = L.endOf j)
    (hj : j.get < L.count) (hij : i.get ≤ j.get) :
    (LogFileId.successors (range.endLocation.logFileId.fileNumber.get -
      range.start.logFileId.fileNumber.get) range.start.logFileId).flatMap (L.selected range) =
        L.span i.get (j.get + 1 - i.get) := by
  have hfirst : range.start.logFileId.fileNumber.get = i.get / recordsPerFile := by
    rw [hstart, fileNumber_startOf]
  have hlast : range.endLocation.logFileId.fileNumber.get = j.get / recordsPerFile := by
    rw [hend, fileNumber_endOf]
  rcases Nat.eq_or_lt_of_le range.logFileId_le with heq | hlt
  · have hfile : range.start.logFileId = range.endLocation.logFileId :=
      LogFileId.ext' range.logFileId_streams.symm heq
    rw [heq, Nat.sub_self, LogFileId.successors, List.flatMap_singleton]
    exact selected_single hstart hend hfile hj hij
  · have hle := range.endLocation.logFileId.fileNumber.le
    obtain ⟨next, hnext⟩ := LogFileId.exists_next (f := range.start.logFileId)
      (LogFileId.not_terminal_iff.mpr (by omega))
    obtain ⟨hs, hn⟩ := LogFileId.next_eq_some.mp hnext
    have hbase : range.start.logFileId.fileNumber.get * recordsPerFile = base i.get := by
      rw [hfirst, base]
    have hfull : base i.get + 100000 ≤ j.get := by
      rw [hfirst, hlast] at hlt
      simp only [base, recordsPerFile_eq] at hlt ⊢
      omega
    have hstream : next.streamId = L.streamId := by
      rw [hs, hstart]
      rfl
    have hgap : range.endLocation.logFileId.fileNumber.get -
        range.start.logFileId.fileNumber.get =
          (range.endLocation.logFileId.fileNumber.get - next.fileNumber.get) + 1 := by omega
    have hafter : next.fileNumber.get * recordsPerFile = base i.get + 100000 := by
      rw [hn, Nat.add_mul, hbase, Nat.one_mul, recordsPerFile_eq]
    have hlo := base_le i.get
    have hhi := lt_base i.get
    rw [hgap, LogFileId.successors, hnext, List.flatMap_cons,
      selected_later hend hj _ next hstream (by omega) (by omega), hafter, selected,
      RecordRangeLocation.portion, if_neg (by rintro h; rw [h] at hlt; omega), if_pos rfl,
      LogFileRange.select, hstart, startOf_get, ← hstart, drop_content hbase (by omega),
      L.span_split (n := i.get) (m := base i.get + 100000) (k := j.get + 1) (by omega) (by omega)]

theorem new_startOf_endOf (hij : i.get ≤ j.get) :
    ∃ range, RecordRangeLocation.new (L.startOf i) (L.endOf j) = .ok range ∧
      range.start = L.startOf i ∧ range.endLocation = L.endOf j := by
  have hpos : (if (L.startOf i).logFileId = (L.endOf j).logFileId then (L.startOf i).position
      else .start).get < (L.endOf j).position.get := by
    have hlo := base_le j.get
    split
    · rename_i hfile
      have hbase : base i.get = base j.get := by
        rw [base, base, ← L.fileNumber_startOf i, ← L.fileNumber_endOf j, hfile]
      have hlo := base_le i.get
      have hsome := L.length_span_pos (n := i.get) (k := j.get + 1 - i.get) (by omega)
      rw [startOf_get, endOf_get, hbase, L.span_split (n := base j.get) (m := i.get)
        (k := j.get + 1) (by omega) (by omega), List.length_append]
      omega
    · rw [endOf_get]
      exact L.length_span_pos (by omega)
  have hstreams : (L.startOf i).recordId.streamId = (L.endOf j).recordId.streamId := rfl
  have hordered : (L.startOf i).recordId.sequenceNumber.get ≤
      (L.endOf j).recordId.sequenceNumber.get := hij
  refine ⟨⟨L.startOf i, L.endOf j, hstreams, hordered⟩, ?_, rfl, rfl⟩
  rw [RecordRangeLocation.new, dif_neg (not_not.mpr hstreams), dif_neg (Nat.not_lt.mpr hordered)]
  exact if_neg (Nat.not_le.mpr hpos)

/-- **Reading a range back.**  The true endpoints of two records of a stream make a range.
Its iterator visits the files from the first record's to the last record's once each and
in order, and what it selects from them is the records in between. -/
theorem portions_select (L : StreamLayout) {i j : SequenceNumber} (hij : i.get ≤ j.get)
    (hj : j.get < L.count) :
    ∃ range items, RecordRangeLocation.new (L.startOf i) (L.endOf j) = .ok range ∧
      range.iter = some items ∧
      (items.flatMap fun item => item.2.select (L.content item.1)) =
        L.span i.get (j.get + 1 - i.get) ∧
      (∀ item ∈ items, item.1.streamId = L.streamId) ∧
      items.map (fun item => item.1.fileNumber.get) =
        List.range' (i.get / recordsPerFile)
          (j.get / recordsPerFile + 1 - i.get / recordsPerFile) := by
  obtain ⟨range, hnew, hstart, hend⟩ := new_startOf_endOf (L := L) hij
  have hle := range.logFileId_le
  have hmax := range.endLocation.logFileId.fileNumber.le
  have hfirst : range.start.logFileId.fileNumber.get = i.get / recordsPerFile := by
    rw [hstart, fileNumber_startOf]
  have hlast : range.endLocation.logFileId.fileNumber.get = j.get / recordsPerFile := by
    rw [hend, fileNumber_endOf]
  refine ⟨range, _, hnew, range.iter_eq, ?_, ?_, ?_⟩
  · rw [List.flatMap_map]
    exact selected_all hstart hend hj hij
  · intro item hitem
    obtain ⟨f, hf, rfl⟩ := List.mem_map.mp hitem
    rw [((LogFileId.mem_successors _ _ _ (by omega)).mp hf).1, hstart]
    rfl
  · rw [List.map_map]
    refine (LogFileId.map_successors _ _ (by omega)).trans ?_
    rw [hfirst, hlast, Nat.sub_add_comm (by omega)]

/-- A stream of shortest records that uses up the sequence domain. -/
def exhausted : StreamLayout where
  streamId := ⟨0, by decide⟩
  record _ := List.replicate 16 0
  count := 2 ^ 64
  min_le _ := Nat.le_of_eq List.length_replicate.symm
  le_max _ := by rw [List.length_replicate]; decide
  count_le := Nat.le_refl _

/-- The last records of the terminal file, and a whole file before them. -/
theorem portions_select_terminal :
    let i : SequenceNumber := ⟨18446744073709300000, by decide⟩
    let j : SequenceNumber := ⟨18446744073709551615, by decide⟩
    ∃ range items, RecordRangeLocation.new (exhausted.startOf i) (exhausted.endOf j) = .ok range ∧
      range.iter = some items ∧
      (items.flatMap fun item => item.2.select (exhausted.content item.1)) =
        exhausted.span i.get 251616 := by
  obtain ⟨range, items, hnew, hiter, hbytes, -⟩ := portions_select exhausted
    (i := ⟨18446744073709300000, by decide⟩) (j := ⟨18446744073709551615, by decide⟩)
    (by decide) (by decide)
  exact ⟨range, items, hnew, hiter, hbytes⟩

end StreamLayout

end TransactionLog
