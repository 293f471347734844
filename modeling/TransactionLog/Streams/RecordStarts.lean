import TransactionLog.Streams.Location

/-!
# The starts of successive records

`walk` steps from the start of one record to the start of the next.  From the first
record of a file on, each start lies where the layout has it: in the file that its
sequence number gives, behind the earlier records of that file.
-/

namespace TransactionLog

namespace RecordStartLocation

/-- Steps over records of these lengths: their starts, and the start behind them. -/
def walk : RecordStartLocation → List RecordLength →
    Option (List RecordStartLocation × RecordStartLocation)
  | l, [] => some ([], l)
  | l, length :: lengths => do
    let next ← l.toNext length
    let (starts, behind) ← next.walk lengths
    some (l :: starts, behind)

/-- Those of some records that are in the file. -/
def inFile (f : LogFileId) (records : List (RecordStartLocation × RecordLength)) :
    List (RecordStartLocation × RecordLength) :=
  records.filter fun record => record.1.logFileId = f

/-- How many bytes records take. -/
def size (records : List (RecordStartLocation × RecordLength)) : Nat :=
  (records.map fun record => record.2.get).sum

variable {f : LogFileId} {l l' : RecordStartLocation} {length : RecordLength}
  {before : List (RecordStartLocation × RecordLength)}

theorem walk_cons {lengths : List RecordLength} {starts : List RecordStartLocation}
    {next behind : RecordStartLocation} (h : l.toNext length = some next)
    (h' : next.walk lengths = some (starts, behind)) :
    l.walk (length :: lengths) = some (l :: starts, behind) := by
  rw [walk, h]
  show (next.walk lengths).bind _ = _
  rw [h']
  rfl

theorem inFile_append (f : LogFileId) (xs ys : List (RecordStartLocation × RecordLength)) :
    inFile f (xs ++ ys) = inFile f xs ++ inFile f ys := List.filter_append xs ys

theorem size_append (xs ys : List (RecordStartLocation × RecordLength)) :
    size (xs ++ ys) = size xs + size ys := by
  rw [size, List.map_append, List.sum_append]
  rfl

theorem le_size (records : List (RecordStartLocation × RecordLength)) :
    16 * records.length ≤ size records := by
  induction records with
  | nil => exact Nat.zero_le _
  | cons record records ih =>
    have hmin := record.2.bounds.1
    rw [size] at ih ⊢
    rw [List.length_cons, List.map_cons, List.sum_cons]
    omega

theorem size_le (records : List (RecordStartLocation × RecordLength)) :
    size records ≤ 65535 * records.length := by
  induction records with
  | nil => exact Nat.zero_le _
  | cons record records ih =>
    have hmax := record.2.bounds.2
    rw [size] at ih ⊢
    rw [List.length_cons, List.map_cons, List.sum_cons]
    omega

theorem fileNumber_logFileId (l : RecordStartLocation) :
    l.logFileId.fileNumber.get = l.recordId.sequenceNumber.get / recordsPerFile := rfl

/-! ### One step -/

/-- `l` is where the layout has the record that follows those of `before`, the first
of which is the first of file `f`. -/
structure Placed (f : LogFileId) (before : List (RecordStartLocation × RecordLength))
    (l : RecordStartLocation) : Prop where
  stream : l.recordId.streamId = f.streamId
  sequence : l.recordId.sequenceNumber.get = f.firstRecordId.sequenceNumber.get + before.length
  earlier : ∀ record ∈ before, record.1.recordId.sequenceNumber.get < l.recordId.sequenceNumber.get
  count : (inFile l.logFileId before).length = l.recordId.sequenceNumber.get % recordsPerFile
  position : l.position.get = size (inFile l.logFileId before)

theorem placed_first (f : LogFileId) : Placed f [] ⟨f.firstRecordId, .start⟩ where
  stream := rfl
  sequence := (Nat.add_zero _).symm
  earlier _ h := nomatch h
  count := by
    rw [LogFileId.firstRecordId, Nat.mul_mod_left]
    rfl
  position := rfl

/-- A file's records before its last one leave room for one more of any length. -/
theorem Placed.advance (h : Placed f before l) (length : RecordLength) :
    ∃ e, l.toEnd length = some e ∧ e.recordId = l.recordId ∧
      e.position.get = l.position.get + length.get := by
  have hmax := length.bounds.2
  have hsize := size_le (inFile l.logFileId before)
  have hcount : (inFile l.logFileId before).length < recordsPerFile := by
    rw [h.count]
    exact Nat.mod_lt _ (by decide)
  have hfits : l.position.get + length.get < 2 ^ 64 := by
    rw [h.position]
    rw [recordsPerFile_eq] at hcount
    omega
  exact ⟨_, by rw [toEnd, LogFilePosition.advance_of_lt hfits]; rfl, rfl, rfl⟩

/-- The record behind an end: in the same file, or at the beginning of another. -/
theorem nextRecordStart_of_lt {e : RecordEndLocation}
    (h : e.recordId.sequenceNumber.get + 1 < 2 ^ 64) :
    ∃ l, e.nextRecordStart = some l ∧ l.recordId.streamId = e.recordId.streamId ∧
      l.recordId.sequenceNumber.get = e.recordId.sequenceNumber.get + 1 ∧
      (l.logFileId = e.logFileId ∧ l.position = e.position ∨
        l.logFileId ≠ e.logFileId ∧ l.position = .start) := by
  refine ⟨_, by rw [RecordEndLocation.nextRecordStart, RecordId.next_of_lt h, Option.map_some],
    rfl, rfl, ?_⟩
  by_cases hsame : LogFileId.fromRecordId ⟨e.recordId.streamId, ⟨_, h⟩⟩ = e.logFileId
  · exact .inl ⟨hsame, if_pos hsame⟩
  · exact .inr ⟨hsame, if_neg hsame⟩

/-- The next record is in the same file, behind this one, or the first of another. -/
theorem Placed.toNext (h : Placed f before l)
    (hnext : l.recordId.sequenceNumber.get + 1 < 2 ^ 64) (length : RecordLength) :
    ∃ l', l.toNext length = some l' ∧ Placed f (before ++ [(l, length)]) l' := by
  obtain ⟨e, he, hid, hpos⟩ := h.advance length
  have hfile : e.logFileId = l.logFileId := congrArg LogFileId.fromRecordId hid
  obtain ⟨l', hl', hstream, hsequence, hplace⟩ := nextRecordStart_of_lt (hid ▸ hnext)
  rw [hid] at hstream hsequence
  rw [hfile] at hplace
  have hquotient := fileNumber_logFileId l
  have hquotient' := fileNumber_logFileId l'
  have hearlier : ∀ record ∈ before ++ [(l, length)],
      record.1.recordId.sequenceNumber.get < l'.recordId.sequenceNumber.get := by
    intro record hrecord
    rw [hsequence]
    rcases List.mem_append.mp hrecord with hrecord | hrecord
    · exact Nat.lt_succ_of_lt (h.earlier record hrecord)
    · rw [List.mem_singleton.mp hrecord]
      exact Nat.lt_succ_self _
  refine ⟨l', by rw [RecordStartLocation.toNext, he, Option.bind_some, hl'], ?_⟩
  have hlength : l'.recordId.sequenceNumber.get =
      f.firstRecordId.sequenceNumber.get + (before ++ [(l, length)]).length := by
    rw [hsequence, h.sequence, List.length_append, List.length_singleton, Nat.add_assoc]
  rcases hplace with ⟨hsame, hposition⟩ | ⟨hother, hposition⟩
  · have hinFile : inFile l'.logFileId (before ++ [(l, length)]) =
        inFile l.logFileId before ++ [(l, length)] := by
      rw [hsame, inFile_append]
      congr 1
      exact List.filter_cons_of_pos (by simp)
    refine ⟨hstream.trans h.stream, hlength, hearlier, ?_, ?_⟩
    · rw [hinFile, List.length_append, List.length_singleton, h.count]
      rw [hsame, hquotient] at hquotient'
      rw [recordsPerFile_eq] at hquotient' ⊢
      omega
    · rw [hinFile, size_append, hposition, hpos, h.position]
      rfl
  · -- the next record begins a file that none of the earlier ones is in
    have hquotient'' : l'.logFileId.fileNumber.get ≠ l.logFileId.fileNumber.get := by
      intro heq
      exact hother (LogFileId.ext' hstream heq)
    rw [hquotient, hquotient', hsequence] at hquotient''
    have hinFile : inFile l'.logFileId (before ++ [(l, length)]) = [] := by
      refine List.filter_eq_nil_iff.mpr fun record hrecord hfile => ?_
      have hlt := hearlier record hrecord
      have heq := congrArg (fun f => f.fileNumber.get) (of_decide_eq_true hfile)
      simp only [fileNumber_logFileId] at heq
      rw [recordsPerFile_eq] at hquotient'' heq
      omega
    refine ⟨hstream.trans h.stream, hlength, hearlier, ?_, ?_⟩
    · rw [hinFile, hsequence]
      rw [recordsPerFile_eq] at hquotient'' ⊢
      rw [List.length_nil]
      omega
    · rw [hinFile, hposition]
      rfl

/-! ### Any number of steps -/

theorem Placed.walk {lengths : List RecordLength} (h : Placed f before l)
    (hfit : l.recordId.sequenceNumber.get + lengths.length < 2 ^ 64) :
    ∃ starts behind, l.walk lengths = some (starts, behind) ∧ starts.length = lengths.length ∧
      Placed f (before ++ starts.zip lengths) behind := by
  induction lengths generalizing before l with
  | nil => exact ⟨[], l, rfl, rfl, by rwa [List.zip_nil_left, List.append_nil]⟩
  | cons length lengths ih =>
    rw [List.length_cons] at hfit
    obtain ⟨next, hnext, hplaced⟩ := h.toNext (by omega) length
    have hsequence : next.recordId.sequenceNumber.get = l.recordId.sequenceNumber.get + 1 := by
      rw [hplaced.sequence, h.sequence, List.length_append, List.length_singleton, Nat.add_assoc]
    obtain ⟨starts, behind, hwalk, hlen, hbehind⟩ := ih hplaced (by omega)
    refine ⟨l :: starts, behind, walk_cons hnext hwalk, ?_, ?_⟩
    · rw [List.length_cons, List.length_cons, hlen]
    · rwa [List.append_assoc] at hbehind

/-- A start is at the beginning of its file where no record of the file is before it. -/
theorem Placed.position_eq_start (h : Placed f before l) :
    l.position = .start ↔ l.recordId = l.logFileId.firstRecordId := by
  have hsize := le_size (inFile l.logFileId before)
  have hsize' := size_le (inFile l.logFileId before)
  have hcount := h.count
  have hposition := h.position
  have hfirst : l.logFileId.firstRecordId.sequenceNumber.get =
      l.recordId.sequenceNumber.get / recordsPerFile * recordsPerFile := rfl
  have hdiv := Nat.div_add_mod' l.recordId.sequenceNumber.get recordsPerFile
  constructor
  · intro hstart
    have hzero : l.position.get = 0 := congrArg LogFilePosition.get hstart
    exact RecordId.ext' rfl (by omega)
  · intro hid
    have hsequence : l.recordId.sequenceNumber.get =
        l.logFileId.firstRecordId.sequenceNumber.get := by rw [← hid]
    exact LogFilePosition.ext' (show l.position.get = 0 by omega)

theorem length_inFile_zip (f : LogFileId) {starts : List RecordStartLocation}
    {lengths : List RecordLength} (h : starts.length = lengths.length) :
    (inFile f (starts.zip lengths)).length = starts.countP fun start => start.logFileId = f := by
  induction starts generalizing lengths with
  | nil => rfl
  | cons start starts ih =>
    cases lengths with
    | nil => cases h
    | cons length lengths =>
      have hrest := ih (Nat.succ.inj h)
      rw [inFile] at hrest ⊢
      rw [List.zip_cons_cons, List.filter_cons, List.countP_cons, ← hrest]
      by_cases hfile : start.logFileId = f
      · simp [hfile]
      · simp [hfile]

/-- **Location arithmetic follows the layout**, over any number of files and up to the
last sequence number. -/
theorem walk_follows_layout (f : LogFileId) (lengths : List RecordLength)
    (hfit : f.firstRecordId.sequenceNumber.get + lengths.length < 2 ^ 64) :
    ∀ n ≤ lengths.length, ∃ starts l,
      walk ⟨f.firstRecordId, .start⟩ (lengths.take n) = some (starts, l) ∧
      l.recordId.streamId = f.streamId ∧
      l.recordId.sequenceNumber.get = f.firstRecordId.sequenceNumber.get + n ∧
      l.logFileId.streamId = f.streamId ∧
      l.logFileId.fileNumber.get = l.recordId.sequenceNumber.get / 100000 ∧
      l.position.get = size (inFile l.logFileId (starts.zip lengths)) ∧
      (l.position = .start ↔ l.recordId = l.logFileId.firstRecordId) ∧
      LogFileId.recordCountThrough l.recordId =
        (starts ++ [l]).countP (fun start => start.logFileId = l.logFileId) ∧
      ∀ length, ∃ e, l.toEnd length = some e ∧ e.recordId = l.recordId ∧
        e.logFileId = l.logFileId ∧ e.position.get = l.position.get + length.get := by
  intro n hn
  have htake : (lengths.take n).length = n := List.length_take_of_le hn
  have hfit' : f.firstRecordId.sequenceNumber.get + (lengths.take n).length < 2 ^ 64 := by
    rw [htake]
    omega
  obtain ⟨starts, l, hwalk, hlen, hplaced⟩ := (placed_first f).walk hfit'
  rw [List.nil_append] at hplaced
  have hzip : starts.zip (lengths.take n) = starts.zip lengths := by
    conv_rhs => rw [← List.take_append_drop n lengths, ← List.append_nil starts,
      List.zip_append hlen]
    rw [List.zip_nil_left, List.append_nil]
  refine ⟨starts, l, hwalk, hplaced.stream, ?_, hplaced.stream, rfl, ?_, hplaced.position_eq_start,
    ?_, fun length => ?_⟩
  · rw [hplaced.sequence, List.length_zip, hlen, htake, Nat.min_self]
  · rw [← hzip]
    exact hplaced.position
  · rw [List.countP_append, ← length_inFile_zip _ hlen, hplaced.count]
    simp [LogFileId.recordCountThrough]
  · obtain ⟨e, he, hid, hpos⟩ := hplaced.advance length
    exact ⟨e, he, hid, congrArg LogFileId.fromRecordId hid, hpos⟩

/-- The record after a whole file starts the next one. -/
theorem walk_follows_layout_file :
    let f : LogFileId := .first ⟨7, by decide⟩
    let lengths := List.replicate (recordsPerFile + 1) RecordLength.min
    ∃ starts l, walk ⟨f.firstRecordId, .start⟩ (lengths.take recordsPerFile) = some (starts, l) ∧
      l.logFileId.fileNumber.get = 1 ∧ l.position = .start ∧
      LogFileId.recordCountThrough l.recordId = 1 ∧
      ∃ e, l.toEnd .min = some e ∧ e.logFileId = l.logFileId ∧ e.position.get = 16 := by
  intro f lengths
  have hlen : lengths.length = recordsPerFile + 1 := List.length_replicate
  clear_value lengths
  have hle : recordsPerFile ≤ lengths.length := by
    rw [hlen]
    exact Nat.le_add_right _ 1
  obtain ⟨starts, l, hwalk, -, hsequence, -, hfile, -, hstart, -, hends⟩ :=
    walk_follows_layout f lengths (by rw [hlen]; decide) recordsPerFile hle
  have hsequence : l.recordId.sequenceNumber.get = 100000 := hsequence.trans (by decide)
  have hnumber : l.logFileId.fileNumber.get = 1 := by rw [hfile, hsequence]
  have hfirst : l.recordId = l.logFileId.firstRecordId := by
    refine RecordId.ext' rfl ?_
    show _ = l.logFileId.fileNumber.get * 100000
    rw [hnumber, hsequence]
  have hposition := hstart.mpr hfirst
  obtain ⟨e, he, -, hefile, hepos⟩ := hends .min
  refine ⟨starts, l, hwalk, hnumber, hposition, ?_, e, he, hefile, ?_⟩
  · rw [LogFileId.recordCountThrough, hsequence, recordsPerFile_eq]
  · rw [hepos, hposition]
    rfl

end RecordStartLocation

end TransactionLog
