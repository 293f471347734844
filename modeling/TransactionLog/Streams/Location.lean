import TransactionLog.Lib.Successors
import TransactionLog.Record.Protocol

/-!
# Locations in a stream's files

A stream's records are divided among numbered log files by sequence number, with
`recordsPerFile` records in each.  The last file number is the terminal one: its
range is cut short by the end of the sequence domain.

`RecordStartLocation` and `RecordEndLocation` name a boundary of a record by its
ID and by a byte position in its file.  Position arithmetic that overflows panics
in the source; here it has no result.
-/

namespace TransactionLog

open Lib

def recordsPerFile : Nat := 100000

@[simp] theorem recordsPerFile_eq : recordsPerFile = 100000 := rfl

/-- A raw file number above `LogFileNumber.max`. -/
structure LogFileNumberError where
  value : Nat
  deriving DecidableEq, Repr

structure LogFileNumber where
  get : Nat
  le : get ≤ 184467440737095
  deriving DecidableEq, Repr

namespace LogFileNumber

def min : LogFileNumber := ⟨0, by decide⟩

def max : LogFileNumber := ⟨(2 ^ 64 - 1) / recordsPerFile, by decide⟩

def new (value : Nat) : Except LogFileNumberError LogFileNumber :=
  if h : value > max.get then .error ⟨value⟩ else .ok ⟨value, Nat.le_of_not_lt h⟩

def fromSequenceNumber (n : SequenceNumber) : LogFileNumber :=
  ⟨n.get / recordsPerFile, by have := n.lt; simp only [recordsPerFile]; omega⟩

/-- The next file; panics at `max`. -/
def next (n : LogFileNumber) : Option LogFileNumber :=
  if h : n.get < max.get then some ⟨n.get + 1, h⟩ else none

@[ext] theorem ext' {a b : LogFileNumber} (h : a.get = b.get) : a = b := by
  obtain ⟨_, _⟩ := a
  obtain ⟨_, _⟩ := b
  subst h
  rfl

theorem new_get (n : LogFileNumber) : new n.get = .ok n := dif_neg (Nat.not_lt.mpr n.le)

end LogFileNumber

/-- A byte offset in a log file. -/
structure LogFilePosition where
  get : Nat
  lt : get < 2 ^ 64
  deriving Repr

namespace LogFilePosition

@[ext] theorem ext' {a b : LogFilePosition} (h : a.get = b.get) : a = b := by
  obtain ⟨_, _⟩ := a
  obtain ⟨_, _⟩ := b
  subst h
  rfl

instance : DecidableEq LogFilePosition := fun a b =>
  if h : a.get = b.get then .isTrue (ext' h) else .isFalse fun hn => h (congrArg get hn)

def start : LogFilePosition := ⟨0, by decide⟩

/-- A raw offset; those that do not fit saturate. -/
def ofNat (n : Nat) : LogFilePosition := ⟨min n (2 ^ 64 - 1), by omega⟩

/-- Panics on overflow. -/
def advance (p : LogFilePosition) (length : RecordLength) : Option LogFilePosition :=
  if h : p.get + length.get < 2 ^ 64 then some ⟨p.get + length.get, h⟩ else none

theorem advance_of_lt {p : LogFilePosition} {length : RecordLength}
    (h : p.get + length.get < 2 ^ 64) : p.advance length = some ⟨p.get + length.get, h⟩ := dif_pos h

theorem get_ofNat {n : Nat} (h : n < 2 ^ 64) : (ofNat n).get = n :=
  Nat.min_eq_left (Nat.le_of_lt_succ h)

end LogFilePosition

/-! ## File identities -/

structure LogFileId where
  streamId : StreamId
  fileNumber : LogFileNumber
  deriving DecidableEq, Repr

/-- An index at or above `recordsPerFile`. -/
structure LogFileRecordIndexError where
  fileId : LogFileId
  index : Nat
  maximumIndex : Nat
  deriving DecidableEq, Repr

inductive LogFileIdRangeError where
  | differentStreams (first last : LogFileId)
  | reversedFiles (first last : LogFileId)
  deriving DecidableEq, Repr

namespace LogFileId

def first (s : StreamId) : LogFileId := ⟨s, .min⟩

def fromRecordId (id : RecordId) : LogFileId := ⟨id.streamId, .fromSequenceNumber id.sequenceNumber⟩

/-- How many records of its file precede a record or are it. -/
def recordCountThrough (id : RecordId) : Nat := id.sequenceNumber.get % recordsPerFile + 1

def firstRecordId (f : LogFileId) : RecordId :=
  ⟨f.streamId, ⟨f.fileNumber.get * recordsPerFile, by
    have := f.fileNumber.le; simp only [recordsPerFile]; omega⟩⟩

/-- The last ID of the file's range, which the sequence domain may cut short. -/
def lastRecordId (f : LogFileId) : RecordId :=
  ⟨f.streamId, ⟨min (f.fileNumber.get * recordsPerFile + (recordsPerFile - 1)) (2 ^ 64 - 1),
    by omega⟩⟩

/-- The record ID at a position of the file's range; the result is `none` where the
sequence number overflows. -/
def recordIdAt (f : LogFileId) (index : Nat) : Option (Except LogFileRecordIndexError RecordId) :=
  let maximumIndex := recordsPerFile - 1
  if index > maximumIndex then some (.error ⟨f, index, maximumIndex⟩)
  else
    let first := f.firstRecordId.sequenceNumber.get
    if h : first + index < 2 ^ 64 then some (.ok ⟨f.streamId, ⟨first + index, h⟩⟩) else none

/-- The next file of the stream; panics after the terminal one. -/
def next (f : LogFileId) : Option LogFileId := f.fileNumber.next.map (⟨f.streamId, ·⟩)

/-- The file whose range ends with the sequence domain. -/
def Terminal (f : LogFileId) : Prop := f.fileNumber = .max

instance (f : LogFileId) : Decidable f.Terminal := inferInstanceAs (Decidable (_ = _))

def successors : Nat → LogFileId → List LogFileId
  | 0, f => [f]
  | n + 1, f => f :: (match f.next with
    | some f' => successors n f'
    | none => [])

/-- What `iterTo` puts after a file; panics where `next` does. -/
def following (last file : LogFileId) : Option (Option LogFileId) :=
  if file = last then some none else file.next.map some

/-- The files from `first` through `last`. -/
def iterTo (first last : LogFileId) : Except LogFileIdRangeError (Successors LogFileId) :=
  if first.streamId ≠ last.streamId then .error (.differentStreams first last)
  else if first.fileNumber.get > last.fileNumber.get then .error (.reversedFiles first last)
  else .ok ⟨some first⟩

/-- What a loop through `last` visits; no result where it panics.  There are no more files
than numbers. -/
def visited (last : LogFileId) (files : Successors LogFileId) : Option (List LogFileId) :=
  files.collect (following last) (LogFileNumber.max.get + 2)

@[ext] theorem ext' {a b : LogFileId} (hs : a.streamId = b.streamId)
    (hn : a.fileNumber.get = b.fileNumber.get) : a = b := by
  obtain ⟨_, _⟩ := a
  obtain ⟨_, _⟩ := b
  simp only at hs hn
  rw [hs, LogFileNumber.ext' hn]

theorem ne_of_lt {a b : LogFileId} (h : a.fileNumber.get < b.fileNumber.get) : a ≠ b :=
  fun heq => Nat.ne_of_lt h (congrArg (fun f => f.fileNumber.get) heq)

theorem next_eq_some {f f' : LogFileId} :
    f.next = some f' ↔ f'.streamId = f.streamId ∧ f'.fileNumber.get = f.fileNumber.get + 1 := by
  constructor
  · intro h
    rw [next, LogFileNumber.next] at h
    split at h
    · obtain rfl := Option.some.inj h
      exact ⟨rfl, rfl⟩
    · cases h
  · rintro ⟨hs, hn⟩
    have hlt : f.fileNumber.get < LogFileNumber.max.get := by
      have hle : f'.fileNumber.get ≤ LogFileNumber.max.get := f'.fileNumber.le
      omega
    rw [next, LogFileNumber.next, dif_pos hlt]
    exact congrArg some (LogFileId.ext' hs.symm hn.symm)

theorem not_terminal_iff {f : LogFileId} : ¬ f.Terminal ↔ f.fileNumber.get < 184467440737095 := by
  have := f.fileNumber.le
  constructor
  · intro h
    by_contra hlt
    exact h (LogFileNumber.ext' (show f.fileNumber.get = 184467440737095 by omega))
  · intro h ht
    have : f.fileNumber.get = 184467440737095 := congrArg LogFileNumber.get ht
    omega

theorem exists_next {f : LogFileId} (h : ¬ f.Terminal) : ∃ f', f.next = some f' := by
  have := not_terminal_iff.mp h
  exact ⟨⟨f.streamId, ⟨f.fileNumber.get + 1, by omega⟩⟩, next_eq_some.mpr ⟨rfl, rfl⟩⟩

/-- A record belongs to the file that divides its sequence number. -/
theorem fromRecordId_eq_iff {id : RecordId} {f : LogFileId} :
    fromRecordId id = f ↔ id.streamId = f.streamId ∧
      f.fileNumber.get * 100000 ≤ id.sequenceNumber.get ∧
      id.sequenceNumber.get < f.fileNumber.get * 100000 + 100000 := by
  constructor
  · rintro rfl
    show _ ∧ id.sequenceNumber.get / 100000 * 100000 ≤ _ ∧
      _ < id.sequenceNumber.get / 100000 * 100000 + _
    exact ⟨rfl, by omega, by omega⟩
  · rintro ⟨hs, h1, h2⟩
    refine LogFileId.ext' hs ?_
    show id.sequenceNumber.get / 100000 = _
    omega

/-- The count through a record, from the file it belongs to. -/
theorem recordCountThrough_eq {id : RecordId} {f : LogFileId} (h : fromRecordId id = f) :
    recordCountThrough id = id.sequenceNumber.get - f.firstRecordId.sequenceNumber.get + 1 := by
  obtain ⟨-, h1, h2⟩ := fromRecordId_eq_iff.mp h
  show id.sequenceNumber.get % 100000 + 1 = _ - f.fileNumber.get * 100000 + 1
  omega

theorem recordCountThrough_le (id : RecordId) : recordCountThrough id ≤ recordsPerFile := by
  simp only [recordCountThrough, recordsPerFile]
  omega

theorem recordCountThrough_pos (id : RecordId) : 0 < recordCountThrough id := Nat.succ_pos _

/-- The sequence numbers of an ordinary file all have a successor. -/
theorem firstRecordId_add_lt {f : LogFileId} (hf : ¬ f.Terminal) {n : Nat} (hn : n ≤ recordsPerFile) :
    f.firstRecordId.sequenceNumber.get + n < 2 ^ 64 := by
  have hnumber := not_terminal_iff.mp hf
  have hfirst : f.firstRecordId.sequenceNumber.get = f.fileNumber.get * 100000 := rfl
  rw [recordsPerFile_eq] at hn
  omega

theorem lastRecordId_sequence {f : LogFileId} : f.lastRecordId.sequenceNumber.get =
    min (f.firstRecordId.sequenceNumber.get + 99999) (2 ^ 64 - 1) := rfl

theorem terminal_lastRecordId {f : LogFileId} (hf : f.Terminal) :
    f.lastRecordId.sequenceNumber.get = 2 ^ 64 - 1 := by
  have hnumber : f.fileNumber.get = 184467440737095 := congrArg LogFileNumber.get hf
  have hfirst : f.firstRecordId.sequenceNumber.get = f.fileNumber.get * 100000 := rfl
  rw [lastRecordId_sequence]
  omega

/-- The files that follow one another. -/
theorem mem_successors : ∀ (n : Nat) (f g : LogFileId),
    f.fileNumber.get + n ≤ 184467440737095 →
    (g ∈ successors n f ↔ g.streamId = f.streamId ∧ f.fileNumber.get ≤ g.fileNumber.get ∧
      g.fileNumber.get ≤ f.fileNumber.get + n) := by
  intro n
  induction n with
  | zero =>
    intro f g _
    rw [successors, List.mem_singleton]
    exact ⟨by rintro rfl; simp, fun ⟨hs, h1, h2⟩ => LogFileId.ext' hs (by omega)⟩
  | succ n ih =>
    intro f g hle
    obtain ⟨f', hf'⟩ := exists_next (not_terminal_iff.mpr (show f.fileNumber.get < _ by omega))
    obtain ⟨hs, hn⟩ := next_eq_some.mp hf'
    rw [successors, hf', List.mem_cons, ih f' g (by omega), hs, hn]
    constructor
    · rintro (rfl | ⟨h1, h2, h3⟩)
      · exact ⟨rfl, by omega, by omega⟩
      · exact ⟨h1, by omega, by omega⟩
    · rintro ⟨h1, h2, h3⟩
      by_cases heq : g.fileNumber.get = f.fileNumber.get
      · exact .inl (LogFileId.ext' h1 heq)
      · exact .inr ⟨h1, by omega, by omega⟩

theorem map_successors : ∀ (n : Nat) (f : LogFileId), f.fileNumber.get + n ≤ 184467440737095 →
    (successors n f).map (fun g => g.fileNumber.get) = List.range' f.fileNumber.get (n + 1) := by
  intro n
  induction n with
  | zero => exact fun f _ => rfl
  | succ n ih =>
    intro f hle
    obtain ⟨f', hf'⟩ := exists_next (not_terminal_iff.mpr (show f.fileNumber.get < _ by omega))
    have hn := (next_eq_some.mp hf').2
    rw [successors, hf', List.map_cons, ih f' (by omega), hn]
    exact List.range'_succ.symm

/-- The files that follow one another, by their numbers. -/
theorem successors_eq_append {n : Nat} {f g : LogFileId} {xs ys : List LogFileId}
    (hle : f.fileNumber.get + n ≤ 184467440737095) (h : successors n f = xs ++ g :: ys) :
    g.streamId = f.streamId ∧ g.fileNumber.get = f.fileNumber.get + xs.length ∧
      xs.length + ys.length = n := by
  have hmap := map_successors n f hle
  rw [h, List.map_append, List.map_cons] at hmap
  have hlen := congrArg List.length hmap
  rw [List.length_append, List.length_cons, List.length_map, List.length_map,
    List.length_range'] at hlen
  have hget := congrArg (fun ns => ns[xs.length]?) hmap
  simp only [List.getElem?_append_right, List.length_map, Nat.le_refl, Nat.sub_self,
    List.getElem?_cons_zero] at hget
  rw [List.getElem?_range' (by omega)] at hget
  have hmem := (mem_successors n f g hle).mp (h ▸ List.mem_append_right xs List.mem_cons_self)
  refine ⟨hmem.1, ?_, by omega⟩
  have := Option.some.inj hget
  omega

theorem length_successors {n : Nat} {f : LogFileId} (hle : f.fileNumber.get + n ≤ 184467440737095) :
    (successors n f).length = n + 1 := by
  rw [← List.length_map (f := fun g : LogFileId => g.fileNumber.get), map_successors n f hle,
    List.length_range']

theorem successors_succ {n : Nat} {f f' : LogFileId} (h : f.next = some f') :
    successors (n + 1) f = f :: successors n f' := by
  rw [successors, h]

/-- The last of the files that follow one another. -/
theorem successors_concat : ∀ (n : Nat) {f g : LogFileId}, g.streamId = f.streamId →
    g.fileNumber.get = f.fileNumber.get + (n + 1) →
    successors (n + 1) f = successors n f ++ [g] := by
  intro n
  induction n with
  | zero =>
    intro f g hs hn
    rw [successors_succ (next_eq_some.mpr ⟨hs, hn⟩)]
    rfl
  | succ n ih =>
    intro f g hs hn
    have hle := g.fileNumber.le
    obtain ⟨f', hf'⟩ := exists_next (not_terminal_iff.mpr (show f.fileNumber.get < _ by omega))
    obtain ⟨hs', hn'⟩ := next_eq_some.mp hf'
    rw [successors_succ hf', ih (hs.trans hs'.symm) (by omega), successors_succ hf',
      List.cons_append]

/-- The file is in the range from `first` through `last`. -/
def Between (first last f : LogFileId) : Prop :=
  f.streamId = first.streamId ∧ first.fileNumber.get ≤ f.fileNumber.get ∧
    f.fileNumber.get ≤ last.fileNumber.get

theorem iterTo_eq {first last : LogFileId} (h : Between first last last) :
    first.iterTo last = .ok ⟨some first⟩ := by
  rw [iterTo, if_neg (by rw [h.1]; simp), if_neg (Nat.not_lt.mpr h.2.1)]

theorem yields_successors {last : LogFileId} (n : Nat) {f : LogFileId}
    (hs : last.streamId = f.streamId) (hn : last.fileNumber.get = f.fileNumber.get + n) :
    Successors.Yields (following last) ⟨some f⟩ (successors n f) := by
  induction n generalizing f with
  | zero =>
    obtain rfl : f = last := LogFileId.ext' hs.symm hn.symm
    exact .item (if_pos rfl) .done
  | succ n ih =>
    have hle := last.fileNumber.le
    have hne : f ≠ last := by
      intro heq
      rw [heq] at hn
      omega
    obtain ⟨f', hf'⟩ := exists_next (not_terminal_iff.mpr (show f.fileNumber.get < _ by omega))
    obtain ⟨hs', hn'⟩ := next_eq_some.mp hf'
    rw [successors_succ hf']
    have hnext : following last f = some (some f') := by
      rw [following, if_neg hne, hf']
      rfl
    exact .item hnext (ih (hs.trans hs'.symm) (by omega))

/-- The loop visits the files one after the other, and never panics. -/
theorem visited_eq {first last : LogFileId} (h : Between first last last) :
    visited last ⟨some first⟩ =
      some (successors (last.fileNumber.get - first.fileNumber.get) first) := by
  obtain ⟨hs, hle, -⟩ := h
  have hmax : last.fileNumber.get ≤ 184467440737095 := last.fileNumber.le
  refine Successors.collect_of_yields (yields_successors _ hs (by omega)) ?_
  rw [length_successors (by omega)]
  show _ < 184467440737095 + 2
  omega

/-- A loop over `iterTo` visits these files. -/
def Visits (first last : LogFileId) (files : List LogFileId) : Prop :=
  ∃ it, first.iterTo last = .ok it ∧ visited last it = some files

theorem visits {first last : LogFileId} (h : Between first last last) :
    Visits first last (successors (last.fileNumber.get - first.fileNumber.get) first) :=
  ⟨_, iterTo_eq h, visited_eq h⟩

theorem between_of_iterTo {first last : LogFileId} {it : Successors LogFileId}
    (h : first.iterTo last = .ok it) : Between first last last ∧ it = ⟨some first⟩ := by
  rw [iterTo] at h
  split at h
  · cases h
  rename_i hs
  split at h
  · cases h
  rename_i hle
  exact ⟨⟨(not_not.mp hs).symm, Nat.not_lt.mp hle, Nat.le_refl _⟩, (Except.ok.inj h).symm⟩

theorem mem_visited {first last f : LogFileId} (h : Between first last last) :
    f ∈ successors (last.fileNumber.get - first.fileNumber.get) first ↔ Between first last f := by
  have hle := last.fileNumber.le
  have hlast := h.2.1
  rw [mem_successors _ _ _ (by omega), Nat.add_sub_of_le hlast]
  rfl

/-- The files of a range are those of one stream. -/
theorem Visits.streamId {first last f : LogFileId} {files : List LogFileId}
    (h : Visits first last files) (hf : f ∈ files) : f.streamId = first.streamId := by
  obtain ⟨it, hit, hfiles⟩ := h
  obtain ⟨hbetween, rfl⟩ := between_of_iterTo hit
  obtain rfl := Option.some.inj ((visited_eq hbetween).symm.trans hfiles)
  exact ((mem_visited hbetween).mp hf).1

end LogFileId

/-! ## Record boundaries -/

structure RecordStartLocation where
  recordId : RecordId
  position : LogFilePosition
  deriving DecidableEq, Repr

structure RecordEndLocation where
  recordId : RecordId
  position : LogFilePosition
  deriving DecidableEq, Repr

def RecordStartLocation.logFileId (l : RecordStartLocation) : LogFileId := .fromRecordId l.recordId

def RecordStartLocation.toEnd (l : RecordStartLocation) (recordLength : RecordLength) :
    Option RecordEndLocation :=
  (l.position.advance recordLength).map (⟨l.recordId, ·⟩)

namespace RecordEndLocation

def logFileId (l : RecordEndLocation) : LogFileId := .fromRecordId l.recordId

/-- The start of the following record, which may be in the next file. -/
def nextRecordStart (l : RecordEndLocation) : Option RecordStartLocation :=
  l.recordId.next.map fun nextId =>
    ⟨nextId, if LogFileId.fromRecordId nextId = l.logFileId then l.position else .start⟩

end RecordEndLocation

/-- The start of the record after one of this length. -/
def RecordStartLocation.toNext (l : RecordStartLocation) (recordLength : RecordLength) :
    Option RecordStartLocation :=
  (l.toEnd recordLength).bind RecordEndLocation.nextRecordStart

end TransactionLog
