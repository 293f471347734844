import Mathlib.Data.Setoid.Partition
import TransactionLog.Streams.Location

/-!
# Files divide the sequence domain

The record IDs of a stream are divided among its files: every ID is in the range of
exactly one of them, the one that `fromRecordId` computes.  The ranges follow one
another without a gap, and the last one is cut short.
-/

namespace TransactionLog

open Lib

namespace LogFileId

variable {f f' first last : LogFileId} {id : RecordId}

/-- The record IDs from the first to the last of a file. -/
def range (f : LogFileId) : Set RecordId :=
  {id | id.streamId = f.streamId ∧
    f.firstRecordId.sequenceNumber.get ≤ id.sequenceNumber.get ∧
    id.sequenceNumber.get ≤ f.lastRecordId.sequenceNumber.get}

theorem firstRecordId_sequence (f : LogFileId) :
    f.firstRecordId.sequenceNumber.get = f.fileNumber.get * recordsPerFile := rfl

/-- A file's first sequence number fits, so its computation does not overflow. -/
theorem fileNumber_mul_lt (f : LogFileId) : f.fileNumber.get * recordsPerFile < 2 ^ 64 :=
  f.firstRecordId.sequenceNumber.lt

theorem mem_range : id ∈ f.range ↔ fromRecordId id = f := by
  have hlt := id.sequenceNumber.lt
  have hfirst := firstRecordId_sequence f
  have hlast := lastRecordId_sequence (f := f)
  rw [fromRecordId_eq_iff]
  rw [recordsPerFile_eq] at hfirst
  constructor
  · intro hid
    obtain ⟨hs, hge, hle⟩ := hid
    exact ⟨hs, by omega, by omega⟩
  · intro hid
    obtain ⟨hs, hge, hlt'⟩ := hid
    exact ⟨hs, by omega, by omega⟩

/-- The ranges of all files, as a partition of the record IDs. -/
def partition : IndexedPartition range where
  eq_of_mem h h' := (mem_range.mp h).symm.trans (mem_range.mp h')
  some := firstRecordId
  some_mem f := by
    refine ⟨rfl, Nat.le_refl _, ?_⟩
    have hlt := f.firstRecordId.sequenceNumber.lt
    rw [lastRecordId_sequence]
    omega
  index := fromRecordId
  mem_index _ := mem_range.mpr rfl

/-- `next` panics at the last file number only. -/
theorem next_eq_none : f.next = none ↔ f.fileNumber = .max := by
  constructor
  · intro h
    by_contra hterminal
    obtain ⟨f', hf'⟩ := exists_next hterminal
    rw [h] at hf'
    cases hf'
  · intro h
    rw [next, h]
    rfl

/-- The ranges of two successive files meet. -/
theorem lastRecordId_next (h : f.next = some f') : f.lastRecordId.next = some f'.firstRecordId := by
  obtain ⟨hs, hn⟩ := next_eq_some.mp h
  have hlt := f'.firstRecordId.sequenceNumber.lt
  have hfirst := firstRecordId_sequence f
  have hfirst' := firstRecordId_sequence f'
  have hlast := lastRecordId_sequence (f := f)
  rw [recordsPerFile_eq] at hfirst hfirst'
  exact RecordId.next_eq_some.mpr ⟨hs, by omega⟩

/-- A record is at its own place in its file. -/
theorem recordIdAt_recordCountThrough (id : RecordId) :
    (fromRecordId id).recordIdAt (recordCountThrough id - 1) = some (.ok id) := by
  have hle := recordCountThrough_le id
  have hlt := id.sequenceNumber.lt
  have hindex : ¬ recordCountThrough id - 1 > recordsPerFile - 1 := by omega
  have hplace : (fromRecordId id).firstRecordId.sequenceNumber.get + (recordCountThrough id - 1) =
      id.sequenceNumber.get := by
    show id.sequenceNumber.get / recordsPerFile * recordsPerFile +
      (id.sequenceNumber.get % recordsPerFile + 1 - 1) = _
    rw [Nat.add_sub_cancel, Nat.div_add_mod']
  rw [recordIdAt]
  simp only [if_neg hindex]
  rw [dif_pos (by rw [hplace]; exact hlt)]
  exact congrArg (fun id => some (Except.ok id)) (RecordId.ext' rfl hplace)

/-! ### From one file to another -/

/-- The iterator yields the files from `first` through `last`. -/
theorem iterTo_yields (h : Between first last last) :
    ∃ files, first.iterTo last = .ok ⟨some first⟩ ∧
      Successors.Yields (following last) ⟨some first⟩ files ∧
      (∀ f ∈ files, f.streamId = first.streamId) ∧
      files.map (fun f => f.fileNumber.get) =
        List.range' first.fileNumber.get (last.fileNumber.get - first.fileNumber.get + 1) := by
  have hiter := iterTo_eq h
  obtain ⟨hs, hle, -⟩ := h
  have hmax := last.fileNumber.le
  refine ⟨_, hiter, yields_successors _ hs (by omega), ?_, map_successors _ _ (by omega)⟩
  exact fun f hf => ((mem_successors _ _ _ (by omega)).mp hf).1

/-- **Files partition the sequence domain.** -/
theorem files_partition :
    (∀ f g : LogFileId, f ≠ g → f.range ∩ g.range = ∅) ∧
    (∀ s : StreamId, ⋃ n : LogFileNumber, range ⟨s, n⟩ = {id | id.streamId = s}) ∧
    (∀ f : LogFileId, f.next = none ↔ f.fileNumber = .max) ∧
    (∀ f f' : LogFileId, f.next = some f' → f'.streamId = f.streamId ∧
      f.lastRecordId.next = some f'.firstRecordId) ∧
    (∀ s : StreamId, lastRecordId ⟨s, .max⟩ = ⟨s, .max⟩) ∧
    (∀ (id : RecordId) (f : LogFileId), id ∈ f.range ↔ fromRecordId id = f) ∧
    (∀ f : LogFileId, f.fileNumber.get * recordsPerFile < 2 ^ 64) ∧
    (∀ id : RecordId, 1 ≤ recordCountThrough id ∧ recordCountThrough id < 2 ^ 64 ∧
      (fromRecordId id).recordIdAt (recordCountThrough id - 1) = some (.ok id)) ∧
    ∀ first last : LogFileId, first.streamId = last.streamId →
      first.fileNumber.get ≤ last.fileNumber.get →
      ∃ (it : Successors LogFileId) (files : List LogFileId), first.iterTo last = .ok it ∧
        (∀ f ∈ files, f.streamId = first.streamId) ∧
        files.map (fun f => f.fileNumber.get) =
          List.range' first.fileNumber.get (last.fileNumber.get - first.fileNumber.get + 1) ∧
        ∀ n, ∃ it', Successors.steps (following last) n it =
          some ((files.take n).map some ++ List.replicate (n - files.length) none, it') := by
  refine ⟨fun f g h => (partition.disjoint h).inter_eq, fun s => ?_, fun f => next_eq_none,
    fun f f' h => ?_, fun s => RecordId.ext' rfl (terminal_lastRecordId rfl),
    fun id f => mem_range, fileNumber_mul_lt, fun id => ?_, fun first last hs hle => ?_⟩
  · ext id
    rw [Set.mem_iUnion]
    constructor
    · intro hid
      obtain ⟨n, h⟩ := hid
      exact h.1
    · intro h
      refine ⟨(fromRecordId id).fileNumber, ?_⟩
      rw [mem_range]
      exact LogFileId.ext' h rfl
  · exact ⟨(next_eq_some.mp h).1, lastRecordId_next h⟩
  · have hle := recordCountThrough_le id
    rw [recordsPerFile_eq] at hle
    exact ⟨recordCountThrough_pos id, by omega, recordIdAt_recordCountThrough id⟩
  · obtain ⟨files, hit, hyields, hstream, hnumbers⟩ :=
      iterTo_yields ⟨hs.symm, hle, Nat.le_refl _⟩
    refine ⟨_, files, hit, hstream, hnumbers, fun n => ?_⟩
    obtain ⟨it', hsteps, -⟩ := Successors.steps_of_yields hyields n
    exact ⟨it', hsteps⟩

end LogFileId

end TransactionLog
