import Mathlib.Algebra.Order.Ring.Nat
import Mathlib.Data.List.Infix

/-!
# Record identities and lengths

A record is named by its stream and by its sequence number within the stream.
Both are bounded integers, and so is a record's encoded length; the bounds are
fields of the types, so a value that the source's constructors would reject
cannot be formed.

Arithmetic that panics in the source returns an `Option`, with `none` where it
panics.
-/

namespace TransactionLog

/-- A raw stream ID at or above `StreamId.count`. -/
structure StreamIdError where
  value : Nat
  deriving DecidableEq, Repr

structure StreamId where
  get : Nat
  lt : get < 4096
  deriving DecidableEq, Repr

namespace StreamId

def count : Nat := 4096

def max : StreamId := ⟨count - 1, by decide⟩

def new (value : Nat) : Except StreamIdError StreamId :=
  if h : value > max.get then .error ⟨value⟩ else .ok ⟨value, by simp [max, count] at h; omega⟩

theorem new_get (s : StreamId) : new s.get = .ok s := by
  have := s.lt
  rw [new, dif_neg (by simp only [max, count]; omega)]

theorem new_of_lt {value : Nat} (h : value < 4096) : new value = .ok ⟨value, h⟩ := new_get ⟨value, h⟩

theorem new_of_le {value : Nat} (h : 4096 ≤ value) : new value = .error ⟨value⟩ := by
  rw [new, dif_pos (by simp only [max, count]; omega)]

end StreamId

structure SequenceNumber where
  get : Nat
  lt : get < 2 ^ 64
  deriving DecidableEq, Repr

def SequenceNumber.max : SequenceNumber := ⟨2 ^ 64 - 1, by decide⟩

structure RecordId where
  streamId : StreamId
  sequenceNumber : SequenceNumber
  deriving DecidableEq, Repr

namespace RecordId

/-- The next ID of the stream; panics at `SequenceNumber.max`. -/
def next (id : RecordId) : Option RecordId :=
  if h : id.sequenceNumber.get + 1 < 2 ^ 64 then
    some ⟨id.streamId, ⟨id.sequenceNumber.get + 1, h⟩⟩
  else none

@[ext] theorem ext' {a b : RecordId} (hs : a.streamId = b.streamId)
    (hn : a.sequenceNumber.get = b.sequenceNumber.get) : a = b := by
  obtain ⟨s, n, hlt⟩ := a
  obtain ⟨s', n', hlt'⟩ := b
  simp only at hs hn
  subst hs hn
  rfl

theorem next_of_lt {id : RecordId} (h : id.sequenceNumber.get + 1 < 2 ^ 64) :
    id.next = some ⟨id.streamId, ⟨id.sequenceNumber.get + 1, h⟩⟩ := dif_pos h

theorem next_eq_some {id id' : RecordId} :
    id.next = some id' ↔
      id'.streamId = id.streamId ∧ id'.sequenceNumber.get = id.sequenceNumber.get + 1 := by
  constructor
  · intro h
    by_cases hlt : id.sequenceNumber.get + 1 < 2 ^ 64
    · rw [next_of_lt hlt] at h
      obtain rfl := Option.some.inj h
      exact ⟨rfl, rfl⟩
    · rw [next, dif_neg hlt] at h
      cases h
  · rintro ⟨hs, hn⟩
    have hlt := id'.sequenceNumber.lt
    rw [next_of_lt (by omega)]
    exact congrArg some (RecordId.ext' hs.symm hn.symm)

end RecordId

/-- A raw record length outside `RecordLength.min ..= RecordLength.max`. -/
structure RecordLengthError where
  value : Nat
  deriving DecidableEq, Repr

/-- The length of a whole encoded record: header, payload and checksum. -/
structure RecordLength where
  get : Nat
  bounds : 16 ≤ get ∧ get ≤ 65535
  deriving DecidableEq, Repr

namespace RecordLength

def min : RecordLength := ⟨16, by decide⟩

def max : RecordLength := ⟨65535, by decide⟩

def new (value : Nat) : Except RecordLengthError RecordLength :=
  if h : value < min.get ∨ value > max.get then .error ⟨value⟩
  else .ok ⟨value, by simp [min, max] at h; omega⟩

end RecordLength

end TransactionLog
