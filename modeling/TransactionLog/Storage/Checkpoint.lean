import TransactionLog.Lib.Decimal
import TransactionLog.Streams.Location

/-!
# The stored form of a checkpoint

A checkpoint is stored as one JSON object.  `StreamCheckpoint.toVec` is its text;
how a text is read back is a parameter, of which only that it reads this text
right is used.  `CheckpointReader.canonical` is a reader of such texts alone.
-/

namespace TransactionLog

open Lib

structure StreamCheckpoint where
  endLocation : RecordEndLocation
  deriving DecidableEq, Repr

namespace StreamCheckpoint

def streamIdText : List UInt8 := ascii "\x7b\"end\":\x7b\"record_id\":\x7b\"stream_id\":"

def sequenceNumberText : List UInt8 := ascii ",\"sequence_number\":"

def positionText : List UInt8 := ascii "\x7d,\"position\":"

def closingText : List UInt8 := ascii "\x7d\x7d"

/-- The JSON text of a checkpoint. -/
def toVec (c : StreamCheckpoint) : List UInt8 :=
  streamIdText ++ (decimal c.endLocation.recordId.streamId.get ++
    (sequenceNumberText ++ (decimal c.endLocation.recordId.sequenceNumber.get ++
      (positionText ++ (decimal c.endLocation.position.get ++ closingText)))))

end StreamCheckpoint

/-- The JSON reader for checkpoints. -/
class CheckpointReader where
  fromSlice : List UInt8 → Option StreamCheckpoint
  fromSlice_toVec : ∀ c : StreamCheckpoint, fromSlice c.toVec = some c

namespace StreamCheckpoint

/-- The checkpoint with the given numbers, if they are in range. -/
def ofNumbers (streamId sequenceNumber position : Nat) : Option StreamCheckpoint :=
  if hs : streamId < 4096 then
    if hn : sequenceNumber < 2 ^ 64 then
      if hp : position < 2 ^ 64 then
        some ⟨⟨⟨⟨streamId, hs⟩, ⟨sequenceNumber, hn⟩⟩, ⟨position, hp⟩⟩⟩
      else none
    else none
  else none

def fromCanonical (text : List UInt8) : Option StreamCheckpoint := do
  let (streamId, text) ← parseDecimal (← stripLiteral streamIdText text)
  let (sequenceNumber, text) ← parseDecimal (← stripLiteral sequenceNumberText text)
  let (position, text) ← parseDecimal (← stripLiteral positionText text)
  if text = closingText then ofNumbers streamId sequenceNumber position else none

theorem ofNumbers_get (c : StreamCheckpoint) : ofNumbers c.endLocation.recordId.streamId.get
    c.endLocation.recordId.sequenceNumber.get c.endLocation.position.get = some c := by
  rw [ofNumbers, dif_pos c.endLocation.recordId.streamId.lt,
    dif_pos c.endLocation.recordId.sequenceNumber.lt, dif_pos c.endLocation.position.lt]

theorem fromCanonical_toVec (c : StreamCheckpoint) : fromCanonical c.toVec = some c := by
  have hstream := fun rest => parseDecimal_decimal c.endLocation.recordId.streamId.get
    (b := 44) (by decide) (ascii "\"sequence_number\":" ++ rest)
  have hsequence := fun rest => parseDecimal_decimal c.endLocation.recordId.sequenceNumber.get
    (b := 125) (by decide) (ascii ",\"position\":" ++ rest)
  have hposition := parseDecimal_decimal c.endLocation.position.get (b := 125) (by decide)
    (ascii "\x7d")
  rw [fromCanonical, toVec, stripLiteral_append, Option.bind_eq_bind, Option.bind_some]
  show ((parseDecimal (decimal _ ++ 44 :: (ascii "\"sequence_number\":" ++ _))).bind _) = _
  rw [hstream, Option.bind_some]
  show ((stripLiteral sequenceNumberText (sequenceNumberText ++ _)).bind _) = _
  rw [stripLiteral_append, Option.bind_some]
  show ((parseDecimal (decimal _ ++ 125 :: (ascii ",\"position\":" ++ _))).bind _) = _
  rw [hsequence, Option.bind_some]
  show ((stripLiteral positionText (positionText ++ _)).bind _) = _
  rw [stripLiteral_append, Option.bind_some]
  show ((parseDecimal (decimal _ ++ 125 :: ascii "\x7d")).bind _) = _
  rw [hposition, Option.bind_some]
  exact ofNumbers_get c

theorem length_toVec_le (c : StreamCheckpoint) : c.toVec.length ≤ 4096 := by
  have h1 := length_decimal_le (w := 20) (by decide)
    (Nat.lt_of_lt_of_le c.endLocation.recordId.streamId.lt (by decide : 4096 ≤ 10 ^ 20))
  have h2 := length_decimal_le (w := 20) (by decide)
    (Nat.lt_of_lt_of_le c.endLocation.recordId.sequenceNumber.lt (by decide : 2 ^ 64 ≤ 10 ^ 20))
  have h3 := length_decimal_le (w := 20) (by decide)
    (Nat.lt_of_lt_of_le c.endLocation.position.lt (by decide : 2 ^ 64 ≤ 10 ^ 20))
  simp only [toVec, List.length_append, show streamIdText.length = 33 from rfl,
    show sequenceNumberText.length = 19 from rfl, show positionText.length = 13 from rfl,
    show closingText.length = 2 from rfl]
  omega

end StreamCheckpoint

/-- Reads the texts of `toVec` and nothing else. -/
@[reducible] def CheckpointReader.canonical : CheckpointReader :=
  ⟨StreamCheckpoint.fromCanonical, StreamCheckpoint.fromCanonical_toVec⟩

end TransactionLog
