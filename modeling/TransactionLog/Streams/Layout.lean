import TransactionLog.Streams.Location

/-!
# What a file pair holds

A log file holds consecutive records of its stream from its first assigned ID on,
one encoding after the other.  Its index holds, for each of them, the position
where its encoding ends, as eight little-endian bytes.

These are the contents that the writer produces and that recovery restores:
`encodings rs` and `indexBytes rs`, with `endOf rs` for the last record's end.
-/

namespace TransactionLog

open Lib

def indexEntryLen : Nat := 8

@[simp] theorem indexEntryLen_eq : indexEntryLen = 8 := rfl

variable [Crc32c]

/-- The records are those of stream `s` from sequence number `n` on. -/
def Consecutive (s : StreamId) : Nat → List Record → Prop
  | _, [] => True
  | n, r :: rs => r.id.streamId = s ∧ r.id.sequenceNumber.get = n ∧ Consecutive s (n + 1) rs

/-- Where each of the records ends, the first one starting at `p`. -/
def ends : Nat → List Record → List Nat
  | _, [] => []
  | p, r :: rs => (p + r.bytes.length) :: ends (p + r.bytes.length) rs

/-- The index entries of records that start at `p`. -/
def entries (p : Nat) (rs : List Record) : List UInt8 := (ends p rs).flatMap (toLe indexEntryLen)

def indexBytes (rs : List Record) : List UInt8 := entries 0 rs

/-- The end of the last record. -/
def endOf (rs : List Record) : Option RecordEndLocation :=
  rs.getLast?.map fun r => ⟨r.id, .ofNat (encodings rs).length⟩

/-- The records are the first ones assigned to the file. -/
structure Fills (f : LogFileId) (rs : List Record) : Prop where
  consecutive : Consecutive f.streamId f.firstRecordId.sequenceNumber.get rs
  length_le : rs.length ≤ recordsPerFile

/-! ### Consecutive records -/

theorem consecutive_append {s : StreamId} : ∀ {xs ys : List Record} {n : Nat},
    Consecutive s n (xs ++ ys) ↔ Consecutive s n xs ∧ Consecutive s (n + xs.length) ys := by
  intro xs
  induction xs with
  | nil => simp [Consecutive]
  | cons x xs ih =>
    intro ys n
    rw [List.cons_append, Consecutive, Consecutive, ih, List.length_cons, Nat.add_right_comm,
      Nat.add_assoc]
    tauto

theorem Consecutive.of_isPrefix {s : StreamId} {xs ys : List Record} {n : Nat}
    (h : Consecutive s n ys) (hp : xs <+: ys) : Consecutive s n xs := by
  obtain ⟨zs, rfl⟩ := hp
  exact (consecutive_append.mp h).1

theorem Consecutive.get {s : StreamId} : ∀ {rs : List Record} {n : Nat}, Consecutive s n rs →
    ∀ i (hi : i < rs.length), rs[i].id.streamId = s ∧ rs[i].id.sequenceNumber.get = n + i := by
  intro rs
  induction rs with
  | nil => intro _ _ i hi; simp at hi
  | cons r rs ih =>
    rintro n ⟨hs, hn, h⟩ i hi
    cases i with
    | zero => exact ⟨hs, hn⟩
    | succ i =>
      have := ih h i (by simpa using hi)
      rw [List.getElem_cons_succ, this.2]
      exact ⟨this.1, by omega⟩

theorem Consecutive.last {s : StreamId} {rs : List Record} {n : Nat} (h : Consecutive s n rs)
    {r : Record} (hr : rs.getLast? = some r) :
    r.id.streamId = s ∧ r.id.sequenceNumber.get + 1 = n + rs.length := by
  obtain ⟨xs, rfl⟩ := List.getLast?_eq_some_iff.mp hr
  obtain ⟨-, hs, hn, -⟩ := consecutive_append.mp h
  rw [List.length_append, List.length_singleton]
  exact ⟨hs, by omega⟩

/-- All sequence numbers of consecutive records fit. -/
theorem Consecutive.length_le {s : StreamId} {rs : List Record} {n : Nat} (h : Consecutive s n rs)
    (hne : rs ≠ []) : n + rs.length ≤ 2 ^ 64 := by
  obtain ⟨r, hr⟩ : ∃ r, rs.getLast? = some r := by
    cases hl : rs.getLast? with
    | none => exact absurd (List.getLast?_eq_none_iff.mp hl) hne
    | some r => exact ⟨r, rfl⟩
  have := (h.last hr).2
  have := r.id.sequenceNumber.lt
  omega

/-! ### Ends and entries -/

theorem ends_append : ∀ (xs ys : List Record) (p : Nat),
    ends p (xs ++ ys) = ends p xs ++ ends (p + (encodings xs).length) ys := by
  intro xs
  induction xs with
  | nil => intro ys p; rfl
  | cons x xs ih =>
    intro ys p
    rw [List.cons_append, ends, ends, ih, encodings_cons, List.length_append, Nat.add_assoc]
    rfl

theorem entries_append (xs ys : List Record) (p : Nat) :
    entries p (xs ++ ys) = entries p xs ++ entries (p + (encodings xs).length) ys := by
  rw [entries, ends_append, List.flatMap_append]
  rfl

@[simp] theorem length_ends : ∀ (rs : List Record) (p : Nat), (ends p rs).length = rs.length
  | [], _ => rfl
  | r :: rs, p => by rw [ends, List.length_cons, length_ends rs, List.length_cons]

@[simp] theorem length_entries (rs : List Record) (p : Nat) :
    (entries p rs).length = 8 * rs.length := by
  rw [entries, List.length_flatMap]
  induction rs generalizing p with
  | nil => rfl
  | cons r rs ih =>
    rw [ends, List.map_cons, List.sum_cons, ih, List.length_cons, length_toLe, indexEntryLen_eq]
    omega

@[simp] theorem length_indexBytes (rs : List Record) : (indexBytes rs).length = 8 * rs.length :=
  length_entries rs 0

theorem indexBytes_append (xs ys : List Record) :
    indexBytes (xs ++ ys) = indexBytes xs ++ entries (encodings xs).length ys := by
  rw [indexBytes, entries_append, Nat.zero_add]
  rfl

theorem entries_singleton (r : Record) (p : Nat) :
    entries p [r] = toLe 8 (p + r.bytes.length) := by
  show toLe indexEntryLen _ ++ [] = _
  rw [List.append_nil]
  rfl

theorem encodings_singleton (r : Record) : encodings [r] = r.bytes := by
  rw [encodings_cons, encodings_nil, List.append_nil]

/-- The `k`-th entry is the end of the `k`-th record. -/
theorem take_drop_entries {rs : List Record} {k : Nat} (hk : k < rs.length) (p : Nat) :
    ((entries p rs).drop (8 * k)).take 8 = toLe 8 (p + (encodings (rs.take (k + 1))).length) := by
  have hsplit : rs = rs.take k ++ (rs[k] :: rs.drop (k + 1)) := by
    rw [List.getElem_cons_drop, List.take_append_drop]
  have hlen : (entries p (rs.take k)).length = 8 * k := by
    rw [length_entries, List.length_take, Nat.min_eq_left (Nat.le_of_lt hk)]
  have htake : encodings (rs.take (k + 1)) = encodings (rs.take k) ++ rs[k].bytes := by
    rw [List.take_succ_eq_append_getElem hk, encodings_append, encodings_singleton]
  rw [htake, List.length_append, ← Nat.add_assoc]
  conv_lhs => rw [hsplit, entries_append, ← List.singleton_append, entries_append, entries_singleton,
    ← hlen, List.drop_left]
  exact List.take_left' (length_toLe _ _)

/-- The `k`-th entry of an index. -/
def entryAt (index : List UInt8) (k : Nat) : Nat :=
  ofLe ((index.drop (indexEntryLen * k)).take indexEntryLen)

theorem encodings_mono {xs ys : List Record} (h : xs <+: ys) : encodings xs <+: encodings ys := by
  obtain ⟨zs, rfl⟩ := h
  rw [encodings_append]
  exact List.prefix_append _ _

/-- A complete entry among the first bytes of an index is the end of its record. -/
theorem entryAt_of_isPrefix {rs : List Record} {p k : Nat} {index : List UInt8}
    (hi : index <+: entries p rs) (hk : 8 * (k + 1) ≤ index.length)
    (hlt : p + (encodings rs).length < 2 ^ 64) :
    entryAt index k = p + (encodings (rs.take (k + 1))).length := by
  have hlen := hi.length_le
  have hshort := (encodings_mono (List.take_prefix (k + 1) rs)).length_le
  rw [length_entries] at hlen
  obtain ⟨rest, hrest⟩ := hi
  have hsame : (index.drop (8 * k)).take 8 = ((entries p rs).drop (8 * k)).take 8 := by
    rw [← hrest, List.drop_append_of_le_length (by omega), List.take_append_of_le_length]
    rw [List.length_drop]
    omega
  rw [entryAt, indexEntryLen_eq, hsame, take_drop_entries (by omega)]
  exact ofLe_toLe_of_lt (by omega)

theorem encodings_length_le (rs : List Record) : (encodings rs).length ≤ 65535 * rs.length := by
  induction rs with
  | nil => simp
  | cons r rs ih =>
    have := r.valid.le_max
    simp only [encodings_cons, List.length_append, List.length_cons, Protocol.maxRecordLen_eq] at *
    omega

theorem encodings_length_ge (rs : List Record) : 16 * rs.length ≤ (encodings rs).length := by
  induction rs with
  | nil => simp
  | cons r rs ih =>
    have := r.valid.min_le
    simp only [encodings_cons, List.length_append, List.length_cons, Protocol.minRecordLen_eq] at *
    omega

theorem indexBytes_mono {xs ys : List Record} (h : xs <+: ys) :
    indexBytes xs <+: indexBytes ys := by
  obtain ⟨zs, rfl⟩ := h
  rw [indexBytes_append]
  exact List.prefix_append _ _

/-! ### The end of the last record -/

@[simp] theorem endOf_nil : endOf ([] : List Record) = none := rfl

theorem endOf_append_singleton (rs : List Record) (r : Record) :
    endOf (rs ++ [r]) = some ⟨r.id, .ofNat (encodings (rs ++ [r])).length⟩ := by
  rw [endOf, List.getLast?_append]
  rfl

theorem endOf_eq_none {rs : List Record} : endOf rs = none ↔ rs = [] := by
  rw [endOf, Option.map_eq_none_iff, List.getLast?_eq_none_iff]

namespace Fills

variable {f : LogFileId} {rs : List Record}

theorem nil (f : LogFileId) : Fills f [] := ⟨trivial, Nat.zero_le _⟩

theorem of_isPrefix {rs' : List Record} (h : Fills f rs) (hp : rs' <+: rs) : Fills f rs' :=
  ⟨h.consecutive.of_isPrefix hp, Nat.le_trans hp.length_le h.length_le⟩

theorem encodings_lt (h : Fills f rs) : (encodings rs).length < 2 ^ 64 := by
  have := encodings_length_le rs
  have := h.length_le
  simp only [recordsPerFile_eq] at this
  omega

/-- What `endOf` says of the records of a file. -/
theorem endOf_eq_some (h : Fills f rs) {e : RecordEndLocation} (he : endOf rs = some e) :
    e.position.get = (encodings rs).length ∧ e.recordId.streamId = f.streamId ∧
      e.recordId.sequenceNumber.get + 1 = f.firstRecordId.sequenceNumber.get + rs.length ∧
      e.logFileId = f ∧ LogFileId.recordCountThrough e.recordId = rs.length := by
  rw [endOf, Option.map_eq_some_iff] at he
  obtain ⟨r, hr, rfl⟩ := he
  obtain ⟨hs, hn⟩ := h.consecutive.last hr
  have hlen := h.length_le
  have hpos : 0 < rs.length := List.length_pos_iff.mpr (by rintro rfl; cases hr)
  have hfirst : f.firstRecordId.sequenceNumber.get = f.fileNumber.get * 100000 := rfl
  simp only [recordsPerFile_eq] at hlen
  have hfile : LogFileId.fromRecordId r.id = f :=
    LogFileId.fromRecordId_eq_iff.mpr ⟨hs, by omega, by omega⟩
  refine ⟨LogFilePosition.get_ofNat h.encodings_lt, hs, hn, hfile, ?_⟩
  rw [LogFileId.recordCountThrough_eq hfile]
  show r.id.sequenceNumber.get - _ + 1 = _
  omega

/-- The first record of a file, without a payload. -/
def firstRecord (f : LogFileId) : Record := .encode f.firstRecordId [] (Nat.zero_le _)

theorem first (f : LogFileId) : Fills f [firstRecord f] := by
  have hid : (firstRecord f).id = f.firstRecordId := Record.id_encode _
  exact ⟨⟨by rw [hid]; rfl, by rw [hid], trivial⟩, by simp⟩

/-- The end of the records is one of them all. -/
theorem length_eq_of_endOf (h : Fills f rs) :
    rs.length = (endOf rs).elim 0 fun e => LogFileId.recordCountThrough e.recordId := by
  cases he : endOf rs with
  | none => rw [endOf_eq_none.mp he]; rfl
  | some e => exact (h.endOf_eq_some he).2.2.2.2.symm

end Fills

end TransactionLog
