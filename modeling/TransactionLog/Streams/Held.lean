import TransactionLog.Streams.Layout

/-!
# The records a log file holds

Recovery keeps the longest run of records that continues what is known of a file:
whole frames, of the file's stream, with the file's sequence numbers in order, and
no more of them than the file has room for.  `continuation` cuts that run off a
list of records, `scanned` off some bytes, and `held` off a whole log.
-/

namespace TransactionLog

open Lib

variable [Crc32c]

/-- The records that continue a file of which `n` records are known. -/
def continuation (f : LogFileId) : Nat → List Record → List Record
  | _, [] => []
  | n, r :: rs =>
    if n < recordsPerFile ∧ r.id.streamId = f.streamId ∧
        r.id.sequenceNumber.get = f.firstRecordId.sequenceNumber.get + n then
      r :: continuation f (n + 1) rs
    else []

/-- The records found in the bytes after the `n` known ones. -/
def scanned (f : LogFileId) (n : Nat) (bytes : List UInt8) : List Record :=
  continuation f n (records bytes)

/-- The records that a log holds from its beginning on. -/
def held (f : LogFileId) (content : List UInt8) : List Record := scanned f 0 content

variable {f : LogFileId}

theorem continuation_isPrefix : ∀ (rs : List Record) (n : Nat), continuation f n rs <+: rs := by
  intro rs
  induction rs with
  | nil => exact fun n => List.nil_prefix
  | cons r rs ih =>
    intro n
    rw [continuation]
    split
    · exact (List.prefix_cons_inj r).mpr (ih (n + 1))
    · exact List.nil_prefix

/-- Records that continue the file do so whatever follows them. -/
theorem continuation_append {xs : List Record} (ys : List Record) : ∀ {n : Nat},
    continuation f n xs = xs →
      continuation f n (xs ++ ys) = xs ++ continuation f (n + xs.length) ys := by
  induction xs with
  | nil => exact fun _ => rfl
  | cons x xs ih =>
    intro n h
    rw [continuation] at h
    by_cases hx : n < recordsPerFile ∧ x.id.streamId = f.streamId ∧
        x.id.sequenceNumber.get = f.firstRecordId.sequenceNumber.get + n
    · rw [if_pos hx] at h
      rw [List.cons_append, continuation, if_pos hx, ih (List.cons.inj h).2, List.length_cons,
        Nat.add_right_comm, Nat.add_assoc]
      rfl
    · rw [if_neg hx] at h
      cases h

/-- A record that does not continue the file ends the run. -/
theorem continuation_cons_neg {r : Record} {rs : List Record} {n : Nat}
    (h : ¬ (n < recordsPerFile ∧ r.id.streamId = f.streamId ∧
      r.id.sequenceNumber.get = f.firstRecordId.sequenceNumber.get + n)) :
    continuation f n (r :: rs) = [] := by
  rw [continuation, if_neg h]

theorem continuation_full {rs : List Record} {n : Nat} (h : recordsPerFile ≤ n) :
    continuation f n rs = [] := by
  cases rs with
  | nil => rfl
  | cons r rs => exact continuation_cons_neg fun hn => by omega

/-- Consecutive records are a run, as far as the file has room for them. -/
theorem continuation_eq : ∀ {rs : List Record} {n : Nat},
    Consecutive f.streamId (f.firstRecordId.sequenceNumber.get + n) rs →
    n + rs.length ≤ recordsPerFile → continuation f n rs = rs := by
  intro rs
  induction rs with
  | nil => exact fun _ _ => rfl
  | cons r rs ih =>
    intro n ⟨hs, hn, h⟩ hlen
    rw [List.length_cons] at hlen
    rw [Nat.add_assoc] at h
    rw [continuation, if_pos ⟨by omega, hs, hn⟩, ih h (by omega)]

theorem consecutive_continuation : ∀ (rs : List Record) (n : Nat),
    Consecutive f.streamId (f.firstRecordId.sequenceNumber.get + n) (continuation f n rs) := by
  intro rs
  induction rs with
  | nil => exact fun _ => trivial
  | cons r rs ih =>
    intro n
    rw [continuation]
    split
    · rename_i h
      have ih := ih (n + 1)
      rw [← Nat.add_assoc] at ih
      exact ⟨h.2.1, h.2.2, ih⟩
    · trivial

theorem length_continuation_le : ∀ (rs : List Record) {n : Nat}, n ≤ recordsPerFile →
    n + (continuation f n rs).length ≤ recordsPerFile := by
  intro rs
  induction rs with
  | nil => exact fun h => h
  | cons r rs ih =>
    intro n hn
    rw [continuation]
    split
    · rename_i h
      have := ih (n := n + 1) h.1
      rw [List.length_cons]
      omega
    · exact hn

/-- Records that fill the file are a run. -/
theorem Fills.continuation_eq {base rs : List Record} (h : Fills f (base ++ rs)) :
    continuation f base.length rs = rs := by
  have hlen := h.length_le
  rw [List.length_append] at hlen
  exact TransactionLog.continuation_eq (consecutive_append.mp h.consecutive).2 hlen

/-- The run that continues a file fills it further. -/
theorem Fills.append_continuation {base : List Record} (h : Fills f base) (rs : List Record) :
    Fills f (base ++ continuation f base.length rs) := by
  refine ⟨consecutive_append.mpr ⟨h.consecutive, consecutive_continuation rs _⟩, ?_⟩
  rw [List.length_append]
  exact length_continuation_le rs h.length_le

/-! ### Logs -/

theorem encodings_scanned_isPrefix (f : LogFileId) (n : Nat) (bytes : List UInt8) :
    encodings (scanned f n bytes) <+: bytes := by
  refine (encodings_mono (continuation_isPrefix _ _)).trans ?_
  exact ⟨_, encodings_records_append_rest bytes⟩

theorem encodings_held_isPrefix (f : LogFileId) (content : List UInt8) :
    encodings (held f content) <+: content := encodings_scanned_isPrefix f 0 content

theorem held_fills (f : LogFileId) (content : List UInt8) : Fills f (held f content) :=
  (Fills.nil f).append_continuation (records content)

/-- A scan that goes on from known records finds what a whole scan finds after them. -/
theorem held_append {base : List Record} (h : Fills f base) (rest : List UInt8) :
    held f (encodings base ++ rest) = base ++ scanned f base.length rest := by
  have hbase : continuation f 0 base = base :=
    Fills.continuation_eq (show Fills f ([] ++ base) from h)
  rw [held, scanned, records_encodings_append, continuation_append _ hbase, Nat.zero_add]
  rfl

/-- **The run is the longest one.** -/
theorem Fills.le_held {rs : List Record} (h : Fills f rs) {content : List UInt8}
    (hp : encodings rs <+: content) : rs <+: held f content := by
  obtain ⟨rest, rfl⟩ := hp
  rw [held_append h]
  exact List.prefix_append _ _

theorem held_encodings {rs : List Record} (h : Fills f rs) : held f (encodings rs) = rs := by
  have := held_append h []
  rw [List.append_nil] at this
  rw [this]
  exact List.append_nil rs

/-- A torn log holds the records that are complete in it. -/
theorem held_torn {rs : List Record} {content : List UInt8}
    (hp : content <+: encodings rs) : held f content <+: rs :=
  (continuation_isPrefix _ _).trans (records_torn hp).1

/-- A record whose bytes have all been kept is held. -/
theorem le_held_torn {rs rs' : List Record} (h : Fills f rs) {content : List UInt8}
    (hp : content <+: encodings rs) (hrs : rs' <+: rs)
    (hlen : (encodings rs').length ≤ content.length) : rs' <+: held f content := by
  refine (h.of_isPrefix hrs).le_held ?_
  exact List.prefix_of_prefix_length_le (encodings_mono hrs) hp hlen

end TransactionLog
