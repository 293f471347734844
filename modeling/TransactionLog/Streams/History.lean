import TransactionLog.Streams.Held
import TransactionLog.Lib.File

/-!
# A stream's history in its logs

The history of a stream are its records in order, from the first one on, and
`part f H` are those of them that are assigned to the file `f`.

`Kept H n f file` says what a log of `f` has to do with them.  It may have lost the
end of what it has accepted, but nothing of the first `n` records.  Crashes keep it
so, and the records that such a log holds are between the two.
-/

namespace TransactionLog

open Lib

variable [Crc32c] {s : StreamId} {f g : LogFileId} {H H' : List Record} {n m : Nat} {file : File}

/-- How many records are assigned to the files before this one. -/
def LogFileId.before (f : LogFileId) : Nat := f.fileNumber.get * recordsPerFile

/-- The records of the history that are assigned to the file. -/
def part (f : LogFileId) (H : List Record) : List Record := (H.drop f.before).take recordsPerFile

/-! ### Parts of a history -/

omit [Crc32c] in
theorem LogFileId.before_eq (f : LogFileId) : f.before = f.fileNumber.get * 100000 := rfl

omit [Crc32c] in
theorem LogFileId.first_sequence (f : LogFileId) :
    f.firstRecordId.sequenceNumber.get = f.before := rfl

omit [Crc32c] in
theorem LogFileId.before_add_le (h : f.fileNumber.get < g.fileNumber.get) :
    f.before + recordsPerFile ≤ g.before := by
  rw [f.before_eq, g.before_eq, recordsPerFile_eq]
  omega

theorem length_part (f : LogFileId) (H : List Record) :
    (part f H).length = min recordsPerFile (H.length - f.before) := by
  rw [part, List.length_take, List.length_drop]

theorem part_isPrefix (h : H <+: H') (f : LogFileId) : part f H <+: part f H' := by
  obtain ⟨X, rfl⟩ := h
  rw [part, part, List.drop_append, List.take_append]
  exact List.prefix_append _ _

theorem part_take (f : LogFileId) (H : List Record) (n : Nat) :
    part f (H.take n) = (part f H).take (n - f.before) := by
  rw [part, part, List.drop_take, List.take_take, List.take_take, Nat.min_comm]

/-- Whatever comes after a file does not change its part. -/
theorem part_take_of_le (h : f.before + recordsPerFile ≤ n) (H : List Record) :
    part f (H.take n) = part f H := by
  rw [part_take, List.take_of_length_le]
  rw [length_part]
  omega

theorem part_eq_nil (h : H.length ≤ f.before) : part f H = [] := by
  rw [part, List.drop_eq_nil_of_le h, List.take_nil]

theorem length_part_of_le (h : f.before + recordsPerFile ≤ H.length) :
    (part f H).length = recordsPerFile := by
  rw [length_part]
  omega

theorem consecutive_drop {a : Nat} (h : Consecutive s a H) (k : Nat) :
    Consecutive s (a + k) (H.drop k) := by
  by_cases hk : k ≤ H.length
  · have hsplit := h
    rw [← List.take_append_drop k H] at hsplit
    have := (consecutive_append.mp hsplit).2
    rwa [List.length_take, Nat.min_eq_left hk] at this
  · rw [List.drop_eq_nil_of_le (by omega)]
    trivial

theorem fills_part (hH : Consecutive s 0 H) (hf : f.streamId = s) : Fills f (part f H) := by
  have h := consecutive_drop hH f.before
  rw [Nat.zero_add, ← hf] at h
  exact ⟨h.of_isPrefix (List.take_prefix _ _), List.length_take_le _ _⟩

/-- The history up to a file, and on into it. -/
theorem take_before_add (f : LogFileId) (H : List Record) {k : Nat} (hk : k ≤ recordsPerFile) :
    H.take (f.before + k) = H.take f.before ++ (part f H).take k := by
  rw [List.take_add, part, List.take_take, Nat.min_eq_left hk]

/-- Records at the front of a part are those of the history up to them. -/
theorem part_take_length {rs : List Record} (h : rs <+: part f H) :
    part f (H.take (f.before + rs.length)) = rs := by
  rw [part_take, Nat.add_sub_cancel_left]
  exact (List.prefix_iff_eq_take.mp h).symm

theorem before_add_length_le {rs : List Record} (h : rs <+: part f H) (hf : f.before ≤ H.length) :
    f.before + rs.length ≤ H.length := by
  have := h.length_le
  rw [length_part] at this
  omega

/-- The parts of the files up to one, in their order. -/
theorem flatMap_part : ∀ (k : Nat), k ≤ 184467440737095 →
    (LogFileId.successors k (.first s)).flatMap (fun f => part f H) =
      H.take ((k + 1) * recordsPerFile) := by
  intro k
  induction k with
  | zero =>
    intro _
    rw [LogFileId.successors, List.flatMap_singleton, part, LogFileId.before, LogFileId.first,
      LogFileNumber.min, Nat.zero_mul, List.drop_zero, Nat.zero_add, Nat.one_mul]
  | succ k ih =>
    intro hk
    have hg : (⟨k + 1, hk⟩ : LogFileNumber).get = (LogFileId.first s).fileNumber.get + (k + 1) :=
      (Nat.zero_add _).symm
    rw [LogFileId.successors_concat k (f := .first s) (g := ⟨s, ⟨k + 1, hk⟩⟩) rfl hg,
      List.flatMap_append,
      List.flatMap_singleton, ih (Nat.le_of_succ_le hk), part, Nat.succ_mul (k + 1), List.take_add]
    rfl

/-! ### Logs of a history -/

/-- The log has accepted a part of the history and kept the first `n` records of it. -/
structure Kept (H : List Record) (n : Nat) (f : LogFileId) (file : File) : Prop where
  content : file.content <+: file.accepted
  accepted : file.accepted <+: encodings (part f H)
  durable : (encodings (part f (H.take n))).length ≤ file.synced

namespace Kept

theorem content_isPrefix (h : Kept H n f file) : file.content <+: encodings (part f H) :=
  h.content.trans h.accepted

theorem seekTo (h : Kept H n f file) (k : Nat) : Kept H n f (file.seekTo k) :=
  ⟨h.content, h.accepted, h.durable⟩

theorem secures (h : Kept H n f file) :
    File.Secures (encodings (part f (H.take n))) file := by
  refine ⟨?_, h.durable⟩
  exact List.prefix_of_prefix_length_le (encodings_mono (part_isPrefix (List.take_prefix n H) f))
    h.content_isPrefix (Nat.le_trans h.durable file.synced_le)

/-- No crash takes more than it may. -/
theorem torn {file' : File} (h : Kept H n f file) (ht : File.Torn file file') :
    Kept H n f file' where
  content := by rw [ht.accepted]
  accepted := by
    rw [ht.accepted]
    exact ht.content.trans h.accepted
  durable := by
    rw [ht.synced]
    exact h.durable

/-- A longer history has the same log. -/
theorem extend (h : Kept H n f file) (hn : n ≤ H.length) (hH : H <+: H') : Kept H' n f file where
  content := h.content
  accepted := h.accepted.trans (encodings_mono (part_isPrefix hH f))
  durable := by
    obtain ⟨X, rfl⟩ := hH
    rw [List.take_append_of_le_length hn]
    exact h.durable

theorem empty (f : LogFileId) (H : List Record) (hn : n ≤ f.before) : Kept H n f .empty where
  content := List.nil_prefix
  accepted := List.nil_prefix
  durable := by
    rw [part_eq_nil (Nat.le_trans (List.length_take_le _ _) hn)]
    exact Nat.le_refl 0

/-- Cutting off what is not durable. -/
theorem resized (h : Kept H n f file) {k : Nat}
    (hk : (encodings (part f (H.take n))).length ≤ k) (hle : k ≤ file.content.length) :
    Kept H n f (file.resized k) where
  content := by
    rw [File.resized_content hle, File.resized_accepted hle]
    exact (List.take_prefix k _).trans h.content
  accepted := by
    rw [File.resized_accepted hle]
    exact h.accepted
  durable := Nat.le_min.mpr ⟨h.durable, hk⟩

theorem synchronized (h : Kept H n f file) : Kept H n f file.synchronized where
  content := List.prefix_refl _
  accepted := h.content_isPrefix
  durable := Nat.le_trans h.durable file.synced_le

/-- A log that holds just some records, all of them durable. -/
theorem of_durable {rs : List Record} (h : rs <+: part f H) (hn : part f (H.take n) <+: rs) :
    Kept H n f (.durable (encodings rs)) where
  content := List.prefix_refl _
  accepted := encodings_mono h
  durable := (encodings_mono hn).length_le

theorem held_isPrefix (h : Kept H n f file) : held f file.content <+: part f H :=
  held_torn h.content_isPrefix

theorem le_held (h : Kept H n f file) (hfills : Fills f (part f H)) :
    part f (H.take n) <+: held f file.content :=
  le_held_torn hfills h.content_isPrefix (part_isPrefix (List.take_prefix n H) f)
    (Nat.le_trans h.durable file.synced_le)

/-- A log all of whose records are durable holds nothing else. -/
theorem full (h : Kept H n f file) (hn : f.before + recordsPerFile ≤ n) :
    file.content = encodings (part f H) ∧ file.accepted = encodings (part f H) ∧
      file.synced = (encodings (part f H)).length := by
  have hdurable := h.durable
  rw [part_take_of_le hn] at hdurable
  have hcontent := h.content_isPrefix.eq_of_length_le (Nat.le_trans hdurable file.synced_le)
  have hle := h.content.length_le
  rw [hcontent] at hle
  refine ⟨hcontent, h.accepted.eq_of_length_le hle, Nat.le_antisymm ?_ hdurable⟩
  rw [← hcontent]
  exact file.synced_le

end Kept

end TransactionLog
