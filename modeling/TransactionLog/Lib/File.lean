import TransactionLog.Lib.Exact
import TransactionLog.Lib.Output

/-!
# Files that a crash can tear

A `File` is the content of a file as its readers see it, with the cursor of the
one handle it is open through, and what a crash may leave of it: the first
`synced` bytes are durable, and `accepted` are the bytes last accepted for it,
which a shortened file keeps until it is written or synchronized again.

`Torn` is a crash of a file that is only appended to, which leaves a prefix of the
accepted bytes, and `Scrambled` one that leaves anything after the durable bytes.
-/

namespace Lib

/-- `content` overwritten from `pos` on, with zeros where that is past its end. -/
def overwrite (content : List UInt8) (pos : Nat) (bytes : List UInt8) : List UInt8 :=
  content.take pos ++ List.replicate (pos - content.length) 0 ++ bytes ++
    content.drop (pos + bytes.length)

/-- `content` cut or padded with zeros to `n` bytes. -/
def resize (content : List UInt8) (n : Nat) : List UInt8 :=
  content.take n ++ List.replicate (n - content.length) 0

theorem resize_of_le {content : List UInt8} {n : Nat} (h : n ≤ content.length) :
    resize content n = content.take n := by
  rw [resize, Nat.sub_eq_zero_of_le h, List.replicate_zero, List.append_nil]

@[simp] theorem length_resize (content : List UInt8) (n : Nat) : (resize content n).length = n := by
  rw [resize, List.length_append, List.length_take, List.length_replicate]
  omega

theorem take_resize {content : List UInt8} {n m : Nat} (hm : m ≤ n) (hlen : m ≤ content.length) :
    (resize content n).take m = content.take m := by
  rw [resize, List.take_append_of_le_length (by rw [List.length_take]; omega), List.take_take,
    Nat.min_eq_left hm]

theorem overwrite_end (content bytes : List UInt8) :
    overwrite content content.length bytes = content ++ bytes := by
  rw [overwrite, List.take_length, Nat.sub_self, List.replicate_zero, List.append_nil,
    List.drop_eq_nil_of_le (Nat.le_add_right _ _), List.append_nil]

theorem length_le_overwrite (content bytes : List UInt8) (pos : Nat) :
    content.length ≤ (overwrite content pos bytes).length := by
  simp only [overwrite, List.length_append, List.length_take, List.length_replicate,
    List.length_drop]
  omega

structure File where
  content : List UInt8
  accepted : List UInt8
  synced : Nat
  cursor : Nat
  synced_le : synced ≤ content.length
  take_accepted : accepted.take synced = content.take synced
  deriving DecidableEq

namespace File

/-- A file that has just been created. -/
def empty : File := ⟨[], [], 0, 0, Nat.le_refl _, rfl⟩

/-- A file that holds `content`, all of it durable, and is not open. -/
def durable (content : List UInt8) : File :=
  ⟨content, content, content.length, 0, Nat.le_refl _, rfl⟩

/-- As `durable`, with the cursor at the end. -/
def atEnd (content : List UInt8) : File :=
  ⟨content, content, content.length, content.length, Nat.le_refl _, rfl⟩

def seekTo (n : Nat) (f : File) : File := { f with cursor := n }

def resized (n : Nat) (f : File) : File where
  content := resize f.content n
  accepted := if n ≤ f.content.length then f.accepted else resize f.content n
  synced := min f.synced n
  cursor := f.cursor
  synced_le := by
    rw [length_resize]
    exact Nat.min_le_right _ _
  take_accepted := by
    split
    · have h := congrArg (List.take n) f.take_accepted
      rw [take_resize (Nat.min_le_right _ _) (Nat.le_trans (Nat.min_le_left _ _) f.synced_le)]
      rwa [List.take_take, List.take_take, Nat.min_comm] at h
    · rfl

/-- Writes at the cursor.  Bytes before it stay durable. -/
def written (bytes : List UInt8) (f : File) : File :=
  if bytes = [] then f
  else {
    content := overwrite f.content f.cursor bytes
    accepted := overwrite f.content f.cursor bytes
    synced := min f.synced f.cursor
    cursor := f.cursor + bytes.length
    synced_le := Nat.le_trans (Nat.le_trans (Nat.min_le_left _ _) f.synced_le)
      (length_le_overwrite _ _ _)
    take_accepted := rfl }

def synchronized (f : File) : File where
  content := f.content
  accepted := f.content
  synced := f.content.length
  cursor := f.cursor
  synced_le := Nat.le_refl _
  take_accepted := rfl

/-! ### Handles -/

def dest : Dest File := ⟨written, id, synchronized⟩

def source : Source File := ⟨fun f => f.content.drop f.cursor, fun n f => f.seekTo (f.cursor + n)⟩

def length : Io File ErrorKind Nat := Io.call fun f => .ok (f.content.length, f)

def seek (n : Nat) : Io File ErrorKind Unit := Io.call fun f => .ok ((), f.seekTo n)

def setLen (n : Nat) : Io File ErrorKind Unit := Io.call fun f => .ok ((), f.resized n)

def syncData : Io File ErrorKind Unit := Io.call fun f => .ok ((), f.synchronized)

def flush : Io File ErrorKind Unit := dest.flushCall

/-! ### What the operations do -/

@[simp] theorem seekTo_content (n : Nat) (f : File) : (f.seekTo n).content = f.content := rfl
@[simp] theorem seekTo_seekTo (n m : Nat) (f : File) : (f.seekTo n).seekTo m = f.seekTo m := rfl

/-- A file with nothing but durable bytes is known up to its cursor. -/
theorem eq_durable {f : File} {content : List UInt8} (hcontent : f.content = content)
    (haccepted : f.accepted = content) (hsynced : f.synced = content.length) :
    ∃ k, f = (durable content).seekTo k := by
  obtain ⟨c, a, n, k, _, _⟩ := f
  simp only at hcontent haccepted hsynced
  subst hcontent haccepted hsynced
  exact ⟨k, rfl⟩

theorem seekTo_self (f : File) : f.seekTo f.cursor = f := rfl

@[simp] theorem synchronized_seekTo (n : Nat) (f : File) :
    (f.seekTo n).synchronized = f.synchronized.seekTo n := rfl

theorem resized_content {n : Nat} {f : File} (h : n ≤ f.content.length) :
    (f.resized n).content = f.content.take n := resize_of_le h

theorem resized_accepted {n : Nat} {f : File} (h : n ≤ f.content.length) :
    (f.resized n).accepted = f.accepted := if_pos h

/-- Writing at the end appends, and nothing durable is lost. -/
theorem written_end {b : List UInt8} {f : File} (h : f.cursor = f.content.length) :
    (f.written b).content = f.content ++ b ∧ (f.written b).synced = f.synced ∧
      (f.written b).cursor = (f.content ++ b).length := by
  rw [written]
  split
  · rename_i hnil
    subst hnil
    rw [List.append_nil]
    exact ⟨rfl, rfl, h⟩
  · refine ⟨?_, ?_, ?_⟩
    · show overwrite f.content f.cursor b = _
      rw [h, overwrite_end]
    · show min f.synced f.cursor = _
      rw [h, Nat.min_eq_left f.synced_le]
    · show f.cursor + b.length = _
      rw [h, List.length_append]

theorem written_accepted {bytes : List UInt8} {f : File} (h : f.accepted = f.content) :
    (f.written bytes).accepted = (f.written bytes).content := by
  rw [written]
  split
  · exact h
  · rfl

theorem source_lawful (J : File → Prop) (hJ : ∀ n f, J f → J (f.seekTo n)) : source.Lawful J where
  available_advance n f _ := by
    show f.content.drop (f.cursor + n) = (f.content.drop f.cursor).drop n
    rw [List.drop_drop]
  advance n f h := hJ _ f h

/-! ### Files as destinations -/

/-- The file holds `base` and, after it, what it has accepted as a destination. -/
structure Receives (base : List UInt8) (ch : Channel) (f : File) : Prop where
  content : f.content = base ++ ch.accepted
  accepted : f.accepted = f.content
  cursor : f.cursor = f.content.length
  flushed_le : ch.flushed ≤ ch.accepted.length
  synced_le : base.length + ch.synced ≤ f.synced

theorem receives_atEnd (base : List UInt8) : Receives base .new (atEnd base) where
  content := (List.append_nil base).symm
  accepted := rfl
  cursor := rfl
  flushed_le := Nat.le_refl 0
  synced_le := Nat.le_refl _

theorem tracked_receives (base : List UInt8) : Output.Tracked dest (Receives base) where
  accept bytes ch f h := by
    obtain ⟨hcontent, hsynced, hcursor⟩ := written_end (b := bytes) h.cursor
    refine ⟨?_, written_accepted h.accepted, ?_, ?_, ?_⟩
    · show (f.written bytes).content = base ++ (ch.accepted ++ bytes)
      rw [hcontent, h.content, List.append_assoc]
    · show (f.written bytes).cursor = (f.written bytes).content.length
      rw [hcursor, hcontent]
    · show ch.flushed ≤ (ch.accepted ++ bytes).length
      rw [List.length_append]
      exact Nat.le_add_right_of_le h.flushed_le
    · show base.length + ch.synced ≤ (f.written bytes).synced
      rw [hsynced]
      exact h.synced_le
  flush ch f h := ⟨h.content, h.accepted, h.cursor, Nat.le_refl _, h.synced_le⟩
  sync ch f h := by
    refine ⟨h.content, rfl, h.cursor, h.flushed_le, ?_⟩
    show base.length + ch.flushed ≤ f.content.length
    rw [h.content, List.length_append]
    exact Nat.add_le_add_left h.flushed_le _

/-! ### Bytes that are durable -/

/-- The file begins with the bytes, and they are synchronized. -/
structure Secures (bytes : List UInt8) (f : File) : Prop where
  isPrefix : bytes <+: f.content
  length_le : bytes.length ≤ f.synced

theorem Secures.seekTo {bytes : List UInt8} {f : File} (h : Secures bytes f) (n : Nat) :
    Secures bytes (f.seekTo n) := ⟨h.isPrefix, h.length_le⟩

theorem Secures.synchronized {bytes : List UInt8} {f : File} (h : Secures bytes f) :
    Secures bytes f.synchronized := ⟨h.isPrefix, h.isPrefix.length_le⟩

/-- Cutting a file after the bytes keeps them. -/
theorem Secures.resized {bytes : List UInt8} {f : File} {n : Nat} (h : Secures bytes f)
    (hn : bytes.length ≤ n) : Secures bytes (f.resized n) := by
  refine ⟨?_, Nat.le_min.mpr ⟨h.length_le, hn⟩⟩
  have hlen := h.isPrefix.length_le
  exact List.prefix_iff_eq_take.mpr
    ((List.prefix_iff_eq_take.mp h.isPrefix).trans (take_resize hn hlen).symm)

theorem secures_durable (bytes : List UInt8) : Secures bytes (durable bytes) :=
  ⟨List.prefix_refl _, Nat.le_refl _⟩

theorem Secures.of_isPrefix {bytes bytes' : List UInt8} {f : File} (h : Secures bytes f)
    (hb : bytes' <+: bytes) : Secures bytes' f :=
  ⟨hb.trans h.isPrefix, Nat.le_trans hb.length_le h.length_le⟩

/-! ### Crashes -/

/-- A crash of a file that is only appended to. -/
structure Torn (f f' : File) : Prop where
  content : f'.content <+: f.accepted
  synced_le : f.synced ≤ f'.content.length
  synced : f'.synced = f.synced
  accepted : f'.accepted = f'.content

/-- A crash of a file that is overwritten in place. -/
structure Scrambled (f f' : File) : Prop where
  content : f.content.take f.synced <+: f'.content
  synced : f'.synced = f.synced
  accepted : f'.accepted = f'.content

/-- A file of which a crash has left just the durable bytes. -/
def lost (f : File) : File where
  content := f.content.take f.synced
  accepted := f.content.take f.synced
  synced := f.synced
  cursor := 0
  synced_le := by rw [List.length_take, Nat.min_eq_left f.synced_le]
  take_accepted := rfl

theorem torn_lost (f : File) : Torn f f.lost where
  content := by
    show f.content.take f.synced <+: f.accepted
    rw [← f.take_accepted]
    exact List.take_prefix _ _
  synced_le := f.lost.synced_le
  synced := rfl
  accepted := rfl

theorem scrambled_lost (f : File) : Scrambled f f.lost := ⟨List.prefix_refl _, rfl, rfl⟩

theorem Torn.take_synced {f f' : File} (h : Torn f f') :
    f'.content.take f.synced = f.content.take f.synced := by
  rw [← f.take_accepted, List.prefix_iff_eq_take.mp h.content, List.take_take,
    Nat.min_eq_left h.synced_le]

theorem Scrambled.take_synced {f f' : File} (h : Scrambled f f') :
    f'.content.take f.synced = f.content.take f.synced := by
  have hlen : (f.content.take f.synced).length = f.synced := by
    rw [List.length_take, Nat.min_eq_left f.synced_le]
  have := List.prefix_iff_eq_take.mp h.content
  rw [hlen] at this
  exact this.symm

theorem Secures.of_take_synced {bytes : List UInt8} {f f' : File} (h : Secures bytes f)
    (htake : f'.content.take f.synced = f.content.take f.synced) (hsynced : f'.synced = f.synced) :
    Secures bytes f' := by
  refine ⟨?_, hsynced ▸ h.length_le⟩
  have hbytes := congrArg (List.take bytes.length) htake
  rw [List.take_take, List.take_take, Nat.min_eq_left h.length_le,
    ← List.prefix_iff_eq_take.mp h.isPrefix] at hbytes
  rw [← hbytes]
  exact List.take_prefix _ _

/-- No crash loses durable bytes. -/
theorem Secures.torn {bytes : List UInt8} {f f' : File} (h : Secures bytes f) (hf : Torn f f') :
    Secures bytes f' := h.of_take_synced hf.take_synced hf.synced

theorem Secures.scrambled {bytes : List UInt8} {f f' : File} (h : Secures bytes f)
    (hf : Scrambled f f') : Secures bytes f' := h.of_take_synced hf.take_synced hf.synced

/-! ### Rules -/

variable {c : Mode} {P : File → Prop}

/-- Wherever the cursor of a file is moved. -/
theorem source_seeks (f : File) : source.Lawful fun s => ∃ k, s = f.seekTo k :=
  source_lawful _ fun n _ h => by
    obtain ⟨k, rfl⟩ := h
    exact ⟨n, rfl⟩

/-- **Reading to the end**, up to a limit. -/
theorem readToEnd_triple {limit : Nat} {f : File} :
    Triple c (fun s => s = f) (source.readToEnd limit)
      (fun bytes s => bytes = (source.available f).take limit ∧ ∃ k, s = f.seekTo k)
      (Faulted c fun s => ∃ k, s = f.seekTo k) := by
  refine (Triple.readToEnd (source_seeks f)).pre ?_
  rintro _ rfl
  exact ⟨⟨_, rfl⟩, rfl⟩

/-- Reading exactly `n` bytes, where the file has them. -/
theorem readExact_triple {n : Nat} {f : File} (hn : n ≤ (source.available f).length) :
    Triple c (fun s => s = f) (source.readExact n)
      (fun bytes s => bytes = (source.available f).take n ∧ ∃ k, s = f.seekTo k)
      (Faulted c fun s => ∃ k, s = f.seekTo k) := by
  refine (Triple.readExact (source_seeks f)).conseq ?_ (fun _ _ h => ⟨h.2.1, h.2.2.1⟩) ?_
  · rintro _ rfl
    exact ⟨⟨_, rfl⟩, rfl⟩
  · rintro e s ⟨hp, hs, -, hcalm⟩
    exact ⟨fun hc => absurd hn (Nat.not_le_of_lt (hcalm hc).2), hp, hs⟩

/-- Writing the whole content of a file that was emptied. -/
theorem writeAll_empty {bytes : List UInt8} {f₀ : File} (hcontent : f₀.content = [])
    (hcursor : f₀.cursor = 0) :
    Triple c (fun f => f = f₀) (dest.writeAll bytes) (fun _ f => f.content = bytes)
      (Faulted c fun _ => True) := by
  refine .writeAll (fun bs f => f.content ++ bs = bytes ∧ f.cursor = f.content.length) ?_ ?_ ?_
    fun _ _ hc _ => ⟨⟨hc, by simp, trivial⟩, fun _ => ⟨hc, by simp, trivial⟩⟩
  · rintro bs n f - ⟨hbs, hcursor⟩
    obtain ⟨h1, -, h3⟩ := written_end (b := bs.take n) hcursor
    show (f.written _).content ++ _ = _ ∧ (f.written _).cursor = (f.written _).content.length
    rw [h1, h3, List.append_assoc, List.take_append_drop]
    exact ⟨hbs, rfl⟩
  · rintro _ rfl
    rw [hcontent, hcursor]
    exact ⟨rfl, rfl⟩
  · rintro f ⟨h, -⟩
    rwa [List.append_nil] at h

/-- Flushing leaves the file as it is. -/
theorem flush_triple {f₀ : File} : Triple c (fun f => f = f₀) flush (fun _ f => f = f₀)
    (Faulted c fun _ => True) :=
  .flushCall (fun _ h => h) (fun _ hc _ => ⟨hc, by simp, trivial⟩)
    fun _ _ hc _ _ => ⟨hc, by simp, trivial⟩

theorem syncData_triple {f₀ : File} :
    Triple c (fun f => f = f₀) syncData (fun _ f => f = f₀.synchronized)
      (Faulted c fun _ => True) := by
  refine (Triple.effect (P := fun f => f = f₀) ?_).exits fun e f h => h.mono fun _ _ => trivial
  rintro _ rfl
  rfl

end File

end Lib
