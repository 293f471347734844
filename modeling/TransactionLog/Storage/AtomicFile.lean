import TransactionLog.Lib.Region
import TransactionLog.Lib.TreeRules
import TransactionLog.Storage.Operations

/-!
# Files that are replaced as a whole

`readJson` reads the value that a file holds and `writeAtomic` replaces the file.  Of any
file in a directory: an attempt to replace it can stop or fail at any call, whatever stands
in the tree, and then the file's entry is the one it was or a complete new one; a read finds
the value of an entry that is complete.  Neither does anything to a region that has none of
the paths.

A renamed entry is durable once its directory was synchronized.  Until then a crash may
bring any entry back that stood there since the last synchronization.
-/

namespace TransactionLog

open Lib Lib.Tree

namespace StorageProvider

variable {α : Type} {fromSlice : List UInt8 → Option α} {maxBytes : Nat} {c : Mode} {t : Tree}
  {base : Path} {name : Name} {bytes : List UInt8} {e e' : Option Entry} {r : Option α}

/-! ### The paths -/

theorem withAddedExtension_concat (extension : Name) :
    withAddedExtension (base ++ [name]) extension = base ++ [name ++ (ascii "." ++ extension)] := by
  rw [withAddedExtension, List.dropLast_concat, List.getLast?_concat]
  rfl

/-- Where the file is staged. -/
abbrev staged (base : Path) (name : Name) : Path :=
  withAddedExtension (base ++ [name]) (ascii "pending")

theorem staged_ne : base ++ [name] ≠ staged base name := by
  rw [staged, withAddedExtension_concat]
  intro h
  have hname := (List.cons.inj ((List.append_right_inj _).mp h)).1
  have hlen := congrArg List.length hname
  rw [List.length_append] at hlen
  exact absurd hlen (Nat.ne_of_lt (Nat.lt_add_of_pos_right (by decide)))

theorem base_ne_concat {n : Name} : base ≠ base ++ [n] :=
  ne_of_length (by rw [List.length_append]; exact Nat.ne_of_lt (Nat.lt_succ_self _))

theorem base_ne_staged : base ≠ staged base name := by
  rw [staged, withAddedExtension_concat]
  exact base_ne_concat

/-! ### Replacing -/

/-- The staging file satisfies `φ`, and the rest of the tree is as it was. -/
def StagedAt (base : Path) (name : Name) (t : Tree) (φ : File → Prop) (t' : Tree) : Prop :=
  AgreeOff (staged base name) t t' ∧ ∃ f l, φ f ∧ t'.get (staged base name) = some ⟨.file f, l⟩

/-- What an attempt leaves when it does not return. -/
def AttemptedAt (base : Path) (name : Name) (t : Tree) (bytes : List UInt8) (t' : Tree) : Prop :=
  t'.isDir base = t.isDir base ∧ (t'.get (base ++ [name]) = t.get (base ++ [name]) ∨
    ∃ f l, Complete bytes f ∧ t'.get (base ++ [name]) = some ⟨.file f, l⟩)

theorem attemptedAt_of_agreeOff {t' : Tree} (h : AgreeOff (staged base name) t t') :
    AttemptedAt base name t bytes t' := ⟨h.isDir base_ne_staged, .inl (h _ staged_ne)⟩

theorem stagedAt_triple {m : Io File ErrorKind Unit} {φ ψ : File → Prop}
    (hm : ∀ f₀, φ f₀ → Triple c (fun f => f = f₀) m (fun _ => ψ) (Faulted c fun _ => True)) :
    Triple c (StagedAt base name t φ)
      (Io.mapErr (StorageError.io (staged base name)) (Fs.onFile (staged base name) m))
      (fun _ => StagedAt base name t ψ) (fun _ => AttemptedAt base name t bytes) := by
  refine .ofState fun t₁ h => ?_
  obtain ⟨hagree, f, l, hf, hget⟩ := h
  refine .mapErr_exits ((Fs.onFile_rule hget (hm f hf)).conseq (fun _ h => h) ?_ ?_)
  · intro _ t' ht
    obtain ⟨hagree', g, hg, hget'⟩ := ht
    exact ⟨hagree.trans hagree', g, l, hg, hget'⟩
  · intro e t' ht
    exact attemptedAt_of_agreeOff (hagree.trans ht.1)

/-- **One attempt, from any tree** with the directory.  The new entry is durable when the
attempt returns. -/
theorem writeAtomic_rule (hdir : t.isDir base = true) :
    Triple c (fun t' => t' = t) (writeAtomic (base ++ [name]) bytes)
      (fun _ t' => t'.isDir base = true ∧
        ∃ f, Complete bytes f ∧ t'.get (base ++ [name]) = some ⟨.file f, true⟩)
      (fun _ => AttemptedAt base name t bytes) := by
  have hne : base ++ [name] ≠ [] := List.append_ne_nil_of_right_ne_nil base (List.cons_ne_nil _ _)
  refine writeAtomic_of (R := fun t' => t'.isDir base = true ∧ ∃ f, Complete bytes f ∧
    t'.get (base ++ [name]) = some ⟨.file f, false⟩)
    (StagedAt base name t) (.mapErr_exits ((Fs.openTruncated_rule _).conseq (fun _ h => h) ?_ ?_))
    stagedAt_triple (.ofState fun t₁ h => ?_) (.ofState fun t₁ h => ?_)
  · intro _ t' ht
    obtain ⟨hagree, f, l, hcontent, hcursor, hget⟩ := ht
    exact ⟨hagree, f, l, ⟨hcontent, hcursor⟩, hget⟩
  · intro e t' ht
    rw [ht.2]
    exact attemptedAt_of_agreeOff (.refl _ _)
  · obtain ⟨hagree, f, l, hf, hget⟩ := h
    refine .mapErr_exits ((Fs.rename_rule hget hne staged_ne ?_).conseq (fun _ h => h) ?_ ?_)
    · rw [List.dropLast_concat]
      exact base_ne_staged
    · intro _ t' ht
      obtain ⟨-, hnew, hother⟩ := ht
      refine ⟨?_, f, hf, hnew⟩
      rw [isDir_congr (hother _ base_ne_staged base_ne_concat), hagree.isDir base_ne_staged]
      exact hdir
    · intro e t' ht
      rw [ht.2]
      exact attemptedAt_of_agreeOff hagree
  · obtain ⟨hdir₁, f, hf, hget⟩ := h
    have hexit : AttemptedAt base name t bytes t₁ :=
      ⟨hdir₁.trans hdir.symm, .inr ⟨f, false, hf, hget⟩⟩
    rw [List.dropLast_concat]
    refine .bind (R := fun _ t' => t' = t₁) (.mapErr_exits (.callAt ?_ fun _ _ => hexit))
      fun _ => .mapErr_exits (.callAt ?_ fun _ _ => hexit)
    · rw [if_pos hdir₁]
    · refine ⟨by rw [isDir_synced]; exact hdir₁, f, hf, ?_⟩
      rw [get_synced, if_pos ⟨hne, List.dropLast_concat⟩, hget]
      rfl

/-! ### Reading -/

/-- The entry is that of the value, complete and durable, or there is neither. -/
def Stores (fromSlice : List UInt8 → Option α) (maxBytes : Nat) (e : Option Entry) :
    Option α → Prop
  | none => e = none
  | some value => ∃ f l, e = some ⟨.file f, l⟩ ∧ f.content.length ≤ maxBytes ∧
      fromSlice f.content = some value ∧ f.synced = f.content.length

/-- The entry is durable. -/
def isLinked : Option Entry → Bool
  | some ⟨_, linked⟩ => linked
  | none => false

/-- The entry after a crash: what was synchronized is kept. -/
inductive Survives : Option Entry → Option Entry → Prop
  | absent : Survives none none
  | file {f f' : File} {l l' : Bool} (kept : f.synced = f.content.length →
      f'.content = f.content ∧ f'.synced = f'.content.length) :
      Survives (some ⟨.file f, l⟩) (some ⟨.file f', l'⟩)

theorem Stores.survives (h : Stores fromSlice maxBytes e r) (he : Survives e e') :
    Stores fromSlice maxBytes e' r := by
  cases r with
  | none =>
    obtain rfl : e = none := h
    cases he
    rfl
  | some value =>
    obtain ⟨f, l, rfl, hlen, hread, hsynced⟩ := h
    cases he with
    | file kept =>
      obtain ⟨hcontent, hsynced'⟩ := kept hsynced
      exact ⟨_, _, rfl, hcontent ▸ hlen, hcontent ▸ hread, hsynced'⟩

theorem Complete.stores {f : File} {l : Bool} {value : α} (h : Complete bytes f)
    (hlen : bytes.length ≤ maxBytes) (hread : fromSlice bytes = some value) :
    Stores fromSlice maxBytes (some ⟨.file f, l⟩) (some value) := by
  obtain ⟨rfl, hsynced⟩ := h
  exact ⟨f, l, rfl, hlen, hread, hsynced⟩

/-- A read that was abandoned, or to which the system reported an error. -/
def Unread (c : Mode) (e : Exit StorageError) (_ : Tree) : Prop :=
  ¬ c.calm ∧ (e = .stopped ∨ ∃ path k, e = .error (.io path k))

theorem unread_of_struck {X : Tree → Prop} {e : Exit ErrorKind} {t' : Tree} {path : Path}
    (h : Struck c X e t) : Unread c (e.map (.io path)) t' := by
  obtain ⟨hc, rfl | ⟨k, rfl⟩, -⟩ := h
  · exact ⟨hc, .inl rfl⟩
  · exact ⟨hc, .inr ⟨path, k.kind, rfl⟩⟩

/-- **Reading, from any tree** where a value or nothing is stored, finds it and leaves it. -/
theorem readJson_rule (hdir : t.isDir base = true)
    (h : Stores fromSlice maxBytes (t.get (base ++ [name])) r) :
    Triple c (fun t' => t' = t) (readJson fromSlice (base ++ [name]) maxBytes)
      (fun r' t' => r' = r ∧ Stores fromSlice maxBytes (t'.get (base ++ [name])) r)
      (fun e t' => Unread c e t' ∧ Stores fromSlice maxBytes (t'.get (base ++ [name])) r) := by
  cases r with
  | none =>
    have hclear : t.Clear (base ++ [name]) := by
      rcases isDir_iff.mp hdir with hroot | hentry
      · rw [hroot]
        exact fun n hn => absurd hn (Nat.not_lt.mpr (Nat.succ_le_succ (Nat.zero_le n)))
      · exact (clear_of_isDir hdir).concat (file?_of_isDirEntry hentry) name
    refine readJson_of (R := fun _ => False)
      ((Fs.openFile_none_rule h hclear).conseq (fun _ h => h) (fun _ _ h => h.elim) ?_)
      fun _ h => h.elim
    intro e t' ht
    obtain ⟨he, rfl⟩ := ht
    exact ⟨fun _ => ⟨rfl, h⟩, fun hne => ⟨unread_of_struck (he.resolve_left hne), h⟩⟩
  | some value =>
    obtain ⟨f, l, hget, hlen, hread, hsynced⟩ := h
    have hleft : ∀ (k : Nat) (t' : Tree), t'.get (base ++ [name]) = some ⟨.file (f.seekTo k), l⟩ →
        Stores fromSlice maxBytes (t'.get (base ++ [name])) (some value) :=
      fun k t' ht => ⟨f.seekTo k, l, ht, hlen, hread, hsynced⟩
    refine readJson_of
      (R := fun t' => t'.get (base ++ [name]) = some ⟨.file (f.seekTo 0), l⟩)
      ((Fs.openFile_rule hget).conseq (fun _ h => h) (fun _ _ h => h.2) ?_)
      (.ofState fun t' hget' => (Fs.onFile_rule hget' File.readToEnd_triple).conseq
        (fun _ h => h) ?_ ?_)
    · intro e t' he
      refine ⟨fun h => absurd h (failed_of_struck (base ++ [name]) he).1,
        fun _ => ⟨unread_of_struck he, ?_⟩⟩
      obtain ⟨-, -, rfl⟩ := he
      exact ⟨f, l, hget, hlen, hread, hsynced⟩
    · intro bytes t' ht
      obtain ⟨-, g, ⟨hbytes, k, hg⟩, hget''⟩ := ht
      have hcontent : bytes = f.content := by
        rw [hbytes]
        exact List.take_of_length_le (Nat.le_succ_of_le hlen)
      rw [hcontent]
      exact ⟨hlen, value, hread, rfl, hleft k t' (hg ▸ hget'')⟩
    · intro e t' ht
      obtain ⟨-, g, ⟨hc, hp, k, hg⟩, hget''⟩ := ht
      refine ⟨⟨hc, ?_⟩, hleft k t' (hg ▸ hget'')⟩
      cases e with
      | error e => exact .inr ⟨_, _, rfl⟩
      | stopped => exact .inl rfl
      | panicked => exact absurd rfl hp

/-! ### What they leave alone -/

section Regions

variable {B : Path → Bool}

theorem keeps_readJson (hpath : B (base ++ [name]) = false) :
    Keeps (SameIn B t) (readJson fromSlice (base ++ [name]) maxBytes) := by
  refine .bind (.attempt (Fs.keeps_openFile hpath)) fun opened => ?_
  split
  · exact .pure
  · exact .throw
  · refine .bind (.mapErr (Fs.keeps_onFile hpath _)) fun bytes => ?_
    split
    · exact .throw
    split
    · exact .throw
    · exact .pure

theorem keeps_writeAtomic (hpath : B (base ++ [name]) = false)
    (hstaged : B (staged base name) = false) (hbase : ∀ q, B q = true → q.dropLast ≠ base) :
    Keeps (SameIn B t) (writeAtomic (base ++ [name]) bytes) := by
  unfold writeAtomic
  refine .bind (.mapErr (Fs.keeps_openTruncated hstaged)) fun _ =>
    .bind (.mapErr (Fs.keeps_onFile hstaged _)) fun _ =>
    .bind (.mapErr (Fs.keeps_onFile hstaged _)) fun _ =>
    .bind (.mapErr (Fs.keeps_onFile hstaged _)) fun _ =>
    .bind (.mapErr (Fs.keeps_rename hstaged hpath)) fun _ => ?_
  rw [List.dropLast_concat]
  exact .bind (.mapErr Fs.keeps_openDir) fun _ => .mapErr (Fs.keeps_syncAll hbase)

end Regions

end StorageProvider

end TransactionLog
