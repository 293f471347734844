import Mathlib.Data.List.Dedup
import TransactionLog.Lib.Decimal
import TransactionLog.Lib.File

/-!
# Directory trees

A `Tree` is a tree of directories, regular files and symbolic links, as a map from
paths to entries.  A link is a leaf like a file: nothing stands below it, no path is
resolved through one, and to open one finds no target.  Every entry but those of the root
stands in a directory; the root itself has no entry.  An entry is `linked` once the
directory it is in was synchronized after the entry was made.

The calls are those of a file system, each of them one step that goes through or
fails.  Their rules say what one step does to the map.
-/

namespace Lib

abbrev Name := List UInt8

/-- The names from the root down. -/
abbrev Path := List Name

inductive Node where
  | dir
  | file (f : File)
  | link
  deriving DecidableEq

inductive FileType where
  | dir
  | file
  | link
  deriving DecidableEq, Repr

def Node.fileType : Node → FileType
  | .dir => .dir
  | .file _ => .file
  | .link => .link

def Node.mapFile (g : File → File) : Node → Node
  | .file f => .file (g f)
  | node => node

structure Entry where
  node : Node
  linked : Bool
  deriving DecidableEq

def isDirEntry : Option Entry → Bool
  | some ⟨.dir, _⟩ => true
  | _ => false

structure Tree where
  get : Path → Option Entry
  names : List Path
  mem_names : ∀ p, get p ≠ none → p ∈ names
  rooted : ∀ p n, get (p ++ [n]) ≠ none → p = [] ∨ isDirEntry (get p) = true

namespace Tree

def empty : Tree := ⟨fun _ => none, [], fun _ h => absurd rfl h, fun _ _ h => absurd rfl h⟩

def isDir (t : Tree) (p : Path) : Bool := p.isEmpty || isDirEntry (t.get p)

def node? (t : Tree) (p : Path) : Option Node := (t.get p).map Entry.node

def file? (t : Tree) (p : Path) : Option File :=
  match t.node? p with
  | some (.file f) => some f
  | _ => none

/-- The names in a directory, in no particular order. -/
def children (t : Tree) (p : Path) : List Name :=
  (t.names.filterMap fun q =>
    if q.dropLast = p ∧ (t.get q).isSome then q.getLast? else none).dedup

/-- The error for a path without an entry. -/
def lookupError (t : Tree) (p : Path) : ErrorKind :=
  if (List.range (p.length - 1)).any fun n => (t.file? (p.take (n + 1))).isSome then .notADirectory
  else .notFound

/-- A path where an entry can be made. -/
def Free (t : Tree) (p : Path) : Prop := t.get p = none ∧ p ≠ [] ∧ t.isDir p.dropLast = true

instance (t : Tree) (p : Path) : Decidable (t.Free p) := inferInstanceAs (Decidable (_ ∧ _ ∧ _))

theorem isDir_iff {t : Tree} {p : Path} : t.isDir p = true ↔ p = [] ∨ isDirEntry (t.get p) = true := by
  rw [isDir, Bool.or_eq_true, List.isEmpty_iff]

theorem isDir_of_get {t : Tree} {p : Path} {n : Name} (h : t.get (p ++ [n]) ≠ none) :
    t.isDir p = true := isDir_iff.mpr (t.rooted p n h)

/-- Replaces the entry of one path.  What is in a directory keeps it one, and a new
entry stands in a directory. -/
def replace (t : Tree) (p : Path) (e : Option Entry)
    (hnew : e ≠ none → t.isDir p.dropLast = true)
    (hold : isDirEntry (t.get p) = true → isDirEntry e = true) : Tree where
  get q := if q = p then e else t.get q
  names := p :: t.names
  mem_names q h := by
    by_cases hq : q = p
    · rw [hq]
      exact List.mem_cons_self
    · rw [if_neg hq] at h
      exact List.mem_cons_of_mem p (t.mem_names q h)
  rooted q n h := by
    have hdir : t.isDir q = true := by
      by_cases hq : q ++ [n] = p
      · rw [if_pos hq] at h
        have := hnew h
        rwa [← hq, List.dropLast_concat] at this
      · rw [if_neg hq] at h
        exact isDir_of_get h
    rcases isDir_iff.mp hdir with hroot | hdir
    · exact .inl hroot
    · right
      by_cases hq : q = p
      · rw [if_pos hq]
        exact hold (hq ▸ hdir)
      · rw [if_neg hq]
        exact hdir

/-! ### What the calls change -/

def created (t : Tree) (p : Path) (node : Node) : Tree :=
  if h : t.Free p then
    t.replace p (some ⟨node, false⟩) (fun _ => h.2.2) fun hd => by rw [h.1] at hd; cases hd
  else t

def setFile (p : Path) (f : File) (t : Tree) : Tree :=
  match h : t.get p with
  | some ⟨.file _, linked⟩ =>
    t.replace p (some ⟨.file f, linked⟩)
      (fun _ => by
        by_cases hp : p = []
        · rw [hp]
          rfl
        · rw [← List.dropLast_append_getLast hp] at h
          exact isDir_of_get (by rw [h]; simp))
      fun hd => by rw [h] at hd; cases hd
  | _ => t

def erased (t : Tree) (p : Path) : Tree :=
  if h : isDirEntry (t.get p) = true then t
  else t.replace p none (fun hn => absurd rfl hn) fun hd => absurd hd h

/-- A file moves to a path without an entry or with one that is no directory. -/
def moved (t : Tree) (src dst : Path) : Tree :=
  match t.file? src with
  | some f => ((t.erased src).erased dst).created dst (.file f)
  | none => t

def synced (t : Tree) (p : Path) : Tree where
  get q := if q ≠ [] ∧ q.dropLast = p then (t.get q).map fun e => { e with linked := true }
    else t.get q
  names := t.names
  mem_names q h := t.mem_names q fun hn => h (by rw [hn]; simp)
  rooted q n h := by
    have hq : t.get (q ++ [n]) ≠ none := fun hn => h (by rw [hn]; simp)
    rcases t.rooted q n hq with hroot | hdir
    · exact .inl hroot
    · right
      split
      · cases hg : t.get q with
        | none => rw [hg] at hdir; cases hdir
        | some e =>
          obtain ⟨node, linked⟩ := e
          rw [hg] at hdir
          cases node <;> first | rfl | cases hdir
      · exact hdir

/-- Every file is replaced; entries and directories stay. -/
def mapFiles (g : Path → File → File) (t : Tree) : Tree where
  get p := (t.get p).map fun e => { e with node := e.node.mapFile (g p) }
  names := t.names
  mem_names p h := t.mem_names p fun hn => h (by rw [hn]; rfl)
  rooted p n h := by
    rcases t.rooted p n fun hn => h (by rw [hn]; rfl) with hroot | hdir
    · exact .inl hroot
    · right
      cases hg : t.get p with
      | none => rw [hg] at hdir; cases hdir
      | some e =>
        obtain ⟨node, linked⟩ := e
        rw [hg] at hdir
        cases node <;> first | rfl | cases hdir

end Tree

/-! ## Calls -/

namespace Fs

open Lib.Tree

/-- Opens an existing file at its beginning. -/
def openFile (p : Path) : Io Tree ErrorKind Unit :=
  Io.call fun t => match t.node? p with
    | some (.file f) => .ok ((), t.setFile p (f.seekTo 0))
    | some .dir => .error .isADirectory
    | some .link => .error .notFound
    | none => .error (t.lookupError p)

/-- Creates a file; anything that exists already is an error. -/
def createNew (p : Path) : Io Tree ErrorKind Unit :=
  Io.call fun t =>
    if (t.get p).isSome then .error .alreadyExists
    else if t.Free p then .ok ((), t.created p (.file .empty))
    else .error (t.lookupError p)

/-- Opens a file at its beginning, and creates it if it is missing. -/
def openOrCreate (p : Path) : Io Tree ErrorKind Unit :=
  Io.call fun t => match t.node? p with
    | some (.file f) => .ok ((), t.setFile p (f.seekTo 0))
    | some .dir => .error .isADirectory
    | some .link => .error .notFound
    | none => if t.Free p then .ok ((), t.created p (.file .empty)) else .error (t.lookupError p)

/-- As `openOrCreate`, and the file is emptied. -/
def openTruncated (p : Path) : Io Tree ErrorKind Unit :=
  Io.call fun t => match t.node? p with
    | some (.file f) => .ok ((), t.setFile p ((f.seekTo 0).resized 0))
    | some .dir => .error .isADirectory
    | some .link => .error .notFound
    | none => if t.Free p then .ok ((), t.created p (.file .empty)) else .error (t.lookupError p)

/-- Makes a directory, unless there is one. -/
def createDir (p : Path) : Io Tree ErrorKind Unit :=
  Io.call fun t =>
    if t.isDir p then .ok ((), t)
    else if (t.get p).isSome then .error .alreadyExists
    else if t.Free p then .ok ((), t.created p .dir)
    else .error (t.lookupError p)

/-- Makes a directory and the missing ones above it, from the top. -/
def createDirs : List Path → Io Tree ErrorKind Unit
  | [] => pure ()
  | p :: ps => do
    createDir p
    createDirs ps

/-- The directories on the way to a path, from the top, and the path. -/
def ancestors (p : Path) : List Path := (List.range p.length).map fun n => p.take (n + 1)

def createDirAll (p : Path) : Io Tree ErrorKind Unit := createDirs (ancestors p)

def removeFile (p : Path) : Io Tree ErrorKind Unit :=
  Io.call fun t => match t.node? p with
    | some .dir => .error .isADirectory
    | some _ => .ok ((), t.erased p)
    | none => .error (t.lookupError p)

/-- Moves a regular file; other sources are not modelled. -/
def rename (src dst : Path) : Io Tree ErrorKind Unit :=
  Io.call fun t => match t.node? src with
    | some (.file _) =>
      if t.isDir dst then .error .isADirectory
      else if t.isDir dst.dropLast then .ok ((), t.moved src dst)
      else .error (t.lookupError dst)
    | some _ => .error .invalidInput
    | none => .error (t.lookupError src)

def readDir (p : Path) : Io Tree ErrorKind (List Name) :=
  Io.call fun t =>
    if t.isDir p then .ok (t.children p, t)
    else match t.node? p with
      | some (.file _) => .error .notADirectory
      | some _ => .error .notFound
      | none => .error (t.lookupError p)

/-- One step through the names that `readDir` has found. -/
def nextEntry : Io Tree ErrorKind Unit := Io.call fun t => .ok ((), t)

/-- The type of an entry, without following links. -/
def fileType (p : Path) : Io Tree ErrorKind FileType :=
  Io.call fun t => match t.node? p with
    | some node => .ok (node.fileType, t)
    | none => .error .notFound

/-- Opens a directory, or a file, for synchronization. -/
def openDir (p : Path) : Io Tree ErrorKind Unit :=
  Io.call fun t =>
    if t.isDir p then .ok ((), t)
    else match t.node? p with
      | some (.file _) => .ok ((), t)
      | some _ => .error .notFound
      | none => .error (t.lookupError p)

def syncAll (p : Path) : Io Tree ErrorKind Unit := Io.call fun t => .ok ((), t.synced p)

/-- The file that is open at a path. -/
def fileAt (p : Path) (t : Tree) : File := (t.file? p).getD .empty

/-- Runs an operation of an open file. -/
def onFile {ε α : Type} (p : Path) (m : Io File ε α) : Io Tree ε α :=
  Io.zoom (fileAt p) (setFile p) m

/-- The file that is open at a path, as a destination. -/
def dest (p : Path) : Dest Tree := File.dest.lift (fileAt p) (setFile p)

end Fs

/-! ## The map after each change -/

namespace Tree

variable {t : Tree} {p q : Path}

theorem get_replace (e : Option Entry) (h h') :
    (t.replace p e h h').get q = if q = p then e else t.get q := rfl

theorem get_created {node : Node} (h : t.Free p) :
    (t.created p node).get q = if q = p then some ⟨node, false⟩ else t.get q := by
  rw [created, dif_pos h, get_replace]

theorem get_erased (h : isDirEntry (t.get p) = false) :
    (t.erased p).get q = if q = p then none else t.get q := by
  rw [erased, dif_neg (by simp [h]), get_replace]

theorem get_synced (t : Tree) (p q : Path) : (t.synced p).get q =
    if q ≠ [] ∧ q.dropLast = p then (t.get q).map fun e => { e with linked := true }
    else t.get q := rfl

theorem node?_synced (t : Tree) (p q : Path) : (t.synced p).node? q = t.node? q := by
  rw [node?, node?, get_synced]
  split
  · rw [Option.map_map]
    rfl
  · rfl

theorem file?_eq_some {f : File} :
    t.file? p = some f ↔ ∃ l, t.get p = some ⟨.file f, l⟩ := by
  rw [file?, node?]
  constructor
  · intro h
    cases hg : t.get p with
    | none => rw [hg] at h; cases h
    | some e =>
      obtain ⟨node, l⟩ := e
      rw [hg] at h
      cases node with
      | dir => cases h
      | link => cases h
      | file g =>
        obtain rfl := Option.some.inj h
        exact ⟨l, rfl⟩
  · rintro ⟨l, h⟩
    rw [h]
    rfl

theorem get_setFile {f g : File} {l : Bool} (h : t.get p = some ⟨.file g, l⟩) :
    (t.setFile p f).get q = if q = p then some ⟨.file f, l⟩ else t.get q := by
  unfold setFile
  split
  · rename_i g' l' h'
    rw [h] at h'
    obtain ⟨-, rfl⟩ := Entry.mk.inj (Option.some.inj h')
    rw [get_replace]
  · rename_i hne
    exact absurd h (hne g l)

theorem isDirEntry_of_file? {f : File} (h : t.file? p = some f) : isDirEntry (t.get p) = false := by
  obtain ⟨l, hl⟩ := file?_eq_some.mp h
  rw [hl]
  rfl

theorem mem_children {n : Name} : n ∈ t.children p ↔ t.get (p ++ [n]) ≠ none := by
  rw [children, List.mem_dedup, List.mem_filterMap]
  constructor
  · rintro ⟨q, -, hq⟩
    split at hq
    · rename_i h
      have hne : q ≠ [] := by rintro rfl; cases hq
      rw [List.getLast?_eq_getLast_of_ne_nil hne] at hq
      have := List.dropLast_append_getLast hne
      rw [h.1, Option.some.inj hq] at this
      rw [this]
      exact Option.isSome_iff_ne_none.mp h.2
    · cases hq
  · intro h
    refine ⟨p ++ [n], t.mem_names _ h, ?_⟩
    rw [if_pos ⟨List.dropLast_concat, Option.isSome_iff_ne_none.mpr h⟩, List.getLast?_concat]

theorem length_children_le (t : Tree) (p : Path) : (t.children p).length ≤ t.names.length :=
  Nat.le_trans (List.dedup_sublist _).length_le (List.length_filterMap_le _ _)

theorem nodup_children (t : Tree) (p : Path) : (t.children p).Nodup := List.nodup_dedup _

/-- The directories above an entry. -/
theorem isDir_of_append : ∀ (s : Path) {p : Path}, s ≠ [] → t.get (p ++ s) ≠ none →
    t.isDir p = true := by
  intro s
  induction s using List.reverseRecOn with
  | nil => exact fun h => absurd rfl h
  | append_singleton s n ih =>
    intro p _ h
    rw [← List.append_assoc] at h
    have hdir := isDir_of_get h
    by_cases hs : s = []
    · rwa [hs, List.append_nil] at hdir
    · refine ih hs ?_
      rcases isDir_iff.mp hdir with hroot | hd
      · exact absurd (List.append_eq_nil_iff.mp hroot).2 hs
      · intro hn
        rw [hn] at hd
        cases hd

/-! ### Missing entries -/

theorem file?_of_isDirEntry (h : isDirEntry (t.get p) = true) : t.file? p = none := by
  cases hf : t.file? p with
  | none => rfl
  | some f =>
    rw [isDirEntry_of_file? hf] at h
    cases h

/-- No file stands on the way to `p`. -/
def Clear (t : Tree) (p : Path) : Prop := ∀ n, n + 1 < p.length → t.file? (p.take (n + 1)) = none

theorem lookupError_eq_notFound : t.lookupError p = .notFound ↔ Clear t p := by
  rw [Tree.lookupError]
  constructor
  · intro h n hn
    by_contra hfile
    rw [if_pos] at h
    · cases h
    · refine List.any_eq_true.mpr ⟨n, List.mem_range.mpr (by omega), ?_⟩
      exact Option.isSome_iff_ne_none.mpr hfile
  · intro h
    rw [if_neg]
    simp only [List.any_eq_true, List.mem_range, not_exists, not_and]
    intro n hn
    rw [h n (by omega)]
    simp

theorem Clear.lookupError (h : Clear t p) : t.lookupError p = .notFound :=
  lookupError_eq_notFound.mpr h

theorem Clear.concat (h : Clear t p) (hp : t.file? p = none) (n : Name) : Clear t (p ++ [n]) := by
  intro m hm
  rw [List.length_append, List.length_singleton] at hm
  by_cases hlt : m + 1 < p.length
  · rw [List.take_append_of_le_length (Nat.le_of_lt hlt)]
    exact h m hlt
  · rw [show m + 1 = p.length by omega, List.take_left]
    exact hp

theorem clear_of_get (h : t.get p ≠ none) : Clear t p := by
  intro n hn
  have hdrop : p.drop (n + 1) ≠ [] := by
    rw [ne_eq, List.drop_eq_nil_iff]
    omega
  rw [← List.take_append_drop (n + 1) p] at h
  refine file?_of_isDirEntry ((isDir_iff.mp (isDir_of_append _ hdrop h)).resolve_left ?_)
  rw [List.take_eq_nil_iff, not_or]
  refine ⟨by simp, ?_⟩
  rintro rfl
  cases hn

theorem clear_of_isDir (h : t.isDir p = true) : Clear t p := by
  rcases isDir_iff.mp h with rfl | hentry
  · intro n hn
    cases hn
  · refine clear_of_get ?_
    intro hnone
    rw [hnone] at hentry
    cases hentry

end Tree

end Lib
