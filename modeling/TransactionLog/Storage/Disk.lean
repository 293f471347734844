import Mathlib.Logic.Function.Basic
import TransactionLog.Storage.Paths

/-!
# The files of a stream on disk

A `Place` is where the provider keeps one of a stream's files, and a `Disk` is what
stands at each place.  `diskOf` reads it off a tree.

A tree is `Shaped` for a stream if the stream's directory is there and nothing else
than directories and regular files stands where the provider puts them.  The rules
below say what each call does to the disk of a shaped tree.
-/

namespace TransactionLog

open Lib

/-! ## Places -/

inductive Place where
  | log (id : LogFileId)
  | index (id : LogFileId)
  | checkpoint (streamId : StreamId)
  | pending (streamId : StreamId)
  deriving DecidableEq

namespace Place

def streamId : Place → StreamId
  | .log id | .index id => id.streamId
  | .checkpoint s | .pending s => s

def path (p : StorageProvider) : Place → Path
  | .log id => p.logFilePath id
  | .index id => p.indexFilePath id
  | .checkpoint s => p.checkpointFilePath s
  | .pending s => p.pendingFilePath s

def directory (p : StorageProvider) : Place → Path
  | .log id | .index id => p.leafDirectory id
  | .checkpoint s | .pending s => p.streamDirectory s

variable {p : StorageProvider}

theorem dropLast_path (x : Place) : (x.path p).dropLast = x.directory p := by
  cases x <;> simp [path, directory]

theorem path_ne_nil (x : Place) : x.path p ≠ [] := by
  intro h
  have h := congrArg List.length h
  cases x <;>
    simp [path, StorageProvider.logFilePath, StorageProvider.indexFilePath,
      StorageProvider.length_logOrIndexFilePath, StorageProvider.length_checkpointFilePath,
      StorageProvider.length_pendingFilePath] at h

theorem exists_name (x : Place) : ∃ n, x.path p = x.directory p ++ [n] :=
  ⟨(x.path p).getLast x.path_ne_nil, by rw [← dropLast_path, List.dropLast_append_getLast]⟩

theorem path_injective {x y : Place} (h : x.path p = y.path p) : x = y := by
  have hdir := congrArg List.dropLast h
  rw [dropLast_path, dropLast_path] at hdir
  cases x <;> cases y <;>
    simp [path, (StorageProvider.logFilePath_ne_checkpointFilePath _ _).symm,
      (StorageProvider.indexFilePath_ne_checkpointFilePath _ _).symm,
      (StorageProvider.logFilePath_ne_pendingFilePath _ _).symm,
      (StorageProvider.indexFilePath_ne_pendingFilePath _ _).symm] at h ⊢
  · exact h
  · exact h
  · exact StorageProvider.streamDirectory_injective p hdir
  · rw [StorageProvider.streamDirectory_injective p hdir] at h
    exact absurd h (StorageProvider.checkpointFilePath_ne_pendingFilePath _)
  · rw [StorageProvider.streamDirectory_injective p hdir] at h
    exact absurd h.symm (StorageProvider.checkpointFilePath_ne_pendingFilePath _)
  · exact StorageProvider.streamDirectory_injective p hdir

end Place

/-! ## Disks -/

/-- A file and whether its directory entry is durable. -/
structure Stored where
  file : File
  linked : Bool
  deriving DecidableEq

def Stored.entry (x : Stored) : Entry := ⟨.file x.file, x.linked⟩

/-- Changes the file and not the entry. -/
def Stored.map (g : File → File) (x : Stored) : Stored := ⟨g x.file, x.linked⟩

abbrev Disk := Place → Option Stored

def storedEntry : Option Entry → Option Stored
  | some ⟨.file f, linked⟩ => some ⟨f, linked⟩
  | _ => none

def diskOf (p : StorageProvider) (t : Tree) : Disk := fun x => storedEntry (t.get (x.path p))

/-- The disk after the entries of one directory were synchronized. -/
def Disk.link (p : StorageProvider) (d : Disk) (directory : Path) : Disk := fun x =>
  if x.directory p = directory then (d x).map fun st => ⟨st.file, true⟩ else d x

/-- The file of a place is as it was, and its entry is at least as durable. -/
def Same (d d' : Disk) (x : Place) : Prop :=
  d' x = d x ∨ ∃ st, d x = some st ∧ d' x = some ⟨st.file, true⟩

namespace Same

variable {d d' d'' : Disk} {x : Place}

theorem refl (d : Disk) (x : Place) : Same d d x := .inl rfl

theorem trans (h : Same d d' x) (h' : Same d' d'' x) : Same d d'' x := by
  rcases h' with h' | ⟨st', hst', h'⟩
  · rcases h with h | ⟨st, hst, h⟩
    · exact .inl (h'.trans h)
    · exact .inr ⟨st, hst, h'.trans h⟩
  · rcases h with h | ⟨st, hst, h⟩
    · exact .inr ⟨st', h.symm.trans hst', h'⟩
    · obtain rfl := Option.some.inj (h.symm.trans hst')
      exact .inr ⟨st, hst, h'⟩

theorem link (p : StorageProvider) (d : Disk) (q : Path) (x : Place) : Same d (d.link p q) x := by
  rw [Same, Disk.link]
  split
  · cases hd : d x with
    | none => exact .inl rfl
    | some st => exact .inr ⟨st, rfl, rfl⟩
  · exact .inl rfl

theorem update {y : Place} (h : x ≠ y) (e : Option Stored) : Same d (Function.update d y e) x :=
  .inl (Function.update_of_ne h _ _)

theorem none_iff (h : Same d d' x) : d' x = none ↔ d x = none := by
  rcases h with h | ⟨st, hst, h⟩
  · rw [h]
  · rw [h, hst]
    exact ⟨fun h => (nomatch h), fun h => (nomatch h)⟩

/-- A file with a durable entry stays just that. -/
theorem of_linked (h : Same d d' x) {f : File} (hd : d x = some ⟨f, true⟩) :
    d' x = some ⟨f, true⟩ := by
  rcases h with h | ⟨st, hst, h⟩
  · exact h.trans hd
  · obtain rfl := Option.some.inj (hst.symm.trans hd)
    exact h

theorem exists_file (h : Same d d' x) {st : Stored} (hst : d x = some st) :
    ∃ st', d' x = some st' ∧ st'.file = st.file ∧ (st.linked = true → st'.linked = true) := by
  rcases h with h | ⟨st', hst', h⟩
  · exact ⟨st, h.trans hst, rfl, id⟩
  · obtain rfl := Option.some.inj (hst'.symm.trans hst)
    exact ⟨_, h, rfl, fun _ => rfl⟩

theorem exists_before (h : Same d d' x) {st' : Stored} (hst' : d' x = some st') :
    ∃ st, d x = some st ∧ st'.file = st.file := by
  rcases h with h | ⟨st, hst, h⟩
  · exact ⟨st', h.symm.trans hst', rfl⟩
  · obtain rfl := Option.some.inj (hst'.symm.trans h)
    exact ⟨st, hst, rfl⟩

/-- What is the same away from some files is the same for the other files. -/
theorem files {away : LogFileId → Prop} {g : LogFileId} (hg : ∀ f, away f → g ≠ f)
    (h : ∀ x : Place, (∀ f, away f → x ≠ .log f ∧ x ≠ .index f) → Same d d' x) :
    Same d d' (.log g) ∧ Same d d' (.index g) :=
  ⟨h _ fun f hf => ⟨by simpa using hg f hf, by simp⟩,
    h _ fun f hf => ⟨by simp, by simpa using hg f hf⟩⟩

theorem files_trans {g : LogFileId} (h : Same d d' (.log g) ∧ Same d d' (.index g))
    (h' : Same d' d'' (.log g) ∧ Same d' d'' (.index g)) :
    Same d d'' (.log g) ∧ Same d d'' (.index g) :=
  ⟨h.1.trans h'.1, h.2.trans h'.2⟩

end Same

/-- A durable entry stays durable, whatever happens to its file. -/
def StillLinked (d d' : Disk) (x : Place) : Prop :=
  ∀ file, d x = some ⟨file, true⟩ → ∃ file', d' x = some ⟨file', true⟩

theorem Same.stillLinked {d d' : Disk} {x : Place} (h : Same d d' x) : StillLinked d d' x :=
  fun file hfile => ⟨file, h.of_linked hfile⟩

/-- No entry, or a regular file. -/
def isPlain : Option Entry → Bool
  | none | some ⟨.file _, _⟩ => true
  | _ => false

/-- No entry, or a directory. -/
def isRange : Option Entry → Bool
  | none | some ⟨.dir, _⟩ => true
  | _ => false

/-- What stands where the provider keeps the files of `s` is of the right kind. -/
structure Shaped (p : StorageProvider) (s : StreamId) (t : Tree) : Prop where
  base : t.isDir (p.streamDirectory s) = true
  range : ∀ depth n, depth < 4 → isRange (t.get (StorageProvider.dirPath p s (depth + 1) n)) = true
  plain : ∀ x : Place, x.streamId = s → isPlain (t.get (x.path p)) = true

/-- A shaped tree and its disk. -/
def On (p : StorageProvider) (s : StreamId) (d : Disk) (t : Tree) : Prop :=
  Shaped p s t ∧ diskOf p t = d

variable {p : StorageProvider} {s : StreamId} {t t' : Tree} {d : Disk} {x : Place}

theorem storedEntry_entry (e : Option Stored) : storedEntry (e.map Stored.entry) = e := by
  cases e <;> rfl

theorem isPlain_entry (e : Option Stored) : isPlain (e.map Stored.entry) = true := by
  cases e <;> rfl

theorem get_of_isPlain {e : Option Entry} (h : isPlain e = true) :
    e = (storedEntry e).map Stored.entry := by
  cases e with
  | none => rfl
  | some e =>
    obtain ⟨node, linked⟩ := e
    cases node with
    | file f => rfl
    | dir => cases h
    | link => cases h

theorem On.get (h : On p s d t) (hx : x.streamId = s) :
    t.get (x.path p) = (d x).map Stored.entry := by
  rw [get_of_isPlain (h.1.plain x hx), ← h.2]
  rfl

/-- Directories of the search are no places of files. -/
theorem dirPath_ne_path {depth n : Nat} (hdepth : depth ≤ 4) (s : StreamId) (x : Place) :
    StorageProvider.dirPath p s depth n ≠ x.path p := by
  have hlen := StorageProvider.length_dirPath (p := p) s depth n
  intro h
  rw [h] at hlen
  have hstream : ∀ s' (name : Name), 3 < name.length →
      StorageProvider.dirPath p s depth n = p.streamDirectory s' ++ [name] → False := by
    intro s' name hname heq
    have hlen' := StorageProvider.length_dirPath (p := p) s depth n
    rw [heq, List.length_append, StorageProvider.length_streamDirectory,
      List.length_singleton] at hlen'
    obtain rfl : depth = 1 := by omega
    have hdirs : (StorageProvider.dirPath p s 0 (n / 1000)).length =
        (p.streamDirectory s').length := by
      rw [StorageProvider.length_dirPath, StorageProvider.length_streamDirectory]
    have := congrArg List.length (List.cons.inj (List.append_inj heq hdirs).2).1
    rw [length_digits] at this
    omega
  cases x with
  | log id =>
    rw [Place.path, StorageProvider.logFilePath, StorageProvider.length_logOrIndexFilePath] at hlen
    omega
  | index id =>
    rw [Place.path, StorageProvider.indexFilePath, StorageProvider.length_logOrIndexFilePath] at hlen
    omega
  | checkpoint s' => exact hstream s' _ (by decide) h
  | pending s' =>
    rw [Place.path, StorageProvider.pendingFilePath_eq] at h
    exact hstream s' _ (by decide) h

theorem isDir_congr {q : Path} (h : t'.get q = t.get q) : t'.isDir q = t.isDir q := by
  rw [Tree.isDir, Tree.isDir, h]

/-- A change of one file is one of the disk. -/
theorem On.change (h : On p s d t) {e : Option Stored}
    (hget : ∀ q, t'.get q = if q = x.path p then e.map Stored.entry else t.get q) :
    On p s (Function.update d x e) t' := by
  refine ⟨⟨?_, ?_, ?_⟩, ?_⟩
  · have hne : p.streamDirectory s ≠ x.path p := dirPath_ne_path (Nat.zero_le 4) (n := 0) s x
    rw [isDir_congr (t := t) (by rw [hget, if_neg hne])]
    exact h.1.base
  · intro depth n hdepth
    rw [hget, if_neg (dirPath_ne_path hdepth s x)]
    exact h.1.range depth n hdepth
  · intro y hy
    rw [hget]
    split
    · exact isPlain_entry e
    · exact h.1.plain y hy
  · funext y
    rw [diskOf, hget]
    by_cases hyx : y = x
    · subst hyx
      rw [if_pos rfl, storedEntry_entry, Function.update_self]
    · rw [if_neg fun he => hyx (Place.path_injective he), Function.update_of_ne hyx, ← h.2]
      rfl

/-- Making a range directory changes no file. -/
theorem On.changeDir (h : On p s d t) {depth n : Nat} (hdepth : depth < 4)
    (hget : ∀ q, t'.get q =
      if q = StorageProvider.dirPath p s (depth + 1) n then some ⟨.dir, false⟩ else t.get q) :
    On p s d t' := by
  refine ⟨⟨?_, ?_, ?_⟩, ?_⟩
  · rw [isDir_congr (t := t) (by
      rw [hget, if_neg]
      exact StorageProvider.ne_of_length (by
        rw [StorageProvider.length_streamDirectory, StorageProvider.length_dirPath]
        omega))]
    exact h.1.base
  · intro depth' n' hdepth'
    rw [hget]
    split
    · rfl
    · exact h.1.range depth' n' hdepth'
  · intro y hy
    rw [hget, if_neg (dirPath_ne_path hdepth s y).symm]
    exact h.1.plain y hy
  · funext y
    rw [diskOf, hget, if_neg (dirPath_ne_path hdepth s y).symm, ← h.2]
    rfl

theorem isDir_synced (t : Tree) (q q' : Path) : (t.synced q).isDir q' = t.isDir q' := by
  rw [Tree.isDir, Tree.isDir, Tree.get_synced]
  split
  · cases t.get q' with
    | none => rfl
    | some e =>
      obtain ⟨node, linked⟩ := e
      cases node <;> rfl
  · rfl

theorem isPlain_linked (e : Option Entry) :
    isPlain (e.map fun e => { e with linked := true }) = isPlain e := by
  rcases e with _ | ⟨node, linked⟩
  · rfl
  · cases node <;> rfl

theorem isRange_linked (e : Option Entry) :
    isRange (e.map fun e => { e with linked := true }) = isRange e := by
  rcases e with _ | ⟨node, linked⟩
  · rfl
  · cases node <;> rfl

theorem storedEntry_linked (e : Option Entry) :
    storedEntry (e.map fun e => { e with linked := true }) =
      (storedEntry e).map fun st => ⟨st.file, true⟩ := by
  rcases e with _ | ⟨node, linked⟩
  · rfl
  · cases node <;> rfl

theorem On.synced (h : On p s d t) (q : Path) : On p s (d.link p q) (t.synced q) := by
  refine ⟨⟨?_, ?_, ?_⟩, ?_⟩
  · rw [isDir_synced]
    exact h.1.base
  · intro depth n hdepth
    rw [Tree.get_synced]
    split
    · rw [isRange_linked]
      exact h.1.range depth n hdepth
    · exact h.1.range depth n hdepth
  · intro y hy
    rw [Tree.get_synced]
    split
    · rw [isPlain_linked]
      exact h.1.plain y hy
    · exact h.1.plain y hy
  · funext y
    rw [diskOf, Tree.get_synced, Disk.link, ← h.2, Place.dropLast_path]
    simp only [ne_eq, y.path_ne_nil, not_false_eq_true, true_and]
    split
    · exact storedEntry_linked _
    · rfl

/-! ## Calls -/

variable {c : Mode}

theorem streamDirectory_ne_nil (p : StorageProvider) (s : StreamId) : p.streamDirectory s ≠ [] := by
  intro h
  have h := congrArg List.length h
  rw [StorageProvider.length_streamDirectory] at h
  cases h

theorem Shaped.clear_dirPath (h : Shaped p s t) : ∀ depth n, depth ≤ 4 →
    t.Clear (StorageProvider.dirPath p s depth n) ∧
      t.file? (StorageProvider.dirPath p s depth n) = none := by
  intro depth
  induction depth with
  | zero =>
    intro n _
    have hentry := (Tree.isDir_iff.mp h.base).resolve_left (streamDirectory_ne_nil p s)
    exact ⟨Tree.clear_of_isDir h.base, Tree.file?_of_isDirEntry hentry⟩
  | succ depth ih =>
    intro n hdepth
    obtain ⟨hclear, hfile⟩ := ih (n / 1000) (Nat.le_of_succ_le hdepth)
    have hrange := h.range depth n hdepth
    refine ⟨hclear.concat hfile _, ?_⟩
    rw [Tree.file?, Tree.node?]
    rcases hget : t.get (StorageProvider.dirPath p s (depth + 1) n) with _ | ⟨node, linked⟩
    · rfl
    · rw [hget] at hrange
      cases node with
      | dir => rfl
      | link => rfl
      | file f => cases hrange

theorem Shaped.clear_directory (h : Shaped p s t) (hx : x.streamId = s) :
    t.Clear (x.directory p) ∧ t.file? (x.directory p) = none := by
  subst hx
  cases x with
  | log id =>
    rw [Place.directory, StorageProvider.leafDirectory_eq]
    exact h.clear_dirPath 4 _ (Nat.le_refl 4)
  | index id =>
    rw [Place.directory, StorageProvider.leafDirectory_eq]
    exact h.clear_dirPath 4 _ (Nat.le_refl 4)
  | checkpoint s => exact h.clear_dirPath 0 0 (Nat.zero_le 4)
  | pending s => exact h.clear_dirPath 0 0 (Nat.zero_le 4)

/-- A file that is absent is reported so. -/
theorem On.lookupError (h : On p s d t) (hx : x.streamId = s) :
    t.lookupError (x.path p) = .notFound := by
  obtain ⟨hclear, hfile⟩ := h.1.clear_directory hx
  obtain ⟨n, hn⟩ := x.exists_name (p := p)
  rw [hn]
  exact (hclear.concat hfile n).lookupError

theorem On.get_some (h : On p s d t) (hx : x.streamId = s) {st : Stored} (hd : d x = some st) :
    t.get (x.path p) = some ⟨.file st.file, st.linked⟩ := by
  rw [h.get hx, hd]
  rfl

theorem On.get_none (h : On p s d t) (hx : x.streamId = s) (hd : d x = none) :
    t.get (x.path p) = none := by
  rw [h.get hx, hd]
  rfl

theorem On.node?_some (h : On p s d t) (hx : x.streamId = s) {st : Stored} (hd : d x = some st) :
    t.node? (x.path p) = some (.file st.file) := by
  rw [Tree.node?, h.get_some hx hd]
  rfl

theorem On.node?_none (h : On p s d t) (hx : x.streamId = s) (hd : d x = none) :
    t.node? (x.path p) = none := by
  rw [Tree.node?, h.get_none hx hd]
  rfl

theorem On.isDir_directory (h : On p s d t) (hx : x.streamId = s) {st : Stored}
    (hd : d x = some st) : t.isDir (x.directory p) = true := by
  obtain ⟨n, hn⟩ := x.exists_name (p := p)
  refine Tree.isDir_of_get (n := n) ?_
  rw [← hn, h.get_some hx hd]
  simp

/-- Other files share their directory with those that exist. -/
theorem On.free (h : On p s d t) (hx : x.streamId = s) (hd : d x = none)
    (hdir : t.isDir (x.directory p) = true) : t.Free (x.path p) :=
  ⟨h.get_none hx hd, x.path_ne_nil, by rwa [Place.dropLast_path]⟩

theorem On.setFile (h : On p s d t) (hx : x.streamId = s) {st : Stored} (hd : d x = some st)
    (f : File) : On p s (Function.update d x (some ⟨f, st.linked⟩)) (t.setFile (x.path p) f) := by
  refine h.change (e := some ⟨f, st.linked⟩) fun q => ?_
  rw [Tree.get_setFile (h.get_some hx hd)]
  rfl

theorem On.created (h : On p s d t) (hfree : t.Free (x.path p)) (f : File) :
    On p s (Function.update d x (some ⟨f, false⟩)) (t.created (x.path p) (.file f)) :=
  h.change (e := some ⟨f, false⟩) fun _ => Tree.get_created hfree

theorem On.erased (h : On p s d t) (hx : x.streamId = s) :
    On p s (Function.update d x none) (t.erased (x.path p)) := by
  refine h.change (e := none) fun _ => Tree.get_erased ?_
  rw [h.get hx]
  cases d x <;> rfl

/-- A file at its beginning. -/
def Stored.opened (st : Stored) : Stored := st.map (File.seekTo 0)

variable {st : Stored}

theorem openFile_triple (hx : x.streamId = s) (hd : d x = some st) :
    Triple c (On p s d) (Fs.openFile (x.path p))
      (fun _ => On p s (Function.update d x (some st.opened))) (Struck c (On p s d)) := by
  refine .ofState fun t h => .callAt ?_ ?_
  · rw [h.node?_some hx hd]
    exact h.setFile hx hd _
  · exact fun e he => ⟨he.1, he.2.1, h⟩

/-- An exit at a call that found no file, was not made or met a fault. -/
def Missing (c : Mode) (X : Tree → Prop) (e : Exit ErrorKind) (t : Tree) : Prop :=
  e = .error .notFound ∧ X t ∨ Struck c X e t

theorem openFile_missing (hx : x.streamId = s) (hd : d x = none) :
    Triple c (On p s d) (Fs.openFile (x.path p)) (fun _ _ => False) (Missing c (On p s d)) := by
  refine .ofState fun t h => .callAt ?_ ?_
  · rw [h.node?_none hx hd]
    exact .inl ⟨by rw [h.lookupError hx], h⟩
  · exact fun e he => .inr ⟨he.1, he.2.1, h⟩

/-- The directory of a place exists. -/
def Ready (p : StorageProvider) (x : Place) (t : Tree) : Prop := t.isDir (x.directory p) = true

theorem createNew_triple (hx : x.streamId = s) (hd : d x = none) :
    Triple c (fun t => On p s d t ∧ Ready p x t) (Fs.createNew (x.path p))
      (fun _ => On p s (Function.update d x (some ⟨.empty, false⟩))) (Struck c (On p s d)) := by
  refine .ofState fun t ⟨h, hdir⟩ => .callAt ?_ ?_
  · have hfree := h.free hx hd hdir
    rw [h.get_none hx hd, if_neg (by simp), if_pos hfree]
    exact h.created hfree _
  · exact fun e he => ⟨he.1, he.2.1, h⟩

theorem createNew_exists (hx : x.streamId = s) (hd : d x = some st) :
    Triple c (On p s d) (Fs.createNew (x.path p)) (fun _ _ => False)
      (fun e t => (e = .error .alreadyExists ∨ Struck c (On p s d) e t) ∧ On p s d t) := by
  refine .ofState fun t h => .callAt ?_ ?_
  · simp only [h.get_some hx hd, Option.isSome_some, if_true]
    exact ⟨.inl trivial, h⟩
  · exact fun e he => ⟨.inr ⟨he.1, he.2.1, h⟩, h⟩

theorem openOrCreate_triple (hx : x.streamId = s) :
    Triple c (fun t => On p s d t ∧ Ready p x t) (Fs.openOrCreate (x.path p))
      (fun _ => On p s (Function.update d x (some ((d x).elim ⟨.empty, false⟩ Stored.opened))))
      (Struck c (On p s d)) := by
  refine .ofState fun t ⟨h, hdir⟩ => .callAt ?_ ?_
  · cases hd : d x with
    | none =>
      have hfree := h.free hx hd hdir
      rw [h.node?_none hx hd]
      simp only [if_pos hfree]
      exact h.created hfree _
    | some st =>
      rw [h.node?_some hx hd]
      exact h.setFile hx hd _
  · exact fun e he => ⟨he.1, he.2.1, h⟩

theorem openTruncated_triple (hx : x.streamId = s) :
    Triple c (fun t => On p s d t ∧ Ready p x t) (Fs.openTruncated (x.path p))
      (fun _ t => ∃ st : Stored, st.file.content = [] ∧ st.file.cursor = 0 ∧
        On p s (Function.update d x (some st)) t)
      (Struck c (On p s d)) := by
  refine .ofState fun t ⟨h, hdir⟩ => .callAt ?_ ?_
  · cases hd : d x with
    | none =>
      have hfree := h.free hx hd hdir
      rw [h.node?_none hx hd]
      simp only [if_pos hfree]
      exact ⟨_, rfl, rfl, h.created hfree _⟩
    | some st =>
      rw [h.node?_some hx hd]
      refine ⟨⟨_, st.linked⟩, ?_, rfl, h.setFile hx hd _⟩
      exact List.length_eq_zero_iff.mp (length_resize _ 0)
  · exact fun e he => ⟨he.1, he.2.1, h⟩

theorem removeFile_triple (hx : x.streamId = s) (hd : d x = some st) :
    Triple c (On p s d) (Fs.removeFile (x.path p)) (fun _ => On p s (Function.update d x none))
      (Struck c (On p s d)) := by
  refine .ofState fun t h => .callAt ?_ ?_
  · rw [h.node?_some hx hd]
    exact h.erased hx
  · exact fun e he => ⟨he.1, he.2.1, h⟩

theorem removeFile_missing (hx : x.streamId = s) (hd : d x = none) :
    Triple c (On p s d) (Fs.removeFile (x.path p)) (fun _ _ => False) (Missing c (On p s d)) := by
  refine .ofState fun t h => .callAt ?_ ?_
  · rw [h.node?_none hx hd]
    exact .inl ⟨by rw [h.lookupError hx], h⟩
  · exact fun e he => .inr ⟨he.1, he.2.1, h⟩

/-- Renaming a file over another. -/
theorem rename_triple {y : Place} (hx : x.streamId = s) (hy : y.streamId = s) (hne : y ≠ x)
    (hdir : y.directory p = x.directory p) (hd : d x = some st) :
    Triple c (On p s d) (Fs.rename (x.path p) (y.path p))
      (fun _ => On p s (Function.update (Function.update d x none) y (some ⟨st.file, false⟩)))
      (Struck c (On p s d)) := by
  refine .ofState fun t h => .callAt ?_ ?_
  · have hready := h.isDir_directory hx hd
    have hplain : t.isDir (y.path p) = false := by
      rw [Bool.eq_false_iff]
      intro hn
      have hentry := (Tree.isDir_iff.mp hn).resolve_left y.path_ne_nil
      rw [h.get hy] at hentry
      cases hdy : d y <;> rw [hdy] at hentry <;> cases hentry
    rw [h.node?_some hx hd]
    simp only [hplain, Place.dropLast_path, hdir, hready, if_true, Bool.false_eq_true, if_false]
    have hfile : t.file? (x.path p) = some st.file := Tree.file?_eq_some.mpr ⟨_, h.get_some hx hd⟩
    rw [Tree.moved, hfile]
    have h1 := h.erased hx
    have h2 := h1.erased hy
    have h3 : On p s (Function.update (Function.update (Function.update d x none) y none) y
        (some ⟨st.file, false⟩)) _ := h2.created (x := y) ⟨?_, y.path_ne_nil, ?_⟩ st.file
    · rwa [Function.update_idem] at h3
    · exact h2.get_none hy (Function.update_self _ _ _)
    · rw [Place.dropLast_path, hdir, ← hready]
      have hkeep : ∀ (t : Tree) (z : Place), (t.erased (z.path p)).isDir (x.directory p) =
          t.isDir (x.directory p) := by
        intro t z
        refine isDir_congr ?_
        rw [Tree.erased]
        split
        · rfl
        · rename_i hz
          rw [Tree.get_replace, if_neg]
          intro he
          cases x with
          | log id =>
            rw [Place.directory, StorageProvider.leafDirectory_eq] at he
            exact dirPath_ne_path (Nat.le_refl 4) _ z he
          | index id =>
            rw [Place.directory, StorageProvider.leafDirectory_eq] at he
            exact dirPath_ne_path (Nat.le_refl 4) _ z he
          | checkpoint s => exact dirPath_ne_path (n := 0) (Nat.zero_le 4) _ z he
          | pending s => exact dirPath_ne_path (n := 0) (Nat.zero_le 4) _ z he
      rw [hkeep, hkeep]
  · exact fun e he => ⟨he.1, he.2.1, h⟩

/-- Running an operation of a file that is open. -/
theorem onFile_triple {ε α : Type} (hx : x.streamId = s) (hd : d x = some st) {m : Io File ε α}
    {Q : α → File → Prop} {X : Exit ε → File → Prop} (hm : Triple c (fun f => f = st.file) m Q X) :
    Triple c (On p s d) (Fs.onFile (x.path p) m)
      (fun a t => ∃ f, Q a f ∧ On p s (Function.update d x (some ⟨f, st.linked⟩)) t)
      (fun e t => ∃ f, X e f ∧ On p s (Function.update d x (some ⟨f, st.linked⟩)) t) := by
  refine .zoom fun t h => ?_
  have hfile : Fs.fileAt (x.path p) t = st.file := by
    rw [Fs.fileAt, Tree.file?_eq_some.mpr ⟨_, h.get_some hx hd⟩]
    rfl
  rw [hfile]
  exact hm.conseq (fun _ h => h) (fun a f hQ => ⟨f, hQ, h.setFile hx hd f⟩)
    fun e f hX => ⟨f, hX, h.setFile hx hd f⟩

/-! ## An established stream -/

/-- A tree with nothing but the directory of a stream. -/
def established (p : StorageProvider) (s : StreamId) : Tree where
  get q := if q ≠ [] ∧ q <+: p.streamDirectory s then some ⟨.dir, true⟩ else none
  names := Fs.ancestors (p.streamDirectory s)
  mem_names := by
    intro q h
    by_cases hq : q ≠ [] ∧ q <+: p.streamDirectory s
    · have hlen := List.length_pos_iff.mpr hq.1
      refine List.mem_map.mpr ⟨q.length - 1, List.mem_range.mpr ?_, ?_⟩
      · have := hq.2.length_le
        omega
      · rw [Nat.sub_add_cancel hlen]
        exact (List.prefix_iff_eq_take.mp hq.2).symm
    · exact absurd (if_neg hq) h
  rooted := by
    intro q n h
    by_cases hq : q ++ [n] ≠ [] ∧ q ++ [n] <+: p.streamDirectory s
    · by_cases hnil : q = []
      · exact .inl hnil
      · rw [if_pos ⟨hnil, (List.prefix_append q [n]).trans hq.2⟩]
        exact .inr rfl
    · exact absurd (if_neg hq) h

theorem get_established_of_length {q : Path} (h : (p.streamDirectory s).length < q.length) :
    (established p s).get q = none :=
  if_neg fun hq => Nat.not_le.mpr h hq.2.length_le

theorem on_established (p : StorageProvider) (s : StreamId) :
    On p s (fun _ => none) (established p s) := by
  have hplace : ∀ x : Place, (established p s).get (x.path p) = none := by
    refine fun x => get_established_of_length ?_
    rw [StorageProvider.length_streamDirectory]
    cases x with
    | log id =>
      rw [Place.path, StorageProvider.logFilePath, StorageProvider.length_logOrIndexFilePath]
      omega
    | index id =>
      rw [Place.path, StorageProvider.indexFilePath, StorageProvider.length_logOrIndexFilePath]
      omega
    | checkpoint id => rw [Place.path, StorageProvider.length_checkpointFilePath]; omega
    | pending id => rw [Place.path, StorageProvider.length_pendingFilePath]; omega
  refine ⟨⟨?_, ?_, ?_⟩, ?_⟩
  · refine Tree.isDir_iff.mpr (.inr ?_)
    rw [show (established p s).get (p.streamDirectory s) = some ⟨.dir, true⟩ from
      if_pos ⟨streamDirectory_ne_nil p s, List.prefix_refl _⟩]
    rfl
  · intro depth n _
    rw [get_established_of_length]
    · rfl
    · rw [StorageProvider.length_dirPath, StorageProvider.length_streamDirectory]
      omega
  · intro x _
    rw [hplace]
    rfl
  · funext x
    rw [diskOf, hplace]
    rfl

end TransactionLog
