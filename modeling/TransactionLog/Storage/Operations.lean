import TransactionLog.Storage.Disk

/-!
# What the provider's operations do

Rules for creating, opening and removing the files of a stream and for its
checkpoint, on the disk of a shaped tree.  Each says where an operation leaves the
disk when it returns and where when it does not.
-/

namespace TransactionLog

open Lib

/-- A shaped tree whose disk satisfies `J`. -/
def Holding (p : StorageProvider) (s : StreamId) (J : Disk → Prop) (t : Tree) : Prop :=
  ∃ d, On p s d t ∧ J d

namespace StorageProvider

variable {p : StorageProvider} {s : StreamId} {d : Disk} {c : Mode} {J : Disk → Prop}

/-- An exit of an operation at a call that was not made or met a fault. -/
def Failed (c : Mode) (X : Tree → Prop) (e : Exit StorageError) (t : Tree) : Prop :=
  ¬ c.calm ∧ (e = .stopped ∨ ∃ path, ∃ k : Fault, e = .error (.io path k.kind)) ∧ X t

theorem Failed.faulted {X : Tree → Prop} {e : Exit StorageError} {t : Tree} (h : Failed c X e t) :
    Faulted c X e t := by
  obtain ⟨hc, rfl | ⟨path, k, rfl⟩, hX⟩ := h
  · exact ⟨hc, by simp, hX⟩
  · exact ⟨hc, by simp, hX⟩

theorem Failed.mono {X Y : Tree → Prop} {e : Exit StorageError} {t : Tree} (h : Failed c X e t)
    (hX : ∀ t, X t → Y t) : Failed c Y e t := ⟨h.1, h.2.1, hX t h.2.2⟩

theorem failed_of_struck {X : Tree → Prop} {e : Exit ErrorKind} {t : Tree} (path : Path)
    (h : Struck c X e t) : e ≠ .error .notFound ∧ Failed c X (e.map (.io path)) t := by
  obtain ⟨hc, rfl | ⟨k, rfl⟩, hX⟩ := h
  · exact ⟨by simp, hc, .inl rfl, hX⟩
  · exact ⟨fun h => k.kind_ne_notFound (Exit.error.inj h), hc, .inr ⟨path, k, rfl⟩, hX⟩

theorem io_triple {α : Type} {m : Io Tree ErrorKind α} {P X : Tree → Prop} {Q : α → Tree → Prop}
    {path : Path} (h : Triple c P m Q (Struck c X)) :
    Triple c P (Io.mapErr (.io path) m) Q (Failed c X) :=
  .mapErr_exits (h.exits fun _ _ he => (failed_of_struck path he).2)

/-! ### What the operations make of an answer

One rule for each, over any assertions about the tree. -/

/-- What a missing file leaves, where that is no failure. -/
theorem absent_of_missing {X Y : Tree → Prop} {e : Exit ErrorKind} {t : Tree} (path : Path)
    (h : Missing c X e t) (hY : X t → Y t) : (e = .error .notFound → Y t) ∧
      (e ≠ .error .notFound → Failed c X (e.map (.io path)) t) := by
  rcases h with ⟨rfl, h⟩ | h
  · exact ⟨fun _ => hY h, fun hne => absurd rfl hne⟩
  · exact ⟨fun he => absurd he (failed_of_struck path h).1,
      fun _ => (failed_of_struck path h).2⟩

section Answers

variable {P R : Tree → Prop} {X : Exit StorageError → Tree → Prop} {path : Path}

theorem removeIfPresent_of {Q : Tree → Prop}
    (h : Triple c P (Fs.removeFile path) (fun _ => Q) fun e t =>
      (e = .error .notFound → Q t) ∧ (e ≠ .error .notFound → X (e.map (.io path)) t)) :
    Triple c P (removeIfPresent path) (fun _ => Q) X := by
  refine .bind (R := fun r t => match r with
    | .ok _ => Q t
    | .error e => (e = .notFound → Q t) ∧ (e ≠ .notFound → X (.error (.io path e)) t))
    (.attempt (h.exits ?_)) fun r => ?_
  · intro e t he
    cases e with
    | error e => exact ⟨fun h => he.1 (congrArg _ h), fun h => he.2 fun h' => h (Exit.error.inj h')⟩
    | stopped => exact he.2 (by simp)
    | panicked => exact he.2 (by simp)
  · cases r with
    | ok _ => exact .pure fun t h => h
    | error e => cases e <;> first
      | exact .pure fun t h => h.1 rfl
      | exact .throw fun t h => h.2 (by simp)

theorem syncIfPresent_of {Q : Tree → Prop}
    (h : Triple c P (syncDirectory path) (fun _ => Q) fun e t =>
      ((∃ q, e = .error (.io q .notFound)) → Q t) ∧
        ((¬ ∃ q, e = .error (.io q .notFound)) → X e t)) :
    Triple c P (syncIfPresent path) (fun _ => Q) X := by
  refine .bind (R := fun r t => match r with
    | .ok _ => Q t
    | .error e => ((∃ q, e = .io q .notFound) → Q t) ∧
        ((¬ ∃ q, e = .io q .notFound) → X (.error e) t))
    (.attempt (h.exits ?_)) fun r => ?_
  · intro e t he
    cases e with
    | error e => simpa using he
    | stopped => exact he.2 (by simp)
    | panicked => exact he.2 (by simp)
  · cases r with
    | ok _ => exact .pure fun t h => h
    | error e =>
      rcases e with ⟨q, k⟩ | q | ⟨q, n⟩
      · cases k
        case notFound => exact .pure fun t h => h.1 ⟨q, rfl⟩
        all_goals exact .throw fun t h => h.2 (by simp)
      · exact .throw fun t h => h.2 (by simp)
      · exact .throw fun t h => h.2 (by simp)

/-- A read goes by what the opening of the file has found. -/
theorem readJson_of {α : Type} {fromSlice : List UInt8 → Option α} {maxBytes : Nat}
    {Q : Option α → Tree → Prop}
    (hopen : Triple c P (Fs.openFile path) (fun _ => R) fun e t =>
      (e = .error .notFound → Q none t) ∧ (e ≠ .error .notFound → X (e.map (.io path)) t))
    (hread : Triple c R (Fs.onFile path (File.source.readToEnd (maxBytes + 1)))
      (fun bytes t => bytes.length ≤ maxBytes ∧ ∃ value, fromSlice bytes = some value ∧
        Q (some value) t)
      (fun e t => X (e.map (.io path)) t)) :
    Triple c P (readJson fromSlice path maxBytes) Q X := by
  refine .bind (R := fun r t => match r with
    | .ok _ => R t
    | .error e => (e = .notFound → Q none t) ∧ (e ≠ .notFound → X (.error (.io path e)) t))
    (.attempt (hopen.exits ?_)) fun r => ?_
  · intro e t he
    cases e with
    | error e => exact ⟨fun h => he.1 (congrArg _ h), fun h => he.2 fun h' => h (Exit.error.inj h')⟩
    | stopped => exact he.2 (by simp)
    | panicked => exact he.2 (by simp)
  · cases r with
    | error e => cases e <;> first
      | exact .pure fun t h => h.1 rfl
      | exact .throw fun t h => h.2 (by simp)
    | ok _ =>
      refine .bind (.mapErr_exits hread) fun bytes => .assume fun hlen =>
        .ofExists fun value => .assume fun hslice => ?_
      rw [if_neg (Nat.not_lt.mpr hlen), hslice]
      exact .pure fun t h => h

/-- A complete and synchronized file. -/
def Complete (bytes : List UInt8) (f : File) : Prop :=
  f.content = bytes ∧ f.synced = f.content.length

/-- The staging file is opened empty, written, flushed and synchronized; then it takes the
place of the file. -/
theorem writeAtomic_of {bytes : List UInt8} {Q : Tree → Prop} (S : (File → Prop) → Tree → Prop)
    (hopen : Triple c P (Io.mapErr (.io (withAddedExtension path (ascii "pending")))
        (Fs.openTruncated (withAddedExtension path (ascii "pending"))))
      (fun _ => S fun f => f.content = [] ∧ f.cursor = 0) X)
    (hstep : ∀ {φ ψ : File → Prop} {m : Io File ErrorKind Unit},
      (∀ f₀, φ f₀ → Triple c (fun f => f = f₀) m (fun _ => ψ) (Faulted c fun _ => True)) →
      Triple c (S φ) (Io.mapErr (.io (withAddedExtension path (ascii "pending")))
        (Fs.onFile (withAddedExtension path (ascii "pending")) m)) (fun _ => S ψ) X)
    (hrename : Triple c (S (Complete bytes))
      (Io.mapErr (.io path) (Fs.rename (withAddedExtension path (ascii "pending")) path))
      (fun _ => R) X)
    (hsync : Triple c R (syncDirectory path.dropLast) (fun _ => Q) X) :
    Triple c P (writeAtomic path bytes) (fun _ => Q) X := by
  refine .bind hopen fun _ => ?_
  refine .bind (hstep (ψ := fun f => f.content = bytes) fun f₀ hf₀ =>
    File.writeAll_empty hf₀.1 hf₀.2) fun _ => ?_
  refine .bind (hstep (ψ := fun f => f.content = bytes) fun f₀ hf₀ =>
    File.flush_triple.post ?_) fun _ => ?_
  · intro _ f h
    rw [h]
    exact hf₀
  refine .bind (hstep (ψ := Complete bytes)
    fun f₀ hf₀ => File.syncData_triple.post ?_) fun _ => ?_
  · intro _ f h
    rw [h]
    exact ⟨hf₀, rfl⟩
  exact .bind hrename fun _ => hsync

end Answers

/-! ### Directories -/

theorem createDir_triple {t : Tree} {q : Path} (h : t.isDir q = true) :
    Triple c (fun t' => t' = t) (Fs.createDir q) (fun _ t' => t' = t)
      (Faulted c fun t' => t' = t) := by
  refine .callAt ?_ fun e he => he.faulted
  rw [if_pos h]

theorem createDirs_triple {t : Tree} : ∀ qs : List Path, (∀ q ∈ qs, t.isDir q = true) →
    Triple c (fun t' => t' = t) (Fs.createDirs qs) (fun _ t' => t' = t)
      (Faulted c fun t' => t' = t) := by
  intro qs
  induction qs with
  | nil => exact fun _ => .pure fun _ h => h
  | cons q qs ih =>
    intro h
    exact .bind (createDir_triple (h q List.mem_cons_self)) fun _ =>
      ih fun q' hq' => h q' (List.mem_cons_of_mem q hq')

theorem createDirs_append (xs ys : List Path) : Fs.createDirs (xs ++ ys) =
    (Fs.createDirs xs >>= fun _ => Fs.createDirs ys) := by
  induction xs with
  | nil => rfl
  | cons x xs ih =>
    rw [List.cons_append, Fs.createDirs, Fs.createDirs, ih]
    funext w
    simp only [Io.bind_apply]
    rcases Fs.createDir x w with ⟨_ | _, w'⟩ <;> rfl

theorem ancestors_concat (q : Path) (n : Name) :
    Fs.ancestors (q ++ [n]) = Fs.ancestors q ++ [q ++ [n]] := by
  rw [Fs.ancestors, Fs.ancestors, List.length_append, List.length_singleton, List.range_succ,
    List.map_append]
  congr 1
  · refine List.map_congr_left fun m hm => ?_
    exact List.take_append_of_le_length (List.mem_range.mp hm)
  · rw [List.map_singleton, List.take_of_length_le (by rw [List.length_append, List.length_singleton])]

theorem isDir_of_mem_ancestors {t : Tree} : ∀ {q : Path}, t.isDir q = true →
    ∀ q' ∈ Fs.ancestors q, t.isDir q' = true := by
  intro q h q' hq'
  obtain ⟨m, hm, rfl⟩ := List.mem_map.mp hq'
  have hm := List.mem_range.mp hm
  by_cases hlast : m + 1 = q.length
  · rwa [hlast, List.take_length]
  · have hne : q ≠ [] := by
      rintro rfl
      cases hm
    have hentry := (Tree.isDir_iff.mp h).resolve_left hne
    refine Tree.isDir_of_append (q.drop (m + 1)) ?_ ?_
    · rw [ne_eq, List.drop_eq_nil_iff]
      omega
    · rw [List.take_append_drop]
      intro hnone
      rw [hnone] at hentry
      cases hentry

/-- Making one directory where there is none or nothing. -/
theorem createDir_range {t : Tree} {q : Path} {n : Name} (hdir : t.isDir q = true)
    (hrange : isRange (t.get (q ++ [n])) = true) :
    Triple c (fun t' => t' = t) (Fs.createDir (q ++ [n]))
      (fun _ t' => t'.isDir (q ++ [n]) = true ∧
        (t' = t ∨ t.Free (q ++ [n]) ∧ t' = t.created (q ++ [n]) .dir))
      (Struck c fun t' => t' = t) := by
  refine .callAt ?_ fun e he => he
  by_cases hexists : t.isDir (q ++ [n]) = true
  · rw [if_pos hexists]
    exact ⟨hexists, .inl rfl⟩
  · have hget : t.get (q ++ [n]) = none := by
      rcases hg : t.get (q ++ [n]) with _ | ⟨node, linked⟩
      · rfl
      · rw [hg] at hrange
        cases node with
        | dir => exact absurd (Tree.isDir_iff.mpr (.inr (by rw [hg]; rfl))) hexists
        | link => cases hrange
        | file f => cases hrange
    have hfree : t.Free (q ++ [n]) := ⟨hget, by simp, by rw [List.dropLast_concat]; exact hdir⟩
    rw [if_neg hexists, hget, if_neg (by simp), if_pos hfree]
    refine ⟨Tree.isDir_iff.mpr (.inr ?_), .inr ⟨hfree, rfl⟩⟩
    rw [Tree.get_created hfree, if_pos rfl]
    rfl

/-- Making the directories of the search, down to any level. -/
theorem createDirAll_triple : ∀ depth n, depth ≤ 4 →
    Triple c (On p s d) (Fs.createDirAll (dirPath p s depth n))
      (fun _ t => On p s d t ∧ t.isDir (dirPath p s depth n) = true) (Faulted c (On p s d)) := by
  intro depth
  induction depth with
  | zero =>
    intro n _
    refine .ofState fun t h => ?_
    refine (createDirs_triple (t := t) _ (isDir_of_mem_ancestors h.1.base)).conseq (fun _ h => h) ?_ ?_
    · rintro _ _ rfl
      exact ⟨h, h.1.base⟩
    · rintro e t' ⟨hc, hp, rfl⟩
      exact ⟨hc, hp, h⟩
  | succ depth ih =>
    intro n hdepth
    rw [Fs.createDirAll, dirPath, ancestors_concat, createDirs_append]
    refine .bind (ih (n / 1000) (Nat.le_of_succ_le hdepth)) fun _ => ?_
    refine .ofState fun t hready => ?_
    obtain ⟨h, hdir⟩ := hready
    refine .bind ((createDir_range hdir (h.1.range depth n hdepth)).conseq (fun _ h => h) ?_ ?_)
      fun _ => .pure fun _ h => h
    · intro _ t' h'
      refine ⟨?_, h'.1⟩
      rcases h'.2 with rfl | ⟨hfree, rfl⟩
      · exact h
      · exact h.changeDir hdepth fun q => Tree.get_created hfree
    · intro e t' he
      obtain ⟨hc, hp, rfl⟩ := he.faulted
      exact ⟨hc, hp, h⟩

theorem openDir_triple {q : Path} :
    Triple c (fun t => On p s d t ∧ t.isDir q = true) (Fs.openDir q) (fun _ => On p s d)
      (Struck c (On p s d)) := by
  refine .ofState fun t ⟨h, hdir⟩ => .callAt ?_ fun e he => ⟨he.1, he.2.1, h⟩
  rw [if_pos hdir]
  exact h

theorem syncDirectory_triple {q : Path} :
    Triple c (fun t => On p s d t ∧ t.isDir q = true) (syncDirectory q)
      (fun _ => On p s (d.link p q)) (Failed c (On p s d)) := by
  refine .bind (io_triple openDir_triple) fun _ => io_triple (.ofState fun t h => .callAt ?_ ?_)
  · exact h.synced q
  · exact fun e he => ⟨he.1, he.2.1, h⟩

/-! ### Creating and opening a pair -/

/-- The disk with an empty file at `x`. -/
def created (d : Disk) (x : Place) : Disk := Function.update d x (some ⟨.empty, false⟩)

/-- Creating a pair, or its log only, leaves other places alone. -/
theorem same_created {d' : Disk} {f : LogFileId} {x : Place}
    (hd' : d' = created d (.log f) ∨ d' = created (created d (.log f)) (.index f))
    (hlog : x ≠ .log f) (hindex : x ≠ .index f) : Same d d' x := by
  rcases hd' with rfl | rfl
  · exact .update hlog _
  · exact (Same.update hlog _).trans (.update hindex _)

theorem same_files_created {d' : Disk} {f g : LogFileId}
    (hd' : d' = created d (.log f) ∨ d' = created (created d (.log f)) (.index f)) (hne : g ≠ f) :
    Same d d' (.log g) ∧ Same d d' (.index g) :=
  ⟨same_created hd' (by simpa using hne) (by simp), same_created hd' (by simp) (by simpa using hne)⟩

/-- The log of a pair that is being created. -/
theorem created_log {d' : Disk} {f : LogFileId}
    (hd' : d' = created d (.log f) ∨ d' = created (created d (.log f)) (.index f)) :
    d' (.log f) = some ⟨.empty, false⟩ := by
  rcases hd' with rfl | rfl
  · exact Function.update_self _ _ _
  · rw [created, Function.update_of_ne (by simp), created, Function.update_self]

/-- Creating a pair leaves its files where they were or has made the log. -/
theorem createLogAndIndex_triple {f : LogFileId} (hs : f.streamId = s) (hlog : d (.log f) = none) :
    Triple c (On p s d) (p.createLogAndIndex f)
      (fun _ t => d (.index f) = none ∧ On p s (created (created d (.log f)) (.index f)) t)
      (fun e t => (¬ c.calm ∨ d (.index f) ≠ none) ∧ e ≠ .panicked ∧
        (On p s d t ∨ On p s (created d (.log f)) t)) := by
  subst hs
  refine .bind (R := fun _ t => On p f.streamId d t ∧ Ready p (.log f) t)
    ((Triple.mapErr_faulted ?_).exits fun e t h => ⟨.inl h.1, h.2.1, .inl h.2.2⟩) fun _ => ?_
  · rw [leafDirectory_eq]
    refine (createDirAll_triple 4 _ (Nat.le_refl 4)).post fun _ t h => ⟨h.1, ?_⟩
    rw [Ready, Place.directory, leafDirectory_eq]
    exact h.2
  refine .bind ((Triple.mapErr_faulted ((createNew_triple (x := .log f) rfl hlog).exits
    fun _ _ h => h.faulted)).exits fun e t h => ⟨.inl h.1, h.2.1, .inl h.2.2⟩) fun _ => ?_
  have hsame : created d (.log f) (.index f) = d (.index f) :=
    Function.update_of_ne (by simp) _ _
  have hlog' : created d (.log f) (.log f) = some ⟨.empty, false⟩ := Function.update_self _ _ _
  cases hindex : d (.index f) with
  | none =>
    refine ((Triple.mapErr_faulted ((createNew_triple (x := .index f) rfl
      (hsame.trans hindex)).exits fun _ _ h => h.faulted)).conseq ?_ ?_ ?_)
    · exact fun t h => ⟨h, h.isDir_directory (x := .log f) rfl hlog'⟩
    · exact fun _ t h => ⟨rfl, h⟩
    · exact fun e t h => ⟨.inl h.1, h.2.1, .inr h.2.2⟩
  | some st =>
    refine .mapErr ((createNew_exists (x := .index f) rfl (hsame.trans hindex)).conseq
      (fun _ h => h) (fun _ _ h => h.elim) ?_)
    rintro (e | _ | _) t ⟨he, h⟩
    · exact ⟨.inr (by simp), by simp, .inr h⟩
    · exact ⟨.inr (by simp), by simp, .inr h⟩
    · exfalso
      rcases he with he | ⟨-, he | ⟨_, he⟩, -⟩ <;> cases he

/-- A tree that holds nothing but one pair. -/
def pairTree (p : StorageProvider) (f : LogFileId) (log index : File) : Tree :=
  ((((p.createLogAndIndex f).run (established p f.streamId) .calm).2.sys.setFile (p.logFilePath f)
    log).setFile (p.indexFilePath f) index)

/-- Its disk. -/
def pairDisk (f : LogFileId) (log index : File) : Disk :=
  Function.update (Function.update (fun _ => none) (.log f) (some ⟨log, false⟩)) (.index f)
    (some ⟨index, false⟩)

@[simp] theorem pairDisk_log (f : LogFileId) (log index : File) :
    pairDisk f log index (.log f) = some ⟨log, false⟩ := by
  rw [pairDisk, Function.update_of_ne (by simp), Function.update_self]

@[simp] theorem pairDisk_index (f : LogFileId) (log index : File) :
    pairDisk f log index (.index f) = some ⟨index, false⟩ := Function.update_self _ _ _

theorem pairDisk_of_ne {x : Place} {f : LogFileId} (hlog : x ≠ .log f) (hindex : x ≠ .index f)
    (log index : File) : pairDisk f log index x = none := by
  rw [pairDisk, Function.update_of_ne hindex, Function.update_of_ne hlog]

theorem on_pairTree (p : StorageProvider) (f : LogFileId) (log index : File) :
    On p f.streamId (pairDisk f log index) (pairTree p f log index) := by
  have hrun := (createLogAndIndex_triple (c := ⟨True, fun _ => True⟩) (f := f) rfl rfl
    ⟨established p f.streamId, .calm⟩ (on_established p f.streamId) trivial).2
  rw [pairTree, Io.run]
  rcases hw : p.createLogAndIndex f ⟨established p f.streamId, .calm⟩ with ⟨e | a, w⟩
  · rw [hw] at hrun
    exact (hrun.1.elim (fun h => h trivial) fun h => h rfl).elim
  · rw [hw] at hrun
    have h1 := hrun.2.setFile (x := .log f) rfl
      (show _ = some (⟨.empty, false⟩ : Stored) by
        rw [created, Function.update_of_ne (by simp), created, Function.update_self]) log
    have h2 := h1.setFile (x := .index f) rfl
      (show _ = some (⟨.empty, false⟩ : Stored) by
        rw [Function.update_of_ne (by simp), created, Function.update_self]) index
    rw [created, created, Function.update_comm (by simp), Function.update_idem] at h2
    rw [Function.update_comm (by simp), Function.update_idem] at h2
    exact h2

theorem openLogForValidation_triple {f : LogFileId} (hs : f.streamId = s) {st : Stored}
    (hlog : d (.log f) = some st) :
    Triple c (On p s d) (p.openLogForValidation f)
      (fun _ => On p s (Function.update d (.log f) (some st.opened))) (Failed c (On p s d)) :=
  io_triple (openFile_triple (x := .log f) hs hlog)

/-- A log that is missing is reported by its path. -/
theorem openLogForValidation_missing {f : LogFileId} (hs : f.streamId = s)
    (hlog : d (.log f) = none) :
    Triple c (On p s d) (p.openLogForValidation f) (fun _ _ => False) (fun e t => On p s d t ∧
      e ≠ .panicked ∧ (e = .error (.io (p.logFilePath f) .notFound) ∨
        ¬ c.calm ∧ e ≠ .error (.io (p.logFilePath f) .notFound))) := by
  refine .mapErr ((openFile_missing (x := .log f) hs hlog).exits ?_)
  rintro (e | _ | _) t (⟨he, h⟩ | ⟨hc, he | ⟨k, he⟩, h⟩) <;> cases he
  · exact ⟨h, by simp, .inl rfl⟩
  · exact ⟨h, by simp, .inr ⟨hc, fun he => k.kind_ne_notFound
      (StorageError.io.inj (Exit.error.inj he)).2⟩⟩
  · exact ⟨h, by simp, .inr ⟨hc, by simp⟩⟩

/-- The disk with the index of `f` opened, or created. -/
def indexOpened (d : Disk) (f : LogFileId) : Disk :=
  Function.update d (.index f) (some ((d (.index f)).elim ⟨.empty, false⟩ Stored.opened))

theorem openIndexForRepair_triple {f : LogFileId} (hs : f.streamId = s)
    (hlog : d (.log f) ≠ none) :
    Triple c (On p s d) (p.openIndexForRepair f)
      (fun _ => On p s ((indexOpened d f).link p (p.leafDirectory f)))
      (Failed c fun t => On p s d t ∨ On p s (indexOpened d f) t) := by
  obtain ⟨st, hst⟩ := Option.ne_none_iff_exists'.mp hlog
  refine .bind ((io_triple (openOrCreate_triple (x := .index f) hs)).conseq ?_ (fun _ _ h => h)
    fun e t h => h.mono fun _ h => .inl h) fun _ => ?_
  · exact fun t h => ⟨h, h.isDir_directory (x := .log f) hs hst⟩
  · refine (syncDirectory_triple (d := indexOpened d f)).conseq ?_ (fun _ _ h => h)
      fun e t h => h.mono fun _ h => .inr h
    exact fun t h => ⟨h, h.isDir_directory (x := .index f) hs (Function.update_self _ _ _)⟩

/-! ### Removing pairs -/

theorem removeIfPresent_triple {x : Place} (hs : x.streamId = s) :
    Triple c (On p s d) (removeIfPresent (x.path p)) (fun _ => On p s (Function.update d x none))
      (Faulted c (On p s d)) := by
  apply removeIfPresent_of
  cases hd : d x with
  | none =>
    have hsame : Function.update d x none = d := by rw [← hd, Function.update_eq_self]
    rw [hsame]
    refine (removeFile_missing hs hd).conseq (fun _ h => h) (fun _ _ h => h.elim) fun e t h => ?_
    obtain ⟨hgone, hfailed⟩ := absent_of_missing (x.path p) h fun h => h
    exact ⟨hgone, fun he => (hfailed he).faulted⟩
  | some st =>
    refine (removeFile_triple hs hd).exits fun e t h => ?_
    obtain ⟨hne, hfailed⟩ := failed_of_struck (x.path p) h
    exact ⟨fun he => absurd he hne, fun _ => hfailed.faulted⟩

/-- `J` is kept where a pair is removed. -/
def KeptByRemoval (J : Disk → Prop) (f : LogFileId) : Prop :=
  ∀ d, J d → J (Function.update d (.log f) none) ∧ J (Function.update d (.index f) none)

/-- Nothing of a pair is left. -/
def Gone (d : Disk) (f : LogFileId) : Prop := d (.log f) = none ∧ d (.index f) = none

theorem Gone.update {f : LogFileId} (h : Gone d f) (x : Place) :
    Gone (Function.update d x none) f := by
  refine ⟨?_, ?_⟩
  · rw [Function.update_apply]
    split
    · rfl
    · exact h.1
  · rw [Function.update_apply]
    split
    · rfl
    · exact h.2

theorem Gone.link {f : LogFileId} (h : Gone d f) (q : Path) : Gone (d.link p q) f := by
  refine ⟨?_, ?_⟩
  · rw [Disk.link, h.1]
    exact ite_self _
  · rw [Disk.link, h.2]
    exact ite_self _

theorem removePairs_triple : ∀ (files : List LogFileId) {J : Disk → Prop},
    (∀ f ∈ files, f.streamId = s) → (∀ f ∈ files, KeptByRemoval J f) →
    Triple c (Holding p s J) (p.removePairs files)
      (fun _ => Holding p s fun d => J d ∧ ∀ f ∈ files, Gone d f)
      (Faulted c (Holding p s J)) := by
  intro files
  induction files with
  | nil => exact fun _ _ => .pure fun t ⟨d, h, hJ⟩ => ⟨d, h, hJ, by simp⟩
  | cons f files ih =>
    intro J hs hJ
    have hf := hJ f List.mem_cons_self
    refine .bind (R := fun _ => Holding p s fun d => J d ∧ d (.log f) = none) ?_ fun _ => ?_
    · rintro w ⟨d, h, hd⟩ hc
      refine ((removeIfPresent_triple (c := c) (d := d) (x := .log f)
        (hs f List.mem_cons_self)).conseq (fun _ h => h) ?_ ?_) w h hc
      · exact fun _ t h => ⟨_, h, (hf d hd).1, Function.update_self _ _ _⟩
      · exact fun e t h => h.mono fun t h => ⟨d, h, hd⟩
    refine .bind (R := fun _ => Holding p s fun d => J d ∧ Gone d f) ?_ fun _ => ?_
    · rintro w ⟨d, h, hd, hlog⟩ hc
      refine ((removeIfPresent_triple (c := c) (d := d) (x := .index f)
        (hs f List.mem_cons_self)).conseq (fun _ h => h) ?_ ?_) w h hc
      · refine fun _ t h => ⟨_, h, (hf d hd).2, ?_, Function.update_self _ _ _⟩
        rw [Function.update_of_ne (by simp), hlog]
      · exact fun e t h => h.mono fun t h => ⟨d, h, hd⟩
    refine (ih (J := fun d => J d ∧ Gone d f) (fun g hg => hs g (List.mem_cons_of_mem f hg))
      fun g hg d hd => ?_).conseq (fun _ h => h) ?_ ?_
    · have hg := hJ g (List.mem_cons_of_mem f hg) d hd.1
      exact ⟨⟨hg.1, hd.2.update _⟩, hg.2, hd.2.update _⟩
    · rintro _ t ⟨d, h, ⟨hd, hgone⟩, hfiles⟩
      refine ⟨d, h, hd, fun g hg => ?_⟩
      rcases List.mem_cons.mp hg with rfl | hg
      · exact hgone
      · exact hfiles g hg
    · exact fun e t h => h.mono fun t ⟨d, h, hd⟩ => ⟨d, h, hd.1⟩

theorem syncIfPresent_triple (hJ : ∀ d q, J d → J (d.link p q)) {f : LogFileId}
    (hs : f.streamId = s) :
    Triple c (Holding p s J) (syncIfPresent (p.leafDirectory f)) (fun _ => Holding p s J)
      (Faulted c (Holding p s J)) := by
  apply syncIfPresent_of
  refine .ofState fun t ⟨d, h, hd⟩ => ?_
  by_cases hdir : t.isDir (p.leafDirectory f) = true
  · refine (syncDirectory_triple (p := p) (s := s) (d := d)).conseq ?_ ?_ fun e t' h' => ?_
    · intro t' ht'
      rw [ht']
      exact ⟨h, hdir⟩
    · exact fun _ t h => ⟨_, h, hJ d _ hd⟩
    · exact ⟨fun _ => ⟨d, h'.2.2, hd⟩, fun _ => h'.faulted.mono fun t h => ⟨d, h, hd⟩⟩
  · have hclear : t.Clear (p.leafDirectory f) := (h.1.clear_directory (x := .log f) hs).1
    have hnode : t.node? (p.leafDirectory f) = none := by
      have hrange := h.1.range 3 (f.fileNumber.get / 1000) (by decide)
      rw [← hs, ← leafDirectory_eq] at hrange
      rw [Tree.node?]
      rcases hg : t.get (p.leafDirectory f) with _ | ⟨node, linked⟩
      · rfl
      · rw [hg] at hrange
        cases node with
        | dir => exact absurd (Tree.isDir_iff.mpr (.inr (by rw [hg]; rfl))) hdir
        | link => cases hrange
        | file f => cases hrange
    refine .bind (R := fun _ _ => False) (.mapErr (.callAt ?_ ?_)) fun _ => fun _ h => h.elim
    · rw [if_neg hdir, hnode, hclear.lookupError]
      exact ⟨fun _ => ⟨d, h, hd⟩, fun hne => absurd ⟨_, rfl⟩ hne⟩
    · rintro (e | _ | _) ⟨hc, he | ⟨k, he⟩, -⟩ <;> cases he
      · exact ⟨fun _ => ⟨d, h, hd⟩, fun _ => ⟨hc, by simp, d, h, hd⟩⟩
      · exact ⟨fun _ => ⟨d, h, hd⟩, fun _ => ⟨hc, by simp, d, h, hd⟩⟩

theorem syncExisting_triple (hJ : ∀ d q, J d → J (d.link p q)) : ∀ paths : List Path,
    (∀ q ∈ paths, ∃ f : LogFileId, f.streamId = s ∧ q = p.leafDirectory f) →
    Triple c (Holding p s J) (syncExisting paths) (fun _ => Holding p s J)
      (Faulted c (Holding p s J)) := by
  intro paths
  induction paths with
  | nil => exact fun _ => .pure fun _ h => h
  | cons q paths ih =>
    intro h
    obtain ⟨f, hs, rfl⟩ := h q List.mem_cons_self
    exact .bind (syncIfPresent_triple hJ hs) fun _ => ih fun q hq => h q (List.mem_cons_of_mem _ hq)

/-- Removing a range of pairs. -/
theorem removeLogAndIndex_triple {first last : LogFileId} (hs : first.streamId = s)
    (h : LogFileId.Between first last last)
    (hJ : ∀ f, LogFileId.Between first last f → KeptByRemoval J f)
    (hlink : ∀ d q, J d → J (d.link p q)) :
    Triple c (Holding p s J) (p.removeLogAndIndex first last)
      (fun _ => Holding p s fun d => J d ∧ ∀ f, LogFileId.Between first last f → Gone d f)
      (Faulted c (Holding p s J)) := by
  have hmem := fun f => LogFileId.mem_visited (f := f) h
  have hstream : ∀ f ∈ LogFileId.successors (last.fileNumber.get - first.fileNumber.get) first,
      f.streamId = s := fun f hf => ((hmem f).mp hf).1.trans hs
  simp only [removeLogAndIndex, LogFileId.iterTo_eq h, LogFileId.visited_eq h, Io.unwrap_bind]
  refine .bind (removePairs_triple (J := J) _ hstream fun f hf => hJ f ((hmem f).mp hf)) fun _ => ?_
  refine (syncExisting_triple ?_ _ ?_).conseq (fun _ h => h) ?_ ?_
  · exact fun d q hd => ⟨hlink d q hd.1, fun f hf => (hd.2 f hf).link q⟩
  · intro q hq
    obtain ⟨f, hf, rfl⟩ := List.mem_map.mp (List.mem_dedup.mp hq)
    exact ⟨f, hstream f hf, rfl⟩
  · exact fun _ t ⟨d, h, hd, hgone⟩ => ⟨d, h, hd, fun f hf => hgone f ((hmem f).mpr hf)⟩
  · exact fun e t h => h.mono fun t ⟨d, h, hd⟩ => ⟨d, h, hd.1⟩

/-! ### The checkpoint -/

/-- The checkpoint that is to be read. -/
def Reads [CheckpointReader] (d : Disk) (s : StreamId) : Option StreamCheckpoint → Prop
  | none => d (.checkpoint s) = none
  | some checkpoint => ∃ st, d (.checkpoint s) = some st ∧ st.file.content.length ≤ 4096 ∧
      CheckpointReader.fromSlice st.file.content = some checkpoint

/-- Moves the cursor of one file. -/
def moved (d : Disk) (x : Place) (k : Nat) : Disk :=
  Function.update d x ((d x).map (Stored.map (File.seekTo k)))

theorem moved_eq {x : Place} {st : Stored} (hd : d x = some st) (k : Nat) :
    moved d x k = Function.update d x (some ⟨st.file.seekTo k, st.linked⟩) := by
  rw [moved, hd]
  rfl

theorem readCheckpoint_triple [CheckpointReader] {r : Option StreamCheckpoint} (hr : Reads d s r) :
    Triple c (On p s d) (p.readCheckpoint s)
      (fun r' t => r' = r ∧ (On p s d t ∨ ∃ k, On p s (moved d (.checkpoint s) k) t))
      (Faulted c fun t => On p s d t ∨ ∃ k, On p s (moved d (.checkpoint s) k) t) := by
  cases r with
  | none =>
    refine readJson_of (R := fun _ => False) ((openFile_missing (x := .checkpoint s) rfl
      hr).exits fun e t h => ?_) fun _ h => h.elim
    obtain ⟨hnone, hfailed⟩ := absent_of_missing ((Place.checkpoint s).path p) h fun h => h
    exact ⟨fun he => ⟨rfl, .inl (hnone he)⟩, fun he => (hfailed he).faulted.mono fun _ h => .inl h⟩
  | some checkpoint =>
    obtain ⟨st, hst, hlen, hread⟩ := hr
    have hmoved : ∀ k, On p s (Function.update d (.checkpoint s) (some ⟨st.file.seekTo k, st.linked⟩)) =
        On p s (moved d (.checkpoint s) k) := fun k => by rw [moved_eq hst]
    have hfile : moved d (.checkpoint s) 0 (.checkpoint s) =
        some ⟨st.file.seekTo 0, st.linked⟩ := by
      rw [moved_eq hst, Function.update_self]
    have hagain : ∀ k, Function.update (moved d (.checkpoint s) 0) (.checkpoint s)
        (some ⟨(st.file.seekTo 0).seekTo k, st.linked⟩) = moved d (.checkpoint s) k := by
      intro k
      rw [moved_eq hst, moved_eq hst, Function.update_idem]
      rfl
    refine readJson_of (R := On p s (moved d (.checkpoint s) 0))
      ((openFile_triple (x := .checkpoint s) rfl hst).conseq (fun _ h => h) ?_ ?_)
      ((onFile_triple (x := .checkpoint s) rfl hfile
        (File.readToEnd_triple (f := st.file.seekTo 0))).conseq (fun _ h => h) ?_ ?_)
    · exact fun _ t h => hmoved 0 ▸ h
    · intro e t h
      obtain ⟨hne, hfailed⟩ := failed_of_struck ((Place.checkpoint s).path p) h
      exact ⟨fun he => absurd he hne, fun _ => hfailed.faulted.mono fun _ h => .inl h⟩
    · rintro bytes t ⟨f, ⟨hbytes, k, rfl⟩, h⟩
      have hcontent : bytes = st.file.content := by
        rw [hbytes]
        exact List.take_of_length_le (Nat.le_succ_of_le hlen)
      rw [hagain] at h
      rw [hcontent]
      exact ⟨hlen, checkpoint, hread, rfl, .inr ⟨k, h⟩⟩
    · rintro e t ⟨f, hX, h⟩
      obtain ⟨hc, hp, k, rfl⟩ := hX.map (StorageError.io (p.checkpointFilePath s))
      rw [hagain] at h
      exact ⟨hc, hp, .inr ⟨k, h⟩⟩

/-- The file holds a checkpoint, all of it durable. -/
def Holds (checkpoint : StreamCheckpoint) (f : File) : Prop := Complete checkpoint.toVec f

/-- The disk with a file published over the checkpoint. -/
def published (d : Disk) (s : StreamId) (f : File) : Disk :=
  Function.update (Function.update d (.pending s) none) (.checkpoint s) (some ⟨f, false⟩)

/-- The staging file has been opened, and satisfies `φ`. -/
def Staged (p : StorageProvider) (s : StreamId) (d : Disk) (φ : File → Prop) (t : Tree) : Prop :=
  ∃ st : Stored, φ st.file ∧ On p s (Function.update d (.pending s) (some st)) t

/-- Before a checkpoint is published, only its staging file is touched. -/
def Publishing (p : StorageProvider) (s : StreamId) (d : Disk) (checkpoint : StreamCheckpoint)
    (t : Tree) : Prop :=
  On p s d t ∨ Staged p s d (fun _ => True) t ∨
    ∃ f, Holds checkpoint f ∧ On p s (published d s f) t

theorem staged_triple {checkpoint : StreamCheckpoint} {α : Type} {m : Io File ErrorKind α}
    {φ ψ : File → Prop} {path : Path}
    (hm : ∀ f₀, φ f₀ → Triple c (fun f => f = f₀) m (fun _ => ψ) (Faulted c fun _ => True)) :
    Triple c (Staged p s d φ)
      (Io.mapErr (StorageError.io path) (Fs.onFile ((Place.pending s).path p) m))
      (fun _ => Staged p s d ψ) (Faulted c (Publishing p s d checkpoint)) := by
  refine .ofExists fun st => .assume fun hφ => .mapErr_faulted ?_
  refine (onFile_triple (x := .pending s) rfl (Function.update_self _ _ _) (hm _ hφ)).conseq
    (fun _ h => h) ?_ ?_
  · rintro _ t ⟨f, hf, h⟩
    rw [Function.update_idem] at h
    exact ⟨_, hf, h⟩
  · rintro e t ⟨f, ⟨hc, hp, -⟩, h⟩
    rw [Function.update_idem] at h
    exact ⟨hc, hp, .inr (.inl ⟨_, trivial, h⟩)⟩

/-- Publishing a checkpoint. -/
theorem writeCheckpoint_triple {checkpoint : StreamCheckpoint}
    (hs : checkpoint.endLocation.recordId.streamId = s) :
    Triple c (On p s d) (p.writeCheckpoint checkpoint)
      (fun _ t => ∃ f, Holds checkpoint f ∧
        On p s ((published d s f).link p (p.streamDirectory s)) t)
      (Faulted c (Publishing p s d checkpoint)) := by
  rw [writeCheckpoint, hs]
  refine writeAtomic_of (R := fun t => ∃ f, Holds checkpoint f ∧ On p s (published d s f) t)
    (Staged p s d) ?_ staged_triple ?_ ?_
  · refine (Triple.mapErr_faulted ((openTruncated_triple (x := .pending s) rfl).exits
      fun _ _ h => h.faulted)).conseq ?_ ?_ fun e t h => h.mono fun _ h => .inl h
    · exact fun t h => ⟨h, h.1.base⟩
    · exact fun _ t ⟨st, h1, h2, h⟩ => ⟨st, ⟨h1, h2⟩, h⟩
  · refine .ofExists fun st => .assume fun hst => .mapErr_faulted ?_
    refine (rename_triple (x := .pending s) (y := .checkpoint s) rfl rfl (by simp) rfl
      (Function.update_self _ _ _)).conseq (fun _ h => h) (fun _ t h => ⟨st.file, hst, ?_⟩) ?_
    · rwa [Function.update_idem] at h
    · exact fun e t h => h.faulted.mono fun t h => .inr (.inl ⟨st, trivial, h⟩)
  · rw [dropLast_checkpointFilePath]
    refine .ofExists fun f => .assume fun hf => ?_
    refine (syncDirectory_triple (p := p) (s := s) (d := published d s f)).conseq ?_ ?_ ?_
    · exact fun t h => ⟨h, h.1.base⟩
    · exact fun _ t h => ⟨_, hf, h⟩
    · exact fun e t h => h.faulted.mono fun t h => .inr (.inr ⟨_, hf, h⟩)

end StorageProvider

end TransactionLog
