import TransactionLog.Storage.Discovery
import TransactionLog.Storage.Operations

/-!
# Streams that are not there yet

Of a `Fresh` stream there are directories at most.  Even its own directory may be
missing, and then neither a checkpoint nor a log is found.  With the directories of its
first pair it becomes a stream that is there and has no files.
-/

namespace TransactionLog

open Lib

variable {p : StorageProvider} {s : StreamId} {t : Tree} {d : Disk} {c : Mode} {q : Path} {x : Place}

/-- The directories on the way to the files of a stream. -/
def OnWay (p : StorageProvider) (s : StreamId) (q : Path) : Prop :=
  (∃ n, n < (p.streamDirectory s).length ∧ q = (p.streamDirectory s).take (n + 1)) ∨
    ∃ depth n, depth < 4 ∧ q = StorageProvider.dirPath p s (depth + 1) n

/-- Nothing but directories is there of the stream. -/
structure Fresh (p : StorageProvider) (s : StreamId) (t : Tree) : Prop where
  way : ∀ q, OnWay p s q → isRange (t.get q) = true
  empty : ∀ x : Place, x.streamId = s → t.get (x.path p) = none

/-- The stream has no files. -/
def Blank (s : StreamId) (d : Disk) : Prop := ∀ x : Place, x.streamId = s → d x = none

/-! ### The way -/

theorem Place.length_path (x : Place) : p.rootDirectory.length + 2 < (x.path p).length := by
  cases x with
  | log id =>
    rw [path, StorageProvider.logFilePath, StorageProvider.length_logOrIndexFilePath]
    omega
  | index id =>
    rw [path, StorageProvider.indexFilePath, StorageProvider.length_logOrIndexFilePath]
    omega
  | checkpoint s => rw [path, StorageProvider.length_checkpointFilePath]; omega
  | pending s => rw [path, StorageProvider.length_pendingFilePath]; omega

theorem OnWay.ne_path (h : OnWay p s q) (x : Place) : q ≠ x.path p := by
  intro hq
  rcases h with ⟨n, -, rfl⟩ | ⟨depth, n, hdepth, rfl⟩
  · have hle := List.length_take_le' (n + 1) (p.streamDirectory s)
    have hlt := x.length_path (p := p)
    rw [hq, StorageProvider.length_streamDirectory] at hle
    omega
  · exact dirPath_ne_path hdepth s x hq

theorem onWay_of_mem_ancestors : ∀ depth n, depth ≤ 4 →
    ∀ q ∈ Fs.ancestors (StorageProvider.dirPath p s depth n), OnWay p s q := by
  intro depth
  induction depth with
  | zero =>
    intro n _ q hq
    obtain ⟨m, hm, rfl⟩ := List.mem_map.mp hq
    exact .inl ⟨m, List.mem_range.mp hm, rfl⟩
  | succ depth ih =>
    intro n hdepth q hq
    rw [StorageProvider.dirPath, StorageProvider.ancestors_concat, List.mem_append] at hq
    rcases hq with hq | hq
    · exact ih _ (Nat.le_of_succ_le hdepth) q hq
    · exact .inr ⟨depth, n, hdepth, List.mem_singleton.mp hq⟩

namespace Fresh

theorem created (h : Fresh p s t) (hway : OnWay p s q) (hfree : t.Free q) :
    Fresh p s (t.created q .dir) where
  way q' hq' := by
    rw [Tree.get_created hfree]
    split
    · rfl
    · exact h.way q' hq'
  empty x hx := by
    rw [Tree.get_created hfree, if_neg (hway.ne_path x).symm]
    exact h.empty x hx

theorem file?_eq_none (h : Fresh p s t) (hway : OnWay p s q) : t.file? q = none := by
  have hrange := h.way q hway
  rw [Tree.file?, Tree.node?]
  rcases hget : t.get q with _ | ⟨node, linked⟩
  · rfl
  · rw [hget] at hrange
    cases node with
    | dir => rfl
    | link => rfl
    | file f => cases hrange

theorem onWay_streamDirectory (p : StorageProvider) (s : StreamId) :
    OnWay p s (p.streamDirectory s) := by
  have hlen := StorageProvider.length_streamDirectory p s
  refine .inl ⟨p.rootDirectory.length + 1, by omega, ?_⟩
  rw [List.take_of_length_le (by omega)]

theorem clear (h : Fresh p s t) : t.Clear (p.streamDirectory s) := by
  intro n hn
  exact h.file?_eq_none (.inl ⟨n, Nat.lt_of_succ_lt hn, rfl⟩)

/-- With its directory it is a stream without files. -/
theorem on (h : Fresh p s t) (hbase : t.isDir (p.streamDirectory s) = true) :
    ∃ d, Blank s d ∧ On p s d t := by
  refine ⟨diskOf p t, fun x hx => ?_, ⟨hbase, fun depth n hdepth => ?_, fun x hx => ?_⟩, rfl⟩
  · rw [diskOf, h.empty x hx]
    rfl
  · exact h.way _ (.inr ⟨depth, n, hdepth, rfl⟩)
  · rw [h.empty x hx]
    rfl

end Fresh

theorem fresh_of_on (h : On p s d t) (hblank : Blank s d) : Fresh p s t where
  way q hq := by
    rcases hq with ⟨n, hn, rfl⟩ | ⟨depth, n, hdepth, rfl⟩
    · have hdir := StorageProvider.isDir_of_mem_ancestors h.1.base _
        (List.mem_map.mpr ⟨n, List.mem_range.mpr hn, rfl⟩)
      rcases Tree.isDir_iff.mp hdir with hnil | hentry
      · have := congrArg List.length hnil
        rw [List.length_take, List.length_nil] at this
        omega
      · rcases hget : t.get ((p.streamDirectory s).take (n + 1)) with _ | ⟨node, linked⟩
        · rfl
        · rw [hget] at hentry
          cases node <;> first | rfl | cases hentry
    · exact h.1.range depth n hdepth
  empty x hx := h.get_none hx (hblank x hx)

namespace StorageProvider

/-- Making the directories on the way. -/
theorem createDirAll_fresh : ∀ q : Path, (∀ q' ∈ Fs.ancestors q, OnWay p s q') →
    Triple c (Fresh p s) (Fs.createDirAll q) (fun _ t => Fresh p s t ∧ t.isDir q = true)
      (Faulted c (Fresh p s)) := by
  intro q
  induction q using List.reverseRecOn with
  | nil => exact fun _ => .pure fun t h => ⟨h, rfl⟩
  | append_singleton q n ih =>
    intro hway
    rw [ancestors_concat] at hway
    rw [Fs.createDirAll, ancestors_concat, createDirs_append]
    refine .bind (ih fun q' hq' => hway q' (List.mem_append_left _ hq')) fun _ => ?_
    refine .ofState fun t hready => ?_
    have hlast : OnWay p s (q ++ [n]) := hway _ (List.mem_append_right _ (List.mem_singleton_self _))
    refine .bind ((createDir_range hready.2 (hready.1.way _ hlast)).conseq (fun _ h => h) ?_ ?_)
      fun _ => .pure fun _ h => h
    · intro _ t' h
      refine ⟨?_, h.1⟩
      rcases h.2 with rfl | ⟨hfree, rfl⟩
      · exact hready.1
      · exact hready.1.created hlast hfree
    · intro e t' h
      rw [Struck] at h
      obtain ⟨hc, he, rfl⟩ := h
      exact Struck.faulted ⟨hc, he, hready.1⟩

/-- There is no checkpoint to read. -/
theorem readCheckpoint_fresh [CheckpointReader] (h : Fresh p s t) :
    Triple c (fun t' => t' = t) (p.readCheckpoint s) (fun r t' => r = none ∧ t' = t)
      (Faulted c fun t' => t' = t) := by
  have hnode : t.node? (p.checkpointFilePath s) = none := by
    rw [Tree.node?, show t.get (p.checkpointFilePath s) = none from h.empty (.checkpoint s) rfl]
    rfl
  have hlookup : t.lookupError (p.checkpointFilePath s) = .notFound :=
    (h.clear.concat (h.file?_eq_none (Fresh.onWay_streamDirectory p s)) _).lookupError
  refine .bind (R := fun r t' => (r = .error .notFound ∨
    ¬ c.calm ∧ ∃ e, r = .error e ∧ e ≠ .notFound) ∧ t' = t) (.attempt (.callAt ?_ ?_)) fun r =>
      .assume fun hr => ?_
  · rw [hnode]
    exact ⟨.inl (congrArg Except.error hlookup), rfl⟩
  · intro e he
    obtain ⟨hc, he, -⟩ := he
    rcases he with rfl | ⟨k, rfl⟩
    · exact ⟨hc, by simp, rfl⟩
    · exact ⟨.inr ⟨hc, _, rfl, k.kind_ne_notFound⟩, rfl⟩
  · rcases hr with rfl | ⟨hc, e, rfl, he⟩
    · exact .pure fun t' ht' => ⟨rfl, ht'⟩
    · cases e <;> first | exact absurd rfl he | exact .throw fun t' ht' => ⟨hc, by simp, ht'⟩

/-- There is no log to find. -/
theorem maximumLogFile_missing (h : Fresh p s t) (hbase : ¬ t.isDir (p.streamDirectory s) = true) :
    Triple c (fun t' => t' = t) (p.maximumLogFile s) (fun r t' => r = none ∧ t' = t)
      (Faulted c fun t' => t' = t) := by
  have hget : t.get (p.streamDirectory s) = none := by
    have hrange := h.way _ (Fresh.onWay_streamDirectory p s)
    rcases hget : t.get (p.streamDirectory s) with _ | ⟨node, linked⟩
    · rfl
    · rw [hget] at hrange
      cases node with
      | dir => exact absurd (Tree.isDir_iff.mpr (.inr (by rw [hget]; rfl))) hbase
      | link => cases hrange
      | file f => cases hrange
  exact maximumLogFile_triple_missing hget h.clear

/-- A pair is created with the directories that it is in. -/
theorem createLogAndIndex_fresh {f : LogFileId} (hs : f.streamId = s) :
    Triple c (Fresh p s) (p.createLogAndIndex f)
      (fun _ t => ∃ d, Blank s d ∧ On p s (created (created d (.log f)) (.index f)) t)
      (fun e t => ¬ c.calm ∧ e ≠ .panicked ∧
        (Fresh p s t ∨ ∃ d, Blank s d ∧ On p s (created d (.log f)) t)) := by
  subst hs
  refine .bind (R := fun _ t => Fresh p f.streamId t ∧ t.isDir (p.leafDirectory f) = true)
    ((Triple.mapErr_faulted ?_).exits fun e t h => ⟨h.1, h.2.1, .inl h.2.2⟩) fun _ => ?_
  · rw [leafDirectory_eq]
    exact createDirAll_fresh _ (onWay_of_mem_ancestors 4 _ (Nat.le_refl 4))
  refine .ofState fun t hready => ?_
  obtain ⟨h, hleaf⟩ := hready
  have hbase : t.isDir (p.streamDirectory f.streamId) = true := by
    refine isDir_of_mem_ancestors hleaf _ (List.mem_map.mpr ⟨p.rootDirectory.length + 1, ?_, ?_⟩)
    · rw [List.mem_range, length_leafDirectory]
      omega
    · rw [leafDirectory, List.take_append_of_le_length, List.take_of_length_le] <;>
        rw [length_streamDirectory]
  obtain ⟨d, hblank, hon⟩ := h.on hbase
  refine .bind ((Triple.mapErr_faulted ((createNew_triple (x := .log f) rfl (hblank _ rfl)).exits
    fun _ _ h => h.faulted)).conseq ?_ (fun _ _ h => h) ?_) fun _ => ?_
  · rintro _ rfl
    exact ⟨hon, hleaf⟩
  · exact fun e t' h => ⟨h.1, h.2.1, .inl (fresh_of_on h.2.2 hblank)⟩
  have hindex : created d (.log f) (.index f) = none :=
    (Function.update_of_ne (by simp) _ _).trans (hblank _ rfl)
  refine (Triple.mapErr_faulted ((createNew_triple (x := .index f) rfl hindex).exits
    fun _ _ h => h.faulted)).conseq ?_ ?_ ?_
  · exact fun t h => ⟨h, h.isDir_directory (x := .log f) rfl (Function.update_self _ _ _)⟩
  · exact fun _ t h => ⟨d, hblank, h⟩
  · exact fun e t h => ⟨h.1, h.2.1, .inr ⟨d, hblank, h.2.2⟩⟩

end StorageProvider

end TransactionLog
