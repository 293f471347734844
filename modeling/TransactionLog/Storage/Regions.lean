import TransactionLog.Lib.Region
import TransactionLog.Storage.Names

/-!
# The region of a stream

Every operation for a stream stays in the region of the stream's directory: what it finds
depends on that region alone, and it changes nothing elsewhere.

The search for the maximum log is the one operation whose loop is bounded by the size of
the whole tree.  It has turns to spare in any tree, so the bound does not show.
-/

namespace TransactionLog

open Lib Lib.Tree

namespace StorageProvider

open Lib.Respects (pure throw bind getBind mapErr loop ofExactly iterate_of_measure)

variable {p : StorageProvider} {s : StreamId} {t t' t₀ t₀' : Tree} {path : Path} {f : LogFileId}

/-- The trees have the same region of the stream. -/
abbrev Agree (p : StorageProvider) (s : StreamId) (t₀ t₀' : Tree) : Tree → Tree → Prop :=
  Apart (p.streamDirectory s) t₀ t₀'

/-! ### Paths of a stream -/

theorem below_leafDirectory (hf : f.streamId = s) :
    below (p.streamDirectory s) (p.leafDirectory f) = true := by
  rw [leafDirectory, hf]
  exact below_append _ _

theorem below_logOrIndexFilePath (hf : f.streamId = s) (extension : Name) :
    below (p.streamDirectory s) (p.logOrIndexFilePath f extension) = true :=
  below_of_isPrefix (below_leafDirectory hf) (List.prefix_append _ _)

theorem below_logFilePath (hf : f.streamId = s) :
    below (p.streamDirectory s) (p.logFilePath f) = true := below_logOrIndexFilePath hf _

theorem below_indexFilePath (hf : f.streamId = s) :
    below (p.streamDirectory s) (p.indexFilePath f) = true := below_logOrIndexFilePath hf _

theorem below_streamDirectory : below (p.streamDirectory s) (p.streamDirectory s) = true :=
  below_iff.mpr (List.prefix_refl _)

theorem below_checkpointFilePath :
    below (p.streamDirectory s) (p.checkpointFilePath s) = true := below_append _ _

theorem below_pendingFilePath : below (p.streamDirectory s) (p.pendingFilePath s) = true := by
  rw [pendingFilePath_eq]
  exact below_append _ _

/-- The directories of different streams are beside each other. -/
theorem beside_of_ne {s' : StreamId} {q : Path} (hne : s ≠ s')
    (hq : below (p.streamDirectory s) q = true) : beside (p.streamDirectory s') q = true := by
  rw [beside_iff]
  intro hq'
  have hlen : (p.streamDirectory s).length = (p.streamDirectory s').length := by
    rw [length_streamDirectory, length_streamDirectory]
  rcases List.prefix_or_prefix_of_prefix (below_iff.mp hq) hq' with h | h
  · exact hne (p.streamDirectory_injective (h.eq_of_length hlen))
  · exact hne (p.streamDirectory_injective (h.eq_of_length hlen.symm).symm)

/-! ### Creating, opening and removing files -/

theorem respects_createLogAndIndex (hf : f.streamId = s) :
    Respects (Agree p s t₀ t₀') (p.createLogAndIndex f) (p.createLogAndIndex f) :=
  bind (mapErr (Fs.respects_createDirAll (below_leafDirectory hf))) fun _ =>
    bind (mapErr (Fs.respects_createNew (below_logFilePath hf))) fun _ =>
      mapErr (Fs.respects_createNew (below_indexFilePath hf))

theorem respects_openLogForValidation (hf : f.streamId = s) :
    Respects (Agree p s t₀ t₀') (p.openLogForValidation f) (p.openLogForValidation f) :=
  mapErr (Fs.respects_openFile (below_logFilePath hf))

theorem respects_syncDirectory (hp : below (p.streamDirectory s) path = true) :
    Respects (Agree p s t₀ t₀') (syncDirectory path) (syncDirectory path) :=
  bind (mapErr (Fs.respects_openDir hp)) fun _ => mapErr (Fs.respects_syncAll hp)

theorem respects_openIndexForRepair (hf : f.streamId = s) :
    Respects (Agree p s t₀ t₀') (p.openIndexForRepair f) (p.openIndexForRepair f) :=
  bind (mapErr (Fs.respects_openOrCreate (below_indexFilePath hf))) fun _ =>
    respects_syncDirectory (below_leafDirectory hf)

theorem respects_removeIfPresent (hp : below (p.streamDirectory s) path = true) :
    Respects (Agree p s t₀ t₀') (removeIfPresent path) (removeIfPresent path) := by
  refine bind (Respects.attempt (Fs.respects_removeFile hp)) fun r => ?_
  split
  · exact pure
  · exact pure
  · exact throw

theorem respects_removePairs : ∀ files : List LogFileId, (∀ f ∈ files, f.streamId = s) →
    Respects (Agree p s t₀ t₀') (p.removePairs files) (p.removePairs files) := by
  intro files
  induction files with
  | nil => exact fun _ => pure
  | cons f files ih =>
    intro h
    have hf := h f List.mem_cons_self
    exact bind (respects_removeIfPresent (below_logFilePath hf)) fun _ =>
      bind (respects_removeIfPresent (below_indexFilePath hf)) fun _ =>
        ih fun g hg => h g (List.mem_cons_of_mem f hg)

theorem respects_syncIfPresent (hp : below (p.streamDirectory s) path = true) :
    Respects (Agree p s t₀ t₀') (syncIfPresent path) (syncIfPresent path) := by
  refine bind (Respects.attempt (respects_syncDirectory hp)) fun r => ?_
  split
  · exact pure
  · exact pure
  · exact throw

theorem respects_syncExisting : ∀ paths : List Path,
    (∀ q ∈ paths, below (p.streamDirectory s) q = true) →
    Respects (Agree p s t₀ t₀') (syncExisting paths) (syncExisting paths) := by
  intro paths
  induction paths with
  | nil => exact fun _ => pure
  | cons q paths ih =>
    intro h
    exact bind (respects_syncIfPresent (h q List.mem_cons_self)) fun _ =>
      ih fun q' hq' => h q' (List.mem_cons_of_mem q hq')

theorem respects_removeLogAndIndex {last : LogFileId} (hf : f.streamId = s) :
    Respects (Agree p s t₀ t₀') (p.removeLogAndIndex f last) (p.removeLogAndIndex f last) := by
  unfold removeLogAndIndex
  cases hit : f.iterTo last with
  | error e => exact throw
  | ok it =>
    have hfiles : Returns (Io.unwrap (LogFileId.visited last it) : Io Tree StorageError _)
        fun files => ∀ g ∈ files, g.streamId = s :=
      .unwrap fun files hfiles g hg => (LogFileId.Visits.streamId ⟨it, hit, hfiles⟩ hg).trans hf
    refine Respects.bindOf Respects.unwrap hfiles fun files hstream => ?_
    refine bind (respects_removePairs files hstream) fun _ => respects_syncExisting _ fun q hq => ?_
    obtain ⟨g, hg, rfl⟩ := List.mem_map.mp (List.mem_dedup.mp hq)
    exact below_leafDirectory (hstream g hg)

/-! ### The checkpoint -/

theorem respects_readCheckpoint [CheckpointReader] :
    Respects (Agree p s t₀ t₀') (p.readCheckpoint s) (p.readCheckpoint s) := by
  unfold readCheckpoint readJson
  refine bind (Respects.attempt (Fs.respects_openFile below_checkpointFilePath)) fun r => ?_
  split
  · exact pure
  · exact throw
  · refine bind (mapErr (Fs.respects_onFile below_checkpointFilePath _)) fun bytes => ?_
    split
    · exact throw
    split
    · exact throw
    · exact pure

theorem respects_writeCheckpoint {checkpoint : StreamCheckpoint}
    (hs : checkpoint.endLocation.recordId.streamId = s) :
    Respects (Agree p s t₀ t₀') (p.writeCheckpoint checkpoint) (p.writeCheckpoint checkpoint) := by
  unfold writeCheckpoint writeAtomic
  rw [hs]
  have hpending : below (p.streamDirectory s)
      (withAddedExtension (p.checkpointFilePath s) (ascii "pending")) = true :=
    below_pendingFilePath
  have hne : p.checkpointFilePath s ≠ p.streamDirectory s :=
    ne_of_length (by rw [length_checkpointFilePath, length_streamDirectory]; omega)
  refine bind (mapErr (Fs.respects_openTruncated hpending)) fun _ =>
    bind (mapErr (Fs.respects_onFile hpending _)) fun _ =>
    bind (mapErr (Fs.respects_onFile hpending _)) fun _ =>
    bind (mapErr (Fs.respects_onFile hpending _)) fun _ =>
    bind (mapErr (Fs.respects_rename hpending below_checkpointFilePath hne)) fun _ => ?_
  rw [dropLast_checkpointFilePath]
  exact respects_syncDirectory below_streamDirectory

/-! ### Finding the maximum log -/

section Reading

variable {R : Tree → Tree → Prop} (hR : ∀ t t', R t t' → Agree p s t₀ t₀' t t')

include hR

theorem respects_rangeChildren {a : PendingDirectory}
    (ha : below (p.streamDirectory s) a.path = true) : ∀ names : List Name,
    Respects R (rangeChildren a names) (rangeChildren a names) := by
  intro names
  induction names with
  | nil => exact bind (mapErr Fs.respects_nextEntry) fun _ => pure
  | cons name names ih =>
    refine bind (mapErr Fs.respects_nextEntry) fun _ => ?_
    cases hrange : rangeDirectory a name with
    | none => exact ih
    | some b =>
      have hb : below (p.streamDirectory s) b.path = true := by
        rw [(path_of_rangeDirectory hrange).1]
        exact below_of_isPrefix ha (List.prefix_append _ _)
      exact bind (mapErr (Fs.respects_fileType hR hb)) fun _ => bind ih fun _ => pure

theorem respects_rangeDirectories {a : PendingDirectory}
    (ha : below (p.streamDirectory s) a.path = true) :
    Respects R (rangeDirectories a) (rangeDirectories a) := by
  refine bind (Respects.attempt (Fs.respects_readDir hR ha)) fun r => ?_
  cases r with
  | error e =>
    simp only
    split
    · exact pure
    · exact throw
  | ok names => exact bind (respects_rangeChildren hR ha names) fun _ => pure

theorem respects_maximumLogAmong (hp : below (p.streamDirectory s) path = true) :
    ∀ (names : List Name) (maximum : Option LogFileId),
    Respects R (p.maximumLogAmong s path maximum names) (p.maximumLogAmong s path maximum names) := by
  intro names
  induction names with
  | nil => exact fun _ => bind (mapErr Fs.respects_nextEntry) fun _ => pure
  | cons name names ih =>
    intro maximum
    refine bind (mapErr Fs.respects_nextEntry) fun _ => ?_
    cases p.candidate s path name with
    | none => exact ih maximum
    | some id =>
      have hname := below_of_isPrefix hp (List.prefix_append path [name])
      exact bind (mapErr (Fs.respects_fileType hR hname)) fun _ => ih _

theorem respects_maximumLogInDirectory (hp : below (p.streamDirectory s) path = true) :
    Respects R (p.maximumLogInDirectory s path) (p.maximumLogInDirectory s path) :=
  bind (mapErr (Fs.respects_readDir hR hp)) fun names => respects_maximumLogAmong hR hp names none

theorem respects_searchTurn {stack : List PendingDirectory}
    (hstack : ∀ a ∈ stack, below (p.streamDirectory s) a.path = true) :
    Respects R (p.searchTurn s stack) (p.searchTurn s stack) := by
  cases stack with
  | nil => exact pure
  | cons a stack =>
    have ha := hstack a List.mem_cons_self
    rw [searchTurn]
    split
    · refine bind (respects_maximumLogInDirectory hR ha) fun r => ?_
      cases r with
      | none => exact pure
      | some id => exact pure
    · exact bind (respects_rangeDirectories hR ha) fun _ => pure

end Reading

theorem visits_mono {n m : Nat} (h : n ≤ m) : ∀ depth, visits n depth ≤ visits m depth
  | 0 => Nat.le_refl 1
  | depth + 1 => Nat.succ_le_succ (Nat.mul_le_mul (visits_mono h depth) h)

theorem below_of_placed {a : PendingDirectory} (h : Placed p s t a) :
    below (p.streamDirectory s) a.path = true := by
  have hdir : ∀ depth n, below (p.streamDirectory s) (dirPath p s depth n) = true := by
    intro depth
    induction depth with
    | zero => exact fun _ => below_streamDirectory
    | succ depth ih => exact fun n => below_of_isPrefix (ih (n / 1000)) (List.prefix_append _ _)
  rw [h.path]
  exact hdir _ _

/-- How many child ranges a directory has does not depend on the rest of the tree. -/
theorem length_sortedRanges_le_min (h : SameIn (below (p.streamDirectory s)) t t')
    {a : PendingDirectory} (ha : Placed p s t a) :
    (sortedRanges t a).length ≤ min t.names.length t'.names.length := by
  refine Nat.le_min.mpr ⟨length_sortedRanges_le t a, ?_⟩
  rw [sortedRanges, List.length_insertionSort, ← h.children (below_of_placed ha)]
  exact Nat.le_trans (List.length_filterMap_le _ _) (length_children_le t' a.path)

/-- A turn of the search leaves fewer directories, for any bound on the ranges of one. -/
theorem searchTurn_remaining {N : Nat}
    (hN : ∀ a, Placed p s t a → (sortedRanges t a).length ≤ N) {stack : List PendingDirectory}
    (hstack : ∀ a ∈ stack, Placed p s t a) :
    Triple ⟨False, fun _ => True⟩ (fun t' => t' = t) (p.searchTurn s stack)
      (fun r _ => ∀ stack', r = .inl stack' → (∀ a ∈ stack', Placed p s t a) ∧
        remaining N stack' < remaining N stack)
      (fun _ _ => True) := by
  cases stack with
  | nil =>
    refine .pure ?_
    rintro _ - _ ⟨⟩
  | cons a stack =>
    have ha := hstack a List.mem_cons_self
    have hrest : ∀ b ∈ stack, Placed p s t b := fun b hb => hstack b (List.mem_cons_of_mem a hb)
    have hcons : remaining N (a :: stack) = visits N (4 - a.depth) + remaining N stack := rfl
    rw [searchTurn, hcons]
    by_cases hdepth : a.depth = 4
    · rw [if_pos hdepth]
      refine .bind ((maximumLogInDirectory_triple ha hdepth).exits fun _ _ _ => trivial) fun r => ?_
      cases r with
      | some m =>
        refine .pure ?_
        rintro _ - _ ⟨⟩
      | none =>
        refine .pure ?_
        rintro _ - _ ⟨⟩
        rw [hdepth, Nat.sub_self, visits]
        exact ⟨hrest, by omega⟩
    · rw [if_neg hdepth]
      have hdepth : a.depth < 4 := Nat.lt_of_le_of_ne ha.depth_le hdepth
      refine .bind ((rangeDirectories_triple ha).exits fun _ _ _ => trivial) fun children => ?_
      refine .pure ?_
      rintro _ ⟨rfl, -⟩ _ ⟨⟩
      have hplaced : ∀ b ∈ sortedRanges t a, Placed p s t b ∧ b.depth = a.depth + 1 := by
        intro b hb
        obtain ⟨name, hr, hdir⟩ := mem_sortedRanges hb
        obtain ⟨-, hd, hpath, hlt, -⟩ := rangeDirectory_eq_some ha hr
        exact ⟨⟨by omega, hlt, hpath, hdir⟩, hd⟩
      refine ⟨fun b hb => ?_, ?_⟩
      · rcases List.mem_append.mp hb with hb | hb
        · exact (hplaced b hb).1
        · exact hrest b hb
      · have hle := remaining_le (n := N) (sortedRanges t a)
          (v := visits N (4 - (a.depth + 1))) fun b hb => by rw [(hplaced b hb).2]
        have hlen := Nat.mul_le_mul_right (visits N (4 - (a.depth + 1))) (hN a ha)
        have hvisits : visits N (4 - a.depth) = visits N (4 - (a.depth + 1)) * N + 1 := by
          rw [show 4 - a.depth = 4 - (a.depth + 1) + 1 by omega]
          rfl
        show remaining N (sortedRanges t a ++ stack) < _
        rw [remaining, List.map_append, List.sum_append, hvisits, Nat.mul_comm]
        show remaining N (sortedRanges t a) + remaining N stack < _
        omega

theorem respects_maximumLogFile :
    Respects (Agree p s t₀ t₀') (p.maximumLogFile s) (p.maximumLogFile s) := by
  refine ofExactly fun t t' h => ?_
  refine getBind fun _ _ hexact => ?_
  obtain ⟨rfl, rfl⟩ := hexact
  rename_i t t'
  have hroot : Placed p s t ⟨p.streamDirectory s, 0, 0⟩ :=
    ⟨Nat.zero_le 4, Nat.zero_lt_one, rfl, h.isDir⟩
  have hfuel : ∀ n, min t.names.length t'.names.length ≤ n →
      remaining (min t.names.length t'.names.length) [⟨p.streamDirectory s, 0, 0⟩] <
        visits n 4 + 1 :=
    fun n hn => Nat.lt_succ_of_le (visits_mono hn 4)
  refine iterate_of_measure (fun stack => ∀ a ∈ stack, Placed p s t a)
    (remaining (min t.names.length t'.names.length)) ?_ ?_ _ _ _ ?_
    (hfuel _ (Nat.min_le_left _ _)) (hfuel _ (Nat.min_le_right _ _))
  · intro stack hstack
    have hsame : ∀ t₁ t₁', t₁ = t ∧ t₁' = t' → Agree p s t₀ t₀' t₁ t₁' := by
      rintro _ _ ⟨rfl, rfl⟩
      exact h
    exact respects_searchTurn hsame fun a ha => below_of_placed (hstack a ha)
  · intro stack hstack plan stack' hrun
    have hturn := (searchTurn_remaining (fun a ha => length_sortedRanges_le_min h.inside ha) hstack
      ⟨t, plan⟩ rfl plan.within_any).2
    rw [hrun] at hturn
    exact hturn stack' rfl
  · intro a ha
    obtain rfl := List.mem_singleton.mp ha
    exact hroot

end StorageProvider

end TransactionLog
