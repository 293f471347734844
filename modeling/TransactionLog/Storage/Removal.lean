import TransactionLog.Lib.TreeRules
import TransactionLog.Storage.Operations

/-!
# Removing a range of pairs

The removal of a range, on any tree and through any interruptions: what is gone at
every point of it, and what is left when it has gone through.
-/

namespace TransactionLog

open Lib Tree

namespace StorageProvider

variable {p : StorageProvider} {c : Mode} {t t' t'' : Tree}

/-! ### The paths in the order of their removal -/

/-- The paths that a removal of the pairs visits. -/
def removalOrder (p : StorageProvider) (files : List LogFileId) : List Path :=
  files.flatMap fun f => [p.logFilePath f, p.indexFilePath f]

def removeEach : List Path → Io Tree StorageError Unit
  | [] => pure ()
  | path :: paths => do
    removeIfPresent path
    removeEach paths

theorem removalOrder_cons (f : LogFileId) (files : List LogFileId) :
    p.removalOrder (f :: files) =
      p.logFilePath f :: p.indexFilePath f :: p.removalOrder files := rfl

theorem removePairs_eq (files : List LogFileId) :
    p.removePairs files = removeEach (p.removalOrder files) := by
  induction files with
  | nil => rfl
  | cons f files ih => rw [removePairs, ih, removalOrder_cons, removeEach, removeEach]

theorem mem_removalOrder {files : List LogFileId} {path : Path} :
    path ∈ p.removalOrder files ↔
      ∃ f ∈ files, path = p.logFilePath f ∨ path = p.indexFilePath f := by
  rw [removalOrder, List.mem_flatMap]
  simp

theorem length_of_mem_removalOrder {files : List LogFileId} {path : Path}
    (h : path ∈ p.removalOrder files) : path.length = p.rootDirectory.length + 7 := by
  obtain ⟨f, -, rfl | rfl⟩ := mem_removalOrder.mp h
  · exact length_logOrIndexFilePath p f _
  · exact length_logOrIndexFilePath p f _

/-- Where an index is among the first paths, its log is. -/
theorem log_mem_take_of_index {f : LogFileId} (files : List LogFileId) (k : Nat)
    (h : p.indexFilePath f ∈ (p.removalOrder files).take k) :
    p.logFilePath f ∈ (p.removalOrder files).take k := by
  induction files generalizing k with
  | nil =>
    rw [removalOrder, List.flatMap_nil, List.take_nil] at h
    cases h
  | cons g files ih =>
    rw [removalOrder_cons] at h ⊢
    match k with
    | 0 => cases h
    | 1 =>
      rw [List.take_succ_cons, List.take_zero, List.mem_singleton] at h
      exact absurd h (indexFilePath_ne_logFilePath f g)
    | k + 2 =>
      rw [List.take_succ_cons, List.take_succ_cons] at h ⊢
      rcases List.mem_cons.mp h with h | h
      · exact absurd h (indexFilePath_ne_logFilePath f g)
      rcases List.mem_cons.mp h with h | h
      · obtain rfl := indexFilePath_inj.mp h
        exact List.mem_cons_self
      · exact List.mem_cons_of_mem _ (List.mem_cons_of_mem _ (ih k h))

/-! ### Removing and synchronizing -/

theorem removeIfPresent_rule (path : Path) :
    Triple c (fun t' => t' = t) (removeIfPresent path) (fun _ t' => Removed [path] t t')
      (fun _ t' => t' = t ∧ (c.calm → ¬ t.Erasable path)) := by
  refine removeIfPresent_of ((Fs.removeFile_rule path).exits fun e t' he => ?_)
  obtain ⟨rfl, ⟨he, h⟩ | ⟨hne, h⟩⟩ := he
  · exact ⟨fun _ => h, fun hne => absurd he hne⟩
  · exact ⟨fun he => absurd he hne, fun _ => ⟨rfl, h⟩⟩

/-- The first of some removals have been made. -/
def Begun (paths : List Path) (t t' : Tree) : Prop := ∃ k, Removed (paths.take k) t t'

theorem begun_refl (paths : List Path) (t : Tree) : Begun paths t t := ⟨0, .refl t⟩

theorem begun_of_removed {paths : List Path} (h : Removed paths t t') : Begun paths t t' := by
  refine ⟨paths.length, ?_⟩
  rw [List.take_length]
  exact h

/-- By induction on the paths: a prefix of the rest goes behind what is removed first. -/
theorem removeEach_rule {n : Nat} (paths : List Path) (hlen : ∀ x ∈ paths, x.length = n)
    (t : Tree) :
    Triple c (fun t' => t' = t) (removeEach paths) (fun _ t' => Removed paths t t')
      (fun _ t' => Begun paths t t' ∧ (c.calm → ∃ x ∈ paths, ¬ t.Erasable x)) := by
  induction paths generalizing t with
  | nil =>
    refine .pure fun t' h => ?_
    rw [h]
    exact .refl t
  | cons path paths ih =>
    have hpath : path.length = n := hlen path List.mem_cons_self
    have hrest : ∀ x ∈ paths, x.length = n := fun x hx => hlen x (List.mem_cons_of_mem path hx)
    have hlevel : ∀ ys : List Path, (∀ y ∈ ys, y ∈ paths) →
        ∀ x ∈ [path], ∀ y ∈ ys, x.length = y.length := by
      intro ys hys x hx y hy
      rw [List.mem_singleton.mp hx, hpath, hrest y (hys y hy)]
    refine .bind ((removeIfPresent_rule path).exits ?_) fun _ => .ofState fun t₁ h₁ => ?_
    · rintro e t' ⟨rfl, h⟩
      exact ⟨begun_refl _ _, fun hc => ⟨path, List.mem_cons_self, h hc⟩⟩
    refine (ih hrest t₁).conseq (fun _ h => h) ?_ ?_
    · intro _ t' h
      exact h₁.trans h (hlevel paths fun _ h => h)
    · rintro e t' ⟨⟨k, h⟩, hcalm⟩
      refine ⟨⟨k + 1, ?_⟩, fun hc => ?_⟩
      · rw [List.take_succ_cons]
        exact h₁.trans h (hlevel _ fun _ h => List.mem_of_mem_take h)
      · obtain ⟨x, hx, hne⟩ := hcalm hc
        refine ⟨x, List.mem_cons_of_mem path hx, fun h => hne ?_⟩
        refine (h₁.erasable_iff fun y hy => ?_).mpr h
        exact hlevel paths (fun _ h => h) y hy x hx

theorem syncDirectory_rule (path : Path) :
    Triple c (fun t' => t' = t) (syncDirectory path)
      (fun _ t' => ∀ q, t'.node? q = t.node? q)
      (fun e t' => t' = t ∧ ((∃ q, e = .error (.io q .notFound)) ∨ (c.calm → ¬ t.Clear path))) := by
  refine .bind (R := fun _ t' => t' = t) (.mapErr_exits ((Fs.openDir_rule path).exits ?_))
    fun _ => .mapErr_exits ((Triple.effect ?_).exits ?_)
  · rintro e t' ⟨rfl, rfl | hcalm⟩
    · exact ⟨rfl, .inl ⟨path, rfl⟩⟩
    · exact ⟨rfl, .inr hcalm⟩
  · intro t' h q
    rw [h, node?_synced]
  · exact fun e t' h => ⟨h.2.2, .inr fun hc => absurd hc h.1⟩

theorem syncIfPresent_rule (path : Path) :
    Triple c (fun t' => t' = t) (syncIfPresent path) (fun _ t' => ∀ q, t'.node? q = t.node? q)
      (fun _ t' => t' = t ∧ (c.calm → ¬ t.Clear path)) := by
  refine syncIfPresent_of ((syncDirectory_rule path).exits fun e t' he => ?_)
  obtain ⟨rfl, he⟩ := he
  exact ⟨fun _ _ => rfl, fun hne => ⟨rfl, he.resolve_left hne⟩⟩

theorem syncExisting_rule (paths : List Path) (t : Tree) :
    Triple c (fun t' => t' = t) (syncExisting paths) (fun _ t' => ∀ q, t'.node? q = t.node? q)
      (fun _ t' => (∀ q, t'.node? q = t.node? q) ∧ (c.calm → ∃ x ∈ paths, ¬ t.Clear x)) := by
  induction paths generalizing t with
  | nil =>
    refine .pure fun t' h q => ?_
    rw [h]
  | cons path paths ih =>
    refine .bind ((syncIfPresent_rule path).exits ?_) fun _ => .ofState fun t₁ h₁ => ?_
    · rintro e t' ⟨rfl, h⟩
      exact ⟨fun _ => rfl, fun hc => ⟨path, List.mem_cons_self, h hc⟩⟩
    refine (ih t₁).conseq (fun _ h => h) ?_ ?_
    · intro _ t' h q
      rw [h, h₁]
    · rintro e t' ⟨h, hcalm⟩
      refine ⟨fun q => by rw [h, h₁], fun hc => ?_⟩
      obtain ⟨x, hx, hne⟩ := hcalm hc
      exact ⟨x, List.mem_cons_of_mem path hx, fun hclear => hne (hclear.congr h₁)⟩

/-! ### The range -/

/-- A range that is none: other streams, or bounds the wrong way round. -/
theorem removeLogAndIndex_invalid {first last : LogFileId}
    (h : first.streamId ≠ last.streamId ∨ last.fileNumber.get < first.fileNumber.get) :
    p.removeLogAndIndex first last = Io.throw (.io (p.logFilePath first) .invalidInput) := by
  rw [removeLogAndIndex, LogFileId.iterTo]
  by_cases hs : first.streamId ≠ last.streamId
  · rw [if_pos hs]
  · rw [if_neg hs, if_pos (h.resolve_left hs)]

/-- A synchronization in the leaf directories fails without faults only where a removal
would have failed before. -/
theorem removeLogAndIndex_rule {first last : LogFileId} {files : List LogFileId}
    (h : LogFileId.Visits first last files) (t : Tree) :
    Triple c (fun t' => t' = t) (p.removeLogAndIndex first last)
      (fun _ t' => Removed (p.removalOrder files) t t')
      (fun _ t' => Begun (p.removalOrder files) t t' ∧
        (c.calm → ∃ x ∈ p.removalOrder files, ¬ t.Erasable x)) := by
  obtain ⟨it, hit, hfiles⟩ := h
  simp only [removeLogAndIndex, hit, hfiles, Io.unwrap_bind]
  rw [removePairs_eq]
  refine .bind (removeEach_rule _ (fun x hx => length_of_mem_removalOrder hx) t) fun _ =>
    .ofState fun t₁ h₁ => ?_
  have hkept : ∀ {t'}, (∀ q, t'.node? q = t₁.node? q) → Removed (p.removalOrder files) t t' := by
    intro t' h'
    refine (h₁.trans (.of_node? h') ?_).congr fun q => ?_
    · intro x _ y hy
      cases hy
    · rw [List.append_nil]
  refine (syncExisting_rule _ t₁).conseq (fun _ h => h) ?_ ?_
  · exact fun _ t' h' => hkept h'
  · rintro e t' ⟨h', hcalm⟩
    refine ⟨begun_of_removed (hkept h'), fun hc => ?_⟩
    obtain ⟨x, hx, hne⟩ := hcalm hc
    obtain ⟨f, hf, rfl⟩ := List.mem_map.mp (List.mem_dedup.mp hx)
    have hlog : p.logFilePath f ∈ p.removalOrder files :=
      mem_removalOrder.mpr ⟨f, hf, .inl rfl⟩
    refine ⟨p.logFilePath f, hlog, fun herasable => hne ?_⟩
    rw [← dropLast_logFilePath]
    refine ((h₁.erasable_iff fun y hy => ?_).mpr herasable).2.dropLast
    rw [length_of_mem_removalOrder hy, length_of_mem_removalOrder hlog]

/-! ### Interrupted and repeated -/

/-- The tree after some attempts to remove a range, one for each plan. -/
def removals (p : StorageProvider) (first last : LogFileId) (t : Tree) (plans : List Plan) :
    Tree :=
  plans.foldl (fun t plan => ((p.removeLogAndIndex first last).run t plan).2.sys) t

theorem Begun.trans {paths : List Path} (h : Begun paths t t') (h' : Begun paths t' t'')
    (hlen : ∀ x ∈ paths, ∀ y ∈ paths, x.length = y.length) : Begun paths t t'' := by
  obtain ⟨k, h⟩ := h
  obtain ⟨k', h'⟩ := h'
  refine ⟨max k k', (h.trans h' fun x hx y hy => ?_).congr fun q => ?_⟩
  · exact hlen x (List.mem_of_mem_take hx) y (List.mem_of_mem_take hy)
  · rw [List.mem_append]
    rcases Nat.le_total k k' with hle | hle
    · rw [Nat.max_eq_right hle]
      exact or_iff_right_of_imp fun h => (List.take_subset_take_left paths hle) h
    · rw [Nat.max_eq_left hle]
      exact or_iff_left_of_imp fun h => (List.take_subset_take_left paths hle) h

theorem Begun.removed {paths : List Path} (h : Begun paths t t') (h' : Removed paths t' t'')
    (hlen : ∀ x ∈ paths, ∀ y ∈ paths, x.length = y.length) : Removed paths t t'' := by
  obtain ⟨k, h⟩ := h
  refine (h.trans h' fun x hx y hy => ?_).congr fun q => ?_
  · exact hlen x (List.mem_of_mem_take hx) y hy
  · rw [List.mem_append]
    exact or_iff_right_of_imp List.mem_of_mem_take

variable {first last : LogFileId} {files : List LogFileId}

theorem length_removalOrder_eq (files : List LogFileId) : ∀ x ∈ p.removalOrder files,
    ∀ y ∈ p.removalOrder files, x.length = y.length := by
  intro x hx y hy
  rw [length_of_mem_removalOrder hx, length_of_mem_removalOrder hy]

/-- One attempt, whatever becomes of it. -/
theorem begun_run (h : LogFileId.Visits first last files) (t : Tree) (plan : Plan) :
    Begun (p.removalOrder files) t ((p.removeLogAndIndex first last).run t plan).2.sys := by
  obtain ⟨-, hr⟩ := removeLogAndIndex_rule (p := p) h t ⟨t, plan⟩ rfl plan.within_any
  rw [Io.run]
  rcases hrun : p.removeLogAndIndex first last ⟨t, plan⟩ with ⟨e | _, w⟩ <;> rw [hrun] at hr
  · exact hr.1
  · exact begun_of_removed hr

/-- Any number of attempts, by induction on them. -/
theorem begun_removals (h : LogFileId.Visits first last files) (plans : List Plan) (t : Tree) :
    Begun (p.removalOrder files) t (p.removals first last t plans) := by
  induction plans generalizing t with
  | nil => exact begun_refl _ t
  | cons plan plans ih =>
    exact (begun_run h t plan).trans (ih _) (length_removalOrder_eq files)

theorem removals_invalid (h : ∀ plan t, ((p.removeLogAndIndex first last).run t plan).2.sys = t)
    (plans : List Plan) (t : Tree) : p.removals first last t plans = t := by
  induction plans with
  | nil => rfl
  | cons plan plans ih =>
    rw [removals, List.foldl_cons, h]
    exact ih

/-- A run of the whole range from where earlier attempts have left the tree. -/
theorem run_begun (h : LogFileId.Visits first last files) (hbegun : Begun (p.removalOrder files) t t')
    (plan : Plan) :
    let run := (p.removeLogAndIndex first last).run t' plan
    (run.1 = .ok () → Removed (p.removalOrder files) t run.2.sys) ∧
      (plan.Smooth → (∀ x ∈ p.removalOrder files, t.Erasable x) → run.1 = .ok ()) := by
  intro run
  have hlen := length_removalOrder_eq (p := p) files
  obtain ⟨-, hr⟩ := removeLogAndIndex_rule (p := p) h t' ⟨t', plan⟩ rfl plan.within_smooth
  have hrun' : run = p.removeLogAndIndex first last ⟨t', plan⟩ := rfl
  rw [hrun']
  rcases hrun : p.removeLogAndIndex first last ⟨t', plan⟩ with ⟨e | _, w⟩ <;> rw [hrun] at hr
  · refine ⟨by simp, fun hsmooth herasable => ?_⟩
    obtain ⟨x, hx, hne⟩ := hr.2 hsmooth
    obtain ⟨k, hk⟩ := hbegun
    refine absurd ((hk.erasable_iff fun y hy => ?_).mpr (herasable x hx)) hne
    exact hlen y (List.mem_of_mem_take hy) x hx
  · exact ⟨fun _ => hbegun.removed hr hlen, fun _ _ => rfl⟩

/-- **Range removal removes the range and nothing else, and may be resumed.**  Bounds
that are no range change nothing.  Otherwise some first of the pairs' paths are gone after
any attempts, each log before its index, so that no index goes before its log; and an
attempt that then goes through has removed every path of the range and nothing else.
Without faults it goes through exactly where neither a directory stands at one of the
paths nor a file on the way to it.  A link at such a path is removed like a file, and none
leads on to another directory. -/
theorem removal_exact_and_resumable (p : StorageProvider) (first last : LogFileId) (t : Tree)
    (plans : List Plan) :
    let t' := p.removals first last t plans
    (first.streamId ≠ last.streamId ∨ last.fileNumber.get < first.fileNumber.get →
      t' = t ∧ ∀ plan, (p.removeLogAndIndex first last).run t' plan =
        (.error (.error (.io (p.logFilePath first) .invalidInput)), ⟨t, plan⟩)) ∧
    (first.streamId = last.streamId → first.fileNumber.get ≤ last.fileNumber.get →
      ∃ files : List LogFileId, (∀ f ∈ files, f.streamId = first.streamId) ∧
        files.map (fun f => f.fileNumber.get) = List.range' first.fileNumber.get
          (last.fileNumber.get - first.fileNumber.get + 1) ∧
        (∃ k, Without ((p.removalOrder files).take k) t t') ∧
        (∀ f, t.node? (p.indexFilePath f) ≠ none → t'.node? (p.indexFilePath f) = none →
          t'.node? (p.logFilePath f) = none) ∧
        ∀ plan, let run := (p.removeLogAndIndex first last).run t' plan
          (run.1 = .ok () → Without (p.removalOrder files) t run.2.sys) ∧
          (plan.Smooth →
            (run.1 = .ok () ↔ ∀ path ∈ p.removalOrder files, t.Erasable path))) := by
  intro t'
  refine ⟨fun hinvalid => ?_, fun hstream hle => ?_⟩
  · have hthrow := removeLogAndIndex_invalid (p := p) hinvalid
    have hsame : t' = t := removals_invalid (by rw [hthrow]; exact fun _ _ => rfl) plans t
    refine ⟨hsame, fun plan => ?_⟩
    rw [hsame, hthrow]
    rfl
  · have hbetween : LogFileId.Between first last last := ⟨hstream.symm, hle, Nat.le_refl _⟩
    have hfiles := LogFileId.visits hbetween
    have hbegun : Begun _ t t' := begun_removals hfiles plans t
    have hlast : last.fileNumber.get ≤ 184467440737095 := last.fileNumber.le
    refine ⟨_, ?_, LogFileId.map_successors _ first (by omega), ?_, ?_, ?_⟩
    · exact fun f hf => ((LogFileId.mem_visited hbetween).mp hf).1
    · obtain ⟨k, hk⟩ := hbegun
      exact ⟨k, hk.without⟩
    · intro f hbefore hgone
      obtain ⟨k, -, hk⟩ := hbegun
      rw [hk, if_pos]
      apply log_mem_take_of_index
      by_contra hmem
      rw [hk, if_neg hmem] at hgone
      exact hbefore hgone
    · intro plan run
      obtain ⟨hok, hsmooth⟩ := run_begun hfiles hbegun plan
      refine ⟨fun h => (hok h).without, fun hplan => ⟨fun h => (hok h).erasable, ?_⟩⟩
      exact hsmooth hplan

/-- A log without an index, where the attempt stops before its first call, and a directory
in the place of a log, where no attempts remove anything. -/
theorem removal_of_other_trees :
    let p : StorageProvider := ⟨[]⟩
    let f : LogFileId := ⟨⟨7, by decide⟩, ⟨0, by decide⟩⟩
    let dirs := ((Fs.createDirAll (p.leafDirectory f)).run .empty .calm).2.sys
    let t := ((Fs.createNew (p.logFilePath f)).run dirs .calm).2.sys
    let u := ((Fs.createDir (p.logFilePath f)).run dirs .calm).2.sys
    ((p.removals f f t [.stop]).node? (p.indexFilePath f) = none ∧
      (p.removals f f t [.stop]).node? (p.logFilePath f) ≠ none) ∧
    ∀ plans, ¬ Without (p.removalOrder [f]) u (p.removals f f u plans) := by
  intro p f dirs t u
  refine ⟨⟨?_, ?_⟩, fun plans hwithout => ?_⟩
  · exact Option.isNone_iff_eq_none.mp (by decide +kernel)
  · exact Option.isSome_iff_ne_none.mp (by decide +kernel)
  · have hentry : isDirEntry (u.get (p.logFilePath f)) = true := by decide +kernel
    have hdir : u.node? (p.logFilePath f) = some .dir :=
      isDir_of_node? (by decide +kernel) (isDir_iff.mpr (.inr hentry))
    have hfiles : LogFileId.Visits f f [f] := LogFileId.visits ⟨rfl, Nat.le_refl _, Nat.le_refl _⟩
    obtain ⟨k, hk⟩ := begun_removals (p := p) hfiles plans u
    have hmem : p.logFilePath f ∈ p.removalOrder [f] :=
      mem_removalOrder.mpr ⟨f, List.mem_cons_self, .inl rfl⟩
    have hgone := hwithout (p.logFilePath f)
    rw [if_pos hmem, hk.without] at hgone
    split at hgone
    next hfirst => exact (hk.erasable _ hfirst).1 hdir
    · rw [hdir] at hgone
      cases hgone

end StorageProvider

end TransactionLog
