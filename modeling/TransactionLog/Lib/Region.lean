import TransactionLog.Lib.FileTree
import TransactionLog.Lib.Related

/-!
# Regions of a tree

The region of a directory are the paths at and below it.  `Apart base t₀ t₀' t t'` says of
two trees that their regions of `base` are the same, and that elsewhere they are still
what `t₀` and `t₀'` were.

A call on a path of the region keeps two such trees so and has the same outcome on both:
what it reads lies in the region or is a directory on the way to it, and what it changes
lies in the region.
-/

namespace Lib

namespace Tree

/-- The paths at and below a directory. -/
def below (base q : Path) : Bool := base.isPrefixOf q

/-- The paths that are not. -/
def beside (base q : Path) : Bool := !below base q

/-- The trees have the same entries in a region, found in the same order. -/
structure SameIn (B : Path → Bool) (t t' : Tree) : Prop where
  get : ∀ q, B q = true → t'.get q = t.get q
  names : t'.names.filter B = t.names.filter B

/-- Two trees with the same region of `base`, which elsewhere are what they were. -/
structure Apart (base : Path) (t₀ t₀' t t' : Tree) : Prop where
  isDir : t.isDir base = true
  inside : SameIn (below base) t t'
  outside : SameIn (beside base) t₀ t
  outside' : SameIn (beside base) t₀' t'

variable {B : Path → Bool} {base p q src dst : Path} {t t' t'' t₀ t₀' : Tree}

/-! ### Paths of a region -/

theorem below_iff : below base q = true ↔ base <+: q := List.isPrefixOf_iff_prefix

theorem beside_iff : beside base q = true ↔ ¬ base <+: q := by
  rw [beside, Bool.not_eq_true', ← Bool.not_eq_true, below_iff]

theorem below_append (base s : Path) : below base (base ++ s) = true :=
  below_iff.mpr (List.prefix_append base s)

theorem below_of_isPrefix (hq : below base q = true) (h : q <+: p) : below base p = true :=
  below_iff.mpr ((below_iff.mp hq).trans h)

theorem below_of_dropLast (h : below base p.dropLast = true) : below base p = true :=
  below_of_isPrefix h (List.dropLast_prefix p)

theorem below_dropLast (h : below base p = true) (hne : p ≠ base) :
    below base p.dropLast = true := by
  obtain ⟨s, rfl⟩ := below_iff.mp h
  have hs : s ≠ [] := by
    rintro rfl
    exact hne (List.append_nil base)
  rw [List.dropLast_append_of_ne_nil hs]
  exact below_append base s.dropLast

/-- A path on the way into a region is in it or above its directory. -/
theorem below_or_above (hp : below base p = true) (hq : q <+: p) :
    below base q = true ∨ ∃ s, s ≠ [] ∧ base = q ++ s := by
  rcases List.prefix_or_prefix_of_prefix (below_iff.mp hp) hq with h | ⟨s, hs⟩
  · exact .inl (below_iff.mpr h)
  · by_cases hnil : s = []
    · left
      rw [← hs, hnil, List.append_nil]
      exact below_iff.mpr (List.prefix_refl q)
    · exact .inr ⟨s, hnil, hs.symm⟩

/-! ### Trees that are the same in a region -/

theorem SameIn.refl (B : Path → Bool) (t : Tree) : SameIn B t t := ⟨fun _ _ => rfl, rfl⟩

theorem SameIn.symm (h : SameIn B t t') : SameIn B t' t :=
  ⟨fun q hq => (h.get q hq).symm, h.names.symm⟩

theorem SameIn.trans (h : SameIn B t t') (h' : SameIn B t' t'') : SameIn B t t'' :=
  ⟨fun q hq => (h'.get q hq).trans (h.get q hq), h'.names.trans h.names⟩

theorem SameIn.mono {B' : Path → Bool} (h : SameIn B t t') (hB : ∀ q, B' q = true → B q = true) :
    SameIn B' t t' := by
  refine ⟨fun q hq => h.get q (hB q hq), ?_⟩
  have hfilter := congrArg (List.filter B') h.names
  rw [List.filter_filter, List.filter_filter] at hfilter
  have hboth : ∀ q, (B' q && B q) = B' q := by
    intro q
    cases hq : B' q with
    | false => rfl
    | true => exact hB q hq
  simpa only [hboth] using hfilter

theorem SameIn.node? (h : SameIn B t t') (hp : B p = true) : t'.node? p = t.node? p := by
  rw [Tree.node?, Tree.node?, h.get p hp]

theorem SameIn.file? (h : SameIn B t t') (hp : B p = true) : t'.file? p = t.file? p := by
  rw [Tree.file?, Tree.file?, h.node? hp]

theorem SameIn.isDir (h : SameIn B t t') (hp : B p = true) : t'.isDir p = t.isDir p := by
  rw [Tree.isDir, Tree.isDir, h.get p hp]

theorem SameIn.mapFiles (h : SameIn B t t') (g : Path → File → File) :
    SameIn B (t.mapFiles g) (t'.mapFiles g) := by
  refine ⟨fun q hq => ?_, h.names⟩
  show (t'.get q).map _ = (t.get q).map _
  rw [h.get q hq]

theorem SameIn.children (h : SameIn (below base) t t') (hp : below base p = true) :
    t'.children p = t.children p := by
  -- only the names of the region count
  have hfilter : ∀ u : Tree, u.children p = ((u.names.filter (below base)).filterMap fun q =>
      if q.dropLast = p ∧ (u.get q).isSome then q.getLast? else none).dedup := by
    intro u
    rw [Tree.children, List.filterMap_filter]
    congr 2
    funext q
    split
    next hq =>
      rw [if_pos (below_of_dropLast (by rw [hq.1]; exact hp))]
    · exact (ite_self none).symm
  rw [hfilter, hfilter, h.names]
  congr 1
  refine List.filterMap_congr fun q hq => ?_
  rw [h.get q (List.mem_filter.mp hq).2]

/-! ### Changes beside a region -/

theorem SameIn.replace (hp : B p = false) {e : Option Entry} {h1 h2} :
    SameIn B t (t.replace p e h1 h2) := by
  refine ⟨fun q hq => ?_, ?_⟩
  · rw [get_replace, if_neg]
    rintro rfl
    rw [hp] at hq
    cases hq
  · show List.filter B (p :: t.names) = _
    rw [List.filter_cons, if_neg (by simp [hp])]

theorem SameIn.created (hp : B p = false) (node : Node) : SameIn B t (t.created p node) := by
  unfold Tree.created
  split
  · exact replace hp
  · exact refl B t

theorem SameIn.erased (hp : B p = false) : SameIn B t (t.erased p) := by
  unfold Tree.erased
  split
  · exact refl B t
  · exact replace hp

theorem SameIn.setFile (hp : B p = false) (f : File) : SameIn B t (t.setFile p f) := by
  unfold Tree.setFile
  split
  · exact replace hp
  · exact refl B t

theorem SameIn.moved (hsrc : B src = false) (hdst : B dst = false) :
    SameIn B t (t.moved src dst) := by
  unfold Tree.moved
  split
  · exact ((erased hsrc).trans (erased hdst)).trans (created hdst _)
  · exact refl B t

theorem SameIn.synced (hp : ∀ q, B q = true → q.dropLast ≠ p) : SameIn B t (t.synced p) := by
  refine ⟨fun q hq => ?_, rfl⟩
  rw [get_synced, if_neg]
  exact fun h => hp q hq h.2

/-! ### What calls on the region read -/

/-- A directory on the way to the region. -/
theorem isDir_above {s : Path} (hdir : t.isDir (q ++ s) = true) (hs : s ≠ []) :
    t.isDir q = true := by
  refine isDir_of_append s hs fun hnone => ?_
  rcases isDir_iff.mp hdir with hroot | hentry
  · exact hs (List.append_eq_nil_iff.mp hroot).2
  · rw [hnone] at hentry
    cases hentry

theorem file?_above {s : Path} (hdir : t.isDir (q ++ s) = true) (hs : s ≠ []) (hq : q ≠ []) :
    t.file? q = none :=
  file?_of_isDirEntry ((isDir_iff.mp (isDir_above hdir hs)).resolve_left hq)

namespace Apart

variable (h : Apart base t₀ t₀' t t')

include h

theorem isDir' : t'.isDir base = true := by
  rw [h.inside.isDir (below_iff.mpr (List.prefix_refl base))]
  exact h.isDir

theorem lookupError (hp : below base p = true) : t'.lookupError p = t.lookupError p := by
  rw [Tree.lookupError, Tree.lookupError]
  have hfile : ∀ n, t'.file? (p.take (n + 1)) = t.file? (p.take (n + 1)) := by
    intro n
    rcases below_or_above hp (List.take_prefix (n + 1) p) with hq | ⟨s, hs, hbase⟩
    · exact h.inside.file? hq
    · by_cases hnil : p.take (n + 1) = []
      · rw [List.take_eq_nil_iff] at hnil
        rcases hnil with hnil | rfl
        · cases hnil
        · have hroot : base = [] := List.prefix_nil.mp (below_iff.mp hp)
          rw [hroot] at hbase
          exact absurd (List.append_eq_nil_iff.mp hbase.symm).2 hs
      · rw [file?_above (hbase ▸ h.isDir') hs hnil, file?_above (hbase ▸ h.isDir) hs hnil]
  simp only [hfile]

theorem free (hp : below base p = true) : t'.Free p ↔ t.Free p := by
  by_cases hbase : p = base
  · -- the directory itself is there
    have hnot : ∀ u : Tree, u.isDir base = true → ¬ u.Free base := by
      rintro u hdir ⟨hnone, hne, -⟩
      rcases isDir_iff.mp hdir with hroot | hentry
      · exact hne hroot
      · rw [hnone] at hentry
        cases hentry
    rw [hbase]
    exact iff_of_false (hnot t' h.isDir') (hnot t h.isDir)
  · rw [Free, Free, h.inside.get p hp, h.inside.isDir (below_dropLast hp hbase)]

/-! ### What they change -/

theorem replace (hp : below base p = true) {e : Option Entry} {h1 h2 h1' h2'} :
    Apart base t₀ t₀' (t.replace p e h1 h2) (t'.replace p e h1' h2') := by
  have hbeside : beside base p = false := by
    rw [beside, hp]
    rfl
  have hout : ∀ {u : Tree} {k1 k2}, SameIn (beside base) u (u.replace p e k1 k2) :=
    SameIn.replace hbeside
  refine ⟨?_, ⟨fun q hq => ?_, ?_⟩, h.outside.trans hout, h.outside'.trans hout⟩
  · -- a directory stays one
    rcases isDir_iff.mp h.isDir with hroot | hentry
    · exact isDir_iff.mpr (.inl hroot)
    · refine isDir_iff.mpr (.inr ?_)
      rw [get_replace]
      split
      next hq => exact h2 (hq ▸ hentry)
      · exact hentry
  · rw [get_replace, get_replace, h.inside.get q hq]
  · show List.filter (below base) (p :: t'.names) = List.filter (below base) (p :: t.names)
    rw [List.filter_cons, List.filter_cons, h.inside.names]

theorem created (hp : below base p = true) (node : Node) :
    Apart base t₀ t₀' (t.created p node) (t'.created p node) := by
  unfold Tree.created
  by_cases hfree : t.Free p
  · rw [dif_pos hfree, dif_pos ((h.free hp).mpr hfree)]
    exact h.replace hp
  · rw [dif_neg hfree, dif_neg (mt (h.free hp).mp hfree)]
    exact h

theorem erased (hp : below base p = true) : Apart base t₀ t₀' (t.erased p) (t'.erased p) := by
  have hget := h.inside.get p hp
  unfold Tree.erased
  by_cases hdir : isDirEntry (t.get p) = true
  · rw [dif_pos hdir, dif_pos (by rw [hget]; exact hdir)]
    exact h
  · rw [dif_neg hdir, dif_neg (by rw [hget]; exact hdir)]
    exact h.replace hp

theorem setFile (hp : below base p = true) (f : File) :
    Apart base t₀ t₀' (t.setFile p f) (t'.setFile p f) := by
  have hget := h.inside.get p hp
  unfold Tree.setFile
  split
  next g l ht =>
    split
    next g' l' ht' =>
      obtain ⟨-, rfl⟩ := Entry.mk.inj (Option.some.inj ((ht'.symm.trans hget).trans ht))
      exact h.replace hp
    next hne => exact absurd (hget.trans ht) (hne g l)
  next hne =>
    split
    next g' l' ht' => exact absurd (hget.symm.trans ht') (hne g' l')
    · exact h

theorem moved (hsrc : below base src = true) (hdst : below base dst = true) :
    Apart base t₀ t₀' (t.moved src dst) (t'.moved src dst) := by
  unfold Tree.moved
  rw [h.inside.file? hsrc]
  cases t.file? src with
  | none => exact h
  | some f => exact ((h.erased hsrc).erased hdst).created hdst (.file f)

theorem synced (hp : below base p = true) : Apart base t₀ t₀' (t.synced p) (t'.synced p) := by
  have hout : ∀ u : Tree, SameIn (beside base) u (u.synced p) := by
    intro u
    refine .synced fun q hq hdrop => ?_
    exact beside_iff.mp hq (below_iff.mp (below_of_dropLast (hdrop.symm ▸ hp)))
  refine ⟨?_, ⟨fun q hq => ?_, h.inside.names⟩, h.outside.trans (hout t), h.outside'.trans (hout t')⟩
  · rcases isDir_iff.mp h.isDir with hroot | hentry
    · exact isDir_iff.mpr (.inl hroot)
    · refine isDir_iff.mpr (.inr ?_)
      rw [get_synced]
      split
      · rcases hget : t.get base with _ | ⟨node, l⟩
        · rw [hget] at hentry
          cases hentry
        · rw [hget] at hentry
          cases node with
          | dir => rfl
          | file f => cases hentry
          | link => cases hentry
      · exact hentry
  · rw [get_synced, get_synced, h.inside.get q hq]

end Apart

end Tree

namespace Fs

open Lib.Tree
open Lib.Respects (pure bind call attempt zoom refl Agreed)

variable {base p src dst : Path} {t₀ t₀' : Tree} {ε α : Type}

/-! ### Calls on the region -/

theorem respects_openFile (hp : below base p = true) :
    Respects (Apart base t₀ t₀') (openFile p) (openFile p) := by
  refine call fun t t' h => ?_
  rw [h.inside.node? hp]
  rcases t.node? p with _ | _ | f | _
  · exact (h.lookupError hp).symm
  · rfl
  · exact ⟨rfl, h.setFile hp _⟩
  · rfl

theorem respects_createNew (hp : below base p = true) :
    Respects (Apart base t₀ t₀') (createNew p) (createNew p) := by
  refine call fun t t' h => ?_
  simp only [h.inside.get p hp, h.free hp, h.lookupError hp]
  split
  · rfl
  split
  · exact ⟨rfl, h.created hp _⟩
  · rfl

theorem respects_openOrCreate (hp : below base p = true) :
    Respects (Apart base t₀ t₀') (openOrCreate p) (openOrCreate p) := by
  refine call fun t t' h => ?_
  simp only [h.inside.node? hp, h.free hp, h.lookupError hp]
  rcases t.node? p with _ | _ | f | _
  · simp only
    split
    · exact ⟨rfl, h.created hp _⟩
    · rfl
  · rfl
  · exact ⟨rfl, h.setFile hp _⟩
  · rfl

theorem respects_openTruncated (hp : below base p = true) :
    Respects (Apart base t₀ t₀') (openTruncated p) (openTruncated p) := by
  refine call fun t t' h => ?_
  simp only [h.inside.node? hp, h.free hp, h.lookupError hp]
  rcases t.node? p with _ | _ | f | _
  · simp only
    split
    · exact ⟨rfl, h.created hp _⟩
    · rfl
  · rfl
  · exact ⟨rfl, h.setFile hp _⟩
  · rfl

theorem respects_createDir (hp : below base p = true) :
    Respects (Apart base t₀ t₀') (createDir p) (createDir p) := by
  refine call fun t t' h => ?_
  simp only [h.inside.get p hp, h.inside.isDir hp, h.free hp, h.lookupError hp]
  split
  · exact ⟨rfl, h⟩
  split
  · rfl
  split
  · exact ⟨rfl, h.created hp _⟩
  · rfl

/-- The directories on the way to the region are there. -/
theorem respects_createDir_above {s : Path} (hs : s ≠ []) (hbase : base = p ++ s) :
    Respects (Apart base t₀ t₀') (createDir p) (createDir p) := by
  refine call fun t t' h => ?_
  have hdir := h.isDir
  have hdir' := h.isDir'
  rw [hbase] at hdir hdir'
  rw [if_pos (isDir_above hdir hs), if_pos (isDir_above hdir' hs)]
  exact ⟨rfl, h⟩

theorem respects_createDirs (hp : below base p = true) : ∀ qs : List Path, (∀ q ∈ qs, q <+: p) →
    Respects (Apart base t₀ t₀') (createDirs qs) (createDirs qs) := by
  intro qs
  induction qs with
  | nil => exact fun _ => pure
  | cons q qs ih =>
    intro hqs
    refine bind ?_ fun _ => ih fun q' hq' => hqs q' (List.mem_cons_of_mem q hq')
    rcases below_or_above hp (hqs q List.mem_cons_self) with hq | ⟨s, hs, hbase⟩
    · exact respects_createDir hq
    · exact respects_createDir_above hs hbase

theorem respects_createDirAll (hp : below base p = true) :
    Respects (Apart base t₀ t₀') (createDirAll p) (createDirAll p) := by
  refine respects_createDirs hp _ fun q hq => ?_
  obtain ⟨n, -, rfl⟩ := List.mem_map.mp hq
  exact List.take_prefix _ _

theorem respects_removeFile (hp : below base p = true) :
    Respects (Apart base t₀ t₀') (removeFile p) (removeFile p) := by
  refine call fun t t' h => ?_
  simp only [h.inside.node? hp, h.lookupError hp]
  rcases t.node? p with _ | _ | f | _
  · rfl
  · rfl
  · exact ⟨rfl, h.erased hp⟩
  · exact ⟨rfl, h.erased hp⟩

theorem respects_rename (hsrc : below base src = true) (hdst : below base dst = true)
    (hne : dst ≠ base) : Respects (Apart base t₀ t₀') (rename src dst) (rename src dst) := by
  refine call fun t t' h => ?_
  simp only [h.inside.node? hsrc, h.inside.isDir hdst, h.inside.isDir (below_dropLast hdst hne),
    h.lookupError hsrc, h.lookupError hdst]
  rcases t.node? src with _ | _ | f | _
  · rfl
  · rfl
  · simp only
    split
    · rfl
    split
    · exact ⟨rfl, h.moved hsrc hdst⟩
    · rfl
  · rfl

/-! ### Calls beside a region -/

section Beside

variable {B : Path → Bool} {t : Tree}

theorem keeps_openFile (hp : B p = false) : Keeps (SameIn B t) (openFile p) := by
  refine .call fun t' a t'' h hf => ?_
  split at hf
  next f hnode =>
    obtain ⟨-, rfl⟩ := Prod.mk.inj (Except.ok.inj hf)
    exact h.trans (.setFile hp _)
  all_goals cases hf

theorem keeps_openTruncated (hp : B p = false) : Keeps (SameIn B t) (openTruncated p) := by
  refine .call fun t' a t'' h hf => ?_
  split at hf
  next f hnode =>
    obtain ⟨-, rfl⟩ := Prod.mk.inj (Except.ok.inj hf)
    exact h.trans (.setFile hp _)
  next => cases hf
  next => cases hf
  next hnode =>
    split at hf
    · obtain ⟨-, rfl⟩ := Prod.mk.inj (Except.ok.inj hf)
      exact h.trans (.created hp _)
    · cases hf

theorem keeps_rename (hsrc : B src = false) (hdst : B dst = false) :
    Keeps (SameIn B t) (rename src dst) := by
  refine .call fun t' a t'' h hf => ?_
  split at hf
  next f hnode =>
    split at hf
    · cases hf
    split at hf
    · obtain ⟨-, rfl⟩ := Prod.mk.inj (Except.ok.inj hf)
      exact h.trans (.moved hsrc hdst)
    · cases hf
  next => cases hf
  next => cases hf

theorem keeps_openDir : Keeps (SameIn B t) (openDir p) := by
  refine .call fun t' a t'' h hf => ?_
  have hsame : t'' = t' := by
    split at hf
    · exact (Prod.mk.inj (Except.ok.inj hf)).2.symm
    · split at hf
      · exact (Prod.mk.inj (Except.ok.inj hf)).2.symm
      · cases hf
      · cases hf
  rw [hsame]
  exact h

theorem keeps_syncAll (hp : ∀ q, B q = true → q.dropLast ≠ p) :
    Keeps (SameIn B t) (syncAll p) := by
  refine .call fun t' a t'' h hf => ?_
  obtain ⟨-, rfl⟩ := Prod.mk.inj (Except.ok.inj hf)
  exact h.trans (.synced hp)

theorem keeps_onFile (hp : B p = false) (m : Io File ε α) : Keeps (SameIn B t) (onFile p m) :=
  .zoom fun f _ h => h.trans (.setFile hp f)

end Beside

/-! ### Calls that only read -/

section Reading

variable {R : Tree → Tree → Prop} (hR : ∀ t t', R t t' → Apart base t₀ t₀' t t')

include hR

theorem respects_readDir (hp : below base p = true) : Respects R (readDir p) (readDir p) := by
  refine call fun t t' hs => ?_
  have h := hR t t' hs
  simp only [h.inside.node? hp, h.inside.isDir hp, h.inside.children hp, h.lookupError hp]
  split
  · exact ⟨rfl, hs⟩
  · rcases t.node? p with _ | _ | f | _
    · rfl
    · rfl
    · rfl
    · rfl

theorem respects_fileType (hp : below base p = true) : Respects R (fileType p) (fileType p) := by
  refine call fun t t' hs => ?_
  rw [(hR t t' hs).inside.node? hp]
  rcases t.node? p with _ | node
  · rfl
  · exact ⟨rfl, hs⟩

omit hR in
theorem respects_nextEntry : Respects R nextEntry nextEntry := call fun _ _ h => ⟨rfl, h⟩

end Reading

/-! ### Synchronizing, and what is done with one file -/

theorem respects_openDir (hp : below base p = true) :
    Respects (Apart base t₀ t₀') (openDir p) (openDir p) := by
  refine call fun t t' h => ?_
  simp only [h.inside.node? hp, h.inside.isDir hp, h.lookupError hp]
  split
  · exact ⟨rfl, h⟩
  · rcases t.node? p with _ | _ | f | _
    · rfl
    · rfl
    · exact ⟨rfl, h⟩
    · rfl

theorem respects_syncAll (hp : below base p = true) :
    Respects (Apart base t₀ t₀') (syncAll p) (syncAll p) :=
  call fun _ _ h => ⟨rfl, h.synced hp⟩

theorem fileAt_eq {t t' : Tree} (h : Apart base t₀ t₀' t t') (hp : below base p = true) :
    fileAt p t = fileAt p t' := by
  rw [fileAt, fileAt, h.inside.file? hp]

/-- Whatever is done with one file of the region. -/
theorem respects_onFile (hp : below base p = true) (m : Io File ε α) :
    Respects (Apart base t₀ t₀') (onFile p m) (onFile p m) := by
  refine zoom (refl m) (fun t t' h => fileAt_eq h hp) ?_
  rintro t t' h f _ rfl
  exact h.setFile hp f

/-- A file of the region, as a destination. -/
theorem respects_dest (hp : below base p = true) :
    (dest p).Respects (Apart base t₀ t₀') (dest p) := by
  refine ⟨fun bytes t t' h => ?_, fun t t' h => ?_, fun t t' h => ?_⟩ <;>
    simp only [dest, Dest.lift, fileAt_eq h hp] <;> exact h.setFile hp _

end Fs

end Lib
