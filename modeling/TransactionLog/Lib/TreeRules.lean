import TransactionLog.Lib.FileTree

/-!
# Calls on any tree

What the calls of a file system do to a tree of any shape: a call that goes through
changes the entry of one path (`AgreeOff`), and one that fails changes nothing.
Removals are followed up to what is linked (`Removed`), which synchronization changes.
-/

namespace Lib

namespace Tree

/-- The trees differ in the entry of `p` at most. -/
def AgreeOff (p : Path) (t t' : Tree) : Prop := ∀ q, q ≠ p → t'.get q = t.get q

variable {p q : Path} {t t' t'' : Tree}

theorem AgreeOff.refl (p : Path) (t : Tree) : AgreeOff p t t := fun _ _ => rfl

theorem AgreeOff.trans (h : AgreeOff p t t') (h' : AgreeOff p t' t'') : AgreeOff p t t'' :=
  fun q hq => (h' q hq).trans (h q hq)

theorem AgreeOff.isDir (h : AgreeOff p t t') (hq : q ≠ p) : t'.isDir q = t.isDir q := by
  rw [Tree.isDir, Tree.isDir, h q hq]

theorem agreeOff_created {node : Node} (h : t.Free p) : AgreeOff p t (t.created p node) := by
  intro q hq
  rw [get_created h, if_neg hq]

theorem agreeOff_setFile {f g : File} {l : Bool} (h : t.get p = some ⟨.file g, l⟩) :
    AgreeOff p t (t.setFile p f) := by
  intro q hq
  rw [get_setFile h, if_neg hq]

theorem agreeOff_erased (h : isDirEntry (t.get p) = false) : AgreeOff p t (t.erased p) := by
  intro q hq
  rw [get_erased h, if_neg hq]

theorem get_erased_self (h : isDirEntry (t.get p) = false) : (t.erased p).get p = none := by
  rw [get_erased h, if_pos rfl]

theorem node?_eq_none : t.node? p = none ↔ t.get p = none := by
  rw [node?, Option.map_eq_none_iff]

theorem node?_eq_some {node : Node} : t.node? p = some node ↔ ∃ l, t.get p = some ⟨node, l⟩ := by
  rw [node?, Option.map_eq_some_iff]
  constructor
  · rintro ⟨⟨_, l⟩, hg, rfl⟩
    exact ⟨l, hg⟩
  · rintro ⟨l, hg⟩
    exact ⟨_, hg, rfl⟩

theorem isDir_of_node? (hp : p ≠ []) (h : t.isDir p = true) : t.node? p = some .dir := by
  have hentry := (isDir_iff.mp h).resolve_left hp
  rcases hg : t.get p with _ | ⟨node, l⟩
  · rw [hg] at hentry
    cases hentry
  · rw [hg] at hentry
    cases node with
    | dir => exact node?_eq_some.mpr ⟨l, hg⟩
    | file f => cases hentry
    | link => cases hentry

theorem file?_congr (h : t'.node? p = t.node? p) : t'.file? p = t.file? p := by
  rw [file?, file?, h]

theorem Clear.dropLast (h : t.Clear p) : t.Clear p.dropLast := by
  intro n hn
  rw [List.length_dropLast] at hn
  rw [List.dropLast_eq_take, List.take_take, Nat.min_eq_left (by omega)]
  exact h n (by omega)

theorem Clear.congr (h : t.Clear p) (hsame : ∀ q, t'.node? q = t.node? q) : t'.Clear p := by
  intro n hn
  rw [file?_congr (hsame _)]
  exact h n hn

/-! ### Removed entries -/

/-- Nothing but a file or a link stands at `p`, and no file on the way to it. -/
def Erasable (t : Tree) (p : Path) : Prop := t.node? p ≠ some .dir ∧ t.Clear p

/-- The tree `t'` is `t` without the entries of some paths. -/
def Without (paths : List Path) (t t' : Tree) : Prop :=
  ∀ q, t'.node? q = if q ∈ paths then none else t.node? q

/-- The entries of the paths have been removed. -/
structure Removed (paths : List Path) (t t' : Tree) : Prop where
  erasable : ∀ x ∈ paths, t.Erasable x
  without : Without paths t t'

variable {paths xs ys : List Path}

theorem Without.of_node? (h : ∀ q, t'.node? q = t.node? q) : Without [] t t' := by
  intro q
  rw [if_neg List.not_mem_nil, h q]

theorem Without.trans (h : Without xs t t') (h' : Without ys t' t'') :
    Without (xs ++ ys) t t'' := by
  intro q
  rw [h' q, h q]
  by_cases hy : q ∈ ys
  · rw [if_pos hy, if_pos (List.mem_append_right xs hy)]
  · rw [if_neg hy]
    simp only [List.mem_append, or_iff_left hy]

theorem Without.congr (h : Without xs t t') (hmem : ∀ q, q ∈ xs ↔ q ∈ ys) : Without ys t t' := by
  intro q
  rw [h q]
  simp only [hmem]

theorem Removed.of_node? (h : ∀ q, t'.node? q = t.node? q) : Removed [] t t' :=
  ⟨fun _ hx => absurd hx List.not_mem_nil, .of_node? h⟩

theorem Removed.refl (t : Tree) : Removed [] t t := .of_node? fun _ => rfl

theorem Removed.congr (h : Removed xs t t') (hmem : ∀ q, q ∈ xs ↔ q ∈ ys) : Removed ys t t' :=
  ⟨fun x hx => h.erasable x ((hmem x).mpr hx), h.without.congr hmem⟩

/-- Removing entries at one depth neither opens nor bars the way to others there. -/
theorem Removed.erasable_iff (h : Removed xs t t') (hlen : ∀ x ∈ xs, x.length = p.length) :
    t'.Erasable p ↔ t.Erasable p := by
  have hclear : t'.Clear p ↔ t.Clear p := by
    refine forall₂_congr fun n hn => ?_
    rw [file?_congr]
    rw [h.without, if_neg]
    intro hmem
    have hlen' := hlen _ hmem
    rw [List.length_take] at hlen'
    omega
  by_cases hp : p ∈ xs
  · have herasable := h.erasable p hp
    refine iff_of_true ⟨?_, hclear.mpr herasable.2⟩ herasable
    rw [h.without, if_pos hp]
    simp
  · rw [Erasable, Erasable, hclear, h.without, if_neg hp]

theorem Removed.trans (h : Removed xs t t') (h' : Removed ys t' t'')
    (hlen : ∀ x ∈ xs, ∀ y ∈ ys, x.length = y.length) : Removed (xs ++ ys) t t'' := by
  refine ⟨fun x hx => ?_, h.without.trans h'.without⟩
  rcases List.mem_append.mp hx with hx | hx
  · exact h.erasable x hx
  · exact (h.erasable_iff fun y hy => hlen y hy x hx).mp (h'.erasable x hx)

end Tree

namespace Fs

open Lib.Tree

variable {c : Mode} {t : Tree} {p : Path}

/-- An exit at a call that was not made, or that failed: nothing has changed. -/
def Unmade (t : Tree) (e : Exit ErrorKind) (t' : Tree) : Prop := e ≠ .panicked ∧ t' = t

theorem unmade_of_struck {e : Exit ErrorKind} {t' : Tree}
    (h : Struck c (fun t' => t' = t) e t') : Unmade t e t' := by
  obtain ⟨-, hp, rfl⟩ := h.faulted
  exact ⟨hp, rfl⟩

/-- Opening a file to write it anew, whatever stands there. -/
theorem openTruncated_rule (p : Path) :
    Triple c (fun t' => t' = t) (openTruncated p)
      (fun _ t' => AgreeOff p t t' ∧ ∃ f l, f.content = [] ∧ f.cursor = 0 ∧
        t'.get p = some ⟨.file f, l⟩) (Unmade t) := by
  refine .callAt ?_ fun e he => unmade_of_struck he
  cases hnode : t.node? p with
  | none =>
    by_cases hfree : t.Free p
    · simp only [if_pos hfree]
      refine ⟨agreeOff_created hfree, .empty, false, rfl, rfl, ?_⟩
      rw [get_created hfree, if_pos rfl]
    · simp only [if_neg hfree]
      exact ⟨by simp, rfl⟩
  | some node =>
    obtain ⟨l, hget⟩ := node?_eq_some.mp hnode
    cases node with
    | dir => exact ⟨by simp, rfl⟩
    | link => exact ⟨by simp, rfl⟩
    | file f =>
      refine ⟨agreeOff_setFile hget, (f.seekTo 0).resized 0, l, ?_, rfl, ?_⟩
      · exact List.length_eq_zero_iff.mp (length_resize _ 0)
      · rw [get_setFile hget, if_pos rfl]

/-- Opening a file that is there. -/
theorem openFile_rule {f : File} {l : Bool} (hget : t.get p = some ⟨.file f, l⟩) :
    Triple c (fun t' => t' = t) (openFile p)
      (fun _ t' => AgreeOff p t t' ∧ t'.get p = some ⟨.file (f.seekTo 0), l⟩)
      (Struck c fun t' => t' = t) := by
  refine .callAt ?_ fun e he => he
  rw [node?_eq_some.mpr ⟨l, hget⟩]
  refine ⟨agreeOff_setFile hget, ?_⟩
  rw [get_setFile hget, if_pos rfl]

/-- Opening a file that is not there. -/
theorem openFile_none_rule (hget : t.get p = none) (hclear : t.Clear p) :
    Triple c (fun t' => t' = t) (openFile p) (fun _ _ => False)
      (fun e t' => (e = .error .notFound ∨ Struck c (fun t' => t' = t) e t') ∧ t' = t) := by
  refine .callAt ?_ ?_
  · rw [node?_eq_none.mpr hget, hclear.lookupError]
    exact ⟨.inl rfl, rfl⟩
  · exact fun e he => ⟨.inr he, rfl⟩

/-- An operation of an open file. -/
theorem onFile_rule {ε α : Type} {f : File} {l : Bool} (hget : t.get p = some ⟨.file f, l⟩)
    {m : Io File ε α} {Q : α → File → Prop} {X : Exit ε → File → Prop}
    (hm : Triple c (fun g => g = f) m Q X) :
    Triple c (fun t' => t' = t) (onFile p m)
      (fun a t' => AgreeOff p t t' ∧ ∃ g, Q a g ∧ t'.get p = some ⟨.file g, l⟩)
      (fun e t' => AgreeOff p t t' ∧ ∃ g, X e g ∧ t'.get p = some ⟨.file g, l⟩) := by
  refine .zoom fun t' ht => ?_
  rw [ht]
  have hfile : fileAt p t = f := by
    rw [fileAt, file?_eq_some.mpr ⟨l, hget⟩]
    rfl
  have hset : ∀ g, (t.setFile p g).get p = some ⟨.file g, l⟩ := by
    intro g
    rw [get_setFile hget, if_pos rfl]
  rw [hfile]
  exact hm.conseq (fun _ h => h) (fun a g hQ => ⟨agreeOff_setFile hget, g, hQ, hset g⟩)
    fun e g hX => ⟨agreeOff_setFile hget, g, hX, hset g⟩

/-- Removing what stands at a path, or finding that nothing does. -/
theorem removeFile_rule (p : Path) :
    Triple c (fun t' => t' = t) (removeFile p) (fun _ t' => Removed [p] t t')
      (fun e t' => t' = t ∧ (e = .error .notFound ∧ Removed [p] t t ∨
        e ≠ .error .notFound ∧ (c.calm → ¬ t.Erasable p))) := by
  have hX : ∀ e, Struck c (fun t' => t' = t) e t → t = t ∧ (e = .error .notFound ∧
      Removed [p] t t ∨ e ≠ .error .notFound ∧ (c.calm → ¬ t.Erasable p)) := by
    rintro e ⟨hc, rfl | ⟨k, rfl⟩, -⟩
    · exact ⟨rfl, .inr ⟨by simp, fun h => absurd h hc⟩⟩
    · refine ⟨rfl, .inr ⟨?_, fun h => absurd h hc⟩⟩
      intro h
      exact k.kind_ne_notFound (Exit.error.inj h)
  refine .callAt ?_ hX
  cases hnode : t.node? p with
  | none =>
    dsimp only
    by_cases hclear : t.Clear p
    · rw [hclear.lookupError]
      refine ⟨rfl, .inl ⟨rfl, ?_, ?_⟩⟩
      · intro x hx
        obtain rfl := List.mem_singleton.mp hx
        exact ⟨by rw [hnode]; simp, hclear⟩
      · intro q
        split
        next hq =>
          obtain rfl := List.mem_singleton.mp hq
          exact hnode
        · rfl
    · refine ⟨rfl, .inr ⟨?_, fun _ h => hclear h.2⟩⟩
      intro h
      exact hclear (lookupError_eq_notFound.mp (Exit.error.inj h))
  | some node =>
    obtain ⟨l, hget⟩ := node?_eq_some.mp hnode
    have hgone : node ≠ .dir → Removed [p] t (t.erased p) := by
      intro hne
      have hentry : isDirEntry (t.get p) = false := by
        rw [hget]
        cases node with
        | dir => exact absurd rfl hne
        | file f => rfl
        | link => rfl
      refine ⟨?_, ?_⟩
      · intro x hx
        obtain rfl := List.mem_singleton.mp hx
        refine ⟨?_, clear_of_get (by rw [hget]; simp)⟩
        rw [hnode]
        simpa using hne
      · intro q
        rw [node?, get_erased hentry]
        simp only [List.mem_singleton]
        split
        · rfl
        · rfl
    cases node with
    | dir => exact ⟨rfl, .inr ⟨by simp, fun _ h => h.1 hnode⟩⟩
    | file f => exact hgone (by simp)
    | link => exact hgone (by simp)

/-- Opening what may be a directory, be missing or be something else. -/
theorem openDir_rule (p : Path) :
    Triple c (fun t' => t' = t) (openDir p) (fun _ t' => t' = t)
      (fun e t' => t' = t ∧ (e = .error .notFound ∨ (c.calm → ¬ t.Clear p))) := by
  refine .callAt ?_ ?_
  · by_cases hdir : t.isDir p = true
    · rw [if_pos hdir]
    · rw [if_neg hdir]
      cases hnode : t.node? p with
      | none =>
        refine ⟨rfl, ?_⟩
        by_cases hclear : t.Clear p
        · rw [hclear.lookupError]
          exact .inl rfl
        · exact .inr fun _ => hclear
      | some node =>
        cases node with
        | dir => exact ⟨rfl, .inl rfl⟩
        | file f => rfl
        | link => exact ⟨rfl, .inl rfl⟩
  · intro e he
    exact ⟨rfl, .inr fun h => absurd h he.1⟩

/-- Renaming a file over a path in an existing directory. -/
theorem rename_rule {dst : Path} {f : File} {l : Bool} (hget : t.get p = some ⟨.file f, l⟩)
    (hdst : dst ≠ []) (hne : dst ≠ p) (hdir : dst.dropLast ≠ p) :
    Triple c (fun t' => t' = t) (rename p dst)
      (fun _ t' => t'.get p = none ∧ t'.get dst = some ⟨.file f, false⟩ ∧
        ∀ q, q ≠ p → q ≠ dst → t'.get q = t.get q) (Unmade t) := by
  refine .callAt ?_ fun e he => unmade_of_struck he
  have hdir' : dst.dropLast ≠ dst := by
    intro h
    have hlen := congrArg List.length h
    have hpos := List.length_pos_iff.mpr hdst
    rw [List.length_dropLast] at hlen
    omega
  rw [node?_eq_some.mpr ⟨l, hget⟩]
  simp only
  by_cases hd : t.isDir dst = true
  · rw [if_pos hd]
    exact ⟨by simp, rfl⟩
  by_cases hparent : t.isDir dst.dropLast = true
  · rw [if_neg hd, if_pos hparent]
    have hsrc : isDirEntry (t.get p) = false := by rw [hget]; rfl
    have herased := agreeOff_erased hsrc
    have hdst' : isDirEntry ((t.erased p).get dst) = false := by
      rw [herased dst hne, Bool.eq_false_iff]
      exact fun h => hd (isDir_iff.mpr (.inr h))
    have herased' := agreeOff_erased hdst'
    have hfree : ((t.erased p).erased dst).Free dst := by
      refine ⟨get_erased_self hdst', hdst, ?_⟩
      rw [herased'.isDir hdir', herased.isDir hdir]
      exact hparent
    rw [moved, file?_eq_some.mpr ⟨l, hget⟩]
    dsimp only
    refine ⟨?_, ?_, ?_⟩
    · rw [agreeOff_created hfree p hne.symm, herased' p hne.symm, get_erased_self hsrc]
    · rw [get_created hfree, if_pos rfl]
    · intro q hqp hqdst
      rw [agreeOff_created hfree q hqdst, herased' q hqdst, herased q hqp]
  · rw [if_neg hd, if_neg hparent]
    exact ⟨by simp, rfl⟩

end Fs

end Lib
