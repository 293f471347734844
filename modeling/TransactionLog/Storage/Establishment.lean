import TransactionLog.Storage.Fresh

/-!
# Establishing the stream directories

`new` makes the directories of all streams and what is missing on the way to them.
Whatever it did before it ended, all it has added are directories on the way, so a
provider can be made again, and over existing streams it changes nothing of theirs.
-/

namespace TransactionLog

open Lib

namespace StreamId

/-- The streams, in ascending order. -/
@[irreducible] def all : List StreamId := List.ofFn fun i : Fin count => ⟨i.1, i.2⟩

theorem mem_all (s : StreamId) : s ∈ all := by
  unfold all
  exact List.mem_ofFn.mpr ⟨⟨s.get, s.lt⟩, rfl⟩

end StreamId

/-! ### Trees with more directories -/

/-- Where `Q` is, directories may have been made; the rest is as it was. -/
def Extends (Q : Path → Prop) (t t' : Tree) : Prop :=
  ∀ q, t'.get q = t.get q ∨ Q q ∧ t.get q = none ∧ t'.get q = some ⟨.dir, false⟩

/-- Something that is no directory stands where one is needed. -/
def Blocked (Q : Path → Prop) (t : Tree) : Prop :=
  ∃ q, Q q ∧ t.get q ≠ none ∧ t.isDir q = false

variable {Q : Path → Prop} {t t' t'' : Tree} {q : Path} {c : Mode} {p : StorageProvider}
  {s : StreamId} {d : Disk}

namespace Extends

theorem refl (Q : Path → Prop) (t : Tree) : Extends Q t t := fun _ => .inl rfl

theorem trans (h : Extends Q t t') (h' : Extends Q t' t'') : Extends Q t t'' := by
  intro q
  rcases h q with hq | ⟨hQ, hnone, hdir⟩
  · rcases h' q with hq' | ⟨hQ, hnone, hdir⟩
    · exact .inl (hq'.trans hq)
    · exact .inr ⟨hQ, hq ▸ hnone, hdir⟩
  · rcases h' q with hq' | ⟨-, hnone', -⟩
    · exact .inr ⟨hQ, hnone, hq'.trans hdir⟩
    · rw [hdir] at hnone'
      cases hnone'

theorem created (hq : Q q) (hfree : t.Free q) : Extends Q t (t.created q .dir) := by
  intro q'
  rw [Tree.get_created hfree]
  split
  next heq => exact .inr ⟨heq ▸ hq, heq ▸ hfree.1, rfl⟩
  · exact .inl rfl

theorem isDir (h : Extends Q t t') (hdir : t.isDir q = true) : t'.isDir q = true := by
  rcases h q with hq | ⟨-, -, hq⟩
  · rwa [Tree.isDir, hq]
  · exact Tree.isDir_iff.mpr (.inr (by rw [hq]; rfl))

/-- What is in the way stays there. -/
theorem blocked_iff (h : Extends Q t t') : Blocked Q t' ↔ Blocked Q t := by
  constructor
  · rintro ⟨q, hQ, hsome, hdir⟩
    rcases h q with hq | ⟨-, -, hq⟩
    · rw [Tree.isDir, hq] at hdir
      exact ⟨q, hQ, hq ▸ hsome, hdir⟩
    · rw [Tree.isDir, hq] at hdir
      exact absurd hdir (by simp [isDirEntry])
  · rintro ⟨q, hQ, hsome, hdir⟩
    have hq : t'.get q = t.get q := (h q).resolve_right fun hn => hsome hn.2.1
    refine ⟨q, hQ, hq ▸ hsome, ?_⟩
    rwa [Tree.isDir, hq]

theorem get_path (h : Extends Q t t') (hQ : ∀ x : Place, ¬ Q (x.path p)) (x : Place) :
    t'.get (x.path p) = t.get (x.path p) :=
  (h _).resolve_right fun hn => hQ x hn.1

end Extends

/-! ### Making directories -/

namespace StorageProvider

/-- One directory in a directory. -/
theorem createDir_extends {n : Name} (hdir : t.isDir q = true) (hQ : Q (q ++ [n])) :
    Triple c (fun t' => t' = t) (Fs.createDir (q ++ [n]))
      (fun _ t' => Extends Q t t' ∧ t'.isDir (q ++ [n]) = true)
      (fun e t' => (e ≠ .panicked ∧ t' = t) ∧ (c.calm → Blocked Q t)) := by
  refine .callAt ?_ fun e he => ⟨⟨he.faulted.2.1, he.faulted.2.2⟩, fun hc => absurd hc he.1⟩
  by_cases hexists : t.isDir (q ++ [n]) = true
  · rw [if_pos hexists]
    exact ⟨.refl Q t, hexists⟩
  rw [if_neg hexists]
  by_cases hget : t.get (q ++ [n]) = none
  · have hfree : t.Free (q ++ [n]) := ⟨hget, by simp, by rw [List.dropLast_concat]; exact hdir⟩
    rw [hget, if_neg (by simp), if_pos hfree]
    refine ⟨.created hQ hfree, Tree.isDir_iff.mpr (.inr ?_)⟩
    rw [Tree.get_created hfree, if_pos rfl]
    rfl
  · rw [if_pos (Option.isSome_iff_ne_none.mpr hget)]
    exact ⟨⟨by simp, rfl⟩, fun _ => ⟨_, hQ, hget, Bool.eq_false_iff.mpr hexists⟩⟩

theorem createDirAll_extends : ∀ q : Path, (∀ q' ∈ Fs.ancestors q, Q q') →
    Triple c (Extends Q t) (Fs.createDirAll q) (fun _ t' => Extends Q t t' ∧ t'.isDir q = true)
      (fun e t' => (e ≠ .panicked ∧ Extends Q t t') ∧ (c.calm → Blocked Q t)) := by
  intro q
  induction q using List.reverseRecOn with
  | nil => exact fun _ => .pure fun t h => ⟨h, rfl⟩
  | append_singleton q n ih =>
    intro hway
    rw [ancestors_concat] at hway
    rw [Fs.createDirAll, ancestors_concat, createDirs_append]
    refine .bind (ih fun q' hq' => hway q' (List.mem_append_left _ hq')) fun _ => ?_
    refine .ofState fun t₁ h₁ => ?_
    obtain ⟨h, hdir⟩ := h₁
    have hlast : Q (q ++ [n]) := hway _ (List.mem_append_right _ (List.mem_singleton_self _))
    refine .bind ((createDir_extends hdir hlast).conseq (fun _ h => h) ?_ ?_)
      fun _ => .pure fun _ h => h
    · exact fun _ t' h' => ⟨h.trans h'.1, h'.2⟩
    · rintro e _ ⟨⟨he, rfl⟩, hblocked⟩
      exact ⟨⟨he, h⟩, fun hc => h.blocked_iff.mp (hblocked hc)⟩

/-! ### Constructing the provider -/

/-- The loop of `new`. -/
def establish (p : StorageProvider) : List StreamId → Io Tree StorageError Unit
  | [] => pure ()
  | streamId :: streamIds => do
    let path := p.streamDirectory streamId
    Io.mapErr (.io path) (Fs.createDirAll path)
    establish p streamIds

/-- Makes the root and the directories of all streams. -/
def new (rootDirectory : Path) : Io Tree StorageError StorageProvider := do
  let provider : StorageProvider := ⟨rootDirectory⟩
  establish provider StreamId.all
  pure provider

/-- The directories of the streams and those above them. -/
def BaseWay (p : StorageProvider) (q : Path) : Prop := ∃ s, q ∈ Fs.ancestors (p.streamDirectory s)

/-- All directories of streams are there. -/
def Established (p : StorageProvider) (t : Tree) : Prop :=
  ∀ s, t.isDir (p.streamDirectory s) = true

/-- An attempt that ended early, at the directory of one stream. -/
structure EndedEarly (c : Mode) (p : StorageProvider) (t : Tree) (e : Exit StorageError)
    (t' : Tree) : Prop where
  extended : Extends (BaseWay p) t t'
  ne_panicked : e ≠ .panicked
  path : ∀ error, e = .error error → ∃ s kind, error = .io (p.streamDirectory s) kind
  blocked : c.calm → Blocked (BaseWay p) t

theorem establish_triple : ∀ streamIds : List StreamId,
    Triple c (Extends (BaseWay p) t) (p.establish streamIds)
      (fun _ t' => Extends (BaseWay p) t t' ∧ ∀ s ∈ streamIds, t'.isDir (p.streamDirectory s) = true)
      (EndedEarly c p t) := by
  intro streamIds
  induction streamIds generalizing t with
  | nil => exact .pure fun _ h => ⟨h, by simp⟩
  | cons s streamIds ih =>
    have hway : ∀ q ∈ Fs.ancestors (p.streamDirectory s), BaseWay p q := fun q hq => ⟨s, hq⟩
    refine .bind (.mapErr_exits ((createDirAll_extends _ hway).exits fun e t' h => ?_)) fun _ => ?_
    · obtain ⟨⟨hpanicked, hextends⟩, hblocked⟩ := h
      refine ⟨hextends, Exit.map_ne_panicked _ hpanicked, fun error herror => ?_, hblocked⟩
      rcases e with kind | _ | _
      · exact ⟨s, kind, (Exit.error.inj herror).symm⟩
      · cases herror
      · cases herror
    · refine .ofState fun t₁ ⟨h, hdir⟩ => ?_
      refine (ih (t := t₁)).conseq ?_ ?_ ?_
      · rintro _ rfl
        exact .refl _ _
      · intro _ t' ⟨h', hrest⟩
        refine ⟨h.trans h', fun s' hs' => ?_⟩
        rcases List.mem_cons.mp hs' with rfl | hs'
        · exact h'.isDir hdir
        · exact hrest s' hs'
      · intro e t' h'
        exact ⟨h.trans h'.extended, h'.ne_panicked, h'.path,
          fun hc => h.blocked_iff.mp (h'.blocked hc)⟩

theorem new_triple :
    Triple c (fun t' => t' = t) (new q)
      (fun p t' => p = ⟨q⟩ ∧ Extends (BaseWay ⟨q⟩) t t' ∧ Established ⟨q⟩ t')
      (EndedEarly c ⟨q⟩ t) := by
  refine .bind ((establish_triple StreamId.all).pre ?_) fun _ => .pure fun t' h => ?_
  · rintro _ rfl
    exact .refl _ _
  · exact ⟨rfl, h.1, fun s => h.2 s s.mem_all⟩

/-! ### What is in the way -/

theorem Established.of_mem (h : Established p t) (hq : BaseWay p q) : t.isDir q = true := by
  obtain ⟨s, hq⟩ := hq
  exact isDir_of_mem_ancestors (h s) q hq

theorem Established.not_blocked (h : Established p t) : ¬ Blocked (BaseWay p) t := by
  rintro ⟨q, hq, -, hdir⟩
  rw [h.of_mem hq] at hdir
  cases hdir

/-- Over directories that are all there nothing is made. -/
theorem Established.establish (h : Established p t) : ∀ streamIds : List StreamId,
    Triple c (fun t' => t' = t) (p.establish streamIds) (fun _ t' => t' = t)
      (fun _ t' => t' = t) := by
  intro streamIds
  induction streamIds with
  | nil => exact .pure fun _ h => h
  | cons s streamIds ih =>
    refine .bind (.mapErr_exits ?_) fun _ => ih
    exact (createDirs_triple _ (isDir_of_mem_ancestors (h s))).exits fun _ _ he => he.2.2

theorem Established.new (h : Established ⟨q⟩ t) (plan : Plan) : ((new q).run t plan).2.sys = t := by
  have hsame : Triple ⟨False, fun _ => True⟩ (fun t' => t' = t) (StorageProvider.new q)
      (fun _ t' => t' = t) (fun _ t' => t' = t) :=
    .bind (h.establish StreamId.all) fun _ => .pure fun _ h => h
  rcases hrun : (StorageProvider.new q).run t plan with ⟨e | p', w⟩
  · exact hsame.error_of_run rfl plan.within_any hrun
  · exact hsame.ok_of_run rfl plan.within_any hrun

theorem BaseWay.onWay (h : BaseWay p q) : ∃ s, OnWay p s q := by
  obtain ⟨s, hs⟩ := h
  exact ⟨s, onWay_of_mem_ancestors 0 0 (Nat.zero_le 4) q hs⟩

theorem not_baseWay_path (x : Place) : ¬ BaseWay p (x.path p) := fun h =>
  h.onWay.elim fun _ hs => hs.ne_path x rfl

end StorageProvider

/-! ### Streams in the extended tree -/

theorem isRange_of_extends (h : Extends Q t t') (hrange : isRange (t.get q) = true) :
    isRange (t'.get q) = true := by
  rcases h q with hq | ⟨-, -, hq⟩
  · rwa [hq]
  · rw [hq]
    rfl

theorem Fresh.extended (hfresh : Fresh p s t) (h : Extends p.BaseWay t t') : Fresh p s t' where
  way q hq := isRange_of_extends h (hfresh.way q hq)
  empty x hx := (h.get_path StorageProvider.not_baseWay_path x).trans (hfresh.empty x hx)

theorem On.extended (hon : On p s d t) (h : Extends p.BaseWay t t') : On p s d t' := by
  have hget := h.get_path (p := p) StorageProvider.not_baseWay_path
  refine ⟨⟨h.isDir hon.1.base, fun depth n hdepth => ?_, fun x hx => ?_⟩, ?_⟩
  · exact isRange_of_extends h (hon.1.range depth n hdepth)
  · rw [hget]
    exact hon.1.plain x hx
  · funext x
    rw [← hon.2, diskOf, diskOf, hget]

namespace StorageProvider

/-- Without a fault only what is in the way can end an attempt. -/
theorem new_completes {plan : Plan} (h : ¬ Blocked (BaseWay ⟨q⟩) t) (hplan : plan.Smooth) :
    ∃ w, (new q).run t plan = (.ok ⟨q⟩, w) := by
  have hnew := new_triple (c := ⟨True, fun _ => True⟩) (t := t) (q := q)
  rcases hrun : (new q).run t plan with ⟨e | p', w⟩
  · exact absurd ((hnew.error_of_run rfl hplan hrun).blocked trivial) h
  · exact ⟨w, by rw [(hnew.ok_of_run rfl hplan hrun).1]⟩

/-- **Establishing the stream directories.**  Nothing but empty directories is added,
whatever happens, so each stream is what it was.  A provider comes with the directories of
all streams; an error names one of them.  The next attempt goes through without faults
exactly if nothing but directories stood on the way before the first one, and once all are
there an attempt leaves the tree as it is. -/
theorem new_establishes (root : Path) (t : Tree) (plan : Plan) :
    let p : StorageProvider := ⟨root⟩
    let r := (new root).run t plan
    (Extends p.BaseWay t r.2.sys ∧ ∀ s d, On p s d t → On p s d r.2.sys) ∧
    (∀ p', r.1 = .ok p' → p' = p ∧ Established p r.2.sys) ∧
    (∀ e, r.1 = .error (.error e) → ∃ s kind, e = .io (p.streamDirectory s) kind) ∧
    (∀ plan' : Plan, plan'.Smooth →
      ((∃ p' w', (new root).run r.2.sys plan' = (.ok p', w')) ↔ ¬ Blocked p.BaseWay t)) ∧
    (Established p t → r.2.sys = t) := by
  intro p r
  have hnew := new_triple (c := ⟨False, fun _ => True⟩) (t := t) (q := root)
  have hrun : (new root).run t plan = (r.1, r.2) := rfl
  clear_value r
  obtain ⟨r, w⟩ := r
  have hextends : Extends p.BaseWay t w.sys := by
    rcases r with e | p'
    · exact (hnew.error_of_run rfl plan.within_any hrun).extended
    · exact (hnew.ok_of_run rfl plan.within_any hrun).2.1
  refine ⟨⟨hextends, fun s d hon => hon.extended hextends⟩, ?_, ?_, ?_, ?_⟩
  · rintro p' rfl
    exact (hnew.ok_of_run rfl plan.within_any hrun).imp_right And.right
  · rintro e rfl
    exact (hnew.error_of_run rfl plan.within_any hrun).path e rfl
  · intro plan' hplan
    rw [← hextends.blocked_iff]
    refine ⟨fun ⟨p', w', hok⟩ => ?_, fun hblocked => ?_⟩
    · have hresult := (new_triple (c := ⟨True, fun _ => True⟩)).ok_of_run rfl hplan hok
      exact fun hblocked => hresult.2.2.not_blocked (hresult.2.1.blocked_iff.mpr hblocked)
    · exact ⟨_, new_completes hblocked hplan⟩
  · intro h
    rw [← h.new plan, hrun]

/-! ### The directories alone -/

/-- The entries of the tree that has the directories of all streams and nothing else. -/
def baseEntry : Path → Option Entry
  | [top] => if top = ascii "streams" then some ⟨.dir, false⟩ else none
  | [top, name] =>
    if top = ascii "streams" ∧ name.length = 4 ∧ name.all isDigit ∧ numberOf name < StreamId.count
    then some ⟨.dir, false⟩ else none
  | _ => none

theorem baseEntry_eq_some {e : Entry} (h : baseEntry q = some e) :
    e = ⟨.dir, false⟩ ∧ (q = [ascii "streams"] ∨ ∃ s, q = streamDirectory ⟨[]⟩ s) := by
  unfold baseEntry at h
  split at h
  next top =>
    split at h
    next htop => exact ⟨(Option.some.inj h).symm, .inl (by rw [htop])⟩
    · cases h
  next top name =>
    split at h
    next hname =>
      obtain ⟨htop, hlen, hdigits, hlt⟩ := hname
      refine ⟨(Option.some.inj h).symm, .inr ⟨⟨numberOf name, hlt⟩, ?_⟩⟩
      have hname := digits_numberOf name (List.all_eq_true.mp hdigits)
      rw [hlen] at hname
      rw [htop, streamDirectory, hname, List.nil_append]
    · cases h
  · cases h

theorem baseEntry_streamDirectory (s : StreamId) :
    baseEntry (streamDirectory ⟨[]⟩ s) = some ⟨.dir, false⟩ := by
  have hlt : s.get < 10 ^ 4 := Nat.lt_trans s.lt (by decide)
  refine if_pos ⟨rfl, length_digits 4 _, List.all_eq_true.mpr (isDigit_of_mem_digits 4 _), ?_⟩
  rw [numberOf_digits_of_lt hlt]
  exact s.lt

def bases : Tree where
  get := baseEntry
  names := [ascii "streams"] :: StreamId.all.map (streamDirectory ⟨[]⟩)
  mem_names q h := by
    obtain ⟨e, he⟩ := Option.ne_none_iff_exists'.mp h
    rcases (baseEntry_eq_some he).2 with rfl | ⟨s, rfl⟩
    · exact List.mem_cons_self
    · exact List.mem_cons_of_mem _ (List.mem_map_of_mem s.mem_all)
  rooted q n h := by
    obtain ⟨e, he⟩ := Option.ne_none_iff_exists'.mp h
    rcases (baseEntry_eq_some he).2 with hq | ⟨s, hq⟩
    · exact .inl (List.append_inj_left' hq rfl : q = [])
    · right
      have hq : q = [ascii "streams"] := List.append_inj_left' hq rfl
      rw [hq]
      rfl

theorem established_bases : Established ⟨[]⟩ bases := fun s =>
  Tree.isDir_iff.mpr (.inr (congrArg isDirEntry (baseEntry_streamDirectory s)))

theorem fresh_bases (s : StreamId) : Fresh ⟨[]⟩ s bases where
  way q _ := by
    show isRange (baseEntry q) = true
    cases he : baseEntry q with
    | none => rfl
    | some e => rw [(baseEntry_eq_some he).1]; rfl
  empty x _ := by
    show baseEntry (x.path ⟨[]⟩) = none
    have hlt := x.length_path (p := ⟨[]⟩)
    cases he : baseEntry (x.path ⟨[]⟩) with
    | none => rfl
    | some e =>
      rcases (baseEntry_eq_some he).2 with hx | ⟨s', hx⟩
      · rw [hx] at hlt
        exact absurd hlt (by decide)
      · rw [hx, length_streamDirectory] at hlt
        exact absurd hlt (Nat.lt_irrefl _)

end StorageProvider

end TransactionLog
