import TransactionLog.Storage.AtomicFile

/-!
# Publishing a checkpoint is atomic

A checkpoint is a file that is replaced as a whole.  An attempt can stop or fail at any
call, whatever stands at the staging path and in the rest of the tree, and then the entry
of the checkpoint is the one it was or a complete new one.

Until the renamed entry was synchronized a crash may bring any entry back that stood there
since the last synchronization; apart from these entries and the stream's directory it may
do anything to the tree.
-/

namespace TransactionLog

open Lib Lib.Tree

namespace StorageProvider

variable {p : StorageProvider} {s : StreamId} {c : Mode} {t : Tree} {checkpoint : StreamCheckpoint}

/-! ### One attempt -/

/-- **One attempt, from any tree** with the stream's directory.  The new entry is
durable when the attempt returns. -/
theorem writeCheckpoint_rule (hs : checkpoint.endLocation.recordId.streamId = s)
    (hdir : t.isDir (p.streamDirectory s) = true) :
    Triple c (fun t' => t' = t) (p.writeCheckpoint checkpoint)
      (fun _ t' => t'.isDir (p.streamDirectory s) = true ∧
        ∃ f, Holds checkpoint f ∧ t'.get (p.checkpointFilePath s) = some ⟨.file f, true⟩)
      (fun _ t' => t'.isDir (p.streamDirectory s) = t.isDir (p.streamDirectory s) ∧
        (t'.get (p.checkpointFilePath s) = t.get (p.checkpointFilePath s) ∨
          ∃ f l, Holds checkpoint f ∧ t'.get (p.checkpointFilePath s) = some ⟨.file f, l⟩)) := by
  rw [writeCheckpoint, hs]
  exact writeAtomic_rule hdir

/-! ### Reading -/

variable [CheckpointReader]

/-- The entry of the checkpoint is that of `checkpoint`, complete and durable. -/
def Stands (e : Option Entry) (r : Option StreamCheckpoint) : Prop :=
  Stores CheckpointReader.fromSlice maxCheckpointBytes e r

theorem stands_of_holds {f : File} {l : Bool} (hf : Holds checkpoint f) :
    Stands (some ⟨.file f, l⟩) (some checkpoint) :=
  Complete.stores hf checkpoint.length_toVec_le (CheckpointReader.fromSlice_toVec checkpoint)

/-- **Reading the checkpoint of any tree** where one stands. -/
theorem readCheckpoint_rule {r : Option StreamCheckpoint}
    (hdir : t.isDir (p.streamDirectory s) = true) (h : Stands (t.get (p.checkpointFilePath s)) r) :
    Triple c (fun t' => t' = t) (p.readCheckpoint s) (fun r' _ => r' = r)
      (fun e t' => Unread c e t') :=
  (readJson_rule hdir h).conseq (fun _ h => h) (fun _ _ h => h.1) fun _ _ h => h.1

/-! ### Runs of attempts -/

/-- The tree, and the entries of the checkpoint that a crash may bring back. -/
structure PublicationState where
  tree : Tree
  replaced : List (Option Entry)

/-- The state after an attempt under `plan`, and the attempt's result. -/
def attempt (p : StorageProvider) (st : PublicationState) (checkpoint : StreamCheckpoint)
    (plan : Plan) : Except (Exit StorageError) Unit × PublicationState :=
  let path := p.checkpointFilePath checkpoint.endLocation.recordId.streamId
  let r := (p.writeCheckpoint checkpoint).run st.tree plan
  (r.1, ⟨r.2.sys, if isLinked (r.2.sys.get path) then [] else st.tree.get path :: st.replaced⟩)

/-- A crash leaves `tree`. -/
def Crashed (p : StorageProvider) (s : StreamId) (st : PublicationState) (tree : Tree) : Prop :=
  tree.isDir (p.streamDirectory s) = true ∧
    ∃ e ∈ st.tree.get (p.checkpointFilePath s) :: st.replaced,
      Survives e (tree.get (p.checkpointFilePath s))

/-- Attempts and crashes in any order, with the checkpoints that may be read: the one
last published, and those whose attempts did not return since. -/
inductive Publishes (p : StorageProvider) (s : StreamId) :
    PublicationState → List (Option StreamCheckpoint) → Prop
  | start {tree : Tree} {previous : Option StreamCheckpoint}
      (dir : tree.isDir (p.streamDirectory s) = true)
      (stands : Stands (tree.get (p.checkpointFilePath s)) previous) :
      Publishes p s ⟨tree, []⟩ [previous]
  | completed {st : PublicationState} {rs : List (Option StreamCheckpoint)} (h : Publishes p s st rs)
      {checkpoint : StreamCheckpoint} (stream : checkpoint.endLocation.recordId.streamId = s)
      {plan : Plan} {st' : PublicationState} (result : attempt p st checkpoint plan = (.ok (), st')) :
      Publishes p s st' [some checkpoint]
  | interrupted {st : PublicationState} {rs : List (Option StreamCheckpoint)}
      (h : Publishes p s st rs) {checkpoint : StreamCheckpoint}
      (stream : checkpoint.endLocation.recordId.streamId = s) {plan : Plan}
      {e : Exit StorageError} {st' : PublicationState}
      (result : attempt p st checkpoint plan = (.error e, st')) :
      Publishes p s st' (some checkpoint :: rs)
  | crashed {st : PublicationState} {rs : List (Option StreamCheckpoint)} (h : Publishes p s st rs)
      {tree : Tree} (crash : Crashed p s st tree) : Publishes p s ⟨tree, []⟩ rs

/-- The entry of the checkpoint, and each that a crash may bring back, is that of one
of `rs`. -/
structure Published (p : StorageProvider) (s : StreamId) (st : PublicationState)
    (rs : List (Option StreamCheckpoint)) : Prop where
  dir : st.tree.isDir (p.streamDirectory s) = true
  stands : ∀ e ∈ st.tree.get (p.checkpointFilePath s) :: st.replaced, ∃ r ∈ rs, Stands e r

variable {st st' : PublicationState} {rs : List (Option StreamCheckpoint)} {plan : Plan}

theorem Published.completed (h : Published p s st rs)
    (hs : checkpoint.endLocation.recordId.streamId = s)
    (hrun : attempt p st checkpoint plan = (.ok (), st')) :
    Published p s st' [some checkpoint] := by
  obtain ⟨-, hr⟩ := writeCheckpoint_rule hs h.dir ⟨st.tree, plan⟩ rfl plan.within_any
  have hw : p.writeCheckpoint checkpoint ⟨st.tree, plan⟩ =
      (p.writeCheckpoint checkpoint).run st.tree plan := rfl
  rw [hw] at hr
  unfold attempt at hrun
  rw [hs] at hrun
  rcases hrun' : (p.writeCheckpoint checkpoint).run st.tree plan with ⟨e | _, w⟩
  · rw [hrun'] at hrun
    cases (Prod.mk.inj hrun).1
  · rw [hrun'] at hrun hr
    obtain ⟨-, rfl⟩ := Prod.mk.inj hrun
    obtain ⟨hdir, f, hf, hget⟩ := hr
    refine ⟨hdir, ?_⟩
    dsimp only
    rw [hget]
    intro e he
    obtain rfl := List.mem_singleton.mp he
    exact ⟨_, List.mem_singleton_self _, stands_of_holds hf⟩

theorem Published.interrupted (h : Published p s st rs)
    (hs : checkpoint.endLocation.recordId.streamId = s) {e : Exit StorageError}
    (hrun : attempt p st checkpoint plan = (.error e, st')) :
    Published p s st' (some checkpoint :: rs) := by
  obtain ⟨-, hr⟩ := writeCheckpoint_rule hs h.dir ⟨st.tree, plan⟩ rfl plan.within_any
  have hw : p.writeCheckpoint checkpoint ⟨st.tree, plan⟩ =
      (p.writeCheckpoint checkpoint).run st.tree plan := rfl
  rw [hw] at hr
  unfold attempt at hrun
  rw [hs] at hrun
  rcases hrun' : (p.writeCheckpoint checkpoint).run st.tree plan with ⟨e | _, w⟩
  · rw [hrun'] at hrun hr
    obtain ⟨-, rfl⟩ := Prod.mk.inj hrun
    obtain ⟨hdir, hentry⟩ := hr
    have hbefore : ∀ e ∈ st.tree.get (p.checkpointFilePath s) :: st.replaced,
        ∃ r ∈ some checkpoint :: rs, Stands e r := by
      intro e he
      obtain ⟨r, hr, hstands⟩ := h.stands e he
      exact ⟨r, List.mem_cons_of_mem _ hr, hstands⟩
    refine ⟨hdir.trans h.dir, fun e he => ?_⟩
    rcases List.mem_cons.mp he with rfl | he
    · rcases hentry with hsame | ⟨f, l, hf, hnew⟩
      · dsimp only
        rw [hsame]
        exact hbefore _ List.mem_cons_self
      · dsimp only
        rw [hnew]
        exact ⟨_, List.mem_cons_self, stands_of_holds hf⟩
    · dsimp only at he
      split at he
      · cases he
      · exact hbefore e he
  · rw [hrun'] at hrun
    cases (Prod.mk.inj hrun).1

theorem Published.crashed (h : Published p s st rs) {tree : Tree} (hcrash : Crashed p s st tree) :
    Published p s ⟨tree, []⟩ rs := by
  obtain ⟨hdir, e, he, hsurvives⟩ := hcrash
  refine ⟨hdir, fun e' he' => ?_⟩
  obtain rfl := List.mem_singleton.mp he'
  obtain ⟨r, hr, hstands⟩ := h.stands e he
  exact ⟨r, hr, Stores.survives hstands hsurvives⟩

/-- **Every run** of attempts and crashes, by induction. -/
theorem Publishes.published (h : Publishes p s st rs) : Published p s st rs := by
  induction h with
  | start dir stands =>
    refine ⟨dir, fun e he => ?_⟩
    obtain rfl := List.mem_singleton.mp he
    exact ⟨_, List.mem_singleton_self _, stands⟩
  | completed h stream result ih => exact ih.completed stream result
  | interrupted h stream result ih => exact ih.interrupted stream result
  | crashed h crash ih => exact ih.crashed crash

/-- **Publication is crash-atomic.**  After any attempts, each of them stopped at any
call, failed or completed, and any crashes, a read gives the checkpoint last published
or one of those whose attempts did not return since, whole, or none where none was
published.  A read can only fail because it was abandoned or the system reported an
error to it. -/
theorem publication_crash_atomic (h : Publishes p s st rs) (plan : Plan) :
    let r := ((p.readCheckpoint s).run st.tree plan).1
    (∀ checkpoint, r = .ok checkpoint → checkpoint ∈ rs) ∧
      (∀ e, r = .error e → e = .stopped ∨ ∃ path k, e = .error (.io path k)) ∧
      (plan.Smooth → ∃ checkpoint ∈ rs, r = .ok checkpoint) := by
  intro r
  obtain ⟨hdir, hstands⟩ := h.published
  obtain ⟨checkpoint, hmem, hstands⟩ := hstands _ List.mem_cons_self
  obtain ⟨-, hr⟩ := readCheckpoint_rule hdir hstands ⟨st.tree, plan⟩ rfl plan.within_smooth
  have hrun : r = (p.readCheckpoint s ⟨st.tree, plan⟩).1 := rfl
  rw [hrun]
  rcases hread : p.readCheckpoint s ⟨st.tree, plan⟩ with ⟨e | checkpoint', w⟩ <;> rw [hread] at hr
  · refine ⟨by simp, ?_, fun hsmooth => absurd hsmooth hr.1⟩
    intro e' he'
    obtain rfl := Except.error.inj he'
    exact hr.2
  · obtain rfl := hr
    refine ⟨?_, by simp, fun _ => ⟨checkpoint', hmem, rfl⟩⟩
    intro c' hc'
    obtain rfl := Except.ok.inj hc'
    exact hmem

omit [CheckpointReader] in
/-- A first checkpoint whose attempt stops between the renaming and the synchronization
of the directory, and a crash that takes it back. -/
theorem publication_crash_atomic_stopped : letI := CheckpointReader.canonical
    let p : StorageProvider := ⟨[]⟩
    let s : StreamId := ⟨7, by decide⟩
    let checkpoint : StreamCheckpoint := ⟨⟨⟨s, ⟨2 ^ 64 - 1, by decide⟩⟩, ⟨16, by decide⟩⟩⟩
    let r := ((p.readCheckpoint s).run (established p s) .calm).1
    (∀ c, r = .ok c → c ∈ [some checkpoint, none]) ∧
      (∀ e, r = .error e → e = .stopped ∨ ∃ path k, e = .error (.io path k)) ∧
      (Plan.Smooth .calm → ∃ c ∈ [some checkpoint, none], r = .ok c) := by
  let _ := CheckpointReader.canonical
  intro p s checkpoint r
  let plan : Plan := .next .all (.next .all (.next .all (.next .all (.next .all .stop))))
  have hon := on_established p s
  have hnone : (established p s).get (p.checkpointFilePath s) = none :=
    hon.get_none (x := .checkpoint s) rfl rfl
  have hresult : (attempt p ⟨established p s, []⟩ checkpoint plan).1 = .error .stopped := by
    decide +kernel
  have hreplaced : none ∈ (attempt p ⟨established p s, []⟩ checkpoint plan).2.replaced := by
    decide +kernel
  have hstopped : Publishes p s (attempt p ⟨established p s, []⟩ checkpoint plan).2
      [some checkpoint, none] :=
    .interrupted (.start hon.1.base (show Stands _ none from hnone)) rfl (Prod.ext hresult rfl)
  have hcrash : Crashed p s (attempt p ⟨established p s, []⟩ checkpoint plan).2
      (established p s) := by
    refine ⟨hon.1.base, none, List.mem_cons_of_mem _ hreplaced, ?_⟩
    rw [hnone]
    exact .absent
  exact publication_crash_atomic (.crashed hstopped hcrash) .calm

end StorageProvider

end TransactionLog
