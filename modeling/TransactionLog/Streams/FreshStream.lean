import TransactionLog.Storage.Fresh
import TransactionLog.Streams.StreamInitializer

/-!
# Initializing a stream that is not there yet

The initialization of a fresh stream finds neither a checkpoint nor a log and creates
the first pair, together with the directories that it is in.
-/

namespace TransactionLog

open Lib

namespace StreamInitializer

variable [Crc32c] [CheckpointReader] {p : StorageProvider} {s : StreamId} {t : Tree} {d : Disk}
  {c : Mode}

/-- The first pair of a stream without files. -/
def firstPair (s : StreamId) (d : Disk) : Disk :=
  StorageProvider.created (StorageProvider.created d (.log (.first s))) (.index (.first s))

omit [CheckpointReader] in
theorem initialized_blank (h : Blank s d) :
    Initialized p s none d ⟨.first s, none⟩ (firstPair s d) := by
  have hvisited : Visited p s none d d none (new s) d := {
    loaded := .inl rfl
    maximum := fun f hf => h (.log f) hf
    covered := ⟨by simp, by simp, fun _ => rfl⟩
    walk := ⟨[], [], d, none, rfl, .nil, .all⟩ }
  exact .mk hvisited rfl rfl (.inr ⟨rfl, .first s, rfl, h _ rfl, rfl, rfl⟩) rfl

/-- **Initializing a stream without a directory.** -/
theorem initializeStream_fresh (h : Fresh p s t) (hbase : ¬ t.isDir (p.streamDirectory s) = true) :
    Triple c (fun t' => t' = t) (initializeStream p s)
      (fun i tree => i = ⟨.first s, none⟩ ∧ ∃ d, Blank s d ∧ On p s (firstPair s d) tree)
      (fun _ tree => ¬ c.calm ∧ (Fresh p s tree ∨
        ∃ d, Blank s d ∧ On p s (StorageProvider.created d (.log (.first s))) tree)) := by
  refine .bind (R := fun st t' => st = new s ∧ t' = t) (.bind (R := fun r t' => r = none ∧ t' = t)
    ((Triple.mapErr_faulted (StorageProvider.readCheckpoint_fresh h)).exits ?_) fun r =>
      .assume fun hr => ?_) fun st => .assume fun hst => ?_
  · exact fun e t' he => ⟨he.1, .inl (he.2.2 ▸ h)⟩
  · subst hr
    exact .pure fun t' ht => ⟨rfl, ht⟩
  subst hst
  refine .bind (R := fun st t' => st = new s ∧ t' = t) (.bind (R := fun r t' => r = none ∧ t' = t)
    ((Triple.mapErr_faulted (StorageProvider.maximumLogFile_missing h hbase)).exits ?_) fun r =>
      .assume fun hr => ?_) fun st => .assume fun hst => ?_
  · exact fun e t' he => ⟨he.1, .inl (he.2.2 ▸ h)⟩
  · subst hr
    exact .pure fun t' ht => ⟨rfl, ht⟩
  subst hst
  -- nothing to validate, to remove or to publish
  refine .bind (R := fun st t' => st = new s ∧ t' = t) (.pure fun t' ht => ⟨rfl, ht⟩) fun st =>
    .assume fun hst => ?_
  subst hst
  refine .bind (R := fun _ t' => t' = t) (.pure fun t' ht => ht) fun _ => ?_
  refine .bind (R := fun _ t' => t' = t) (.pure fun t' ht => ht) fun _ => ?_
  refine .bind (R := fun st tree => st = { new s with activePair := some ⟨.first s, none⟩ } ∧
    ∃ d, Blank s d ∧ On p s (firstPair s d) tree) (.bind (R := fun f t' => f = .first s ∧ t' = t)
      (.unwrap ?_ ?_) fun f => .assume fun hf => ?_) fun st => .assume fun hst => ?_
  · intro f t' hf ht
    exact ⟨(Option.some.inj hf).symm, ht⟩
  · intro t' hnone _
    cases hnone
  · subst hf
    refine .bind (.mapErr ((StorageProvider.createLogAndIndex_fresh rfl).conseq ?_ (fun _ _ h => h)
      ?_)) fun _ => .pure fun tree hon => ⟨rfl, hon⟩
    · rintro _ rfl
      exact h
    · rintro (e | _ | _) tree he
      · exact ⟨he.1, he.2.2⟩
      · exact ⟨he.1, he.2.2⟩
      · exact absurd rfl he.2.1
  · subst hst
    exact .pure fun tree hon => ⟨rfl, hon⟩

end StreamInitializer

end TransactionLog
