import TransactionLog.Streams.StreamRecovery

/-!
# Failures that change nothing

A log that is refused or cannot be read keeps its bytes, and so does an index that
is refused.  The failure goes up through the validators, and an initialization that
ends with it has removed no file and published no checkpoint.
-/

namespace TransactionLog

open Lib

namespace LogFileValidator

variable [Crc32c] {f : LogFileId} {t : Option RecordEndLocation} {file : File}

/-- A start that is refused leaves the log alone, whatever the plan. -/
theorem validate_refused (h : ¬ Accepts f t file) (plan : Plan) :
    ∃ e w, (validate f t).run file plan = (.error e, w) ∧ Untouched file w.sys := by
  obtain ⟨-, hrun⟩ := validate_triple f t file ⟨file, plan⟩ rfl plan.within_any
  rw [Io.run]
  rcases hw : validate f t ⟨file, plan⟩ with ⟨e | r, w⟩
  · rw [hw] at hrun
    refine ⟨e, w, rfl, ?_⟩
    rcases e with (_ | _ | _) | _ | _
    · exact hrun.2
    · exact hrun.2.resolve_right fun hcut => h hcut.1
    · exact hrun.2
    · exact hrun.2.resolve_right fun hcut => h hcut.1
    · exact hrun.2
  · rw [hw] at hrun
    exact absurd hrun.1.accepts h

theorem untouched_of_invalidStart {plan : Plan} {reason : String} {w : World File}
    (h : (validate f t).run file plan = (.error (.error (.invalidStart reason)), w)) :
    Untouched file w.sys := by
  have hrun := (validate_triple f t file ⟨file, plan⟩ rfl plan.within_any).2
  rw [Io.run] at h
  rw [h] at hrun
  exact hrun.2

end LogFileValidator

namespace IndexFileValidator

open LogFileValidator (trustedCount Untouched)

variable {t : Option RecordEndLocation} {suffixEnds : List LogFilePosition} {index : File}

/-- An index that is refused is left alone, whatever the plan. -/
theorem validate_refused
    (h : recordsPerFile < trustedCount t + suffixEnds.length ∨ ¬ Trusts t index.content)
    (plan : Plan) :
    ∃ e w, (validate t suffixEnds).run index plan = (.error e, w) ∧ Untouched index w.sys := by
  by_cases hroom : trustedCount t + suffixEnds.length > recordsPerFile
  · refine ⟨.error (.tooManyEntries (trustedCount t + suffixEnds.length) recordsPerFile),
      ⟨index, plan⟩, ?_, _, (File.seekTo_self index).symm⟩
    rw [Io.run, validate]
    simp only [if_pos hroom]
    rfl
  have htrusts := h.resolve_left hroom
  obtain ⟨-, hrun⟩ := validate_triple t suffixEnds index ⟨index, plan⟩ rfl plan.within_any
  have hrebuilding : ∀ s, Rebuilding t suffixEnds index s → Untouched index s := by
    intro s hs
    refine hs.resolve_right ?_
    rintro ⟨bs, hbs⟩
    exact htrusts hbs.trusts
  rw [Io.run]
  rcases hw : validate t suffixEnds ⟨index, plan⟩ with ⟨e | r, w⟩
  · rw [hw] at hrun
    refine ⟨e, w, rfl, ?_⟩
    rcases e with (_ | _ | _ | _) | _ | _
    · exact hrebuilding _ hrun.2
    · exact hrun.2
    · exact hrun.2
    · exact hrebuilding _ hrun.2
    · exact hrebuilding _ hrun.2
    · exact hrun.elim
  · rw [hw] at hrun
    exact absurd hrun.trusts htrusts

end IndexFileValidator

namespace IndexedLogValidator

variable [Crc32c] {p : StorageProvider} {f : LogFileId} {t : Option RecordEndLocation}
  {w w₁ w₂ w₃ w₄ : World Tree}

/-- A log that fails ends the validation of the pair. -/
theorem validate_log_error {e : LogFileValidationError}
    (hlog : p.openLogForValidation f w = (.ok (), w₁))
    (hindex : p.openIndexForRepair f w₁ = (.ok (), w₂))
    (h : Fs.onFile (p.logFilePath f) (LogFileValidator.validate f t) w₂ = (.error (.error e), w₃)) :
    validate p f t w = (.error (.error (.log e)), w₃) := by
  rw [validate, Io.bind_ok (Io.mapErr_ok hlog), Io.bind_ok (Io.mapErr_ok hindex)]
  exact Io.bind_error (Io.mapErr_error h)

/-- So does an index that fails. -/
theorem validate_index_error {v : ValidatedLogFile} {e : IndexFileValidationError}
    (hlog : p.openLogForValidation f w = (.ok (), w₁))
    (hindex : p.openIndexForRepair f w₁ = (.ok (), w₂))
    (hvalidated : Fs.onFile (p.logFilePath f) (LogFileValidator.validate f t) w₂ = (.ok v, w₃))
    (h : Fs.onFile (p.indexFilePath f) (IndexFileValidator.validate t v.suffixEnds) w₃ =
      (.error (.error e), w₄)) :
    validate p f t w = (.error (.error (.index e)), w₄) := by
  rw [validate, Io.bind_ok (Io.mapErr_ok hlog), Io.bind_ok (Io.mapErr_ok hindex),
    Io.bind_ok (Io.mapErr_ok hvalidated)]
  exact Io.bind_error (Io.mapErr_error h)

/-- A missing log fails in the storage. -/
theorem storage_of_missing {d : Disk} {v : IndexedLogValidationError} (hlog : d (.log f) = none)
    (hon : On p f.streamId d w.sys) (h : validate p f t w = (.error (.error v), w₁)) :
    ∃ e, v = .storage e := by
  have hopen : Triple ⟨False, fun _ => True⟩ (On p f.streamId d)
      (Io.mapErr IndexedLogValidationError.storage (p.openLogForValidation f)) (fun _ _ => False)
      (fun x _ => ∀ v, x = .error v → ∃ e, v = .storage e) := by
    refine .mapErr ((StorageProvider.openLogForValidation_missing rfl hlog).exits ?_)
    rintro (e | _ | _) tree -
    · exact fun v hv => ⟨e, (Exit.error.inj hv).symm⟩
    · exact fun v hv => by cases hv
    · exact fun v hv => by cases hv
  rcases Io.bind_eq_error h with h | ⟨_, w₂, h, -⟩
  · exact hopen.error_of_run hon w.plan.within_any h v rfl
  · exact (hopen.ok_of_run hon w.plan.within_any h).elim

end IndexedLogValidator

namespace StreamInitializer

open LogFileValidator (Accepts Untouched scanRecords startPosition trustedCount)
open IndexFileValidator (Trusts)
open IndexedLogValidator (Mended Spares openedIndex openedIndex_congr same_withPair withPair)

/-- No log and no index is gone, and what is published and staged is as it was. -/
structure Unremoved (s : StreamId) (d d' : Disk) : Prop where
  log : ∀ f, d (.log f) ≠ none → d' (.log f) ≠ none
  index : ∀ f, d (.index f) ≠ none → d' (.index f) ≠ none
  checkpoint : (d' (.checkpoint s)).map (fun st => st.file.content) =
    (d (.checkpoint s)).map fun st => st.file.content
  pending : (d' (.pending s)).map Stored.file = (d (.pending s)).map Stored.file

variable [Crc32c] {p : StorageProvider} {s : StreamId} {t r r' : Option RecordEndLocation}
  {d d' d₀ : Disk} {f : LogFileId} {files : List LogFileId} {c : Mode}
  {cp : Option StreamCheckpoint} {v : IndexedLogValidationError} {tree : Tree}

/-- A validation that failed, other than at a gap, ends the loop. -/
theorem validateEach_error {maximum : LogFileId} {st : InitializationState} {w w' : World Tree}
    (h : IndexedLogValidator.validate p f (trustedAt t f) w = (.error (.error v), w'))
    (hgap : v ≠ .storage (.io (p.logFilePath f) .notFound)) :
    validateEach p maximum t (f :: files) st w = (.error (.error (.validation v)), w') := by
  rw [validateEach, Io.bind_ok (Io.attempt_error h)]
  show (if _ ∧ _ then _ else _ : Io Tree InitializationError InitializationState) w' = _
  rw [if_neg fun hn => hgap hn.2]
  rfl

/-- Repairs remove nothing. -/
theorem Passed.ne_none (h : Passed p t d r files d' r') {x : Place} (hx : d x ≠ none) :
    d' x ≠ none := by
  induction h with
  | nil => exact hx
  | @cons d d' r r' f files L l i e hlog hmended rest ih =>
    refine ih ?_
    by_cases hl : x = .log f
    · subst hl
      simp
    by_cases hi : x = .index f
    · subst hi
      simp
    · exact fun hnone => hx ((same_withPair hl hi _).none_iff.mp hnone)

omit [Crc32c] in
theorem map_file_of_same {x : Place} (h : Same d d' x) :
    (d' x).map Stored.file = (d x).map Stored.file := by
  rcases h with h | ⟨st, hst, h⟩
  · rw [h]
  · rw [h, hst]
    rfl

omit [Crc32c] in
theorem map_content_of_same {x : Place} (h : Same d d' x) :
    (d' x).map (fun st => st.file.content) = (d x).map fun st => st.file.content := by
  have := congrArg (Option.map File.content) (map_file_of_same h)
  rwa [Option.map_map, Option.map_map] at this

/-- No run of `m` ends with the error of a file's validation. -/
def NeverValidates {α : Type} (m : Io Tree InitializationError α) : Prop :=
  Triple ⟨False, fun _ => True⟩ (fun _ => True) m (fun _ _ => True) fun e _ => Outside e

omit [Crc32c] in
theorem neverValidates_storage {α : Type} (m : Io Tree StorageError α) :
    NeverValidates (Io.mapErr .storage m) := by
  refine .mapErr fun w _ _ => ⟨Plan.within_any _, ?_⟩
  rcases (m w).1 with (e | _ | _) | a
  · exact fun v hv => by cases hv
  · exact fun v hv => by cases hv
  · exact fun v hv => by cases hv
  · trivial

omit [Crc32c] in
theorem neverValidates_unwrap {α : Type} (o : Option α) : NeverValidates (Io.unwrap o) :=
  Triple.unwrap (fun _ _ _ _ => trivial) fun _ _ _ v hv => by cases hv

omit [Crc32c] in
theorem NeverValidates.elim {α : Type} {m : Io Tree InitializationError α} (h : NeverValidates m)
    {w w' : World Tree} (hrun : m w = (.error (.error (.validation v)), w')) : False :=
  h.error_of_run trivial w.plan.within_any hrun v rfl

section Steps

variable {st : InitializationState}

omit [Crc32c] in
theorem neverValidates_loadCheckpoint [CheckpointReader] : NeverValidates (loadCheckpoint p st) := by
  refine .bind (neverValidates_storage _) fun r => ?_
  cases r with
  | none => exact .pure fun _ _ => trivial
  | some checkpoint =>
    simp only
    split
    · exact .pure fun _ _ => trivial
    · exact .throw fun _ _ v hv => by cases hv

omit [Crc32c] in
theorem neverValidates_discoverLogFiles : NeverValidates (discoverLogFiles p st) := by
  refine .bind (neverValidates_storage _) fun maximum => ?_
  split
  · exact .pure fun _ _ => trivial
  · exact .throw fun _ _ v hv => by cases hv
  · simp only
    split
    · exact .pure fun _ _ => trivial
    · exact .throw fun _ _ v hv => by cases hv

omit [Crc32c] in
/-- Nor do the steps after the validation. -/
theorem neverValidates_finish : NeverValidates (do
    removeLaterFiles p st
    advanceCheckpoint p st
    let st ← prepareActivePair p st
    Io.unwrap st.activePair) := by
  refine .bind (R := fun _ _ => True) ?_ fun _ => .bind (R := fun _ _ => True) ?_ fun _ =>
    .bind (R := fun _ _ => True) ?_ fun st => neverValidates_unwrap _
  · unfold removeLaterFiles
    split
    · exact .pure fun _ _ => trivial
    · exact .bind (neverValidates_unwrap _) fun _ => neverValidates_storage _
  · unfold advanceCheckpoint
    split
    · exact .pure fun _ _ => trivial
    split
    · exact neverValidates_storage _
    · exact .pure fun _ _ => trivial
  · unfold prepareActivePair
    split
    · exact .pure fun _ _ => trivial
    · exact .bind (neverValidates_unwrap _) fun _ => .bind (neverValidates_storage _) fun _ => .pure fun _ _ => trivial

end Steps

/-- The validation of the files failed at `f`, on the disk `d`: those before it have passed,
and its own validation ended with the error. -/
structure FailsAt (p : StorageProvider) (s : StreamId) (t : Option RecordEndLocation) (d₀ : Disk)
    (r : Option RecordEndLocation) (files : List LogFileId) (f : LogFileId) (d : Disk)
    (v : IndexedLogValidationError) (w' : World Tree) : Prop where
  passed : ∃ passed rest r₁, files = passed ++ f :: rest ∧ Passed p t d₀ r passed d r₁
  fails : ∃ w, On p s d w.sys ∧
    IndexedLogValidator.validate p f (trustedAt t f) w = (.error (.error v), w')

theorem FailsAt.cons {L : Stored} {l i : File} {e : RecordEndLocation} {w' : World Tree}
    {g : LogFileId} (hlog : d (.log f) = some L)
    (hmended : Mended f (trustedAt t f) L.opened.file (openedIndex d f) l i (.complete e))
    (h : FailsAt p s t (withPair (d.link p (p.leafDirectory f)) f l i) (some e) files g d' v w') :
    FailsAt p s t d r (f :: files) g d' v w' := by
  obtain ⟨⟨passed, rest, r₁, rfl, hpassed⟩, hfails⟩ := h
  exact ⟨⟨f :: passed, rest, r₁, rfl, .cons hlog hmended hpassed⟩, hfails⟩

/-- The loop over the files fails at one of them. -/
theorem validateEach_fails {maximum : LogFileId} {w' : World Tree} :
    ∀ (files : List LogFileId) {st : InitializationState} {d : Disk} {w : World Tree},
    (∀ f ∈ files, f.streamId = s) → On p s d w.sys →
    validateEach p maximum t files st w = (.error (.error (.validation v)), w') →
    ∃ f d', FailsAt p s t d st.recoveredEnd files f d' v w' := by
  intro files
  induction files with
  | nil =>
    intro st d w _ _ h
    cases h
  | cons f files ih =>
    intro st d w hfiles hon h
    have hs := hfiles f List.mem_cons_self
    rw [validateEach, Io.bind_apply, Io.attempt] at h
    rcases hrun : IndexedLogValidator.validate p f (trustedAt t f) w with
      ⟨(e | _ | _) | e | e, w₁⟩ <;> simp only [hrun] at h
    · split at h
      · cases h
      · cases h
        exact ⟨f, d, ⟨[], files, _, rfl, .nil⟩, w, hon, hrun⟩
    · cases h
    · cases h
    · cases hlog : d (.log f) with
      | none => exact ((IndexedLogValidator.validate_missing hs hlog).ok_of_run hon
          w.plan.within_any hrun).elim
      | some L =>
        obtain ⟨l, i, hmended, hon'⟩ := (IndexedLogValidator.validate_triple hs hlog).ok_of_run hon
          w.plan.within_any hrun
        obtain ⟨g, d', hfails⟩ := ih (fun g hg => hfiles g (List.mem_cons_of_mem f hg)) hon' h
        exact ⟨g, d', hfails.cons hlog hmended⟩
    · -- behind a file that is not full nothing is validated
      rw [laterFile] at h
      split at h
      · cases hnext : f.next with
        | none => rw [hnext] at h; cases h
        | some next => rw [hnext] at h; cases h
      · cases h

/-- An initialization that ends with a file's validation fails at that file. -/
theorem initializeStream_fails [CheckpointReader] {w w' : World Tree}
    (hr : StorageProvider.Reads d s cp) (hon : On p s d w.sys)
    (h : initializeStream p s w = (.error (.error (.validation v)), w')) :
    ∃ d₁ m f d₂, Loaded s d d₁ ∧ Covered s cp m ∧
      FailsAt p s (cp.map StreamCheckpoint.endLocation) d₁ none (filesFrom (firstFile s cp) m) f d₂
        v w' := by
  rcases Io.bind_eq_error h with h | ⟨st, w₁, hload, h⟩
  · exact (neverValidates_loadCheckpoint.elim h).elim
  obtain ⟨⟨rfl, hstream⟩, d₁, hloaded, hon₁⟩ :=
    (loadCheckpoint_triple hr).ok_of_run hon w.plan.within_any hload
  rcases Io.bind_eq_error h with h | ⟨st, w₂, hdiscover, h⟩
  · exact (neverValidates_discoverLogFiles.elim h).elim
  obtain ⟨m, ⟨rfl, -, hcovered⟩, hon₂⟩ :=
    (discoverLogFiles_triple hloaded hstream).ok_of_run hon₁ w₁.plan.within_any hdiscover
  rcases Io.bind_eq_error h with h | ⟨st, w₃, -, h⟩
  · cases m with
    | none => cases h
    | some last =>
      rw [validateFiles_eq hcovered] at h
      obtain ⟨f, d₂, hfails⟩ :=
        validateEach_fails _ (fun f hf => streamId_of_mem_filesFrom hcovered hf) hon₂ h
      exact ⟨d₁, some last, f, d₂, hloaded, hcovered, hfails⟩
  · exact (neverValidates_finish.elim h).elim

/-- A validation that failed has removed and published nothing, and its file is as the
error says. -/
theorem FailsAt.unremoved {m : Option LogFileId} {d₁ d₂ : Disk} {w' : World Tree}
    (loaded : Loaded s d₀ d₁) (covered : Covered s cp m)
    (h : FailsAt p s (cp.map StreamCheckpoint.endLocation) d₁ none (filesFrom (firstFile s cp) m) f
      d₂ v w') :
    f.streamId = s ∧ ∃ d', On p s d' w'.sys ∧ Unremoved s d₀ d' ∧
      ((∀ e, v ≠ .storage e) → d₀ (.log f) ≠ none) ∧
      ∀ L, d₀ (.log f) = some L → Spares f d₀ L (.error v) d' := by
  obtain ⟨⟨passed, rest, r₁, hfiles, hpassed⟩, w, hon, hfails⟩ := h
  obtain ⟨hs, hn⟩ := filesFrom_eq_append covered hfiles
  have hne : ∀ g ∈ passed, f ≠ g := fun g hg heq => not_mem_passed covered hfiles hn (heq ▸ hg)
  obtain ⟨hlogSame, hindexSame⟩ := hpassed.frame_files hne
  have hcheckpoint := hpassed.frame (x := .checkpoint s) (by simp)
  have hpending := hpassed.frame (x := .pending s) (by simp)
  have hloaded : (d₁ (.checkpoint s)).map (fun st => st.file.content) =
      (d₀ (.checkpoint s)).map fun st => st.file.content := by
    rcases loaded with rfl | ⟨k, rfl⟩
    · rfl
    · rw [StorageProvider.moved, Function.update_self, Option.map_map]
      rfl
  have hloadedPending : d₁ (.pending s) = d₀ (.pending s) := by
    rcases loaded with rfl | ⟨k, rfl⟩
    · rfl
    · exact Function.update_of_ne (by simp) _ _
  refine ⟨hs, ?_⟩
  cases hlog : d₂ (.log f) with
  | none =>
    have hon' := ((IndexedLogValidator.validate_missing hs hlog).error_of_run hon
      w.plan.within_any hfails).1
    have hnone : d₀ (.log f) = none := by
      rw [← loaded.log, ← hlogSame.none_iff]
      exact hlog
    obtain ⟨e, rfl⟩ := IndexedLogValidator.storage_of_missing hlog (hs ▸ hon) hfails
    refine ⟨d₂, hon', ⟨fun g hg => ?_, fun g hg => ?_, ?_, ?_⟩, fun hv => absurd rfl (hv e),
      fun L hL => ?_⟩
    · exact hpassed.ne_none (loaded.log g ▸ hg)
    · exact hpassed.ne_none (loaded.index g ▸ hg)
    · rw [map_content_of_same hcheckpoint, hloaded]
    · rw [map_file_of_same hpending, hloadedPending]
    · rw [hnone] at hL
      cases hL
  | some L =>
    obtain ⟨-, d', ⟨hmending, hspares⟩, hon'⟩ := (IndexedLogValidator.validate_triple hs
      hlog).error_of_run hon w.plan.within_any hfails
    have hsome : d₀ (.log f) ≠ none := by
      rw [← loaded.log, Ne, ← hlogSame.none_iff, hlog]
      simp
    refine ⟨d', hon', ⟨fun g hg => ?_, fun g hg => ?_, ?_, ?_⟩, fun _ => hsome, fun L₀ hL₀ => ?_⟩
    · exact hmending.ne_none (hpassed.ne_none (loaded.log g ▸ hg))
    · exact hmending.ne_none (hpassed.ne_none (loaded.index g ▸ hg))
    · rw [map_content_of_same (hmending.frame (by simp) (by simp)),
        map_content_of_same hcheckpoint, hloaded]
    · rw [map_file_of_same (hmending.frame (by simp) (by simp)), map_file_of_same hpending,
        hloadedPending]
    · rw [← loaded.log] at hL₀
      rwa [Spares, ← opened_congr hlogSame hL₀ hlog,
        ← openedIndex_congr (.inl (loaded.index f)), ← openedIndex_congr hindexSame]

/-- **A failure to read never destroys data.**  A scan in which a read fails, a start
that is refused and an index that is refused all leave the bytes as they are.  The
validation of the pair ends with the failure and so does the loop over the files, which
marks none for removal.  An initialization that ended so has removed and published
nothing, and where the error is not the storage's the log of the file at fault is there. -/
theorem failure_destroys_nothing [CheckpointReader] :
    (∀ (f : LogFileId) (t : Option RecordEndLocation) (file : File) (a b : Answer) (plan : Plan),
      (∀ k, a ≠ .fault k) → (∀ k, b ≠ .fault k) →
      ((scanRecords f t (.ofNat file.content.length)).run (file.seekTo (startPosition t).get)
        plan).2.plan.devices < plan.devices →
      ∃ e w, (LogFileValidator.validate f t).run file (.next a (.next b plan)) =
          (.error (.error e), w) ∧
        Untouched file w.sys ∧ (Accepts f t file → (∃ code, e = .read (.io (.device code))) ∧
          w = ((scanRecords f t (.ofNat file.content.length)).run
            (file.seekTo (startPosition t).get) plan).2)) ∧
    (∀ (f : LogFileId) (t : Option RecordEndLocation) (file : File) (plan : Plan),
      ¬ Accepts f t file → ∃ e w, (LogFileValidator.validate f t).run file plan = (.error e, w) ∧
        Untouched file w.sys) ∧
    (∀ (f : LogFileId) (t : Option RecordEndLocation) (file : File) (plan : Plan) (reason : String)
      (w : World File),
      (LogFileValidator.validate f t).run file plan = (.error (.error (.invalidStart reason)), w) →
      Untouched file w.sys) ∧
    (∀ (t : Option RecordEndLocation) (suffixEnds : List LogFilePosition) (index : File)
      (plan : Plan),
      recordsPerFile < trustedCount t + suffixEnds.length ∨ ¬ Trusts t index.content →
      ∃ e w, (IndexFileValidator.validate t suffixEnds).run index plan = (.error e, w) ∧
        Untouched index w.sys) ∧
    (∀ (p : StorageProvider) (f : LogFileId) (t : Option RecordEndLocation)
      (w w₁ w₂ w₃ : World Tree), p.openLogForValidation f w = (.ok (), w₁) →
      p.openIndexForRepair f w₁ = (.ok (), w₂) →
      (∀ e, Fs.onFile (p.logFilePath f) (LogFileValidator.validate f t) w₂ =
          (.error (.error e), w₃) →
        IndexedLogValidator.validate p f t w = (.error (.error (.log e)), w₃)) ∧
      ∀ validated e w₄, Fs.onFile (p.logFilePath f) (LogFileValidator.validate f t) w₂ =
          (.ok validated, w₃) →
        Fs.onFile (p.indexFilePath f) (IndexFileValidator.validate t validated.suffixEnds) w₃ =
          (.error (.error e), w₄) →
        IndexedLogValidator.validate p f t w = (.error (.error (.index e)), w₄)) ∧
    (∀ (p : StorageProvider) (maximum f : LogFileId) (t : Option RecordEndLocation)
      (files : List LogFileId) (st : InitializationState) (w w' : World Tree)
      (v : IndexedLogValidationError),
      IndexedLogValidator.validate p f (trustedAt t f) w = (.error (.error v), w') →
      v ≠ .storage (.io (p.logFilePath f) .notFound) →
      validateEach p maximum t (f :: files) st w = (.error (.error (.validation v)), w')) ∧
    ∀ (p : StorageProvider) (s : StreamId) (d : Disk) (cp : Option StreamCheckpoint) (tree : Tree)
      (plan : Plan) (v : IndexedLogValidationError) (w : World Tree),
      On p s d tree → StorageProvider.Reads d s cp →
      (initializeStream p s).run tree plan = (.error (.error (.validation v)), w) →
      ∃ f w₁ d', f.streamId = s ∧
        IndexedLogValidator.validate p f (trustedAt (cp.map StreamCheckpoint.endLocation) f) w₁ =
          (.error (.error v), w) ∧
        On p s d' w.sys ∧ Unremoved s d d' ∧ ((∀ e, v ≠ .storage e) → d (.log f) ≠ none) ∧
        ∀ L, d (.log f) = some L → Spares f d L (.error v) d' := by
  refine ⟨?_, ?_, ?_, ?_, ?_, ?_, ?_⟩
  · intro f t file a b plan ha hb hstruck
    exact LogFileValidator.validate_read_failure f t file ha hb plan hstruck
  · intro f t file plan h
    exact LogFileValidator.validate_refused h plan
  · intro f t file plan reason w h
    exact LogFileValidator.untouched_of_invalidStart h
  · intro t suffixEnds index plan h
    exact IndexFileValidator.validate_refused h plan
  · intro p f t w w₁ w₂ w₃ hlog hindex
    exact ⟨fun e h => IndexedLogValidator.validate_log_error hlog hindex h,
      fun validated e w₄ hv h => IndexedLogValidator.validate_index_error hlog hindex hv h⟩
  · intro p maximum f t files st w w' v h hgap
    exact validateEach_error h hgap
  · intro p s d cp tree plan v w hon hr h
    obtain ⟨d₁, m, f, d₂, hloaded, hcovered, hfails⟩ := initializeStream_fails hr hon h
    obtain ⟨w₁, -, hvalidate⟩ := hfails.fails
    obtain ⟨hs, d', hunremoved⟩ := hfails.unremoved hloaded hcovered
    exact ⟨f, w₁, d', hs, hvalidate, hunremoved⟩

omit [Crc32c] in
/-- The read fails behind a record that the scan has accepted, in the validator alone and in
an initialization.  A start behind the end of the log and an index without the trusted entry
are refused. -/
theorem failure_destroys_nothing_struck : letI := Crc32c.reference
    letI := CheckpointReader.canonical
    let p : StorageProvider := ⟨[]⟩
    let f : LogFileId := .first ⟨0, by decide⟩
    let t := endOf [Fills.firstRecord f]
    let log := File.durable (encodings [Fills.firstRecord f] ++ [15, 0, 0])
    let short := File.durable [15, 0, 0]
    let index := File.durable [1, 2, 3]
    let d := StorageProvider.pairDisk f log index
    let reads : Plan := .next (.upTo 16 0) (.next (.fault (.device 5)) .calm)
    (∃ e w, (LogFileValidator.validate f none).run log (.next .all (.next .all reads)) =
        (.error (.error e), w) ∧ Untouched log w.sys) ∧
    (∃ e w, (LogFileValidator.validate f t).run short .calm = (.error e, w) ∧
      Untouched short w.sys) ∧
    (∃ e w, (IndexFileValidator.validate t []).run index .calm = (.error e, w) ∧
      Untouched index w.sys) ∧
    ∃ v w d', (initializeStream p f.streamId).run (StorageProvider.pairTree p f log index)
        (reads.after (List.replicate 28 .all)) = (.error (.error (.validation v)), w) ∧
      v = .log (.read (.io (.device 5))) ∧ On p f.streamId d' w.sys ∧
      Unremoved f.streamId d d' ∧ Spares f d ⟨log, false⟩ (.error v) d' := by
  intro p f t log short index d reads
  obtain ⟨hread, hstart, -, hindex, -, -, hinitialize⟩ :=
    @failure_destroys_nothing .reference .canonical
  refine ⟨?_, ?_, ?_, ?_⟩
  · obtain ⟨e, w, hw, hsame, -⟩ := hread f none log .all .all reads (by simp) (by simp)
      (by decide +kernel)
    exact ⟨e, w, hw, hsame⟩
  · exact hstart f t short .calm fun h => absurd h.2 (by decide +kernel)
  · exact hindex t [] index .calm (.inr (by decide +kernel))
  · have hreads : @StorageProvider.Reads .canonical d f.streamId none :=
      StorageProvider.pairDisk_of_ne (by simp) (by simp) _ _
    have herror : ((@initializeStream .reference .canonical p f.streamId).run
        (StorageProvider.pairTree p f log index) (reads.after (List.replicate 28 .all))).1 =
          .error (.error (.validation (.log (.read (.io (.device 5)))))) := by
      decide +kernel
    generalize hrun : (@initializeStream .reference .canonical p f.streamId).run
      (StorageProvider.pairTree p f log index) (reads.after (List.replicate 28 .all)) = r at herror
    obtain ⟨_, w⟩ := r
    obtain rfl : _ = _ := herror
    obtain ⟨g, w₁, d', -, -, hon, hunremoved, hthere, hspares⟩ := hinitialize p f.streamId d none _ _
      _ w (StorageProvider.on_pairTree p f log index) hreads hrun
    have hg : g = f := eq_of_pairDisk_log (hthere (by simp))
    rw [hg] at hspares
    exact ⟨_, w, d', rfl, rfl, hon, hunremoved, hspares _ (StorageProvider.pairDisk_log _ _ _)⟩

end StreamInitializer

end TransactionLog
