import TransactionLog.Storage.Regions
import TransactionLog.Streams.StreamInitializer

/-!
# Streams are isolated

The programs of a stream, its initialization and the operations of its writer, find and
change the region of the stream's directory alone.

An initialization makes its paths from what it has read before: the checkpoint, the files
and the endpoints of its state.  All of them belong to the stream (`Owned`).
-/

namespace TransactionLog

open Lib Lib.Tree

open Lib.Respects (pure throw panic bind bindOf getBind attempt mapErr modify ofExcept unwrap zoom)

variable [Crc32c] {p : StorageProvider} {s : StreamId} {t₀ t₀' : Tree} {f : LogFileId}
  {lastTrusted : Option RecordEndLocation}

/-! ### Endpoints of a file -/

/-- The endpoint, if there is one, is one of the stream. -/
def EndOf (s : StreamId) (o : Option RecordEndLocation) : Prop :=
  ∀ e ∈ o, e.recordId.streamId = s

namespace LogFileValidator

omit [Crc32c] in
theorem nextStart_stream {b : ScanState} {start : RecordStartLocation}
    (h : EndOf f.streamId b.validatedEnd) (hstart : b.nextStart f = some start) :
    start.recordId.streamId = f.streamId := by
  unfold ScanState.nextStart at hstart
  cases hend : b.validatedEnd with
  | none =>
    rw [hend] at hstart
    obtain rfl := Option.some.inj hstart
    rfl
  | some e =>
    rw [hend] at hstart
    obtain ⟨id, hid, rfl⟩ := Option.map_eq_some_iff.mp hstart
    exact (RecordId.next_eq_some.mp hid).1.trans (h e hend)

/-- A record that is taken has the ID that the scan expects. -/
theorem batchTurn_stream {b : ScanState} (h : EndOf f.streamId b.validatedEnd) :
    Returns (batchTurn f b) (Sum.elim (fun b' => EndOf f.streamId b'.validatedEnd)
      fun r => EndOf f.streamId r.1.validatedEnd) := by
  unfold batchTurn
  split
  · refine .after fun state => .after fun taken => .after fun _ => .after fun next => ?_
    cases next with
    | none => exact .pure h
    | some record =>
      refine .bind (.unwrap fun start hstart => nextStart_stream h hstart) fun start hstart => ?_
      split
      · exact .pure h
      · refine .bind (I := fun e => e.recordId = start.recordId) (.unwrap fun e he => ?_)
          fun e he => .pure ?_
        · obtain ⟨_, -, rfl⟩ := Option.map_eq_some_iff.mp he
          rfl
        · rintro _ ⟨⟩
          rw [he]
          exact hstart
  · exact .pure h

theorem scanTurn_stream {b : ScanState} (h : EndOf f.streamId b.validatedEnd)
    (fileEnd : LogFilePosition) :
    Returns (scanTurn f fileEnd b) (Sum.elim (fun b' => EndOf f.streamId b'.validatedEnd)
      fun r => EndOf f.streamId r.validatedEnd) := by
  unfold scanTurn
  split
  · exact .after fun _ => .pure h
  · refine .after fun r => ?_
    split
    · exact .pure h
    · refine .bind (.iterate (fun b hb => batchTurn_stream hb) _ b h) fun c hc => ?_
      obtain ⟨b', tail⟩ := c
      cases tail with
      | none => exact .pure hc
      | some error => exact .pure hc
    · exact .throw
    · exact .throw
    · exact .pure h

/-- What a validation accepts ends in a record of the file's stream. -/
theorem validate_stream (h : EndOf f.streamId lastTrusted) :
    Returns (validate f lastTrusted) fun r => EndOf f.streamId r.validatedEnd := by
  unfold validate
  split
  · exact .throw
  · refine .after fun length => ?_
    simp only
    split
    · exact .throw
    · refine .after fun _ => .bind (I := fun scan => EndOf f.streamId scan.validatedEnd) ?_
        fun scan hscan => .after fun _ => .after fun _ => .pure hscan
      unfold scanRecords
      split
      · exact .panic
      · exact .bind (.withLocal (.iterate (fun b hb => scanTurn_stream hb _) _ _ h))
          fun r hr => .pure hr

end LogFileValidator

/-! ### The pair of a file -/

namespace IndexedLogValidator

/-- The endpoint of an outcome. -/
def outcomeEnd : ValidatedFilePair → Option RecordEndLocation
  | .complete e => some e
  | .incomplete e => e

omit [Crc32c] in
theorem handOff_end (e : Option RecordEndLocation) :
    Returns (handOff p f e) fun r => r = .incomplete e :=
  .after fun _ => .after fun _ => .pure rfl

theorem validate_stream (h : EndOf f.streamId lastTrusted) :
    Returns (validate p f lastTrusted) fun r => EndOf f.streamId (outcomeEnd r) := by
  have hand : ∀ e, EndOf f.streamId e →
      Returns (handOff p f e) fun r => EndOf f.streamId (outcomeEnd r) := by
    intro e he
    refine (handOff_end e).post fun r _ hr => ?_
    rw [hr]
    exact he
  unfold validate
  refine .after fun _ => .after fun _ =>
    .bind (.mapErr (.zoom (LogFileValidator.validate_stream h))) fun log hlog => .after fun _ => ?_
  split
  next hend => exact hand none (by rintro _ ⟨⟩)
  next e hend =>
    split
    · refine .pure ?_
      rw [outcomeEnd, ← hend]
      exact hlog
    · refine hand (some e) ?_
      rw [← hend]
      exact hlog

theorem respects_validate (hf : f.streamId = s) :
    Respects (StorageProvider.Agree p s t₀ t₀') (validate p f lastTrusted)
      (validate p f lastTrusted) := by
  have hlog := StorageProvider.below_logFilePath (p := p) hf
  have hindex := StorageProvider.below_indexFilePath (p := p) hf
  have hand : ∀ e, Respects (StorageProvider.Agree p s t₀ t₀') (handOff p f e) (handOff p f e) :=
    fun e => bind (mapErr (Fs.respects_onFile hlog _)) fun _ =>
      bind (mapErr (Fs.respects_onFile hindex _)) fun _ => pure
  refine bind (mapErr (StorageProvider.respects_openLogForValidation hf)) fun _ =>
    bind (mapErr (StorageProvider.respects_openIndexForRepair hf)) fun _ =>
    bind (mapErr (Fs.respects_onFile hlog _)) fun log =>
    bind (mapErr (Fs.respects_onFile hindex _)) fun _ => ?_
  split
  · exact hand none
  · split
    · exact pure
    · exact hand _

end IndexedLogValidator

/-! ### Initializing -/

namespace StreamInitializer

/-- What an initialization has found of its stream. -/
structure Owned (s : StreamId) (st : InitializationState) : Prop where
  streamId : st.streamId = s
  checkpoint : ∀ checkpoint ∈ st.checkpoint, checkpoint.endLocation.recordId.streamId = s
  recoveredEnd : EndOf s st.recoveredEnd
  firstFileToRemove : ∀ f ∈ st.firstFileToRemove, f.streamId = s
  activePair : ∀ i ∈ st.activePair, i.fileId.streamId = s

variable {st : InitializationState} {checkpointEnd : Option RecordEndLocation}

omit [Crc32c] in
theorem owned_new : Owned s (new s) :=
  ⟨rfl, by simp [new], by simp [EndOf, new], by simp [new], by simp [new]⟩

omit [Crc32c] in
theorem owned_loadCheckpoint [CheckpointReader] :
    Returns (loadCheckpoint p (new s)) (Owned s) := by
  refine .after fun r => ?_
  cases r with
  | none => exact .pure owned_new
  | some checkpoint =>
    simp only
    split
    next hs =>
      refine .pure { owned_new with checkpoint := ?_ }
      rintro _ ⟨⟩
      exact hs
    · exact .throw

omit [Crc32c] in
theorem respects_loadCheckpoint [CheckpointReader] :
    Respects (StorageProvider.Agree p s t₀ t₀') (loadCheckpoint p (new s))
      (loadCheckpoint p (new s)) := by
  refine bind (mapErr StorageProvider.respects_readCheckpoint) fun r => ?_
  cases r with
  | none => exact pure
  | some checkpoint =>
    simp only
    split
    · exact pure
    · exact throw

omit [Crc32c] in
theorem owned_discoverLogFiles (h : Owned s st) : Returns (discoverLogFiles p st) (Owned s) := by
  refine .after fun maximum => ?_
  split
  · exact .pure ⟨h.streamId, h.checkpoint, h.recoveredEnd, h.firstFileToRemove, h.activePair⟩
  · exact .throw
  · simp only
    split
    · exact .pure ⟨h.streamId, h.checkpoint, h.recoveredEnd, h.firstFileToRemove, h.activePair⟩
    · exact .throw

omit [Crc32c] in
theorem respects_discoverLogFiles (h : Owned s st) :
    Respects (StorageProvider.Agree p s t₀ t₀') (discoverLogFiles p st)
      (discoverLogFiles p st) := by
  unfold discoverLogFiles
  rw [h.streamId]
  refine bind (mapErr StorageProvider.respects_maximumLogFile) fun maximum => ?_
  split
  · exact pure
  · exact throw
  · simp only
    split
    · exact pure
    · exact throw

omit [Crc32c] in
theorem returns_laterFile {maximum : LogFileId} :
    Returns (laterFile maximum f) fun r => ∀ g ∈ r, g.streamId = f.streamId := by
  unfold laterFile
  split
  · refine .bind (.unwrap fun next hnext => hnext) fun next hnext => .pure ?_
    rintro _ ⟨⟩
    exact (LogFileId.next_eq_some.mp hnext).1
  · exact .pure (by rintro _ ⟨⟩)

omit [Crc32c] in
theorem respects_laterFile {R : Tree → Tree → Prop} {maximum : LogFileId} :
    Respects R (laterFile maximum f) (laterFile maximum f) := by
  unfold laterFile
  split
  · exact bind unwrap fun _ => pure
  · exact pure

omit [Crc32c] in
theorem endOf_trustedAt (h : EndOf s checkpointEnd) : EndOf s (trustedAt checkpointEnd f) :=
  fun e he => h e (Option.mem_filter_iff.mp he).1

theorem owned_validateEach {maximum : LogFileId} (hend : EndOf s checkpointEnd) :
    ∀ (files : List LogFileId) (st : InitializationState), (∀ f ∈ files, f.streamId = s) →
      Owned s st → Returns (validateEach p maximum checkpointEnd files st) (Owned s) := by
  intro files
  induction files with
  | nil => exact fun _ _ h => .pure h
  | cons f files ih =>
    intro st hfiles h
    obtain rfl := hfiles f List.mem_cons_self
    have htrusted := endOf_trustedAt (f := f) hend
    refine .bind (.attempt (IndexedLogValidator.validate_stream htrusted)) fun r hr => ?_
    split
    next e =>
      refine ih _ (fun g hg => hfiles g (List.mem_cons_of_mem f hg)) { h with recoveredEnd := ?_ }
      exact hr _ rfl
    next e =>
      refine .bind returns_laterFile fun next hnext => .pure ?_
      refine ⟨h.streamId, h.checkpoint, fun e' he' => ?_, hnext, ?_⟩
      · have he : EndOf f.streamId e := hr _ rfl
        cases e with
        | none => exact h.recoveredEnd e' he'
        | some e => exact he e' he'
      · rintro _ ⟨⟩
        rfl
    next error =>
      split
      · refine .pure { h with firstFileToRemove := ?_ }
        rintro _ ⟨⟩
        rfl
      · exact .throw

theorem respects_validateEach {maximum : LogFileId} :
    ∀ (files : List LogFileId) (st : InitializationState), (∀ f ∈ files, f.streamId = s) →
      Respects (StorageProvider.Agree p s t₀ t₀') (validateEach p maximum checkpointEnd files st)
        (validateEach p maximum checkpointEnd files st) := by
  intro files
  induction files with
  | nil => exact fun _ _ => pure
  | cons f files ih =>
    intro st hfiles
    have hf := hfiles f List.mem_cons_self
    refine bind (Respects.attempt (IndexedLogValidator.respects_validate hf)) fun r => ?_
    split
    · exact ih _ fun g hg => hfiles g (List.mem_cons_of_mem f hg)
    · exact bind respects_laterFile fun _ => pure
    · split
      · exact pure
      · exact throw

omit [Crc32c] in
theorem Owned.first (h : Owned s st) : (firstFile s st.checkpoint).streamId = s := by
  cases hcp : st.checkpoint with
  | none => rfl
  | some checkpoint => exact h.checkpoint checkpoint hcp

omit [Crc32c] in
theorem Owned.trusted (h : Owned s st) :
    EndOf s (st.checkpoint.map StreamCheckpoint.endLocation) := by
  intro e he
  obtain ⟨checkpoint, hcp, rfl⟩ := Option.map_eq_some_iff.mp he
  exact h.checkpoint checkpoint hcp

omit [Crc32c] in
/-- The files to validate belong to the stream. -/
theorem Owned.files (h : Owned s st) (maximum : LogFileId) :
    Returns (Io.ofExcept (((firstFile s st.checkpoint).iterTo maximum).mapError .range) :
      Io Tree InitializationError _) fun it => ∀ files, LogFileId.visited maximum it = some files →
        ∀ f ∈ files, f.streamId = s := by
  refine .ofExcept fun it hrange files hfiles f hf => ?_
  cases hit : (firstFile s st.checkpoint).iterTo maximum with
  | error e =>
    rw [hit] at hrange
    cases hrange
  | ok it' =>
    rw [hit] at hrange
    obtain rfl := Except.ok.inj hrange
    exact (LogFileId.Visits.streamId ⟨it', hit, hfiles⟩ hf).trans h.first

theorem owned_validateFiles (h : Owned s st) : Returns (validateFiles p st) (Owned s) := by
  unfold validateFiles
  cases st.maximumLogFile with
  | none => exact .pure h
  | some maximum =>
    simp only [h.streamId]
    exact .bind (h.files maximum) fun it hit => .bind (.unwrap hit) fun files hfiles =>
      owned_validateEach h.trusted files st hfiles h

theorem respects_validateFiles (h : Owned s st) :
    Respects (StorageProvider.Agree p s t₀ t₀') (validateFiles p st) (validateFiles p st) := by
  unfold validateFiles
  cases st.maximumLogFile with
  | none => exact pure
  | some maximum =>
    simp only [h.streamId]
    exact bindOf ofExcept (h.files maximum) fun it hit => bindOf unwrap (.unwrap hit)
      fun files hfiles => respects_validateEach files st hfiles

omit [Crc32c] in
theorem respects_removeLaterFiles (h : Owned s st) :
    Respects (StorageProvider.Agree p s t₀ t₀') (removeLaterFiles p st) (removeLaterFiles p st) := by
  unfold removeLaterFiles
  cases hfirst : st.firstFileToRemove with
  | none => exact pure
  | some first =>
    have hs := h.firstFileToRemove first hfirst
    exact bind unwrap fun _ => mapErr (StorageProvider.respects_removeLogAndIndex hs)

omit [Crc32c] in
theorem respects_advanceCheckpoint (h : Owned s st) :
    Respects (StorageProvider.Agree p s t₀ t₀') (advanceCheckpoint p st)
      (advanceCheckpoint p st) := by
  unfold advanceCheckpoint
  cases hend : st.recoveredEnd with
  | none => exact pure
  | some e =>
    simp only
    split
    · exact mapErr (StorageProvider.respects_writeCheckpoint (h.recoveredEnd e hend))
    · exact pure

omit [Crc32c] in
theorem Owned.newFile (h : Owned s st) (hnew : newFile st = some f) : f.streamId = s := by
  unfold StreamInitializer.newFile at hnew
  cases hend : st.recoveredEnd with
  | none =>
    rw [hend] at hnew
    obtain rfl := Option.some.inj hnew
    exact h.streamId
  | some e =>
    rw [hend] at hnew
    exact (LogFileId.next_eq_some.mp hnew).1.trans (h.recoveredEnd e hend)

omit [Crc32c] in
theorem owned_prepareActivePair (h : Owned s st) :
    Returns (prepareActivePair p st) (Owned s) := by
  unfold prepareActivePair
  split
  · exact .pure h
  · refine .bind (.unwrap fun f hnew => h.newFile hnew) fun f hf => .after fun _ => .pure ?_
    refine { h with activePair := ?_ }
    rintro _ ⟨⟩
    exact hf

omit [Crc32c] in
theorem respects_prepareActivePair (h : Owned s st) :
    Respects (StorageProvider.Agree p s t₀ t₀') (prepareActivePair p st)
      (prepareActivePair p st) := by
  unfold prepareActivePair
  split
  · exact pure
  · exact bindOf unwrap (.unwrap fun f hnew => h.newFile hnew) fun f hf =>
      bind (mapErr (StorageProvider.respects_createLogAndIndex hf)) fun _ => pure

variable [CheckpointReader]

/-- An initialization makes no difference between trees with the same region. -/
theorem respects_initializeStream :
    Respects (StorageProvider.Agree p s t₀ t₀') (initializeStream p s) (initializeStream p s) :=
  bindOf respects_loadCheckpoint owned_loadCheckpoint fun _ h =>
  bindOf (respects_discoverLogFiles h) (owned_discoverLogFiles h) fun _ h =>
  bindOf (respects_validateFiles h) (owned_validateFiles h) fun _ h =>
  bind (respects_removeLaterFiles h) fun _ =>
  bind (respects_advanceCheckpoint h) fun _ =>
  bind (respects_prepareActivePair h) fun _ => unwrap

theorem initializeStream_stream :
    Returns (initializeStream p s) fun i => i.fileId.streamId = s :=
  .bind owned_loadCheckpoint fun _ h =>
  .bind (owned_discoverLogFiles h) fun _ h =>
  .bind (owned_validateFiles h) fun _ h => .after fun _ => .after fun _ =>
  .bind (owned_prepareActivePair h) fun _ h => .unwrap fun i hi => h.activePair i hi

end StreamInitializer

/-! ### Writing -/

namespace IndexedLogWriter

variable {R : Tree → Tree → Prop} {d₁ d₂ d₁' d₂' : Dest Tree}

/-- The same writer of a file, beside related systems. -/
structure Mirrored (f : LogFileId) (R : Tree → Tree → Prop) (x x' : IndexedLogWriter × Tree) :
    Prop where
  writer : x.1 = x'.1
  file : x.1.fileId = f
  tree : R x.2 x'.2

omit [Crc32c] in
theorem respects_update {g : IndexedLogWriter → IndexedLogWriter}
    (hg : ∀ w, (g w).fileId = w.fileId) : Respects (Mirrored f R) (update g) (update g) :=
  modify fun _ _ h => ⟨congrArg g h.writer, (hg _).trans h.file, h.tree⟩

omit [Crc32c] in
theorem respects_onInner {get : IndexedLogWriter → Output}
    {set : Output → IndexedLogWriter → IndexedLogWriter} {error : OutputError → IndexedLogWriteError}
    {m m' : Io (Output × Tree) OutputError Unit} (h : Respects (Beside Output R) m m')
    (hset : ∀ o w, (set o w).fileId = w.fileId) :
    Respects (Mirrored f R) (onInner get set error m) (onInner get set error m') := by
  refine mapErr (zoom h (fun _ _ hs => ⟨congrArg get hs.writer, hs.tree⟩) ?_)
  rintro ⟨w, t⟩ ⟨_, t'⟩ ⟨rfl, hf, -⟩ ⟨o, u⟩ ⟨_, u'⟩ ⟨rfl, hu⟩
  exact ⟨rfl, (hset o w).trans hf, hu⟩

omit [Crc32c] in
theorem respects_onLog {m m' : Io (RecordWriter × Tree) RecordOutputError Unit}
    (h : Respects (Beside RecordWriter R) m m') : Respects (Mirrored f R) (onLog m) (onLog m') :=
  respects_onInner h fun _ _ => rfl

omit [Crc32c] in
theorem respects_onIndex {m m' : Io (IndexWriter × Tree) IndexWriteError Unit}
    (h : Respects (Beside IndexWriter R) m m') : Respects (Mirrored f R) (onIndex m) (onIndex m') :=
  respects_onInner h fun _ _ => rfl

theorem respects_writeRecord (record : Record) :
    Respects (Mirrored f R) (writeRecord record) (writeRecord record) := by
  refine getBind fun x x' hx => ?_
  rw [hx.writer]
  refine bind ofExcept fun _ => ?_
  split
  · exact throw
  split
  · exact throw
  exact bind unwrap fun _ => bind unwrap fun _ => bind unwrap fun _ =>
    bind (respects_update fun _ => rfl) fun _ => bind ofExcept fun _ =>
    bind (respects_update fun _ => rfl) fun _ => bind ofExcept fun _ =>
    bind (respects_update fun _ => rfl) fun _ => getBind fun y y' hy => by
      rw [hy.writer]
      exact pure

omit [Crc32c] in
theorem respects_flush (h₁ : d₁.Respects R d₁') (h₂ : d₂.Respects R d₂') :
    Respects (Mirrored f R) (flush d₁ d₂) (flush d₁' d₂') := by
  refine getBind fun x x' hx => ?_
  rw [hx.writer]
  refine bind ofExcept fun _ => ?_
  split
  · exact pure
  have hcalls : Respects (Mirrored f R) (flushCalls d₁ d₂) (flushCalls d₁' d₂') :=
    bind (respects_onLog h₁.flushBuffer) fun _ => bind (respects_onLog h₁.flushOutput) fun _ =>
      bind (respects_onIndex h₂.flushBuffer) fun _ => respects_onIndex h₂.flushOutput
  exact bind (respects_update fun _ => rfl) fun _ => bind hcalls fun _ => respects_update fun _ => rfl

omit [Crc32c] in
theorem respects_syncData (h₁ : d₁.Respects R d₁') (h₂ : d₂.Respects R d₂') :
    Respects (Mirrored f R) (syncData d₁ d₂) (syncData d₁' d₂') := by
  have hcalls : Respects (Mirrored f R) (syncCalls d₁ d₂) (syncCalls d₁' d₂') :=
    bind (respects_onLog h₁.syncOutput) fun _ => respects_onIndex h₂.syncOutput
  exact bind (respects_flush h₁ h₂) fun _ => bind (respects_update fun _ => rfl) fun _ =>
    bind hcalls fun _ => respects_update fun _ => rfl

omit [Crc32c] in
theorem respects_finalize : Respects (Mirrored f R) finalize finalize := by
  refine getBind fun x x' hx => ?_
  rw [hx.writer]
  refine bind ofExcept fun _ => ?_
  split
  · exact throw
  split
  · exact throw
  exact bind unwrap fun _ => bind (respects_update fun _ => rfl) fun _ => pure

end IndexedLogWriter

end TransactionLog
