import TransactionLog.Storage.Discovery
import TransactionLog.Streams.PairRecovery

/-!
# Initializing a stream

The initializer reads the checkpoint, finds the maximum log, validates the files
from the checkpoint's on, removes those after the first that is not complete,
publishes the recovered end and prepares the active pair.

`initializeStream_triple` follows it through the disks that it makes: `Walk` for the
files it has validated, `Cleaned` for those it removes, `Published` and `Prepared`.
`Interrupted` lists where an attempt can end early.
-/

namespace TransactionLog

open Lib

inductive InitializationError where
  | storage (e : StorageError)
  /-- The checkpoint at `path` belongs to stream `actual`, expected `expected`. -/
  | checkpointStream (path : Path) (actual expected : StreamId)
  /-- The stream has the checkpointed file but no log files. -/
  | noLogFiles (streamId : StreamId) (checkpointFile : LogFileNumber)
  /-- The maximum log file of the stream is below the checkpointed file. -/
  | maximumBelow (maximum : LogFileNumber) (streamId : StreamId) (checkpointFile : LogFileNumber)
  | range (e : LogFileIdRangeError)
  | validation (e : IndexedLogValidationError)
  deriving DecidableEq, Repr

/-- The working state of one initialization. -/
structure InitializationState where
  streamId : StreamId
  checkpoint : Option StreamCheckpoint
  maximumLogFile : Option LogFileId
  recoveredEnd : Option RecordEndLocation
  activePair : Option InitializedStream
  firstFileToRemove : Option LogFileId
  deriving DecidableEq, Repr

namespace StreamInitializer

open IndexedLogValidator (withPair openedIndex Mended)

section Operations

variable [Crc32c] [CheckpointReader] (p : StorageProvider)

def new (streamId : StreamId) : InitializationState := ⟨streamId, none, none, none, none, none⟩

/-- Reads the checkpoint, which has to be of this stream. -/
def loadCheckpoint (st : InitializationState) : Io Tree InitializationError InitializationState := do
  match ← Io.mapErr .storage (p.readCheckpoint st.streamId) with
  | none => pure { st with checkpoint := none }
  | some checkpoint =>
    let checkpointStreamId := checkpoint.endLocation.recordId.streamId
    if checkpointStreamId = st.streamId then pure { st with checkpoint := some checkpoint }
    else Io.throw (.checkpointStream (p.checkpointFilePath st.streamId) checkpointStreamId st.streamId)

/-- Finds the maximum log, which has to reach the checkpoint's file. -/
def discoverLogFiles (st : InitializationState) : Io Tree InitializationError InitializationState := do
  let maximumLogFile ← Io.mapErr .storage (p.maximumLogFile st.streamId)
  match st.checkpoint, maximumLogFile with
  | none, _ => pure { st with maximumLogFile := maximumLogFile }
  | some checkpoint, none =>
    Io.throw (.noLogFiles st.streamId checkpoint.endLocation.logFileId.fileNumber)
  | some checkpoint, some maximum =>
    let checkpointFile := checkpoint.endLocation.logFileId
    if checkpointFile.fileNumber.get ≤ maximum.fileNumber.get then
      pure { st with maximumLogFile := maximumLogFile }
    else Io.throw (.maximumBelow maximum.fileNumber st.streamId checkpointFile.fileNumber)

/-- The endpoint to trust in a file. -/
def trustedAt (checkpointEnd : Option RecordEndLocation) (fileId : LogFileId) :
    Option RecordEndLocation :=
  checkpointEnd.filter fun e => e.logFileId = fileId

/-- The first file to remove after one that is not full: `(fileId ≠ maximum).then`. -/
def laterFile (maximum fileId : LogFileId) : Io Tree InitializationError (Option LogFileId) :=
  if fileId ≠ maximum then do
    let next ← Io.unwrap fileId.next
    pure (some next)
  else pure none

/-- The loop of `validateFiles`. -/
def validateEach (maximum : LogFileId) (checkpointEnd : Option RecordEndLocation) :
    List LogFileId → InitializationState → Io Tree InitializationError InitializationState
  | [], st => pure st
  | fileId :: files, st => do
    let lastTrusted := trustedAt checkpointEnd fileId
    match ← Io.attempt (IndexedLogValidator.validate p fileId lastTrusted) with
    | .ok (.complete e) => validateEach maximum checkpointEnd files { st with recoveredEnd := some e }
    | .ok (.incomplete e) =>
      let firstFileToRemove ← laterFile maximum fileId
      pure { st with
        recoveredEnd := e.or st.recoveredEnd
        activePair := some ⟨fileId, e⟩
        firstFileToRemove := firstFileToRemove }
    | .error error =>
      if lastTrusted = none ∧ error = .storage (.io (p.logFilePath fileId) .notFound) then
        pure { st with firstFileToRemove := some fileId }
      else Io.throw (.validation error)

/-- The first file to validate: the checkpoint's, or the first there is. -/
def firstFile (streamId : StreamId) (checkpoint : Option StreamCheckpoint) : LogFileId :=
  checkpoint.elim (.first streamId) fun checkpoint => checkpoint.endLocation.logFileId

/-- Validates the files from the checkpoint's on, up to the first that is not complete. -/
def validateFiles (st : InitializationState) : Io Tree InitializationError InitializationState :=
  match st.maximumLogFile with
  | none => pure st
  | some maximum => do
    let first := firstFile st.streamId st.checkpoint
    let files ← Io.ofExcept ((first.iterTo maximum).mapError .range)
    let files ← Io.unwrap (LogFileId.visited maximum files)
    validateEach p maximum (st.checkpoint.map StreamCheckpoint.endLocation) files st

/-- Removes the pairs after the recovered ones. -/
def removeLaterFiles (st : InitializationState) : Io Tree InitializationError Unit :=
  match st.firstFileToRemove with
  | none => pure ()
  | some first => do
    let maximum ← Io.unwrap st.maximumLogFile
    Io.mapErr .storage (p.removeLogAndIndex first maximum)

/-- Publishes the recovered end, unless it is published already. -/
def advanceCheckpoint (st : InitializationState) : Io Tree InitializationError Unit :=
  match st.recoveredEnd with
  | none => pure ()
  | some e =>
    if st.checkpoint ≠ some ⟨e⟩ then Io.mapErr .storage (p.writeCheckpoint ⟨e⟩) else pure ()

/-- The file of a new active pair; panics after the terminal file. -/
def newFile (st : InitializationState) : Option LogFileId :=
  st.recoveredEnd.elim (some (.first st.streamId)) fun e => e.logFileId.next

/-- Keeps the pair that is not full, or creates an empty one. -/
def prepareActivePair (st : InitializationState) : Io Tree InitializationError InitializationState :=
  if st.activePair.isSome then pure st
  else do
    let fileId ← Io.unwrap (newFile st)
    Io.mapErr .storage (p.createLogAndIndex fileId)
    pure { st with activePair := some ⟨fileId, none⟩ }

/-- The source's `StreamInitializer::initialize`. -/
def initializeStream (streamId : StreamId) : Io Tree InitializationError InitializedStream := do
  let st ← loadCheckpoint p (new streamId)
  let st ← discoverLogFiles p st
  let st ← validateFiles p st
  removeLaterFiles p st
  advanceCheckpoint p st
  let st ← prepareActivePair p st
  Io.unwrap st.activePair

end Operations

/-! ### The disks of an initialization -/

variable [Crc32c] {p : StorageProvider} {s : StreamId} {t r r' : Option RecordEndLocation}
  {st st' : InitializationState} {d d' : Disk} {f : LogFileId} {files : List LogFileId} {c : Mode}

/-- The checkpoint was read; its cursor may have moved. -/
def Loaded (s : StreamId) (d d' : Disk) : Prop :=
  d' = d ∨ ∃ k, d' = StorageProvider.moved d (.checkpoint s) k

/-- The files were validated and are complete; `r` and `r'` are the recovered ends
before and after. -/
inductive Passed (p : StorageProvider) (t : Option RecordEndLocation) :
    Disk → Option RecordEndLocation → List LogFileId → Disk → Option RecordEndLocation → Prop
  | nil {d : Disk} {r : Option RecordEndLocation} : Passed p t d r [] d r
  | cons {d d' : Disk} {r r' : Option RecordEndLocation} {f : LogFileId} {files : List LogFileId}
      {L : Stored} {l i : File} {e : RecordEndLocation} (log : d (.log f) = some L)
      (mended : Mended f (trustedAt t f) L.opened.file (openedIndex d f) l i (.complete e))
      (rest : Passed p t (withPair (d.link p (p.leafDirectory f)) f l i) (some e) files d' r') :
      Passed p t d r (f :: files) d' r'

/-- The validation ends: after all files, at one that is not full, or at a gap. -/
inductive Ended (p : StorageProvider) (t : Option RecordEndLocation) (st : InitializationState)
    (d : Disk) : List LogFileId → InitializationState → Disk → Prop
  | all : Ended p t st d [] st d
  | incomplete {f : LogFileId} {files : List LogFileId} {L : Stored} {l i : File}
      {e : Option RecordEndLocation} (log : d (.log f) = some L)
      (mended : Mended f (trustedAt t f) L.opened.file (openedIndex d f) l i (.incomplete e)) :
      Ended p t st d (f :: files)
        { st with
          recoveredEnd := e.or st.recoveredEnd
          activePair := some ⟨f, e⟩
          firstFileToRemove := if some f = st.maximumLogFile then none else f.next }
        (withPair (d.link p (p.leafDirectory f)) f l i)
  | missing {f : LogFileId} {files : List LogFileId} (log : d (.log f) = none)
      (untrusted : trustedAt t f = none) :
      Ended p t st d (f :: files) { st with firstFileToRemove := some f } d

/-- The validation of the files, from its first to its last disk. -/
def Walk (p : StorageProvider) (t : Option RecordEndLocation) (st : InitializationState) (d : Disk)
    (files : List LogFileId) (st' : InitializationState) (d' : Disk) : Prop :=
  ∃ passed rest d₁ r, files = passed ++ rest ∧ Passed p t d st.recoveredEnd passed d₁ r ∧
    Ended p t { st with recoveredEnd := r } d₁ rest st' d'

/-- Where the validation of one file ends early. -/
inductive FileExit (c : Mode) (p : StorageProvider) (s : StreamId) (t : Option RecordEndLocation)
    (f : LogFileId) (d : Disk) : Exit InitializationError → Tree → Prop
  | validation {L : Stored} {e : Exit IndexedLogValidationError} {tree : Tree}
      (log : d (.log f) = some L)
      (exit : IndexedLogValidator.ValidateExit c p s f (trustedAt t f) d L e tree) :
      FileExit c p s t f d (e.map .validation) tree
  | missing {e : Exit IndexedLogValidationError} {tree : Tree} (log : d (.log f) = none)
      (on : On p s d tree) (ne_panicked : e ≠ .panicked) (cause : ¬ c.calm ∨ trustedAt t f ≠ none) :
      FileExit c p s t f d (e.map .validation) tree

/-- Where the validation of the files ends early. -/
def WalkExit (c : Mode) (p : StorageProvider) (s : StreamId) (t : Option RecordEndLocation)
    (d : Disk) (r : Option RecordEndLocation) (files : List LogFileId)
    (e : Exit InitializationError) (tree : Tree) : Prop :=
  ∃ passed f rest d₁ r₁, files = passed ++ f :: rest ∧ Passed p t d r passed d₁ r₁ ∧
    FileExit c p s t f d₁ e tree

/-- Some of the files in a range may have been removed. -/
structure Cleaned (first last : LogFileId) (d d' : Disk) : Prop where
  outside : ∀ x : Place, (∀ f, LogFileId.Between first last f → x ≠ .log f ∧ x ≠ .index f) →
    Same d d' x
  log : ∀ f, LogFileId.Between first last f → d' (.log f) = none ∨ Same d d' (.log f)
  index : ∀ f, LogFileId.Between first last f → d' (.index f) = none ∨ Same d d' (.index f)

/-- The later files are removed. -/
def Removed (st : InitializationState) (d d' : Disk) : Prop :=
  match st.firstFileToRemove, st.maximumLogFile with
  | some first, some last => Cleaned first last d d' ∧
      ∀ f, LogFileId.Between first last f → StorageProvider.Gone d' f
  | _, _ => d' = d

/-- The later files are being removed. -/
def Removing (st : InitializationState) (d d' : Disk) : Prop :=
  ∃ first last, st.firstFileToRemove = some first ∧ st.maximumLogFile = some last ∧
    Cleaned first last d d'

/-- The recovered end is published. -/
def Advanced (p : StorageProvider) (s : StreamId) (st : InitializationState) (d d' : Disk) : Prop :=
  match st.recoveredEnd with
  | none => d' = d
  | some e =>
    if st.checkpoint = some ⟨e⟩ then d' = d
    else ∃ file, StorageProvider.Holds ⟨e⟩ file ∧
      d' = (StorageProvider.published d s file).link p (p.streamDirectory s)

/-- An active pair is there. -/
def Prepared (st : InitializationState) (d : Disk) (st' : InitializationState) (d' : Disk) : Prop :=
  (st.activePair ≠ none ∧ st' = st ∧ d' = d) ∨
    st.activePair = none ∧ ∃ f, newFile st = some f ∧ d (.index f) = none ∧
      st' = { st with activePair := some ⟨f, none⟩ } ∧
      d' = StorageProvider.created (StorageProvider.created d (.log f)) (.index f)

/-! ### Validating the files -/

theorem Walk.cons {L : Stored} {l i : File} {e : RecordEndLocation} (hlog : d (.log f) = some L)
    (hmended : Mended f (trustedAt t f) L.opened.file (openedIndex d f) l i (.complete e))
    (h : Walk p t { st with recoveredEnd := some e } (withPair (d.link p (p.leafDirectory f)) f l i)
      files st' d') : Walk p t st d (f :: files) st' d' := by
  obtain ⟨passed, rest, d₁, r, rfl, hpassed, hended⟩ := h
  exact ⟨f :: passed, rest, d₁, r, rfl, .cons hlog hmended hpassed, hended⟩

theorem WalkExit.cons {L : Stored} {l i : File} {e : RecordEndLocation} {x : Exit InitializationError}
    {tree : Tree} (hlog : d (.log f) = some L)
    (hmended : Mended f (trustedAt t f) L.opened.file (openedIndex d f) l i (.complete e))
    (h : WalkExit c p s t (withPair (d.link p (p.leafDirectory f)) f l i) (some e) files x tree) :
    WalkExit c p s t d r (f :: files) x tree := by
  obtain ⟨passed, g, rest, d₁, r₁, rfl, hpassed, hexit⟩ := h
  exact ⟨f :: passed, g, rest, d₁, r₁, rfl, .cons hlog hmended hpassed, hexit⟩

theorem FileExit.here {x : Exit InitializationError} {tree : Tree} (h : FileExit c p s t f d x tree) :
    WalkExit c p s t d r (f :: files) x tree :=
  ⟨[], f, files, d, r, rfl, .nil, h⟩

/-- A log that is missing ends the validation, unless it is the checkpoint's. -/
theorem validateEach_missing {maximum : LogFileId} (hs : f.streamId = s) (hlog : d (.log f) = none) :
    Triple c (On p s d) (validateEach p maximum t (f :: files) st)
      (fun st' tree => ∃ d', Walk p t st d (f :: files) st' d' ∧ On p s d' tree)
      (WalkExit c p s t d st.recoveredEnd (f :: files)) := by
  refine .bind (R := fun r tree => On p s d tree ∧ ∃ e, r = .error e ∧
    (e = .storage (.io (p.logFilePath f) .notFound) ∨
      ¬ c.calm ∧ e ≠ .storage (.io (p.logFilePath f) .notFound))) (.attempt
    ((IndexedLogValidator.validate_missing (t := trustedAt t f) hs hlog).conseq (fun _ h => h)
      (fun _ _ h => h.elim) ?_)) fun r => ?_
  · rintro (e | _ | _) tree ⟨h, hp, he⟩
    · refine ⟨h, e, rfl, he.imp (fun he => Exit.error.inj he) fun he => ⟨he.1, fun hn => ?_⟩⟩
      exact he.2 (congrArg Exit.error hn)
    · exact FileExit.here (.missing (e := .stopped) hlog h hp
        (.inl (he.resolve_left fun h => (nomatch h)).1))
    · exact absurd rfl hp
  refine .ofState fun tree ⟨h, e, hr, he⟩ => ?_
  subst hr
  by_cases hgap : trustedAt t f = none ∧ e = .storage (.io (p.logFilePath f) .notFound)
  · simp only [if_pos hgap]
    refine .pure ?_
    rintro _ rfl
    exact ⟨d, ⟨[], f :: files, d, st.recoveredEnd, rfl, .nil, .missing hlog hgap.1⟩, h⟩
  · simp only [if_neg hgap]
    refine .throw ?_
    rintro _ rfl
    refine FileExit.here (.missing (e := .error e) hlog h (by simp) ?_)
    rcases he with he | he
    · exact .inr fun hn => hgap ⟨hn, he⟩
    · exact .inl he.1

theorem validateEach_triple {maximum : LogFileId} : ∀ (files : List LogFileId)
    {st : InitializationState} {d : Disk}, st.maximumLogFile = some maximum →
    (∀ f ∈ files, f.streamId = s ∧ (f ≠ maximum → f.next ≠ none)) →
    Triple c (On p s d) (validateEach p maximum t files st)
      (fun st' tree => ∃ d', Walk p t st d files st' d' ∧ On p s d' tree)
      (WalkExit c p s t d st.recoveredEnd files) := by
  intro files
  induction files with
  | nil => exact fun _ _ => .pure fun tree h => ⟨_, ⟨[], [], _, _, rfl, .nil, .all⟩, h⟩
  | cons f files ih =>
    intro st d hmax hfiles
    obtain ⟨hs, hnext⟩ := hfiles f List.mem_cons_self
    cases hlog : d (.log f) with
    | none => exact validateEach_missing hs hlog
    | some L =>
      refine .bind (R := fun r tree => match r with
        | .ok v => ∃ l i, Mended f (trustedAt t f) L.opened.file (openedIndex d f) l i v ∧
            On p s (withPair (d.link p (p.leafDirectory f)) f l i) tree
        | .error e => IndexedLogValidator.ValidateExit c p s f (trustedAt t f) d L (.error e) tree)
        (.attempt ((IndexedLogValidator.validate_triple hs hlog).exits ?_)) fun r => ?_
      · rintro (e | _ | _) tree h
        · exact h
        · exact FileExit.here (.validation (e := .stopped) hlog h)
        · exact FileExit.here (.validation (e := .panicked) hlog h)
      rcases r with e | (e | e)
      · -- an error of a log that is there is not a gap
        refine .ofState fun tree h => ?_
        have hgap : ¬ (trustedAt t f = none ∧ e = .storage (.io (p.logFilePath f) .notFound)) := by
          rintro ⟨-, rfl⟩
          exact h.1.2 _ rfl
        simp only [if_neg hgap]
        refine .throw ?_
        rintro _ rfl
        exact FileExit.here (.validation (e := .error e) hlog h)
      · refine .ofExists fun l => .ofExists fun i => .assume fun hmended => ?_
        have hmax' : { st with recoveredEnd := some e }.maximumLogFile = some maximum := hmax
        refine (ih hmax' fun g hg =>
          hfiles g (List.mem_cons_of_mem f hg)).conseq (fun _ h => h) ?_ ?_
        · exact fun st' tree ⟨d', hwalk, h⟩ => ⟨d', hwalk.cons hlog hmended, h⟩
        · exact fun x tree h => h.cons hlog hmended
      · refine .ofExists fun l => .ofExists fun i => .assume fun hmended => ?_
        refine .bind (R := fun first tree =>
          first = (if some f = st.maximumLogFile then none else f.next) ∧
            On p s (withPair (d.link p (p.leafDirectory f)) f l i) tree) ?_ fun first =>
          .assume fun hfirst => .pure fun tree h => ?_
        · rw [hmax, laterFile]
          by_cases hlast : f = maximum
          · rw [if_neg (not_not.mpr hlast), if_pos (congrArg some hlast)]
            exact .pure fun _ h => ⟨rfl, h⟩
          · obtain ⟨f', hf'⟩ := Option.ne_none_iff_exists'.mp (hnext hlast)
            rw [if_pos hlast, if_neg fun h => hlast (Option.some.inj h), hf', Io.unwrap_bind]
            exact .pure fun _ h => ⟨rfl, h⟩
        · subst hfirst
          exact ⟨_, ⟨[], f :: files, d, st.recoveredEnd, rfl, .nil, .incomplete hlog hmended⟩, h⟩

/-! ### What the walk says of the state -/

/-- The state after the discovery. -/
def discovered (s : StreamId) (cp : Option StreamCheckpoint) (m : Option LogFileId) :
    InitializationState := ⟨s, cp, m, none, none, none⟩

/-- The files to validate. -/
def filesFrom (first : LogFileId) : Option LogFileId → List LogFileId
  | none => []
  | some maximum => LogFileId.successors (maximum.fileNumber.get - first.fileNumber.get) first

/-- The checkpoint is one of the stream and its file is not above the maximum. -/
structure Covered (s : StreamId) (cp : Option StreamCheckpoint) (m : Option LogFileId) : Prop where
  stream : ∀ k ∈ cp, k.endLocation.recordId.streamId = s
  maximum : ∀ last ∈ m, last.streamId = s ∧
    (firstFile s cp).fileNumber.get ≤ last.fileNumber.get
  checkpoint : m = none → cp = none

/-- The files were validated, from the disk `d₀` on. -/
structure Visited (p : StorageProvider) (s : StreamId) (cp : Option StreamCheckpoint)
    (d₀ d₁ : Disk) (m : Option LogFileId) (st : InitializationState) (d : Disk) : Prop where
  loaded : Loaded s d₀ d₁
  maximum : StorageProvider.IsMaximum d₁ s m
  covered : Covered s cp m
  walk : Walk p (cp.map StreamCheckpoint.endLocation) (discovered s cp m) d₁
    (filesFrom (firstFile s cp) m) st d

variable {cp : Option StreamCheckpoint} {m : Option LogFileId} {d₀ d₁ : Disk}

omit [Crc32c] in
theorem Covered.firstFile_stream (h : Covered s cp m) : (firstFile s cp).streamId = s := by
  cases cp with
  | none => rfl
  | some k => exact h.stream k rfl

omit [Crc32c] in
theorem Covered.between {last : LogFileId} (h : Covered s cp (some last)) :
    LogFileId.Between (firstFile s cp) last last := by
  obtain ⟨hs, hle⟩ := h.maximum last rfl
  exact ⟨hs.trans h.firstFile_stream.symm, hle, Nat.le_refl _⟩

/-- The range of the files is valid, and its iterator runs through `filesFrom`. -/
theorem validateFiles_eq {last : LogFileId} (h : Covered s cp (some last)) :
    validateFiles p (discovered s cp (some last)) =
      validateEach p last (cp.map StreamCheckpoint.endLocation)
        (filesFrom (firstFile s cp) (some last)) (discovered s cp (some last)) := by
  simp only [validateFiles, discovered, LogFileId.iterTo_eq h.between, Except.mapError,
    Io.ofExcept_bind, LogFileId.visited_eq h.between, Io.unwrap_bind]
  rfl

omit [Crc32c] in
theorem mem_filesFrom (h : Covered s cp m) : f ∈ filesFrom (firstFile s cp) m ↔
    ∃ last, m = some last ∧ LogFileId.Between (firstFile s cp) last f := by
  cases m with
  | none => simp [filesFrom]
  | some last =>
    rw [filesFrom, LogFileId.mem_visited h.between]
    exact ⟨fun h => ⟨last, rfl, h⟩, fun ⟨_, he, h⟩ => Option.some.inj he ▸ h⟩

omit [Crc32c] in
theorem streamId_of_mem_filesFrom (h : Covered s cp m) (hf : f ∈ filesFrom (firstFile s cp) m) :
    f.streamId = s := by
  obtain ⟨_, -, hbetween⟩ := (mem_filesFrom h).mp hf
  exact hbetween.1.trans h.firstFile_stream

omit [Crc32c] in
/-- The files to validate, by their places in the list. -/
theorem filesFrom_eq_append (h : Covered s cp m) {xs ys : List LogFileId}
    (hfiles : filesFrom (firstFile s cp) m = xs ++ f :: ys) :
    f.streamId = s ∧ f.fileNumber.get = (firstFile s cp).fileNumber.get + xs.length := by
  cases m with
  | none => simp [filesFrom] at hfiles
  | some last =>
    have hle := (h.maximum last rfl).2
    have hlast := last.fileNumber.le
    obtain ⟨hs, hn, -⟩ := LogFileId.successors_eq_append (by omega) hfiles
    exact ⟨hs.trans h.firstFile_stream, hn⟩

omit [Crc32c] in
theorem length_filesFrom (h : Covered s cp m) {last : LogFileId} (hlast : m = some last) :
    (firstFile s cp).fileNumber.get + (filesFrom (firstFile s cp) m).length =
      last.fileNumber.get + 1 := by
  subst hlast
  have hle := (h.maximum last rfl).2
  have := last.fileNumber.le
  rw [filesFrom, LogFileId.length_successors (by omega)]
  omega

/-- The recovered end is in the last file that was passed. -/
theorem Passed.recovered (h : Passed p t d r files d' r') :
    match files.getLast? with
    | none => r' = r
    | some g => ∃ e, r' = some e ∧ e.logFileId = g ∧ ¬ g.Terminal := by
  induction h with
  | nil => rfl
  | @cons d d' r r' f files L l i e hlog hmended rest ih =>
    cases files with
    | nil =>
      obtain ⟨hfile, hterminal, -⟩ := hmended.complete
      exact ⟨e, ih, hfile, hterminal⟩
    | cons g files =>
      rw [List.getLast?_cons_cons]
      exact ih

/-- Places of other files are left alone. -/
theorem Passed.frame (h : Passed p t d r files d' r') {x : Place}
    (hx : ∀ f ∈ files, x ≠ .log f ∧ x ≠ .index f) : Same d d' x := by
  induction h with
  | nil => exact .refl _ _
  | @cons d d' r r' f files L l i e hlog hmended rest ih =>
    obtain ⟨hl, hi⟩ := hx f List.mem_cons_self
    exact (IndexedLogValidator.same_withPair hl hi _).trans
      (ih fun g hg => hx g (List.mem_cons_of_mem f hg))

theorem Passed.frame_files (h : Passed p t d r files d' r') {g : LogFileId}
    (hne : ∀ f ∈ files, g ≠ f) : Same d d' (.log g) ∧ Same d d' (.index g) :=
  Same.files hne fun _ => h.frame

theorem Ended.fixed (h : Ended p t st d files st' d') : st'.streamId = st.streamId ∧
    st'.checkpoint = st.checkpoint ∧ st'.maximumLogFile = st.maximumLogFile := by
  cases h <;> exact ⟨rfl, rfl, rfl⟩

/-- The state keeps what was found before the validation. -/
theorem Visited.state (h : Visited p s cp d₀ d₁ m st d) : st.streamId = s ∧ st.checkpoint = cp ∧
    st.maximumLogFile = m := by
  obtain ⟨passed, rest, d₂, r, -, -, hended⟩ := h.walk
  exact hended.fixed

/-- A range of files is removed that lies after the passed ones. -/
theorem Visited.first_to_remove (h : Visited p s cp d₀ d₁ m st d) {first : LogFileId}
    (hfirst : st.firstFileToRemove = some first) : first.streamId = s ∧
      ∃ last, m = some last ∧ LogFileId.Between first last last := by
  have hcov := h.covered
  obtain ⟨passed, rest, d₂, r, hfiles, -, hended⟩ := h.walk
  have hrest : ∀ g ∈ rest, ∃ last, m = some last ∧ LogFileId.Between (firstFile s cp) last g :=
    fun g hg => (mem_filesFrom hcov).mp (hfiles ▸ List.mem_append_right passed hg)
  cases hended with
  | all => cases hfirst
  | @incomplete f _ _ _ _ _ hlog hmended =>
    obtain ⟨last, hlast, hstream, -, hle⟩ := hrest f List.mem_cons_self
    have hlast' := (hcov.maximum last hlast).1
    rw [hcov.firstFile_stream] at hstream
    simp only [discovered, hlast, Option.some.injEq] at hfirst
    split at hfirst
    · cases hfirst
    · rename_i hne
      obtain ⟨hs, hn⟩ := LogFileId.next_eq_some.mp hfirst
      refine ⟨hs.trans hstream, last, hlast, hlast'.trans (hs.trans hstream).symm, ?_, Nat.le_refl _⟩
      rw [hn]
      refine Nat.lt_of_le_of_ne hle fun heq => hne ?_
      exact LogFileId.ext' (hstream.trans hlast'.symm) heq
  | @missing f _ hlog ht =>
    obtain ⟨last, hlast, hstream, -, hle⟩ := hrest f List.mem_cons_self
    obtain rfl := Option.some.inj hfirst
    rw [hcov.firstFile_stream] at hstream
    exact ⟨hstream, last, hlast, (hcov.maximum last hlast).1.trans hstream.symm, hle, Nat.le_refl _⟩

omit [Crc32c] in
/-- Only the first file has a trusted endpoint. -/
theorem trustedAt_eq_none (s : StreamId) (h : firstFile s cp = f → cp = none) :
    trustedAt (cp.map StreamCheckpoint.endLocation) f = none := by
  cases cp with
  | none => rfl
  | some k =>
    rw [trustedAt, Option.map_some, Option.filter_some, if_neg]
    simpa using fun hk : k.endLocation.logFileId = f => nomatch h hk

omit [Crc32c] in
/-- The file after the passed ones is none of them. -/
theorem not_mem_passed (h : Covered s cp m) {passed rest : List LogFileId}
    (hfiles : filesFrom (firstFile s cp) m = passed ++ rest)
    (hf : f.fileNumber.get = (firstFile s cp).fileNumber.get + passed.length) : f ∉ passed := by
  intro hmem
  obtain ⟨xs, ys, hsplit⟩ := List.append_of_mem hmem
  rw [hsplit, List.append_assoc, List.cons_append] at hfiles
  have hpos := (filesFrom_eq_append h hfiles).2
  have hlen := congrArg List.length hsplit
  rw [List.length_append, List.length_cons] at hlen
  omega

/-- The file is the one after the maximum log, or the first one if there is no log. -/
def Beyond (d : Disk) (f : LogFileId) : Prop :=
  (∀ g : LogFileId, g.streamId = f.streamId → d (.log g) ≠ none →
    g.fileNumber.get < f.fileNumber.get) ∧
  (f.fileNumber.get = 0 ∨ ∃ g : LogFileId, g.streamId = f.streamId ∧ d (.log g) ≠ none ∧
    f.fileNumber.get = g.fileNumber.get + 1)

/-- The pair to create comes after the passed files. -/
theorem Passed.exists_newFile (h : Passed p t d none files d' r) (hcov : Covered s cp m)
    {rest : List LogFileId} (hfiles : filesFrom (firstFile s cp) m = files ++ rest)
    (st : InitializationState) (hs : st.streamId = s) (hr : st.recoveredEnd = r)
    (hcp : files = [] → cp = none) : ∃ f, newFile st = some f ∧ f.streamId = s ∧
      f.fileNumber.get = (firstFile s cp).fileNumber.get + files.length := by
  have hrec := h.recovered
  rcases List.eq_nil_or_concat files with rfl | ⟨init, g, rfl⟩
  · obtain rfl := hcp rfl
    refine ⟨.first s, ?_, rfl, rfl⟩
    rw [newFile, hr, show r = none from hrec, hs]
    rfl
  · rw [List.concat_eq_append] at hrec hfiles ⊢
    rw [List.getLast?_concat] at hrec
    obtain ⟨e, he, hfile, hterminal⟩ := hrec
    obtain ⟨f, hf⟩ := LogFileId.exists_next hterminal
    obtain ⟨hfs, hfn⟩ := LogFileId.next_eq_some.mp hf
    rw [List.append_assoc] at hfiles
    obtain ⟨hgs, hgn⟩ := filesFrom_eq_append hcov hfiles
    refine ⟨f, ?_, hfs.trans hgs, ?_⟩
    · rw [newFile, hr, he, Option.elim_some, hfile, hf]
    · rw [hfn, hgn, List.length_append, List.length_singleton, Nat.add_assoc]

omit [Crc32c] in
/-- Where no file is to be validated there is no checkpoint. -/
theorem Covered.none_of_filesFrom (h : Covered s cp m) (hfiles : filesFrom (firstFile s cp) m = []) :
    cp = none := by
  refine h.checkpoint ?_
  cases m with
  | none => rfl
  | some last =>
    have hlen := length_filesFrom h rfl
    have hle := (h.maximum last rfl).2
    rw [hfiles, List.length_nil] at hlen
    omega

omit [Crc32c] in
/-- The file after all that are to be validated. -/
theorem Covered.beyond (h : Covered s cp m) (hmax : StorageProvider.IsMaximum d s m)
    (hs : f.streamId = s) (hn : f.fileNumber.get = (firstFile s cp).fileNumber.get +
      (filesFrom (firstFile s cp) m).length) : Beyond d f := by
  cases m with
  | none =>
    rw [h.none_of_filesFrom rfl] at hn
    exact ⟨fun g hg hlog => absurd (hmax g (hg.trans hs)) hlog, .inl hn⟩
  | some last =>
    obtain ⟨hls, hlog, hle⟩ := hmax
    have hlen := length_filesFrom h rfl
    refine ⟨fun g hg hlog => ?_, .inr ⟨last, hls.trans hs.symm, hlog, by omega⟩⟩
    have := hle g (hg.trans hs) hlog
    omega

/-- Where the walk ended, if no pair goes on: after as many files as it has passed. -/
theorem Visited.new_file (h : Visited p s cp d₀ d₁ m st d) (hnone : st.activePair = none) :
    ∃ f passed rest, newFile st = some f ∧ f.streamId = s ∧
      f.fileNumber.get = (firstFile s cp).fileNumber.get + passed.length ∧
      filesFrom (firstFile s cp) m = passed ++ rest ∧ d₁ (.log f) = none ∧ d (.log f) = none ∧
      (st.firstFileToRemove = some f ∨ Beyond d₁ f ∧ Same d₁ d (.index f) ∧
        st.firstFileToRemove = none) ∧
      trustedAt (cp.map StreamCheckpoint.endLocation) f = none ∧
      Passed p (cp.map StreamCheckpoint.endLocation) d₁ none passed d st.recoveredEnd := by
  have hcov := h.covered
  obtain ⟨passed, rest, d₂, r, hfiles, hpassed, hended⟩ := h.walk
  have hframe : ∀ g : LogFileId, g.fileNumber.get = (firstFile s cp).fileNumber.get + passed.length →
      Same d₁ d₂ (.log g) ∧ Same d₁ d₂ (.index g) := by
    intro g hg
    exact hpassed.frame_files fun f hf heq => not_mem_passed hcov hfiles hg (heq ▸ hf)
  cases hended with
  | all =>
    rw [List.append_nil] at hfiles
    have hcp : passed = [] → cp = none := fun h => hcov.none_of_filesFrom (hfiles.trans h)
    obtain ⟨f, hf, hs, hn⟩ := hpassed.exists_newFile hcov (hfiles.trans (List.append_nil _).symm)
      { discovered s cp m with recoveredEnd := r } rfl rfl hcp
    have hbeyond : Beyond d₁ f := hcov.beyond h.maximum hs (hfiles ▸ hn)
    have hlog : d₁ (.log f) = none := by
      by_contra hlog
      exact absurd (hbeyond.1 f rfl hlog) (Nat.lt_irrefl _)
    have huntrusted : trustedAt (cp.map StreamCheckpoint.endLocation) f = none := by
      refine trustedAt_eq_none s fun hfirst => hcp ?_
      rw [← hfirst] at hn
      exact List.length_eq_zero_iff.mp (by omega)
    exact ⟨f, passed, [], hf, hs, hn, hfiles.trans (List.append_nil _).symm, hlog,
      (hframe f hn).1.none_iff.mpr hlog, .inr ⟨hbeyond, (hframe f hn).2, rfl⟩, huntrusted, hpassed⟩
  | incomplete => cases hnone
  | @missing f rest hlog ht =>
    have hcp : passed = [] → cp = none := by
      rintro rfl
      cases cp with
      | none => rfl
      | some k =>
        obtain ⟨hs, hn⟩ := filesFrom_eq_append hcov hfiles
        have hf : k.endLocation.logFileId = f := LogFileId.ext'
          (hcov.firstFile_stream.trans hs.symm) hn.symm
        simp [trustedAt, hf] at ht
    obtain ⟨f', hf', hs', hn'⟩ := hpassed.exists_newFile hcov hfiles
      { discovered s cp m with recoveredEnd := r, firstFileToRemove := some f } rfl rfl hcp
    obtain ⟨hs, hn⟩ := filesFrom_eq_append hcov hfiles
    obtain rfl : f' = f := LogFileId.ext' (hs'.trans hs.symm) (hn'.trans hn.symm)
    exact ⟨f', passed, _, hf', hs', hn', hfiles, (hframe f' hn').1.none_iff.mp hlog, hlog, .inl rfl,
      ht, hpassed⟩

/-- The recovered end is in one of the files. -/
theorem Visited.recovered_mem (h : Visited p s cp d₀ d₁ m st d) {e : RecordEndLocation}
    (he : st.recoveredEnd = some e) : e.logFileId ∈ filesFrom (firstFile s cp) m := by
  obtain ⟨passed, rest, d₂, r, hfiles, hpassed, hended⟩ := h.walk
  have hrec := hpassed.recovered
  rw [hfiles]
  have hpass : r = some e → e.logFileId ∈ passed ++ rest := by
    rintro rfl
    cases hl : passed.getLast? with
    | none =>
      rw [hl] at hrec
      cases hrec
    | some g =>
      rw [hl] at hrec
      obtain ⟨e', he', hfile, -⟩ := hrec
      obtain rfl := Option.some.inj he'
      rw [hfile]
      exact List.mem_append_left _ (List.mem_of_getLast? hl)
  cases hended with
  | all => exact hpass he
  | missing => exact hpass he
  | @incomplete f rest L l i e' hlog hmended =>
    cases e' with
    | none => exact hpass he
    | some e' =>
      obtain rfl := Option.some.inj he
      have hend := hmended.incomplete.1.symm
      rw [(LogFileValidator.endAfter_eq_some hmended.accepts hend).1]
      exact List.mem_append_right _ List.mem_cons_self

/-! ### Removing, publishing and creating -/

omit [Crc32c]

variable {first last : LogFileId}

theorem Cleaned.refl (first last : LogFileId) (d : Disk) : Cleaned first last d d :=
  ⟨fun x _ => .refl d x, fun _ _ => .inr (.refl d _), fun _ _ => .inr (.refl d _)⟩

theorem Cleaned.keptByRemoval (hf : LogFileId.Between first last f) :
    StorageProvider.KeptByRemoval (Cleaned first last d) f := by
  have hupdate : ∀ d' x y, d' y = none ∨ Same d d' y →
      Function.update d' x none y = none ∨ Same d (Function.update d' x none) y := by
    intro d' x y h
    by_cases hxy : y = x
    · subst hxy
      exact .inl (Function.update_self _ _ _)
    · rw [Same, Function.update_of_ne hxy]
      exact h
  have houtside : ∀ d' x, Cleaned first last d d' → (x = .log f ∨ x = .index f) →
      ∀ y : Place, (∀ g, LogFileId.Between first last g → y ≠ .log g ∧ y ≠ .index g) →
        Same d (Function.update d' x none) y := by
    intro d' x h hx y hy
    have hne : y ≠ x := by
      rcases hx with rfl | rfl
      · exact (hy f hf).1
      · exact (hy f hf).2
    rw [Same, Function.update_of_ne hne]
    exact h.outside y hy
  intro d' h
  exact ⟨⟨houtside d' _ h (.inl rfl), fun g hg => hupdate d' _ _ (h.log g hg),
      fun g hg => hupdate d' _ _ (h.index g hg)⟩,
    ⟨houtside d' _ h (.inr rfl), fun g hg => hupdate d' _ _ (h.log g hg),
      fun g hg => hupdate d' _ _ (h.index g hg)⟩⟩

theorem Cleaned.link (h : Cleaned first last d d') (q : Path) :
    Cleaned first last d (d'.link p q) := by
  have hlink : ∀ x, d' x = none ∨ Same d d' x → d'.link p q x = none ∨ Same d (d'.link p q) x :=
    fun x hx => hx.imp (fun hnone => (Same.link p d' q x).none_iff.mpr hnone)
      fun hsame => hsame.trans (.link p d' q x)
  exact ⟨fun x hx => (h.outside x hx).trans (.link p d' q x), fun f hf => hlink _ (h.log f hf),
    fun f hf => hlink _ (h.index f hf)⟩

/-- Nothing comes to be where nothing was. -/
theorem Cleaned.none (h : Cleaned first last d d') {x : Place} (hx : d x = none) : d' x = none := by
  by_cases hin : ∀ f, LogFileId.Between first last f → x ≠ .log f ∧ x ≠ .index f
  · exact (h.outside x hin).none_iff.mpr hx
  · simp only [not_forall, not_and_or, not_not] at hin
    obtain ⟨f, hf, rfl | rfl⟩ := hin
    · exact (h.log f hf).elim id fun hsame => hsame.none_iff.mpr hx
    · exact (h.index f hf).elim id fun hsame => hsame.none_iff.mpr hx

theorem Removed.none (h : Removed st d d') {x : Place} (hx : d x = none) : d' x = none := by
  rw [Removed] at h
  split at h
  · exact h.1.none hx
  · rw [h]
    exact hx

/-- Publishing touches the checkpoint and its staging file only. -/
theorem Advanced.frame (h : Advanced p s st d d') {x : Place} (hcheckpoint : x ≠ .checkpoint s)
    (hpending : x ≠ .pending s) : Same d d' x := by
  rw [Advanced] at h
  split at h
  · rw [h]
    exact .refl _ _
  · split at h
    · rw [h]
      exact .refl _ _
    · obtain ⟨file, -, rfl⟩ := h
      refine Same.trans (.inl ?_) (.link p _ _ x)
      rw [StorageProvider.published, Function.update_of_ne hcheckpoint,
        Function.update_of_ne hpending]

/-- The exit is not that of a file's validation. -/
def Outside (e : Exit InitializationError) : Prop := ∀ v, e ≠ .error (.validation v)

/-- A storage operation of the initializer fails with a fault only. -/
theorem storage_triple {α : Type} {m : Io Tree StorageError α} {P Y : Tree → Prop}
    {Q : α → Tree → Prop} (h : Triple c P m Q (Faulted c Y)) :
    Triple c P (Io.mapErr InitializationError.storage m) Q
      (fun e tree => Outside e ∧ Faulted c Y e tree) := by
  refine .mapErr (h.exits ?_)
  rintro (e | _ | _) tree ⟨hc, hp, hY⟩
  · exact ⟨by simp [Outside], hc, by simp, hY⟩
  · exact ⟨by simp [Outside], hc, by simp, hY⟩
  · exact absurd rfl hp

/-! ### The steps -/

variable [Crc32c]

/-- Where an initialization that began at the disk `d₀` ends early. -/
inductive Interrupted (c : Mode) (p : StorageProvider) (s : StreamId) (cp : Option StreamCheckpoint)
    (d₀ : Disk) : Exit InitializationError → Tree → Prop
  | loading {d₁ : Disk} {e : Exit InitializationError} {tree : Tree} (loaded : Loaded s d₀ d₁)
      (on : On p s d₁ tree) (ne_panicked : e ≠ .panicked) (outside : Outside e)
      (cause : ¬ c.calm ∨ ∃ k ∈ cp, k.endLocation.recordId.streamId ≠ s ∨
        d₁ (.log k.endLocation.logFileId) = none) :
      Interrupted c p s cp d₀ e tree
  | validating {d₁ : Disk} {m : Option LogFileId} {e : Exit InitializationError} {tree : Tree}
      (loaded : Loaded s d₀ d₁) (maximum : StorageProvider.IsMaximum d₁ s m)
      (covered : Covered s cp m)
      (exit : WalkExit c p s (cp.map StreamCheckpoint.endLocation) d₁ none
        (filesFrom (firstFile s cp) m) e tree) :
      Interrupted c p s cp d₀ e tree
  | removing {d₁ d₂ d₃ : Disk} {m : Option LogFileId} {st : InitializationState}
      {e : Exit InitializationError} {tree : Tree} (visited : Visited p s cp d₀ d₁ m st d₂)
      (removing : Removing st d₂ d₃) (on : On p s d₃ tree) (outside : Outside e)
      (faulted : ¬ c.calm ∧ e ≠ .panicked) :
      Interrupted c p s cp d₀ e tree
  | publishing {d₁ d₂ d₃ : Disk} {m : Option LogFileId} {st : InitializationState}
      {e : Exit InitializationError} {endLocation : RecordEndLocation} {tree : Tree}
      (visited : Visited p s cp d₀ d₁ m st d₂) (removed : Removed st d₂ d₃)
      (recovered : st.recoveredEnd = some endLocation) (new : st.checkpoint ≠ some ⟨endLocation⟩)
      (publishing : StorageProvider.Publishing p s d₃ ⟨endLocation⟩ tree) (outside : Outside e)
      (faulted : ¬ c.calm ∧ e ≠ .panicked) :
      Interrupted c p s cp d₀ e tree
  | preparing {d₁ d₂ d₃ d₄ : Disk} {m : Option LogFileId} {st : InitializationState}
      {e : Exit InitializationError} {f : LogFileId} {tree : Tree}
      (visited : Visited p s cp d₀ d₁ m st d₂) (removed : Removed st d₂ d₃)
      (advanced : Advanced p s st d₃ d₄) (none_active : st.activePair = none)
      (new : newFile st = some f)
      (creating : On p s d₄ tree ∨ On p s (StorageProvider.created d₄ (.log f)) tree)
      (outside : Outside e) (cause : (¬ c.calm ∨ d₄ (.index f) ≠ none) ∧ e ≠ .panicked) :
      Interrupted c p s cp d₀ e tree

/-- An initialization that has ended. -/
inductive Initialized (p : StorageProvider) (s : StreamId) (cp : Option StreamCheckpoint)
    (d₀ : Disk) : InitializedStream → Disk → Prop
  | mk {d₁ d₂ d₃ d₄ d : Disk} {m : Option LogFileId} {st st' : InitializationState}
      {i : InitializedStream} (visited : Visited p s cp d₀ d₁ m st d₂) (removed : Removed st d₂ d₃)
      (advanced : Advanced p s st d₃ d₄) (prepared : Prepared st d₄ st' d)
      (active : st'.activePair = some i) :
      Initialized p s cp d₀ i d

theorem loadCheckpoint_triple [CheckpointReader] (hr : StorageProvider.Reads d s cp) :
    Triple c (On p s d) (loadCheckpoint p (new s))
      (fun st tree => (st = discovered s cp none ∧ ∀ k ∈ cp, k.endLocation.recordId.streamId = s) ∧
        ∃ d', Loaded s d d' ∧ On p s d' tree)
      (Interrupted c p s cp d) := by
  have hloaded : ∀ tree, On p s d tree ∨
      (∃ k, On p s (StorageProvider.moved d (.checkpoint s) k) tree) →
      ∃ d', Loaded s d d' ∧ On p s d' tree := by
    rintro tree (h | ⟨k, h⟩)
    · exact ⟨d, .inl rfl, h⟩
    · exact ⟨_, .inr ⟨k, rfl⟩, h⟩
  refine .bind (R := fun r tree => r = cp ∧ ∃ d', Loaded s d d' ∧ On p s d' tree)
    ((storage_triple ((StorageProvider.readCheckpoint_triple hr).exits
      fun e tree h => h.mono hloaded)).conseq (fun _ h => h) ?_ ?_) fun r => .assume fun hcp => ?_
  · exact fun r tree h => ⟨h.1, hloaded tree h.2⟩
  · exact fun e tree ⟨ho, hc, hp, d', h, hon⟩ => .loading h hon hp ho (.inl hc)
  subst hcp
  cases r with
  | none => exact .pure fun tree h => ⟨⟨rfl, by simp⟩, h⟩
  | some k =>
    simp only
    split
    · rename_i hs
      refine .pure fun tree h => ⟨⟨rfl, fun k' hk' => ?_⟩, h⟩
      rw [← Option.some.inj hk']
      exact hs
    · rename_i hs
      exact .throw fun tree ⟨d', h, hon⟩ =>
        .loading h hon (by simp) (by simp [Outside]) (.inr ⟨k, rfl, .inl hs⟩)

theorem discoverLogFiles_triple (hd : Loaded s d₀ d)
    (hstream : ∀ k ∈ cp, k.endLocation.recordId.streamId = s) :
    Triple c (On p s d) (discoverLogFiles p (discovered s cp none))
      (fun st tree => ∃ m, (st = discovered s cp m ∧ StorageProvider.IsMaximum d s m ∧
        Covered s cp m) ∧ On p s d tree)
      (Interrupted c p s cp d₀) := by
  refine .bind ((storage_triple StorageProvider.maximumLogFile_triple).exits
    fun e tree ⟨ho, hc, hp, h⟩ => .loading hd h hp ho (.inl hc)) fun m => .assume fun hm => ?_
  cases cp with
  | none =>
    refine .pure fun tree h => ⟨m, ⟨rfl, hm, by simp, fun last hlast => ?_, fun _ => rfl⟩, h⟩
    rw [Option.mem_def] at hlast
    subst hlast
    exact ⟨hm.1, Nat.zero_le _⟩
  | some k =>
    have hk : k.endLocation.logFileId.streamId = s := hstream k rfl
    cases m with
    | none =>
      exact .throw fun tree h =>
        .loading hd h (by simp) (by simp [Outside]) (.inr ⟨k, rfl, .inr (hm _ hk)⟩)
    | some last =>
      by_cases hle : k.endLocation.logFileId.fileNumber.get ≤ last.fileNumber.get
      · simp only [discovered, if_pos hle]
        refine .pure fun tree h => ⟨some last, ⟨rfl, hm, hstream, fun last' hlast' => ?_, by simp⟩, h⟩
        obtain rfl := Option.some.inj hlast'
        exact ⟨hm.1, hle⟩
      · simp only [discovered, if_neg hle]
        refine .throw fun tree h =>
          .loading hd h (by simp) (by simp [Outside]) (.inr ⟨k, rfl, .inr ?_⟩)
        by_contra hlog
        exact hle (hm.2.2 _ hk hlog)

theorem validateFiles_triple (hd : Loaded s d₀ d) (hm : StorageProvider.IsMaximum d s m)
    (hcov : Covered s cp m) :
    Triple c (On p s d) (validateFiles p (discovered s cp m))
      (fun st tree => ∃ d', Visited p s cp d₀ d m st d' ∧ On p s d' tree)
      (Interrupted c p s cp d₀) := by
  cases m with
  | none =>
    exact .pure fun tree h => ⟨d, ⟨hd, hm, hcov, [], [], d, none, rfl, .nil, .all⟩, h⟩
  | some last =>
    have hs := (hcov.maximum last rfl).1
    rw [validateFiles_eq hcov]
    have hmax : (discovered s cp (some last)).maximumLogFile = some last := rfl
    refine (validateEach_triple (filesFrom (firstFile s cp) (some last)) hmax
      fun f hf => ?_).conseq (fun _ h => h) ?_ ?_
    · have hfs := streamId_of_mem_filesFrom hcov hf
      obtain ⟨last', hlast', hbetween⟩ := (mem_filesFrom hcov).mp hf
      obtain rfl := Option.some.inj hlast'
      refine ⟨hfs, fun hne => ?_⟩
      have hlt : f.fileNumber.get < last.fileNumber.get := Nat.lt_of_le_of_ne hbetween.2.2
        fun heq => hne (LogFileId.ext' (hfs.trans hs.symm) heq)
      have hlast := last.fileNumber.le
      obtain ⟨f', hf'⟩ := LogFileId.exists_next (LogFileId.not_terminal_iff.mpr
        (show f.fileNumber.get < 184467440737095 by omega))
      rw [hf']
      simp
    · exact fun st tree ⟨d', hwalk, h⟩ => ⟨d', ⟨hd, hm, hcov, hwalk⟩, h⟩
    · exact fun e tree h => .validating hd hm hcov h

theorem removeLaterFiles_triple (h : Visited p s cp d₀ d₁ m st d) :
    Triple c (On p s d) (removeLaterFiles p st)
      (fun _ tree => ∃ d', Removed st d d' ∧ On p s d' tree) (Interrupted c p s cp d₀) := by
  rw [removeLaterFiles]
  cases hfirst : st.firstFileToRemove with
  | none =>
    refine .pure fun tree hon => ⟨d, ?_, hon⟩
    rw [Removed, hfirst]
  | some first =>
    obtain ⟨hs, last, rfl, hbetween⟩ := h.first_to_remove hfirst
    have hlast := h.state.2.2
    rw [hlast]
    refine (storage_triple (StorageProvider.removeLogAndIndex_triple (J := Cleaned first last d)
      hs hbetween (fun f hf => Cleaned.keptByRemoval hf) fun d' q hd' => hd'.link q)).conseq ?_ ?_ ?_
    · exact fun tree hon => ⟨d, hon, .refl first last d⟩
    · rintro _ tree ⟨d', hon, hcleaned, hgone⟩
      refine ⟨d', ?_, hon⟩
      rw [Removed, hfirst, hlast]
      exact ⟨hcleaned, hgone⟩
    · rintro e tree ⟨ho, hc, hp, d', hon, hcleaned⟩
      exact .removing h ⟨first, last, hfirst, hlast, hcleaned⟩ hon ho ⟨hc, hp⟩

theorem advanceCheckpoint_triple (h : Visited p s cp d₀ d₁ m st d) {d₂ : Disk}
    (hremoved : Removed st d d₂) :
    Triple c (On p s d₂) (advanceCheckpoint p st)
      (fun _ tree => ∃ d', Advanced p s st d₂ d' ∧ On p s d' tree) (Interrupted c p s cp d₀) := by
  rw [advanceCheckpoint]
  cases hrec : st.recoveredEnd with
  | none =>
    refine .pure fun tree hon => ⟨d₂, ?_, hon⟩
    rw [Advanced, hrec]
  | some e =>
    obtain ⟨last, -, hstream, -⟩ := (mem_filesFrom h.covered).mp (h.recovered_mem hrec)
    by_cases hsame : st.checkpoint = some ⟨e⟩
    · simp only [hsame, ne_eq, not_true_eq_false, if_false]
      refine .pure fun tree hon => ⟨d₂, ?_, hon⟩
      simp only [Advanced, hrec, hsame, if_true]
    · simp only [ne_eq, hsame, not_false_eq_true, if_true]
      have hcheckpoint : (⟨e⟩ : StreamCheckpoint).endLocation.recordId.streamId = s :=
        hstream.trans h.covered.firstFile_stream
      refine (storage_triple (StorageProvider.writeCheckpoint_triple (d := d₂)
        hcheckpoint)).conseq (fun _ h => h) ?_ ?_
      · rintro _ tree ⟨file, hfile, hon⟩
        refine ⟨_, ?_, hon⟩
        simp only [Advanced, hrec, hsame, if_false]
        exact ⟨file, hfile, rfl⟩
      · exact fun x tree ⟨ho, hc, hp, hpub⟩ => .publishing h hremoved hrec hsame hpub ho ⟨hc, hp⟩

theorem prepareActivePair_triple (h : Visited p s cp d₀ d₁ m st d) {d₂ d₃ : Disk}
    (hremoved : Removed st d d₂) (hadvanced : Advanced p s st d₂ d₃) :
    Triple c (On p s d₃) (prepareActivePair p st)
      (fun st' tree => ∃ d', Prepared st d₃ st' d' ∧ On p s d' tree) (Interrupted c p s cp d₀) := by
  rw [prepareActivePair]
  by_cases hactive : st.activePair.isSome
  · rw [if_pos hactive]
    exact .pure fun tree hon => ⟨d₃, .inl ⟨Option.isSome_iff_ne_none.mp hactive, rfl, rfl⟩, hon⟩
  rw [if_neg hactive]
  have hnone : st.activePair = none := by simpa using hactive
  obtain ⟨f, -, -, hnew, hs, -, -, -, hlog, -⟩ := h.new_file hnone
  have hlog' : d₃ (.log f) = none :=
    (hadvanced.frame (by simp) (by simp)).none_iff.mpr (hremoved.none hlog)
  rw [hnew, Io.unwrap_bind]
  refine .bind (R := fun _ tree => d₃ (.index f) = none ∧
      On p s (StorageProvider.created (StorageProvider.created d₃ (.log f)) (.index f)) tree)
    (.mapErr ((StorageProvider.createLogAndIndex_triple hs hlog').exits ?_)) fun _ =>
    .assume fun hindex => .pure fun tree hon =>
      ⟨_, .inr ⟨hnone, f, hnew, hindex, rfl, rfl⟩, hon⟩
  rintro (e | _ | _) tree ⟨hc, hp, hon⟩
  · exact .preparing h hremoved hadvanced hnone hnew hon (by simp [Outside]) ⟨hc, by simp⟩
  · exact .preparing h hremoved hadvanced hnone hnew hon (by simp [Outside]) ⟨hc, by simp⟩
  · exact absurd rfl hp

/-- **Initializing a stream**, and everywhere it can end. -/
theorem initializeStream_triple [CheckpointReader] (hr : StorageProvider.Reads d s cp) :
    Triple c (On p s d) (initializeStream p s)
      (fun i tree => ∃ d', Initialized p s cp d i d' ∧ On p s d' tree) (Interrupted c p s cp d) := by
  refine .bind (loadCheckpoint_triple hr) fun st => .assume fun ⟨hst, hstream⟩ =>
    .ofExists fun d₁ => .assume fun hloaded => ?_
  subst hst
  refine .bind (discoverLogFiles_triple hloaded hstream) fun st => .ofExists fun m =>
    .assume fun ⟨hst, hm, hcov⟩ => ?_
  subst hst
  refine .bind (validateFiles_triple hloaded hm hcov) fun st => .ofExists fun d₂ =>
    .assume fun hvisited => ?_
  refine .bind (removeLaterFiles_triple hvisited) fun _ => .ofExists fun d₃ =>
    .assume fun hremoved => ?_
  refine .bind (advanceCheckpoint_triple hvisited hremoved) fun _ => .ofExists fun d₄ =>
    .assume fun hadvanced => ?_
  refine .bind (prepareActivePair_triple hvisited hremoved hadvanced) fun st' =>
    .ofExists fun d₅ => .assume fun hprepared => ?_
  have hactive : st'.activePair ≠ none := by
    rcases hprepared with ⟨h, rfl, -⟩ | ⟨-, f, -, -, rfl, -⟩
    · exact h
    · simp
  obtain ⟨i, hi⟩ := Option.ne_none_iff_exists'.mp hactive
  rw [hi]
  exact .pure fun tree hon => ⟨d₅, .mk hvisited hremoved hadvanced hprepared hi, hon⟩

end StreamInitializer

end TransactionLog
