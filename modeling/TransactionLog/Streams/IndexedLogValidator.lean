import TransactionLog.Storage.Operations
import TransactionLog.Streams.IndexFileValidator
import TransactionLog.Streams.LogRepair

/-!
# Recovering a file pair

The validator opens the log of a file, opens or creates its index, and recovers
one after the other.  `validate_triple` says what it leaves: the log cut at the end
of its accepted records, and in the index the ends of those after the trusted ones.
`Mending` lists the disks on the way there, so it is what an attempt that ended
early may have left.
-/

namespace TransactionLog

open Lib

inductive IndexedLogValidationError where
  | storage (e : StorageError)
  | log (e : LogFileValidationError)
  | index (e : IndexFileValidationError)
  deriving DecidableEq, Repr

/-- The outcome for one pair.  `incomplete` is the source's `Partial`; its handles
are the files of the pair with their cursors. -/
inductive ValidatedFilePair where
  | complete (endLocation : RecordEndLocation)
  | incomplete (endLocation : Option RecordEndLocation)
  deriving DecidableEq, Repr

namespace IndexedLogValidator

open LogFileValidator (trustedCount startPosition Untouched Accepts Repairing repaired found
  endAfter suffixOf Exhausted)
open IndexFileValidator (Trusts Rebuilt Rebuilding)

section Operations

variable [Crc32c] (p : StorageProvider)

/-- Moves both cursors to the accepted ends. -/
def handOff (fileId : LogFileId) (endLocation : Option RecordEndLocation) :
    Io Tree IndexedLogValidationError ValidatedFilePair := do
  Io.mapErr (fun e => .log (.io e))
    (Fs.onFile (p.logFilePath fileId) (File.seek (startPosition endLocation).get))
  Io.mapErr (fun e => .index (.io e))
    (Fs.onFile (p.indexFilePath fileId) (File.seek (trustedCount endLocation * indexEntryLen)))
  pure (.incomplete endLocation)

/-- Recovers one existing log and its index. -/
def validate (fileId : LogFileId) (lastTrusted : Option RecordEndLocation) :
    Io Tree IndexedLogValidationError ValidatedFilePair := do
  Io.mapErr .storage (p.openLogForValidation fileId)
  Io.mapErr .storage (p.openIndexForRepair fileId)
  let validatedLog ← Io.mapErr .log
    (Fs.onFile (p.logFilePath fileId) (LogFileValidator.validate fileId lastTrusted))
  Io.mapErr .index (Fs.onFile (p.indexFilePath fileId)
    (IndexFileValidator.validate lastTrusted validatedLog.suffixEnds))
  match validatedLog.validatedEnd with
  | none => handOff p fileId none
  | some endLocation =>
    if LogFileId.recordCountThrough endLocation.recordId = recordsPerFile then
      pure (.complete endLocation)
    else handOff p fileId (some endLocation)

end Operations

/-! ### The disk of a pair -/

/-- The index as it is opened. -/
def openedIndex (d : Disk) (f : LogFileId) : File :=
  ((d (.index f)).elim ⟨.empty, false⟩ Stored.opened).file

/-- The disk with a log and an index for `f`, both with durable entries. -/
def withPair (d : Disk) (f : LogFileId) (log index : File) : Disk :=
  Function.update (Function.update d (.log f) (some ⟨log, true⟩)) (.index f) (some ⟨index, true⟩)

variable {p : StorageProvider} {s : StreamId} {d : Disk} {f : LogFileId}
  {t : Option RecordEndLocation} {log index l i : File} {L : Stored}

@[simp] theorem withPair_log : withPair d f log index (.log f) = some ⟨log, true⟩ := by
  rw [withPair, Function.update_of_ne (by simp), Function.update_self]

@[simp] theorem withPair_index : withPair d f log index (.index f) = some ⟨index, true⟩ :=
  Function.update_self _ _ _

theorem withPair_of_ne {x : Place} (hlog : x ≠ .log f) (hindex : x ≠ .index f) :
    withPair d f log index x = d x := by
  rw [withPair, Function.update_of_ne hindex, Function.update_of_ne hlog]

theorem openedIndex_congr {d' : Disk} (h : Same d d' (.index f)) :
    openedIndex d' f = openedIndex d f := by
  rw [openedIndex, openedIndex]
  rcases h with h | ⟨st, hst, h⟩
  · rw [h]
  · rw [h, hst]
    rfl

/-- Opening and repairing a pair leaves other places alone. -/
theorem same_withPair {x : Place} (hlog : x ≠ .log f) (hindex : x ≠ .index f) (q : Path) :
    Same d (withPair (d.link p q) f log index) x := by
  rw [Same, withPair_of_ne hlog hindex]
  exact Same.link p d q x

theorem same_files_withPair {g : LogFileId} (h : g ≠ f) (q : Path) :
    Same d (withPair (d.link p q) f log index) (.log g) ∧
      Same d (withPair (d.link p q) f log index) (.index g) :=
  ⟨same_withPair (by simpa using h) (by simp) q, same_withPair (by simp) (by simpa using h) q⟩

theorem update_log_withPair :
    Function.update (withPair d f log index) (.log f) (some ⟨l, true⟩) = withPair d f l index := by
  rw [withPair, withPair, Function.update_comm (by simp), Function.update_idem]

theorem update_index_withPair :
    Function.update (withPair d f log index) (.index f) (some ⟨i, true⟩) = withPair d f log i := by
  rw [withPair, withPair, Function.update_idem]

/-- The disk once both files are open. -/
theorem link_opened (L : Stored) :
    (StorageProvider.indexOpened (Function.update d (.log f) (some L.opened)) f).link p
        (p.leafDirectory f) =
      withPair (d.link p (p.leafDirectory f)) f L.opened.file (openedIndex d f) := by
  funext x
  by_cases hindex : x = .index f
  · subst hindex
    have hsame : Function.update d (.log f) (some L.opened) (.index f) = d (.index f) :=
      Function.update_of_ne (by simp) _ _
    rw [withPair_index, Disk.link, StorageProvider.indexOpened, Function.update_self, hsame,
      if_pos (show Place.directory p (.index f) = p.leafDirectory f from rfl)]
    rfl
  by_cases hlog : x = .log f
  · subst hlog
    rw [withPair_log, Disk.link, StorageProvider.indexOpened, Function.update_of_ne hindex,
      Function.update_self, if_pos (show Place.directory p (.log f) = p.leafDirectory f from rfl)]
    rfl
  · rw [withPair_of_ne hlog hindex, Disk.link, Disk.link, StorageProvider.indexOpened,
      Function.update_of_ne hindex, Function.update_of_ne hlog]

variable [Crc32c]

/-- The files of a pair while they are repaired. -/
inductive PairMending (f : LogFileId) (t : Option RecordEndLocation) (log index : File) :
    File → File → Prop
  | log {l i : File} (log_repairing : Repairing f t log l) (index_untouched : Untouched index i) :
      PairMending f t log index l i
  | index {l i : File} (accepts : Accepts f t log) (log_repaired : Untouched (repaired f t log) l)
      (index_rebuilding : Rebuilding t (suffixOf t (found f t log.content)) index i) :
      PairMending f t log index l i
  | done {l i : File} (accepts : Accepts f t log) (log_repaired : Untouched (repaired f t log) l)
      (index_rebuilt : Rebuilt t (suffixOf t (found f t log.content)) index i) :
      PairMending f t log index l i

/-- The disks on the way to a repaired pair. -/
inductive Mending (p : StorageProvider) (f : LogFileId) (t : Option RecordEndLocation) (d : Disk)
    (L : Stored) : Disk → Prop
  | unopened : Mending p f t d L d
  | logOpened : Mending p f t d L (Function.update d (.log f) (some L.opened))
  | indexOpened : Mending p f t d L
      (StorageProvider.indexOpened (Function.update d (.log f) (some L.opened)) f)
  | both {l i : File} (h : PairMending f t L.opened.file (openedIndex d f) l i) :
      Mending p f t d L (withPair (d.link p (p.leafDirectory f)) f l i)

/-- The repair of a pair leaves other places alone. -/
theorem Mending.frame {d' : Disk} {x : Place} (h : Mending p f t d L d') (hlog : x ≠ .log f)
    (hindex : x ≠ .index f) : Same d d' x := by
  cases h with
  | unopened => exact .refl d x
  | logOpened => exact .update hlog _
  | indexOpened => exact (Same.update hlog _).trans (.update hindex _)
  | both => exact same_withPair hlog hindex _

/-- Neither file of the pair is removed. -/
theorem Mending.ne_none {d' : Disk} {x : Place} (h : Mending p f t d L d')
    (hx : d x ≠ none) : d' x ≠ none := by
  by_cases hlog : x = .log f
  · subst hlog
    cases h with
    | unopened => exact hx
    | logOpened => simp [Function.update_self]
    | indexOpened =>
      rw [StorageProvider.indexOpened, Function.update_of_ne (by simp), Function.update_self]
      simp
    | both => simp
  by_cases hindex : x = .index f
  · subst hindex
    cases h with
    | unopened => exact hx
    | logOpened =>
      rw [Function.update_of_ne (by simp)]
      exact hx
    | indexOpened => simp [StorageProvider.indexOpened]
    | both => simp
  · exact fun hnone => hx ((h.frame hlog hindex).none_iff.mp hnone)

/-- What the validator reports of a pair whose last record ends there. -/
def outcome : Option RecordEndLocation → ValidatedFilePair
  | none => .incomplete none
  | some e =>
    if LogFileId.recordCountThrough e.recordId = recordsPerFile then .complete e
    else .incomplete (some e)

omit [Crc32c] in
/-- A pair that goes on does so after its last record. -/
theorem outcome_eq_incomplete {o e : Option RecordEndLocation} (h : outcome o = .incomplete e) :
    e = o := by
  cases o with
  | none => exact (ValidatedFilePair.incomplete.inj h).symm
  | some e' =>
    rw [outcome] at h
    split at h
    · cases h
    · exact (ValidatedFilePair.incomplete.inj h).symm

/-- The cursors are where the next record goes. -/
def Positioned (r : ValidatedFilePair) (l i : File) : Prop :=
  ∀ e, r = .incomplete e → l.cursor = (startPosition e).get ∧ i.cursor = 8 * trustedCount e

/-- A repaired pair. -/
structure Mended (f : LogFileId) (t : Option RecordEndLocation) (log index l i : File)
    (r : ValidatedFilePair) : Prop where
  accepts : Accepts f t log
  log_repaired : Untouched (repaired f t log) l
  index_rebuilt : Rebuilt t (suffixOf t (found f t log.content)) index i
  result : r = outcome (endAfter t (found f t log.content))
  positioned : Positioned r l i

/-- Why a validation ended early.  A missing log is no such reason. -/
def Cause (c : Mode) (f : LogFileId) (t : Option RecordEndLocation) (log index : File) :
    Exit IndexedLogValidationError → Prop
  | .error (.storage e) => ¬ c.calm ∧ ∀ q, e ≠ .io q .notFound
  | .error (.log (.invalidStart _)) => ¬ Accepts f t log
  | .error (.index (.trustedIndexMismatch _ _ _)) => ¬ Trusts t index.content
  | .error (.index (.tooManyEntries _ _)) =>
    ¬ trustedCount t + (found f t log.content).length ≤ recordsPerFile
  | .panicked => Exhausted f t (log.content.drop (startPosition t).get)
  | .error (.log _) | .error (.index _) | .stopped => ¬ c.calm

/-- What a validation that ended early has not changed: both files where the log was
refused or could not be read, and the index where it was refused. -/
def Keeps (log index l i : File) : Exit IndexedLogValidationError → Prop
  | .error (.log (.invalidStart _)) | .error (.log (.read _)) => Untouched log l ∧ Untouched index i
  | .error (.index (.trustedIndexMismatch _ _ _)) | .error (.index (.tooManyEntries _ _)) =>
    Untouched index i
  | _ => True

/-- The files of the pair are as `Keeps` has it. -/
def Spares (f : LogFileId) (d : Disk) (L : Stored) (e : Exit IndexedLogValidationError)
    (d' : Disk) : Prop :=
  ∀ l i, d' (.log f) = some l → d' (.index f) = some i →
    Keeps L.opened.file (openedIndex d f) l.file i.file e

/-- Where a validation ends early. -/
def ValidateExit (c : Mode) (p : StorageProvider) (s : StreamId) (f : LogFileId)
    (t : Option RecordEndLocation) (d : Disk) (L : Stored) (e : Exit IndexedLogValidationError)
    (tree : Tree) : Prop :=
  Cause c f t L.opened.file (openedIndex d f) e ∧
    ∃ d', (Mending p f t d L d' ∧ Spares f d L e d') ∧ On p s d' tree

variable {c : Mode}

/-- A storage operation of the validator fails with a fault only. -/
theorem storage_triple {α : Type} {m : Io Tree StorageError α} {P X : Tree → Prop}
    {Q : α → Tree → Prop} (h : Triple c P m Q (StorageProvider.Failed c X))
    (hX : ∀ tree, X tree → ∃ d', Mending p f t d L d' ∧ On p s d' tree) :
    Triple c P (Io.mapErr IndexedLogValidationError.storage m) Q
      (ValidateExit c p s f t d L) := by
  refine .mapErr (h.exits ?_)
  rintro (e | _ | _) tree ⟨hc, he | ⟨path, k, he⟩, hs⟩ <;> cases he <;> obtain ⟨d', hd', h⟩ := hX _ hs
  · refine ⟨⟨hc, fun q hq => ?_⟩, d', ⟨hd', fun _ _ _ _ => trivial⟩, h⟩
    exact k.kind_ne_notFound (StorageError.io.inj hq).2
  · exact ⟨hc, d', ⟨hd', fun _ _ _ _ => trivial⟩, h⟩

omit [Crc32c] in
theorem spares_withPair {e : Exit IndexedLogValidationError} {d' : Disk}
    (h : Keeps L.opened.file (openedIndex d f) l i e) :
    Spares f d L e (withPair d' f l i) := by
  intro l' i' hl' hi'
  rw [withPair_log] at hl'
  rw [withPair_index] at hi'
  obtain rfl := Option.some.inj hl'
  obtain rfl := Option.some.inj hi'
  exact h

/-- The file at `x` is one of the pair's, whose files are `log` and `index` of it. -/
structure PartOf (f : LogFileId) (x : Place) (log index : File → File) : Prop where
  stream : x.streamId = f.streamId
  file : ∀ d file, withPair d f (log file) (index file) x = some ⟨file, true⟩
  update : ∀ d file file', Function.update (withPair d f (log file) (index file)) x
    (some ⟨file', true⟩) = withPair d f (log file') (index file')

omit [Crc32c] in
theorem partOf_log : PartOf f (.log f) (fun l => l) fun _ => i :=
  ⟨rfl, fun _ _ => withPair_log, fun _ _ _ => update_log_withPair⟩

omit [Crc32c] in
theorem partOf_index : PartOf f (.index f) (fun _ => l) fun i => i :=
  ⟨rfl, fun _ _ => withPair_index, fun _ _ _ => update_index_withPair⟩

/-- An operation of an open file of the pair. -/
theorem onPart_triple {α ε : Type} {x : Place} {log index : File → File}
    (hpart : PartOf f x log index) (hs : f.streamId = s) {g : ε → IndexedLogValidationError}
    {m : Io File ε α} {file : File} {Q : α → File → Prop} {X : Exit ε → File → Prop}
    (hm : Triple c (fun file' => file' = file) m Q X)
    (hX : ∀ e file', X e file' → Cause c f t L.opened.file (openedIndex d f) (e.map g) ∧
      PairMending f t L.opened.file (openedIndex d f) (log file') (index file') ∧
      Keeps L.opened.file (openedIndex d f) (log file') (index file') (e.map g)) :
    Triple c (On p s (withPair (d.link p (p.leafDirectory f)) f (log file) (index file)))
      (Io.mapErr g (Fs.onFile (x.path p) m))
      (fun a tree => ∃ file', Q a file' ∧
        On p s (withPair (d.link p (p.leafDirectory f)) f (log file') (index file')) tree)
      (ValidateExit c p s f t d L) := by
  refine .mapErr_exits ((onFile_triple (hpart.stream.trans hs) (hpart.file _ file) hm).conseq
    (fun _ h => h) ?_ ?_)
  · rintro a tree ⟨file', hQ, h⟩
    rw [hpart.update] at h
    exact ⟨file', hQ, h⟩
  · rintro e tree ⟨file', hfile', h⟩
    rw [hpart.update] at h
    obtain ⟨hcause, hmending, hkeeps⟩ := hX e file' hfile'
    exact ⟨hcause, _, ⟨.both hmending, spares_withPair hkeeps⟩, h⟩

/-- Positioning the handles of a repaired pair. -/
theorem handOff_triple (hs : f.streamId = s) (hacc : Accepts f t L.opened.file)
    (hlog : Untouched (repaired f t L.opened.file) l)
    (hindex : Rebuilt t (suffixOf t (found f t L.opened.file.content)) (openedIndex d f) i)
    {e : Option RecordEndLocation}
    (hresult : ValidatedFilePair.incomplete e =
      outcome (endAfter t (found f t L.opened.file.content))) :
    Triple c (On p s (withPair (d.link p (p.leafDirectory f)) f l i)) (handOff p f e)
      (fun r tree => ∃ l' i', Mended f t L.opened.file (openedIndex d f) l' i' r ∧
        On p s (withPair (d.link p (p.leafDirectory f)) f l' i') tree)
      (ValidateExit c p s f t d L) := by
  have hseek : ∀ {file : File} (n : Nat), Triple c (fun l' => l' = file) (File.seek n)
      (fun _ l' => l' = file.seekTo n) (Faulted c fun l' => l' = file) := by
    intro file n
    refine .effect ?_
    rintro _ rfl
    rfl
  refine .bind (onPart_triple (t := t) partOf_log hs (hseek _) ?_) fun _ => .ofExists fun l' =>
    .assume fun hl' => ?_
  · rintro (e | _ | _) l' ⟨hc, hp, rfl⟩
    · exact ⟨hc, .done hacc hlog hindex, trivial⟩
    · exact ⟨hc, .done hacc hlog hindex, trivial⟩
    · exact absurd rfl hp
  subst hl'
  refine .bind (onPart_triple (t := t) partOf_index hs (hseek _) ?_) fun _ => .ofExists fun i' =>
    .assume fun hi' => .pure fun tree h => ?_
  · rintro (e | _ | _) i' ⟨hc, hp, rfl⟩
    · exact ⟨hc, .done hacc (hlog.seekTo _) hindex, trivial⟩
    · exact ⟨hc, .done hacc (hlog.seekTo _) hindex, trivial⟩
    · exact absurd rfl hp
  subst hi'
  refine ⟨_, _, ⟨hacc, hlog.seekTo _, hindex.seekTo _, hresult, fun e' he' => ?_⟩, h⟩
  obtain rfl := ValidatedFilePair.incomplete.inj he'
  exact ⟨rfl, Nat.mul_comm _ _⟩

/-- **Validating a pair** whose log is there. -/
theorem validate_triple (hs : f.streamId = s) (hlog : d (.log f) = some L) :
    Triple c (On p s d) (validate p f t)
      (fun r tree => ∃ l i, Mended f t L.opened.file (openedIndex d f) l i r ∧
        On p s (withPair (d.link p (p.leafDirectory f)) f l i) tree)
      (ValidateExit c p s f t d L) := by
  rw [validate]
  refine .bind (storage_triple (StorageProvider.openLogForValidation_triple hs hlog)
    fun tree h => ⟨d, .unopened, h⟩) fun _ => ?_
  refine .bind (storage_triple (StorageProvider.openIndexForRepair_triple hs
    (by rw [Function.update_self]; simp)) ?_) fun _ => ?_
  · rintro tree (h | h)
    · exact ⟨_, .logOpened, h⟩
    · exact ⟨_, .indexOpened, h⟩
  rw [link_opened]
  -- the log, with the index just opened
  refine .bind (onPart_triple (t := t) (L := L) partOf_log hs (LogFileValidator.validate_triple f t _)
    ?_)
    fun v => .ofExists fun l => .assume fun ⟨hv, hl⟩ => ?_
  · have hself : Untouched (openedIndex d f) (openedIndex d f) := ⟨_, (File.seekTo_self _).symm⟩
    rintro (e | _ | _) l' hl'
    · cases e with
      | invalidStart reason => exact ⟨hl'.1, .log (.inl hl'.2) hself, hl'.2, hself⟩
      | io e => exact ⟨hl'.1, .log hl'.2 hself, trivial⟩
      | read e => exact ⟨hl'.1, .log (.inl hl'.2) hself, hl'.2, hself⟩
    · exact ⟨hl'.1, .log hl'.2 hself, trivial⟩
    · exact ⟨hl'.1, .log (.inl hl'.2) hself, trivial⟩
  -- the index, with the log repaired
  have hsuffix := hv.suffixEnds
  have hlength : v.suffixEnds.length = (found f t L.opened.file.content).length := by
    rw [hsuffix, suffixOf, List.length_map, length_ends]
  refine .bind (onPart_triple (t := t) partOf_index hs
    (IndexFileValidator.validate_triple t v.suffixEnds _) ?_) fun _ => .ofExists fun i => .assume fun hi => ?_
  · rw [hsuffix] at *
    rintro (e | _ | _) i' hi'
    · cases e with
      | io e => exact ⟨hi'.1, .index hv.accepts hl hi'.2, trivial⟩
      | write e => exact ⟨hi'.1, .index hv.accepts hl hi'.2, trivial⟩
      | trustedIndexMismatch n e a => exact ⟨hi'.1, .index hv.accepts hl (.inl hi'.2), hi'.2⟩
      | tooManyEntries n m =>
        have hroom : ¬ trustedCount t + (suffixOf t _).length ≤ recordsPerFile := hi'.1
        rw [hlength] at hroom
        exact ⟨hroom, .index hv.accepts hl (.inl hi'.2), hi'.2⟩
    · exact ⟨hi'.1, .index hv.accepts hl hi'.2, trivial⟩
    · exact hi'.elim
  rw [hsuffix] at hi
  have hend := hv.validatedEnd
  cases he : v.validatedEnd with
  | none => exact handOff_triple hs hv.accepts hl hi (by rw [← hend, he]; rfl)
  | some e =>
    by_cases hfull : LogFileId.recordCountThrough e.recordId = recordsPerFile
    · simp only [if_pos hfull]
      refine .pure fun tree h => ⟨l, i, ⟨hv.accepts, hl, hi, ?_, by simp [Positioned]⟩, h⟩
      rw [← hend, he, outcome, if_pos hfull]
    · simp only [if_neg hfull]
      exact handOff_triple hs hv.accepts hl hi (by rw [← hend, he, outcome, if_neg hfull])

/-- A log that is missing. -/
theorem validate_missing (hs : f.streamId = s) (hlog : d (.log f) = none) :
    Triple c (On p s d) (validate p f t) (fun _ _ => False) (fun e tree => On p s d tree ∧
      e ≠ .panicked ∧ (e = .error (.storage (.io (p.logFilePath f) .notFound)) ∨
        ¬ c.calm ∧ e ≠ .error (.storage (.io (p.logFilePath f) .notFound)))) := by
  refine .bind (R := fun _ _ => False) (.mapErr
    ((StorageProvider.openLogForValidation_missing hs hlog).exits ?_)) fun _ => fun _ h => h.elim
  rintro (e | _ | _) tree ⟨h, hp, he⟩
  · refine ⟨h, by simp, he.imp (fun h => by rw [Exit.error.inj h]) fun h => ⟨h.1, fun hn => ?_⟩⟩
    exact h.2 (by rw [IndexedLogValidationError.storage.inj (Exit.error.inj hn)])
  · refine ⟨h, by simp, he.imp (fun h => by cases h) fun h => ⟨h.1, by simp⟩⟩
  · exact absurd rfl hp

end IndexedLogValidator

end TransactionLog
