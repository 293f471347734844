import TransactionLog.Streams.IndexedLogWriter
import TransactionLog.Streams.LogFileValidator

/-!
# Recovering an index file

The validator compares the entry of a trusted record, if there is one, cuts the
index after it and writes the entries that the scan of the log has found.
`validate_triple` says what that leaves, and that an index is changed only after
its trusted entry, and only when that entry is the right one.
-/

namespace TransactionLog

open Lib

inductive IndexFileValidationError where
  | io (e : ErrorKind)
  | trustedIndexMismatch (entryIndex : Nat) (expectedPosition : LogFilePosition)
      (actualPosition : Option LogFilePosition)
  | tooManyEntries (count maximum : Nat)
  | write (e : IndexWriteError)
  deriving DecidableEq, Repr

namespace IndexFileValidator

open LogFileValidator (trustedCount Untouched)

/-- Reads one entry; there is none where the file ends before it does. -/
def readIndexAt (entryIndex : Nat) : Io File ErrorKind (Option LogFilePosition) := do
  let entryStart := entryIndex * indexEntryLen
  let length ← File.length
  if length < entryStart + indexEntryLen then pure none
  else do
    File.seek entryStart
    let bytes ← File.source.readExact indexEntryLen
    pure (some (.ofNat (ofLe bytes)))

/-- Checks the entry of the trusted endpoint. -/
def checkTrusted (lastTrusted : Option RecordEndLocation) :
    Io File IndexFileValidationError Unit :=
  match lastTrusted with
  | none => pure ()
  | some e => do
    let entryIndex := trustedCount lastTrusted - 1
    let actual ← Io.mapErr .io (readIndexAt entryIndex)
    if actual ≠ some e.position then
      Io.throw (.trustedIndexMismatch entryIndex e.position actual)
    else pure ()

def writeEntries : List LogFilePosition → Io (IndexWriter × File) IndexWriteError Unit
  | [] => pure ()
  | e :: es => do
    let s ← Io.get
    let writer ← Io.ofExcept (s.1.write e)
    Io.modify fun s => (writer, s.2)
    writeEntries es

/-- Appends the entries through an index writer of their own. -/
def writeSuffix (suffixEnds : List LogFilePosition) : Io (IndexWriter × File) IndexWriteError Unit := do
  writeEntries suffixEnds
  IndexWriter.flushBuffer File.dest
  IndexWriter.flush File.dest

/-- Replaces the entries after the trusted one and synchronizes the index. -/
def validate (lastTrusted : Option RecordEndLocation) (suffixEnds : List LogFilePosition) :
    Io File IndexFileValidationError Unit := do
  let entryCount := trustedCount lastTrusted + suffixEnds.length
  if entryCount > recordsPerFile then Io.throw (.tooManyEntries entryCount recordsPerFile)
  else do
    checkTrusted lastTrusted
    let suffixStart := trustedCount lastTrusted * indexEntryLen
    Io.mapErr .io (File.setLen suffixStart)
    Io.mapErr .io (File.seek suffixStart)
    let _ ← Io.mapErr .write (Io.withLocal IndexWriter.new (writeSuffix suffixEnds))
    Io.mapErr .io File.syncData

/-! ### What becomes of the index -/

/-- The entries of some positions. -/
def entriesOf (suffixEnds : List LogFilePosition) : List UInt8 :=
  suffixEnds.flatMap fun p => toLe indexEntryLen p.get

/-- The index has the entry of the trusted endpoint. -/
def Trusts (t : Option RecordEndLocation) (content : List UInt8) : Prop :=
  ∀ e ∈ t, 8 * trustedCount t ≤ content.length ∧
    entryAt content (trustedCount t - 1) = e.position.get

instance (t : Option RecordEndLocation) (content : List UInt8) : Decidable (Trusts t content) :=
  inferInstanceAs (Decidable (∀ e ∈ t, _))

/-- The entries that a validation does not touch. -/
def trustedEntries (t : Option RecordEndLocation) (content : List UInt8) : List UInt8 :=
  content.take (8 * trustedCount t)

/-- The index after its validation. -/
structure Rebuilt (t : Option RecordEndLocation) (suffixEnds : List LogFilePosition)
    (i₀ s : File) : Prop where
  room : trustedCount t + suffixEnds.length ≤ recordsPerFile
  trusts : Trusts t i₀.content
  content : s.content = trustedEntries t i₀.content ++ entriesOf suffixEnds
  accepted : s.accepted = s.content
  synced : s.synced = s.content.length

theorem Rebuilt.seekTo {t : Option RecordEndLocation} {suffixEnds : List LogFilePosition}
    {i₀ s : File} (h : Rebuilt t suffixEnds i₀ s) (k : Nat) : Rebuilt t suffixEnds i₀ (s.seekTo k) :=
  ⟨h.room, h.trusts, h.content, h.accepted, h.synced⟩

/-- The index after some of the entries, `bs` in bytes, were written. -/
structure Partly (t : Option RecordEndLocation) (suffixEnds : List LogFilePosition) (i₀ : File)
    (bs : List UInt8) (s : File) : Prop where
  sent : bs <+: entriesOf suffixEnds
  trusts : Trusts t i₀.content
  content : s.content = trustedEntries t i₀.content ++ bs
  synced : s.synced = min i₀.synced (8 * trustedCount t)

/-- A validation that ended early has changed nothing or only what follows the
trusted entries. -/
def Rebuilding (t : Option RecordEndLocation) (suffixEnds : List LogFilePosition) (i₀ s : File) :
    Prop :=
  Untouched i₀ s ∨ ∃ bs, Partly t suffixEnds i₀ bs s

/-- Where the validation ends early. -/
def ValidateExit (c : Mode) (t : Option RecordEndLocation) (suffixEnds : List LogFilePosition)
    (i₀ : File) (e : Exit IndexFileValidationError) (s : File) : Prop :=
  match e with
  | .error (.tooManyEntries _ _) =>
    ¬ trustedCount t + suffixEnds.length ≤ recordsPerFile ∧ Untouched i₀ s
  | .error (.trustedIndexMismatch _ _ _) => ¬ Trusts t i₀.content ∧ Untouched i₀ s
  | .panicked => False
  | .error (.io _) | .error (.write _) | .stopped => ¬ c.calm ∧ Rebuilding t suffixEnds i₀ s

variable {c : Mode} {t : Option RecordEndLocation} {suffixEnds : List LogFilePosition} {i₀ : File}

theorem length_trustedEntries {content : List UInt8} (h : Trusts t content) :
    8 * trustedCount t ≤ content.length := by
  cases t with
  | none => exact Nat.zero_le _
  | some e => exact (h e rfl).1

/-- A file operation of the validator fails with a fault only. -/
theorem io_triple {α : Type} {m : Io File ErrorKind α} {P X : File → Prop} {Q : α → File → Prop}
    (h : Triple c P m Q (Faulted c X)) (hX : ∀ s, X s → Rebuilding t suffixEnds i₀ s) :
    Triple c P (Io.mapErr IndexFileValidationError.io m) Q (ValidateExit c t suffixEnds i₀) := by
  refine .mapErr (h.exits ?_)
  rintro (e | _ | _) s ⟨hc, hp, hs⟩
  · exact ⟨hc, hX s hs⟩
  · exact ⟨hc, hX s hs⟩
  · exact absurd rfl hp

theorem readIndexAt_triple (n : Nat) :
    Triple c (Untouched i₀) (readIndexAt n)
      (fun r s => (r = if i₀.content.length < n * indexEntryLen + indexEntryLen then none
          else some (.ofNat (entryAt i₀.content n))) ∧ Untouched i₀ s)
      (Faulted c (Untouched i₀)) := by
  rw [readIndexAt]
  refine .bind (R := fun len s => len = i₀.content.length ∧ Untouched i₀ s) (.effect ?_) fun len =>
    .assume fun hlen => ?_
  · rintro s ⟨k, rfl⟩
    exact ⟨rfl, k, rfl⟩
  subst len
  by_cases hshort : i₀.content.length < n * indexEntryLen + indexEntryLen
  · simp only [if_pos hshort]
    exact .pure fun s hs => ⟨rfl, hs⟩
  · simp only [if_neg hshort]
    refine .bind (R := fun _ s => s = i₀.seekTo (n * indexEntryLen)) (.effect ?_) fun _ => ?_
    · rintro s ⟨k, rfl⟩
      rfl
    refine .bind ((File.readExact_triple (f := i₀.seekTo (n * indexEntryLen)) ?_).exits ?_)
      fun bytes => .pure ?_
    · show indexEntryLen ≤ (i₀.content.drop (n * indexEntryLen)).length
      rw [List.length_drop]
      omega
    · rintro e s ⟨hc, hp, k, rfl⟩
      exact ⟨hc, hp, k, rfl⟩
    · rintro s ⟨hbytes, k, rfl⟩
      refine ⟨?_, k, rfl⟩
      rw [hbytes, entryAt, Nat.mul_comm indexEntryLen n]
      rfl

theorem entryAt_lt (content : List UInt8) (n : Nat) : entryAt content n < 2 ^ 64 := by
  have h := ofLe_lt ((content.drop (indexEntryLen * n)).take indexEntryLen)
  have hlen : ((content.drop (indexEntryLen * n)).take indexEntryLen).length ≤ 8 :=
    List.length_take_le _ _
  exact Nat.lt_of_lt_of_le h (Nat.pow_le_pow_right (by decide) hlen)

theorem checkTrusted_triple :
    Triple c (Untouched i₀) (checkTrusted t)
      (fun _ s => Trusts t i₀.content ∧ Untouched i₀ s) (ValidateExit c t suffixEnds i₀) := by
  cases t with
  | none => exact .pure fun s hs => ⟨by simp [Trusts], hs⟩
  | some e =>
    refine .bind (io_triple (readIndexAt_triple _) fun s hs => .inl hs) fun actual =>
      .assume fun hactual => ?_
    have hcount : 0 < trustedCount (some e) := LogFileId.recordCountThrough_pos _
    have hsum : (trustedCount (some e) - 1) * indexEntryLen + indexEntryLen =
        8 * trustedCount (some e) := by
      rw [indexEntryLen_eq]
      omega
    rw [hsum] at hactual
    by_cases heq : actual ≠ some e.position
    · rw [if_pos heq]
      refine .throw fun s hs => ⟨fun htrusts => heq ?_, hs⟩
      obtain ⟨hlen, hentry⟩ := htrusts e rfl
      rw [hactual, if_neg (by omega), hentry]
      exact congrArg some (LogFilePosition.ext' (LogFilePosition.get_ofNat e.position.lt))
    · rw [if_neg heq]
      refine .pure fun s hs => ⟨?_, hs⟩
      rintro e' he'
      obtain rfl := Option.some.inj he'
      have heq := not_not.mp heq
      rw [hactual] at heq
      by_cases hlen : i₀.content.length < 8 * trustedCount (some e)
      · rw [if_pos hlen] at heq
        cases heq
      · rw [if_neg hlen] at heq
        refine ⟨by omega, ?_⟩
        rw [← Option.some.inj heq, LogFilePosition.get_ofNat (entryAt_lt _ _)]

/-- The cursor stands after the entries that were written. -/
def Writing (t : Option RecordEndLocation) (suffixEnds : List LogFilePosition) (i₀ : File)
    (bs : List UInt8) (s : File) : Prop :=
  Partly t suffixEnds i₀ bs s ∧ s.cursor = s.content.length

theorem writeEntries_triple {P : File → Prop} : ∀ (es : List LogFilePosition) (b : List UInt8),
    Triple c (fun s => s.1 = ⟨b, true⟩ ∧ P s.2) (writeEntries es)
      (fun _ s => s.1 = ⟨b ++ entriesOf es, true⟩ ∧ P s.2) (fun _ _ => False) := by
  intro es
  induction es with
  | nil =>
    intro b
    refine .pure fun s h => ?_
    rw [entriesOf, List.flatMap_nil, List.append_nil]
    exact h
  | cons e es ih =>
    intro b
    refine .ofState fun s ⟨hs, hP⟩ => .getBind ?_
    have hwrite : s.1.write e = .ok ⟨b ++ toLe 8 e.get, true⟩ := by
      rw [hs]
      exact Output.append_usable rfl _
    rw [hwrite, Io.ofExcept_bind]
    refine .bind (R := fun _ s' => s'.1 = ⟨b ++ toLe 8 e.get, true⟩ ∧ P s'.2) (.modify ?_) fun _ => ?_
    · rintro _ rfl
      exact ⟨rfl, hP⟩
    · have := ih (b ++ toLe 8 e.get)
      rwa [List.append_assoc] at this

theorem writeSuffix_triple :
    Triple c (fun s => s.1 = Output.new ∧ Writing t suffixEnds i₀ [] s.2) (writeSuffix suffixEnds)
      (fun _ s => Writing t suffixEnds i₀ (entriesOf suffixEnds) s.2)
      (Faulted c fun s => ∃ bs, Partly t suffixEnds i₀ bs s.2) := by
  refine .bind ((writeEntries_triple (P := Writing t suffixEnds i₀ []) suffixEnds []).exits
    fun _ _ h => h.elim) fun _ => ?_
  -- every accepted write moves bytes from the batch to the index
  refine .bind (R := fun _ s => s.1 = ⟨[], true⟩ ∧
    Writing t suffixEnds i₀ (entriesOf suffixEnds) s.2) ?_ fun _ => ?_
  · refine (Output.flushBuffer_triple (b := entriesOf suffixEnds) (d := File.dest)
      (fun rest s => ∃ bs, bs ++ rest = entriesOf suffixEnds ∧ Writing t suffixEnds i₀ bs s)
      ?_).conseq ?_ ?_ ?_
    · rintro rest n s - ⟨bs, hbs, ⟨hsent, htrusts, hcontent, hsynced⟩, hcursor⟩
      obtain ⟨h1, h2, h3⟩ := File.written_end (b := rest.take n) hcursor
      have hbs' : bs ++ rest.take n ++ rest.drop n = entriesOf suffixEnds := by
        rw [List.append_assoc, List.take_append_drop, hbs]
      refine ⟨bs ++ rest.take n, hbs', ⟨⟨_, hbs'⟩, htrusts, ?_, h2.trans hsynced⟩, h3.trans ?_⟩
      · rw [← List.append_assoc, ← hcontent]
        exact h1
      · exact congrArg List.length h1.symm
    · exact fun s ⟨hs, hw⟩ => ⟨hs, [], rfl, hw⟩
    · rintro _ s ⟨hs, bs, hbs, hw⟩
      rw [List.append_nil] at hbs
      subst hbs
      exact ⟨hs, hw⟩
    · rintro e s ⟨hc, hp, -, rest, bs, hbs, hw⟩
      exact ⟨hc, hp, bs, hw.1⟩
  · refine (Output.flush_triple (b := []) (d := File.dest)
      (P := Writing t suffixEnds i₀ (entriesOf suffixEnds))
      (Q := fun _ => Writing t suffixEnds i₀ (entriesOf suffixEnds)) fun s hs => hs).conseq
      (fun _ h => h) (fun _ _ h => h.2) ?_
    rintro e s ⟨hc, hp, -, hw⟩
    exact ⟨hc, hp, _, hw.1⟩

/-- **Validating an index** leaves the trusted entries and the given ones. -/
theorem validate_triple (t : Option RecordEndLocation) (suffixEnds : List LogFilePosition)
    (i₀ : File) :
    Triple c (fun s => s = i₀) (validate t suffixEnds)
      (fun _ s => Rebuilt t suffixEnds i₀ s) (ValidateExit c t suffixEnds i₀) := by
  have hself : Untouched i₀ i₀ := ⟨_, (File.seekTo_self i₀).symm⟩
  rw [validate]
  simp only
  by_cases hroom : trustedCount t + suffixEnds.length > recordsPerFile
  · rw [if_pos hroom]
    refine .throw ?_
    rintro _ rfl
    exact ⟨Nat.not_le.mpr hroom, hself⟩
  rw [if_neg hroom]
  refine .bind (checkTrusted_triple.pre ?_) fun _ => .assume fun htrusts => ?_
  · rintro _ rfl
    exact hself
  have hlen := length_trustedEntries htrusts
  rw [indexEntryLen_eq, Nat.mul_comm]
  refine .bind (R := fun _ s => Partly t suffixEnds i₀ [] s)
    (io_triple (X := Untouched i₀) (.effect ?_) fun s hs => .inl hs) fun _ => ?_
  · rintro s ⟨k, rfl⟩
    refine ⟨List.nil_prefix, htrusts, ?_, ?_⟩
    · rw [List.append_nil]
      exact File.resized_content hlen
    · rfl
  refine .bind (R := fun _ s => Writing t suffixEnds i₀ [] s)
    (io_triple (X := Partly t suffixEnds i₀ []) (.effect ?_) fun s hs => .inr ⟨[], hs⟩) fun _ => ?_
  · rintro s ⟨h1, h2, h3, h4⟩
    refine ⟨⟨h1, h2, h3, h4⟩, ?_⟩
    show 8 * trustedCount t = s.content.length
    rw [h3, List.append_nil, trustedEntries, List.length_take, Nat.min_eq_left hlen]
  refine .bind (R := fun _ s => Writing t suffixEnds i₀ (entriesOf suffixEnds) s)
    (.mapErr ((Triple.withLocal
      (X := Faulted c fun s => ∃ bs, Partly t suffixEnds i₀ bs s) writeSuffix_triple).exits ?_))
    fun _ => ?_
  · rintro (e | _ | _) s ⟨hc, hp, hs⟩
    · exact ⟨hc, .inr hs⟩
    · exact ⟨hc, .inr hs⟩
    · exact absurd rfl hp
  refine io_triple (X := Writing t suffixEnds i₀ (entriesOf suffixEnds)) (.effect ?_)
    fun s hs => .inr ⟨_, hs.1⟩
  rintro s ⟨⟨-, -, hcontent, -⟩, -⟩
  exact ⟨Nat.le_of_not_lt hroom, htrusts, hcontent, rfl, rfl⟩

/-! ### Repeated validations -/

theorem Trusts.of_front {content content' : List UInt8} (h : Trusts t content)
    (hfront : trustedEntries t content <+: content') :
    Trusts t content' ∧ trustedEntries t content' = trustedEntries t content := by
  have hlen := length_trustedEntries h
  have hlength : (trustedEntries t content).length = 8 * trustedCount t := by
    rw [trustedEntries, List.length_take, Nat.min_eq_left hlen]
  have hsame : trustedEntries t content' = trustedEntries t content := by
    conv_rhs => rw [List.prefix_iff_eq_take.mp hfront, hlength]
    rfl
  refine ⟨fun e he => ?_, hsame⟩
  obtain rfl := he
  have hcount : 0 < trustedCount (some e) := LogFileId.recordCountThrough_pos _
  have hentry : ∀ content, entryAt (trustedEntries (some e) content) (trustedCount (some e) - 1) =
      entryAt content (trustedCount (some e) - 1) := by
    intro content
    rw [entryAt, entryAt, trustedEntries, List.drop_take, List.take_take, indexEntryLen_eq,
      Nat.min_eq_left (by omega)]
  refine ⟨?_, ?_⟩
  · have hle := hfront.length_le
    omega
  · rw [← hentry, hsame, hentry]
    exact (h e rfl).2

/-- The calls of a validation before its first write. -/
def prepare (lastTrusted : Option RecordEndLocation) : Io File IndexFileValidationError Unit := do
  checkTrusted lastTrusted
  Io.mapErr .io (File.setLen (trustedCount lastTrusted * indexEntryLen))
  Io.mapErr .io (File.seek (trustedCount lastTrusted * indexEntryLen))

/-- The index after some validations, each completed or not. -/
def attempts (lastTrusted : Option RecordEndLocation) (suffixEnds : List LogFilePosition)
    (index : File) : List Plan → File
  | [] => index
  | plan :: plans =>
    attempts lastTrusted suffixEnds ((validate lastTrusted suffixEnds).run index plan).2.sys plans

theorem validate_eq (hroom : trustedCount t + suffixEnds.length ≤ recordsPerFile) :
    validate t suffixEnds = prepare t >>= fun _ =>
      Io.mapErr .write (Io.withLocal IndexWriter.new (writeSuffix suffixEnds)) >>= fun _ =>
        Io.mapErr .io File.syncData := by
  rw [validate]
  simp only
  rw [if_neg (Nat.not_lt.mpr hroom), prepare, Io.bind_assoc]
  simp only [Io.bind_assoc]

/-- However a validation ends, the trusted entries stay. -/
theorem run_keeps (plan : Plan) :
    trustedEntries t i₀.content <+: ((validate t suffixEnds).run i₀ plan).2.sys.content := by
  have huntouched : ∀ s, Untouched i₀ s → trustedEntries t i₀.content <+: s.content := by
    rintro s ⟨k, rfl⟩
    exact List.take_prefix _ _
  have hrebuilding : ∀ s, Rebuilding t suffixEnds i₀ s → trustedEntries t i₀.content <+: s.content := by
    intro s h
    rcases h with h | ⟨bs, h⟩
    · exact huntouched s h
    · rw [h.content]
      exact List.prefix_append _ _
  have hresult := (validate_triple (c := ⟨False, fun _ => True⟩) t suffixEnds i₀ ⟨i₀, plan⟩ rfl
    plan.within_any).2
  rw [Io.run]
  rcases hrun : validate t suffixEnds ⟨i₀, plan⟩ with ⟨e | a, w⟩
  · rw [hrun] at hresult
    cases e with
    | error e =>
      cases e with
      | io e => exact hrebuilding _ hresult.2
      | write e => exact hrebuilding _ hresult.2
      | trustedIndexMismatch n p q => exact huntouched _ hresult.2
      | tooManyEntries n m => exact huntouched _ hresult.2
    | stopped => exact hrebuilding _ hresult.2
    | panicked => exact hresult.elim
  · rw [hrun] at hresult
    have hrebuilt : Rebuilt t suffixEnds i₀ w.sys := hresult
    show _ <+: w.sys.content
    rw [hrebuilt.content]
    exact List.prefix_append _ _

theorem attempts_keep (plans : List Plan) : ∀ {i₀ : File}, Trusts t i₀.content →
    trustedEntries t i₀.content <+: (attempts t suffixEnds i₀ plans).content := by
  induction plans with
  | nil => exact fun _ => List.take_prefix _ _
  | cons plan plans ih =>
    intro i₀ htrusts
    have hkept : trustedEntries t i₀.content <+:
      ((validate t suffixEnds).run i₀ plan).2.sys.content := run_keeps plan
    obtain ⟨htrusts', hsame⟩ := htrusts.of_front hkept
    rw [← hsame]
    exact ih htrusts'

/-- Without faults a validation of an index with its trusted entry completes. -/
theorem validate_completes (hroom : trustedCount t + suffixEnds.length ≤ recordsPerFile)
    (htrusts : Trusts t i₀.content) {plan : Plan} (hplan : plan.Smooth) :
    ∃ w, (validate t suffixEnds).run i₀ plan = (.ok (), w) := by
  have hresult := (validate_triple (c := ⟨True, fun _ => True⟩) t suffixEnds i₀ ⟨i₀, plan⟩ rfl
    hplan).2
  rw [Io.run]
  rcases hrun : validate t suffixEnds ⟨i₀, plan⟩ with ⟨e | a, w⟩
  · rw [hrun] at hresult
    cases e with
    | error e =>
      cases e with
      | io e => exact absurd trivial hresult.1
      | write e => exact absurd trivial hresult.1
      | trustedIndexMismatch n p q => exact absurd htrusts hresult.1
      | tooManyEntries n m => exact absurd hroom hresult.1
    | stopped => exact absurd trivial hresult.1
    | panicked => exact hresult.elim
  · exact ⟨w, rfl⟩

theorem writeEntries_apply (i : File) (plan : Plan) : ∀ (es : List LogFilePosition) (b : List UInt8),
    writeEntries es ⟨(⟨b, true⟩, i), plan⟩ = (.ok (), ⟨(⟨b ++ entriesOf es, true⟩, i), plan⟩) := by
  intro es
  induction es with
  | nil =>
    intro b
    rw [entriesOf, List.flatMap_nil, List.append_nil]
    rfl
  | cons e es ih =>
    intro b
    have hwrite : IndexWriter.write ⟨b, true⟩ e = .ok ⟨b ++ toLe 8 e.get, true⟩ :=
      Output.append_usable rfl _
    rw [writeEntries, Io.bind_ok (show Io.get _ = _ from rfl), hwrite, Io.ofExcept_bind,
      Io.bind_ok (show Io.modify _ _ = _ from rfl), ih, List.append_assoc]
    rfl

theorem length_entriesOf (es : List LogFilePosition) : (entriesOf es).length = 8 * es.length := by
  induction es with
  | nil => rfl
  | cons e es ih =>
    rw [entriesOf, List.flatMap_cons, List.length_append, length_toLe, ← entriesOf, ih,
      List.length_cons, indexEntryLen_eq]
    omega

/-- Neither short nor interrupted writes keep a validation from completing. -/
theorem validate_completes_sending (hroom : trustedCount t + suffixEnds.length ≤ recordsPerFile)
    {plan rest : Plan} {answers : List Answer} {i : File}
    (hprepare : (prepare t).run i₀ plan = (.ok (), ⟨i, rest.after answers⟩))
    (hanswers : Answer.Send answers (8 * suffixEnds.length)) (hrest : rest.Smooth) :
    ∃ w, (validate t suffixEnds).run i₀ plan = (.ok (), w) := by
  rw [← length_entriesOf] at hanswers
  obtain ⟨i', hsend⟩ : ∃ i', Output.flushBuffer File.dest
      ⟨(⟨entriesOf suffixEnds, true⟩, i), rest.after answers⟩ = (.ok (), ⟨(⟨[], true⟩, i'), rest⟩) :=
    Output.flushBuffer_sends hanswers i
  -- the calls after the writes meet no fault
  have hflush := (Output.flush_triple (c := ⟨True, fun _ => True⟩) (b := []) (d := File.dest)
    (P := fun _ => True) (Q := fun _ _ => True) fun _ h => h) ⟨(⟨[], true⟩, i'), rest⟩ ⟨rfl, trivial⟩
      hrest
  rcases hw : Output.flush File.dest ⟨(⟨[], true⟩, i'), rest⟩ with ⟨e | a, w⟩
  · rw [hw] at hflush
    exact absurd trivial hflush.2.1
  rw [hw] at hflush
  have hwrite : writeSuffix suffixEnds ⟨(IndexWriter.new, i), rest.after answers⟩ = (.ok (), w) := by
    have hentries := writeEntries_apply i (rest.after answers) suffixEnds []
    rw [List.nil_append] at hentries
    exact (Io.bind_ok hentries).trans ((Io.bind_ok hsend).trans hw)
  have hlocal : Io.withLocal IndexWriter.new (writeSuffix suffixEnds) ⟨i, rest.after answers⟩ =
      (.ok ((), w.sys.1), ⟨w.sys.2, w.plan⟩) := by
    simp only [Io.withLocal, hwrite]
    rfl
  have hsync := (Triple.effect (c := ⟨True, fun _ => True⟩) (P := fun _ => True)
    (Q := fun _ _ => True) (r := fun _ : File => ()) (g := File.synchronized) fun _ h => h)
      ⟨w.sys.2, w.plan⟩ trivial hflush.1
  rcases hs : File.syncData ⟨w.sys.2, w.plan⟩ with ⟨e | a, w'⟩
  · rw [show File.syncData = Io.call fun f => .ok ((), f.synchronized) from rfl] at hs
    rw [hs] at hsync
    exact absurd trivial hsync.2.1
  refine ⟨w', ?_⟩
  rw [validate_eq hroom, Io.run, Io.bind_ok hprepare, Io.bind_ok (Io.mapErr_ok hlocal)]
  exact Io.mapErr_ok hs

/-- **The suffix is replaced, whatever came before.**  After any validations of the
index, completed or not, its trusted entries are there; a validation that completes
leaves these and the given entries; and one completes unless it meets a fault other
than short and interrupted writes. -/
theorem validate_replaces_suffix (hroom : trustedCount t + suffixEnds.length ≤ recordsPerFile)
    (htrusts : Trusts t i₀.content) (plans : List Plan) :
    let i := attempts t suffixEnds i₀ plans
    i₀.content.take (8 * trustedCount t) <+: i.content ∧
      (∀ plan w, (validate t suffixEnds).run i plan = (.ok (), w) →
        w.sys.content = i₀.content.take (8 * trustedCount t) ++
          suffixEnds.flatMap fun p => toLe 8 p.get) ∧
      (∀ plan : Plan, plan.Smooth → ∃ w, (validate t suffixEnds).run i plan = (.ok (), w)) ∧
      ∀ (plan rest : Plan) (answers : List Answer) (i' : File),
        (prepare t).run i plan = (.ok (), ⟨i', rest.after answers⟩) →
        Answer.Send answers (8 * suffixEnds.length) → rest.Smooth →
        ∃ w, (validate t suffixEnds).run i plan = (.ok (), w) := by
  intro i
  have hkept : trustedEntries t i₀.content <+: i.content := attempts_keep plans htrusts
  obtain ⟨htrusts', hsame⟩ := htrusts.of_front hkept
  refine ⟨hkept, fun plan w hrun => ?_, fun plan hplan => validate_completes hroom htrusts' hplan,
    fun plan rest answers i' => validate_completes_sending hroom⟩
  have hresult := (validate_triple (c := ⟨False, fun _ => True⟩) t suffixEnds i ⟨i, plan⟩ rfl
    plan.within_any).2
  rw [Io.run] at hrun
  rw [hrun] at hresult
  have hrebuilt : Rebuilt t suffixEnds i w.sys := hresult
  rw [hrebuilt.content, hsame]
  rfl

theorem validate_replaces_suffix_interrupted :
    let t : Option RecordEndLocation := some ⟨⟨⟨0, by decide⟩, ⟨0, by decide⟩⟩, ⟨16, by decide⟩⟩
    let suffixEnds : List LogFilePosition := [⟨35, by decide⟩, ⟨52, by decide⟩]
    let i := attempts t suffixEnds (.durable (toLe 8 16 ++ toLe 8 99 ++ [1, 2]))
      [.next .all (.next .all (.next .all (.next .all (.next .all (.next (.upTo 5 0) .stop)))))]
    let answers : List Answer :=
      [.fault .interrupted, .upTo 3 0, .fault .interrupted, .fault .interrupted, .all]
    i.content = toLe 8 16 ++ (toLe 8 35).take 5 ∧
      ∃ w, (validate t suffixEnds).run i (.after (.after .calm answers) (.replicate 5 .all)) =
        (.ok (), w) ∧ w.sys.content = toLe 8 16 ++ (toLe 8 35 ++ toLe 8 52) := by
  intro t suffixEnds i answers
  have htrusts : Trusts t (File.durable (toLe 8 16 ++ toLe 8 99 ++ [1, 2])).content := by decide
  have hroom : trustedCount t + suffixEnds.length ≤ recordsPerFile := by decide
  obtain ⟨-, hcontent, -, hcompletes⟩ := validate_replaces_suffix hroom htrusts
    [.next .all (.next .all (.next .all (.next .all (.next .all (.next (.upTo 5 0) .stop)))))]
  have hsend : Answer.Send answers (8 * suffixEnds.length) :=
    ⟨by decide, by decide, by decide, by decide, by decide, rfl⟩
  have hok : ((prepare t).run i (.after (.after .calm answers) (.replicate 5 .all))).1 = .ok () := by
    decide +kernel
  have hplan : ((prepare t).run i (.after (.after .calm answers) (.replicate 5 .all))).2.plan =
      .after .calm answers := by decide +kernel
  have hprepare := Io.run_eq hok hplan
  obtain ⟨w, hrun⟩ := hcompletes (.after (.after .calm answers) (.replicate 5 .all)) .calm answers
    _ hprepare hsend trivial
  have hfinal : (File.durable (toLe 8 16 ++ toLe 8 99 ++ [1, 2])).content.take (8 * trustedCount t) ++
      (suffixEnds.flatMap fun p => toLe 8 p.get) = toLe 8 16 ++ (toLe 8 35 ++ toLe 8 52) := by
    decide +kernel
  exact ⟨by decide +kernel, w, hrun, (hcontent _ w hrun).trans hfinal⟩

end IndexFileValidator

end TransactionLog
