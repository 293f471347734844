import TransactionLog.Streams.RecoveryFixpoint

/-!
# The run that an initialization recovers

`RunFrom` says without the program which records continue a stream after a trusted
endpoint: whole frames with the next IDs in a log, and on into the next file only
from a full one.  An initialization recovers the longest such run.
-/

namespace TransactionLog

open Lib

namespace StreamInitializer

open IndexedLogValidator (openedIndex Mended Certified certified_none Exactly outcome)
open LogFileValidator (trustedCount startPosition found endAfter Continues Longest longest_scanned)

variable [Crc32c] {p : StorageProvider} {s : StreamId} {t r : Option RecordEndLocation}
  {d d' : Disk} {f g : LogFileId} {cp : Option StreamCheckpoint} {i : InitializedStream}

/-- Records that continue a stream in the given file. -/
inductive RunFrom (t : Option RecordEndLocation) (d : Disk) : LogFileId → List Record → Prop
  | nil {f : LogFileId} : RunFrom t d f []
  | within {f : LogFileId} {L : Stored} {rs : List Record} (log : d (.log f) = some L)
      (continues : Continues f (trustedAt t f)
        (L.file.content.drop (startPosition (trustedAt t f)).get) rs) : RunFrom t d f rs
  | across {f f' : LogFileId} {L : Stored} {rs later : List Record} (log : d (.log f) = some L)
      (continues : Continues f (trustedAt t f)
        (L.file.content.drop (startPosition (trustedAt t f)).get) rs)
      (full : trustedCount (trustedAt t f) + rs.length = recordsPerFile)
      (next : f.next = some f') (run : RunFrom t d f' later) : RunFrom t d f (rs ++ later)

/-- The records after the trusted ones of one file. -/
def foundIn (t : Option RecordEndLocation) (d : Disk) (f : LogFileId) : List Record :=
  (d (.log f)).elim [] fun L => found f (trustedAt t f) L.file.content

/-- Those of a file and the next `n` ones. -/
def foundFrom (t : Option RecordEndLocation) (d : Disk) (f : LogFileId) (n : Nat) : List Record :=
  (LogFileId.successors n f).flatMap (foundIn t d)

omit [Crc32c] in
theorem trustedAt_file : ∀ e ∈ trustedAt t f, e.logFileId = f := by
  intro e he
  rw [trustedAt, Option.mem_def, Option.filter_eq_some_iff] at he
  simpa using he.2

theorem longest_foundIn {L : Stored} (hL : d (.log f) = some L) :
    Longest f (trustedAt t f) (L.file.content.drop (startPosition (trustedAt t f)).get)
      (foundIn t d f) := by
  rw [foundIn, hL]
  exact longest_scanned trustedAt_file

theorem FullAt.length_foundIn (h : FullAt t d f) :
    trustedCount (trustedAt t f) + (foundIn t d f).length = recordsPerFile := by
  obtain ⟨L, hL, hfull⟩ := h
  rw [foundIn, hL]
  exact hfull

/-- **The records found up to the first file that is not full** are the longest run. -/
theorem longest_run : ∀ (n : Nat) {f : LogFileId},
    (∀ g : LogFileId, g.streamId = f.streamId → f.fileNumber.get ≤ g.fileNumber.get →
      g.fileNumber.get < f.fileNumber.get + n → FullAt t d g) →
    (∀ g : LogFileId, g.streamId = f.streamId → g.fileNumber.get = f.fileNumber.get + n →
      ¬ FullAt t d g) →
    f.fileNumber.get + n ≤ 184467440737095 →
    RunFrom t d f (foundFrom t d f n) ∧ ∀ rs, RunFrom t d f rs → rs <+: foundFrom t d f n := by
  intro n
  induction n with
  | zero =>
    intro f _ hstop _
    have heq : foundFrom t d f 0 = foundIn t d f := by
      rw [foundFrom, LogFileId.successors, List.flatMap_singleton]
    rw [heq]
    refine ⟨?_, fun rs hrs => ?_⟩
    · cases hL : d (.log f) with
      | none =>
        rw [foundIn, hL]
        exact .nil
      | some L => exact .within hL (longest_foundIn hL).toContinues
    · cases hrs with
      | nil => exact List.nil_prefix
      | within log continues => exact (longest_foundIn log).longest _ continues
      | @across _ f' L xs ys log continues full next run =>
        -- a run can only leave a full file
        have hle := ((longest_foundIn (t := t) log).longest _ continues).length_le
        have hmax := (longest_foundIn (t := t) log).length_le
        refine absurd ⟨L, log, ?_⟩ (hstop f rfl rfl)
        rw [foundIn, log] at hle hmax
        exact Nat.le_antisymm hmax (by
          have : (found f (trustedAt t f) L.file.content).length ≥ xs.length := hle
          show recordsPerFile ≤ _
          omega)
  | succ n ih =>
    intro f hfull hstop hle
    obtain ⟨f', hf'⟩ := LogFileId.exists_next
      (LogFileId.not_terminal_iff.mpr (show f.fileNumber.get < _ by omega))
    obtain ⟨hs, hn⟩ := LogFileId.next_eq_some.mp hf'
    have hcount := (hfull f rfl (Nat.le_refl _) (by omega)).length_foundIn
    obtain ⟨L, hL, -⟩ := hfull f rfl (Nat.le_refl _) (by omega)
    have hlongest := longest_foundIn (t := t) hL
    have heq : foundFrom t d f (n + 1) = foundIn t d f ++ foundFrom t d f' n := by
      rw [foundFrom, LogFileId.successors_succ hf', List.flatMap_cons, foundFrom]
    rw [heq]
    obtain ⟨hrun, hmaximal⟩ := ih (f := f')
      (fun g hg h1 h2 => hfull g (hg.trans hs) (by omega) (by omega))
      (fun g hg h1 => hstop g (hg.trans hs) (by omega)) (by omega)
    refine ⟨.across hL hlongest.toContinues hcount hf' hrun, fun rs hrs => ?_⟩
    cases hrs with
    | nil => exact List.nil_prefix
    | within log continues =>
      exact ((longest_foundIn log).longest _ continues).trans (List.prefix_append _ _)
    | @across _ f'' L' xs ys log continues full next run =>
      obtain rfl := Option.some.inj (next.symm.trans hf')
      have hfront := (longest_foundIn (t := t) log).longest _ continues
      rw [hfront.eq_of_length (by omega)]
      exact List.prefix_append_right_inj _ |>.mpr (hmaximal ys run)

/-! ### What the checkpoint certifies -/

/-- The records of one log, from its beginning. -/
def heldIn (d : Disk) (f : LogFileId) : List Record :=
  (d (.log f)).elim [] fun L => held f L.file.content

/-- The checkpoint is one of the stream.  Its log begins with the records that it
certifies, and the index with their ends. -/
def Certifies (s : StreamId) (cp : Option StreamCheckpoint) (d : Disk) : Prop :=
  ∀ k ∈ cp, k.endLocation.recordId.streamId = s ∧ ∃ base L,
    d (.log k.endLocation.logFileId) = some L ∧
    Certified k.endLocation.logFileId (some k.endLocation) base L.file.content
      (openedIndex d k.endLocation.logFileId).content

theorem Certifies.certified (h : Certifies s cp d) {L : Stored} (hL : d (.log f) = some L) :
    ∃ base, Certified f (trustedAt (cp.map StreamCheckpoint.endLocation) f) base L.file.content
      (openedIndex d f).content := by
  cases ht : trustedAt (cp.map StreamCheckpoint.endLocation) f with
  | none => exact ⟨[], certified_none _ _ _⟩
  | some e =>
    obtain ⟨rfl, rfl⟩ := trustedAt_eq_some.mp ht
    obtain ⟨-, base, L', hL', hcertified⟩ := h _ rfl
    obtain rfl := Option.some.inj (hL.symm.trans hL')
    exact ⟨base, hcertified⟩

theorem Certifies.sound (h : Certifies s cp d) : Sound s cp d := by
  intro k hk
  obtain ⟨hs, base, L, hL, hcertified⟩ := h k hk
  exact ⟨hs, L, hL, hcertified.accepts, hcertified.trusts⟩

/-- The trusted records and those found after them are the ones held. -/
theorem Certifies.length_heldIn (h : Certifies s cp d) {L : Stored} (hL : d (.log f) = some L) :
    (heldIn d f).length = trustedCount (trustedAt (cp.map StreamCheckpoint.endLocation) f) +
      (found f (trustedAt (cp.map StreamCheckpoint.endLocation) f) L.file.content).length := by
  obtain ⟨base, hcertified⟩ := h.certified hL
  rw [heldIn, hL, Option.elim_some, hcertified.held_eq, List.length_append,
    hcertified.trustedCount_eq]

theorem Certifies.endIn_eq (h : Certifies s cp d) {L : Stored} (hL : d (.log f) = some L) :
    endIn (cp.map StreamCheckpoint.endLocation) d f = endOf (heldIn d f) := by
  obtain ⟨base, hcertified⟩ := h.certified hL
  rw [endIn, heldIn, hL]
  exact hcertified.endAfter_eq

/-- A mended pair holds the records of its log and their ends. -/
theorem Certifies.exactly (h : Certifies s cp d) {L : Stored} (hL : d (.log f) = some L)
    {l k : File} {x : ValidatedFilePair}
    (hmended : Mended f (trustedAt (cp.map StreamCheckpoint.endLocation) f) L.opened.file
      (openedIndex d f) l k x) :
    Exactly (heldIn d f) l k ∧ x = outcome (endOf (heldIn d f)) ∧
      ∀ e, x = .incomplete e → l = .atEnd (encodings (heldIn d f)) ∧
        k = .atEnd (indexBytes (heldIn d f)) := by
  obtain ⟨base, hcertified⟩ := h.certified hL
  rw [heldIn, hL]
  exact hmended.exactly hcertified

/-! ### The recovered stream -/

/-- The initialization recovered the run `R`, which ends at `r`, and left just that. -/
structure RecoversRun (s : StreamId) (cp : Option StreamCheckpoint) (d : Disk)
    (i : InitializedStream) (r : Option RecordEndLocation) (R : List Record) (d' : Disk) : Prop where
  run : RunFrom (cp.map StreamCheckpoint.endLocation) d (firstFile s cp) R
  longest : ∀ rs, RunFrom (cp.map StreamCheckpoint.endLocation) d (firstFile s cp) rs → rs <+: R
  end_id : r.map RecordEndLocation.recordId =
    (R.getLast?.map Record.id).or (cp.map fun k => k.endLocation.recordId)
  end_position : ∀ e ∈ r, endOf (heldIn d e.logFileId) = some e
  stream : i.fileId.streamId = s
  first_le : (firstFile s cp).fileNumber.get ≤ i.fileId.fileNumber.get
  full : ∀ g : LogFileId, g.streamId = s → (firstFile s cp).fileNumber.get ≤ g.fileNumber.get →
    g.fileNumber.get < i.fileId.fileNumber.get → (heldIn d g).length = recordsPerFile ∧
      contentAt d' (.log g) = some (encodings (heldIn d g)) ∧
      contentAt d' (.index g) = some (indexBytes (heldIn d g))
  room : (heldIn d i.fileId).length < recordsPerFile
  active_end : i.endLocation = endOf (heldIn d i.fileId)
  active_log : (d' (.log i.fileId)).map Stored.file = some (.atEnd (encodings (heldIn d i.fileId)))
  active_index : (d' (.index i.fileId)).map Stored.file =
    some (.atEnd (indexBytes (heldIn d i.fileId)))
  after : ∀ g : LogFileId, g.streamId = s → i.fileId.fileNumber.get < g.fileNumber.get →
    d' (.log g) = none ∧ (Reached s d g → d' (.index g) = none)
  before : ∀ g : LogFileId, g.streamId = s →
    g.fileNumber.get < (firstFile s cp).fileNumber.get →
    contentAt d' (.log g) = contentAt d (.log g) ∧ contentAt d' (.index g) = contentAt d (.index g)

/-- The active pair goes on after the records that its log holds. -/
theorem Recovered.active_held (h : Recovered s cp d i r d') (hc : Certifies s cp d) :
    (heldIn d i.fileId).length < recordsPerFile ∧ i.endLocation = endOf (heldIn d i.fileId) ∧
      (d' (.log i.fileId)).map Stored.file = some (.atEnd (encodings (heldIn d i.fileId))) ∧
      (d' (.index i.fileId)).map Stored.file = some (.atEnd (indexBytes (heldIn d i.fileId))) := by
  rcases h.active with ⟨L, l, k, hL, hmended, hl, hk⟩ | ⟨hL, -, hend, hl, hk⟩
  · obtain ⟨-, hx, hcursors⟩ := hc.exactly hL hmended
    obtain ⟨hl', hk'⟩ := hcursors _ rfl
    refine ⟨?_, IndexedLogValidator.outcome_eq_incomplete hx.symm, ?_, ?_⟩
    · rw [hc.length_heldIn hL]
      exact hmended.incomplete.2
    · rw [hl, hl']
      rfl
    · rw [hk, hk']
      rfl
  · have hheld : heldIn d i.fileId = [] := by rw [heldIn, hL, Option.elim_none]
    rw [hheld, hend, hl, hk]
    exact ⟨Nat.succ_pos _, rfl, rfl, rfl⟩

/-- The passed pairs hold as many records as fit. -/
theorem Recovered.passed_held (h : Recovered s cp d i r d') (hc : Certifies s cp d)
    (hg : g.streamId = s) (hle : (firstFile s cp).fileNumber.get ≤ g.fileNumber.get)
    (hlt : g.fileNumber.get < i.fileId.fileNumber.get) :
    FullAt (cp.map StreamCheckpoint.endLocation) d g ∧ (heldIn d g).length = recordsPerFile ∧
      contentAt d' (.log g) = some (encodings (heldIn d g)) ∧
      contentAt d' (.index g) = some (indexBytes (heldIn d g)) := by
  obtain ⟨L, l, k, e, hL, hmended, hl, hk⟩ := h.passed g hg hle hlt
  obtain ⟨⟨⟨n, hn⟩, n', hn'⟩, -⟩ := hc.exactly hL hmended
  have hfull := hmended.complete.2.2.2
  refine ⟨⟨L, hL, hfull⟩, ?_, ?_, ?_⟩
  · rw [hc.length_heldIn hL]
    exact hfull
  · rw [contentAt, hl, hn]
    rfl
  · rw [contentAt, hk, hn']
    rfl

/-- Nothing was found in an active pair without an end. -/
theorem Recovered.foundIn_active (h : Recovered s cp d i r d') (hend : i.endLocation = none) :
    foundIn (cp.map StreamCheckpoint.endLocation) d i.fileId = [] := by
  rw [foundIn]
  rcases h.active with ⟨L, l, k, hL, hmended, -⟩ | ⟨hL, -⟩
  · have he := hmended.incomplete.1
    rw [hend, endAfter] at he
    rw [hL, Option.elim_some]
    cases hl : (found i.fileId (trustedAt (cp.map StreamCheckpoint.endLocation) i.fileId)
        L.file.content).getLast? with
    | none => exact List.getLast?_eq_none_iff.mp hl
    | some record =>
      have hl' : (found i.fileId (trustedAt (cp.map StreamCheckpoint.endLocation) i.fileId)
        L.opened.file.content).getLast? = some record := hl
      rw [hl'] at he
      cases he
  · rw [hL, Option.elim_none]

/-- The last record found before the end of a file. -/
theorem last_foundFrom (hs : g.streamId = (firstFile s cp).streamId) {n : Nat}
    (hn : g.fileNumber.get = (firstFile s cp).fileNumber.get + n) {e : RecordEndLocation}
    (he : endIn (cp.map StreamCheckpoint.endLocation) d g = some e) :
    some e.recordId = ((foundFrom (cp.map StreamCheckpoint.endLocation) d (firstFile s cp)
      n).getLast?.map Record.id).or (cp.map fun k => k.endLocation.recordId) := by
  obtain ⟨before, hfrom, hnil⟩ : ∃ before, foundFrom (cp.map StreamCheckpoint.endLocation) d
      (firstFile s cp) n = before ++ foundIn (cp.map StreamCheckpoint.endLocation) d g ∧
      (n = 0 → before = []) := by
    cases n with
    | zero =>
      obtain rfl : g = firstFile s cp := LogFileId.ext' hs hn
      exact ⟨[], by rw [foundFrom, LogFileId.successors, List.flatMap_singleton, List.nil_append],
        fun _ => rfl⟩
    | succ n =>
      refine ⟨foundFrom (cp.map StreamCheckpoint.endLocation) d (firstFile s cp) n, ?_,
        fun h => absurd h (Nat.succ_ne_zero n)⟩
      rw [foundFrom, LogFileId.successors_concat n hs hn, List.flatMap_append,
        List.flatMap_singleton, foundFrom]
  obtain ⟨L, hL⟩ : ∃ L, d (.log g) = some L :=
    Option.ne_none_iff_exists'.mp fun hnone => by
      rw [endIn, hnone] at he
      cases he
  have hfound : foundIn (cp.map StreamCheckpoint.endLocation) d g =
      found g (trustedAt (cp.map StreamCheckpoint.endLocation) g) L.file.content := by
    rw [foundIn, hL, Option.elim_some]
  rw [endIn, hL, Option.bind_some, endAfter] at he
  rw [hfrom, hfound, List.getLast?_append]
  cases hlast : (found g (trustedAt (cp.map StreamCheckpoint.endLocation) g)
      L.file.content).getLast? with
  | some record =>
    rw [hlast] at he
    obtain rfl := Option.some.inj he
    rfl
  | none =>
    -- nothing was found here, so the end is the checkpoint's
    rw [hlast] at he
    obtain ⟨rfl, hfile⟩ := trustedAt_eq_some.mp he
    have hfirst : (firstFile s (some ⟨e⟩)).fileNumber.get = g.fileNumber.get :=
      congrArg (fun f : LogFileId => f.fileNumber.get) hfile
    rw [hnil (by omega)]
    rfl

/-- **What an initialization recovers** is the longest run after its checkpoint. -/
theorem Recovered.recoversRun (h : Recovered s cp d i r d') (hc : Certifies s cp d) :
    ∃ R, RecoversRun s cp d i r R d' := by
  obtain ⟨n, hn⟩ := Nat.exists_eq_add_of_le h.first_le
  have hmax := i.fileId.fileNumber.le
  obtain ⟨hroom, hend, hlog, hindex⟩ := h.active_held hc
  have hstream : i.fileId.streamId = (firstFile s cp).streamId := h.stream.trans h.first_stream.symm
  have hnotFull : ¬ FullAt (cp.map StreamCheckpoint.endLocation) d i.fileId := by
    rintro ⟨L, hL, hfull⟩
    rw [← hc.length_heldIn hL] at hfull
    exact Nat.ne_of_lt hroom hfull
  obtain ⟨hrun, hlongest⟩ := longest_run (t := cp.map StreamCheckpoint.endLocation) (d := d) n
    (fun g hg h1 h2 => (h.passed_held hc (hg.trans h.first_stream) h1 (by omega)).1)
    (fun g hg h1 => by
      obtain rfl : g = i.fileId := LogFileId.ext' (hg.trans hstream.symm) (by omega)
      exact hnotFull) (by omega)
  -- the active pair has an end only if its log is there
  have hactive : ∀ e, i.endLocation = some e →
      endIn (cp.map StreamCheckpoint.endLocation) d i.fileId = some e := by
    intro e he
    rcases h.active with ⟨L, l, k, hL, -⟩ | ⟨-, -, hnone, -⟩
    · rw [hc.endIn_eq hL, ← hend, he]
    · rw [he] at hnone
      cases hnone
  -- the recovered end is that of the last file in which something was found
  have hends : (∀ e, r = some e → endIn (cp.map StreamCheckpoint.endLocation) d e.logFileId =
        some e) ∧
      r.map RecordEndLocation.recordId = ((foundFrom (cp.map StreamCheckpoint.endLocation) d
        (firstFile s cp) n).getLast?.map Record.id).or
          (cp.map fun k => k.endLocation.recordId) := by
    rcases h.end_cases with ⟨e, he, rfl, hfile⟩ | ⟨he, rfl, rfl, hfirst⟩ |
      ⟨he, e, rfl, hg, hle, hnext, -⟩
    · have hin := hactive e he
      refine ⟨fun e' he' => ?_, last_foundFrom hstream hn hin⟩
      rw [← Option.some.inj he', hfile, hin]
    · refine ⟨fun e' he' => (nomatch he'), ?_⟩
      obtain rfl : n = 0 := by
        rw [hfirst] at hn
        omega
      rw [foundFrom, LogFileId.successors, List.flatMap_singleton, ← hfirst, h.foundIn_active he]
      rfl
    · have hlater := h.recovered_later e.logFileId hg hle hnext
      rw [he, Option.none_or] at hlater
      obtain ⟨m, hm⟩ := Nat.exists_eq_add_of_le hle
      obtain rfl : n = m + 1 := by omega
      refine ⟨fun e' he' => ?_, ?_⟩
      · rw [← Option.some.inj he', ← hlater]
      · have hlast := last_foundFrom (hg.trans h.first_stream.symm) hm hlater.symm
        rw [foundFrom, LogFileId.successors_concat m hstream hn, List.flatMap_append,
          List.flatMap_singleton, h.foundIn_active he, List.append_nil]
        exact hlast
  obtain ⟨hendIn, hid⟩ := hends
  refine ⟨foundFrom (cp.map StreamCheckpoint.endLocation) d (firstFile s cp) n, hrun, hlongest, hid,
    fun e he => ?_, h.stream, h.first_le, fun g hg h1 h2 => (h.passed_held hc hg h1 h2).2, hroom,
    hend, hlog, hindex, fun g hg hlt => ?_, fun g hg hlt => ?_⟩
  · have hin := hendIn e he
    obtain ⟨L, hL⟩ : ∃ L, d (.log e.logFileId) = some L :=
      Option.ne_none_iff_exists'.mp fun hnone => by
        rw [endIn, hnone] at hin
        cases hin
    rw [← hc.endIn_eq hL, hin]
  · obtain ⟨h1, h2⟩ := h.after g hg hlt
    exact ⟨h1, fun hreached => (h2.resolve_right fun h3 => h3.1 hreached).2⟩
  · obtain ⟨h1, h2⟩ := h.before g hg hlt
    exact ⟨contentAt_of_same h1, contentAt_of_same h2⟩

variable [CheckpointReader]

/-- **Recovery finds the longest contiguous run.**  Without faults an initialization
whose checkpoint is truthful ends with it, and the next one reads its end. -/
theorem initialize_recovers_longest_run {tree : Tree} {plan : Plan}
    (hr : StorageProvider.Reads d s cp) (hon : On p s d tree) (hc : Certifies s cp d)
    (hordinary : ∀ f, f.streamId = s → d (.log f) ≠ none → ¬ f.Terminal) (hvacant : Vacant s cp d)
    (hplan : plan.Smooth) :
    ∃ i r R d' w, (initializeStream p s).run tree plan = (.ok i, w) ∧ On p s d' w.sys ∧
      RecoversRun s cp d i r R d' ∧ StorageProvider.Reads d' s (r.map StreamCheckpoint.mk) := by
  obtain ⟨i, d', w, hw, hinitialized, hon'⟩ := initializeStream_completes hr hon hc.sound
    (fun f L hf hL => LogFileValidator.not_exhausted (hordinary f hf (by simp [hL]))) hvacant hplan
  obtain ⟨r, hrecovered⟩ := hinitialized.recovered
  obtain ⟨R, hrun⟩ := hrecovered.recoversRun hc
  exact ⟨i, r, R, d', w, hw, hon', hrun, hrecovered.reads hr⟩

omit [Crc32c] [CheckpointReader] in
theorem initialize_recovers_longest_run_torn : letI := Crc32c.reference
    letI := CheckpointReader.canonical
    let p : StorageProvider := ⟨[]⟩
    let f : LogFileId := ⟨⟨0, by decide⟩, .min⟩
    let log := File.durable (encodings [Fills.firstRecord f] ++ [1, 2])
    let d := StorageProvider.pairDisk f log (.durable [1, 2, 3])
    ∃ i r R d' w, (initializeStream p f.streamId).run
        (StorageProvider.pairTree p f log (.durable [1, 2, 3])) .calm = (.ok i, w) ∧
      On p f.streamId d' w.sys ∧ RecoversRun f.streamId none d i r R d' ∧
      StorageProvider.Reads d' f.streamId (r.map StreamCheckpoint.mk) := by
  let _ := Crc32c.reference
  let _ := CheckpointReader.canonical
  intro p f log d
  have hon := StorageProvider.on_pairTree p f log (.durable [1, 2, 3])
  have hreads : StorageProvider.Reads d f.streamId none :=
    StorageProvider.pairDisk_of_ne (by simp) (by simp) _ _
  have hterminal : ∀ g, g.streamId = f.streamId → d (.log g) ≠ none → ¬ g.Terminal := by
    intro g _ hlog
    rw [eq_of_pairDisk_log hlog]
    decide
  exact initialize_recovers_longest_run hreads hon (by simp [Certifies]) hterminal
    (pairDisk_fits (f := f) (by decide) log (.durable [1, 2, 3]) none).2 trivial

end StreamInitializer

end TransactionLog
