import TransactionLog.Streams.LongestRun

/-!
# The checkpoint never leads its data

An endpoint is `Backed` by a disk if all files before its own are full, and its log
and its index begin with the records up to it and their ends, all synchronized.
Repairs keep that, and an initialization publishes only the end of a pair that it
has recovered.  So the checkpoint is backed wherever an initialization ends.
-/

namespace TransactionLog

open Lib

namespace LogFileValidator

variable [Crc32c] {f : LogFileId} {t : Option RecordEndLocation} {log l : File}
  {bytes : List UInt8}

omit [Crc32c] in
theorem Untouched.secures (h : Untouched log l) (hbytes : File.Secures bytes log) :
    File.Secures bytes l := by
  obtain ⟨k, rfl⟩ := h
  exact hbytes.seekTo k

/-- The repair of a log keeps the trusted bytes durable, wherever it stops. -/
theorem Repairing.secures (h : Repairing f t log l) (hbytes : File.Secures bytes log)
    (hlen : bytes.length ≤ (startPosition t).get) : File.Secures bytes l := by
  rcases h with h | ⟨-, -, h⟩
  · exact h.secures hbytes
  · exact h.secures (hbytes.resized (Nat.le_trans hlen (startPosition_le_keptLength _)))

theorem secures_repaired (hbytes : File.Secures bytes log)
    (hlen : bytes.length ≤ (startPosition t).get) : File.Secures bytes (repaired f t log) :=
  (hbytes.resized (Nat.le_trans hlen (startPosition_le_keptLength _))).synchronized

end LogFileValidator

namespace IndexFileValidator

open LogFileValidator (trustedCount)

variable {t : Option RecordEndLocation} {suffixEnds : List LogFilePosition} {index i : File}
  {bytes : List UInt8}

theorem isPrefix_trustedEntries (hbytes : File.Secures bytes index)
    (hlen : bytes.length ≤ 8 * trustedCount t) : bytes <+: trustedEntries t index.content := by
  refine List.prefix_of_prefix_length_le hbytes.isPrefix (List.take_prefix _ _) ?_
  rw [trustedEntries, List.length_take]
  exact Nat.le_min.mpr ⟨hlen, hbytes.isPrefix.length_le⟩

/-- Rewriting an index keeps the trusted entries durable, wherever it stops. -/
theorem Rebuilding.secures (h : Rebuilding t suffixEnds index i)
    (hbytes : File.Secures bytes index) (hlen : bytes.length ≤ 8 * trustedCount t) :
    File.Secures bytes i := by
  rcases h with h | ⟨bs, h⟩
  · exact h.secures hbytes
  · refine ⟨?_, ?_⟩
    · rw [h.content]
      exact (isPrefix_trustedEntries hbytes hlen).trans (List.prefix_append _ _)
    · rw [h.synced]
      exact Nat.le_min.mpr ⟨hbytes.length_le, hlen⟩

theorem Rebuilt.secures (h : Rebuilt t suffixEnds index i)
    (hbytes : File.Secures bytes index) (hlen : bytes.length ≤ 8 * trustedCount t) :
    File.Secures bytes i := by
  have hfront : bytes <+: i.content := by
    rw [h.content]
    exact (isPrefix_trustedEntries hbytes hlen).trans (List.prefix_append _ _)
  exact ⟨hfront, by rw [h.synced]; exact hfront.length_le⟩

end IndexFileValidator

namespace IndexedLogValidator

open LogFileValidator (trustedCount startPosition)

variable [Crc32c] {f : LogFileId} {t : Option RecordEndLocation} {log index l i : File}

/-- Repairing a pair keeps what is trusted in it durable, wherever it stops. -/
theorem PairMending.secures (h : PairMending f t log index l i) {bytes entries : List UInt8}
    (hbytes : File.Secures bytes log) (hlen : bytes.length ≤ (startPosition t).get)
    (hentries : File.Secures entries index) (hcount : entries.length ≤ 8 * trustedCount t) :
    File.Secures bytes l ∧ File.Secures entries i := by
  cases h with
  | log hlog hindex => exact ⟨hlog.secures hbytes hlen, hindex.secures hentries⟩
  | index _ hlog hindex =>
    exact ⟨hlog.secures (LogFileValidator.secures_repaired hbytes hlen),
      hindex.secures hentries hcount⟩
  | done _ hlog hindex =>
    exact ⟨hlog.secures (LogFileValidator.secures_repaired hbytes hlen),
      hindex.secures hentries hcount⟩

theorem Mended.pairMending {r : ValidatedFilePair} (h : Mended f t log index l i r) :
    PairMending f t log index l i := .done h.accepts h.log_repaired h.index_rebuilt

end IndexedLogValidator

namespace StreamInitializer

open IndexedLogValidator (withPair openedIndex same_withPair Mended Mending PairMending Certified)
open LogFileValidator (trustedCount startPosition Untouched Repairing repaired)
open IndexFileValidator (Rebuilt Rebuilding trustedEntries)

variable [Crc32c] {p : StorageProvider} {s : StreamId} {t r r' : Option RecordEndLocation}
  {d d' d₀ d₁ d₂ d₃ : Disk} {f g : LogFileId} {files : List LogFileId} {c : Mode}
  {cp : Option StreamCheckpoint} {m : Option LogFileId} {e : RecordEndLocation}
  {st : InitializationState}

/-- All files of the stream before the one numbered `n` are full. -/
def FullBefore (s : StreamId) (n : Nat) (d : Disk) : Prop :=
  ∀ g : LogFileId, g.streamId = s → g.fileNumber.get < n → (heldIn d g).length = recordsPerFile

/-- The log of the file and its index hold the records up to the endpoint, durably. -/
def PairBacked (e : RecordEndLocation) (d : Disk) : Prop :=
  ∃ base L I, d (.log e.logFileId) = some L ∧ d (.index e.logFileId) = some I ∧
    Fills e.logFileId base ∧ endOf base = some e ∧
    File.Secures (encodings base) L.file ∧ File.Secures (indexBytes base) I.file

/-- The endpoint does not lead its data. -/
structure Backed (s : StreamId) (e : RecordEndLocation) (d : Disk) : Prop where
  stream : e.recordId.streamId = s
  before : FullBefore s e.logFileId.fileNumber.get d
  pair : PairBacked e d

/-- Nor does the checkpoint, if there is one. -/
def CheckpointBacked (s : StreamId) (cp : Option StreamCheckpoint) (d : Disk) : Prop :=
  ∀ k ∈ cp, Backed s k.endLocation d

/-! ### What keeps an endpoint backed -/

theorem heldIn_of_content (h : contentAt d' (.log g) = contentAt d (.log g)) :
    heldIn d' g = heldIn d g := by
  rw [heldIn, heldIn]
  rw [contentAt, contentAt] at h
  cases hd : d (.log g) with
  | none =>
    rw [hd, Option.map_none, Option.map_eq_none_iff] at h
    rw [h]
  | some L =>
    rw [hd, Option.map_some, Option.map_eq_some_iff] at h
    obtain ⟨L', hL', hcontent⟩ := h
    rw [hL', Option.elim_some, Option.elim_some, hcontent]

theorem heldIn_of_same (h : Same d d' (.log g)) : heldIn d' g = heldIn d g :=
  heldIn_of_content (contentAt_of_same h)

theorem FullBefore.mono {n : Nat} (h : FullBefore s n d)
    (hsame : ∀ g : LogFileId, g.streamId = s → g.fileNumber.get < n → heldIn d' g = heldIn d g) :
    FullBefore s n d' := by
  intro g hg hlt
  rw [hsame g hg hlt]
  exact h g hg hlt

theorem PairBacked.of_same (h : PairBacked e d) (hlog : Same d d' (.log e.logFileId))
    (hindex : Same d d' (.index e.logFileId)) : PairBacked e d' := by
  obtain ⟨base, L, I, hL, hI, hfills, hend, hlogSecures, hindexSecures⟩ := h
  obtain ⟨L', hL', hLfile, -⟩ := hlog.exists_file hL
  obtain ⟨I', hI', hIfile, -⟩ := hindex.exists_file hI
  exact ⟨base, L', I', hL', hI', hfills, hend, hLfile ▸ hlogSecures, hIfile ▸ hindexSecures⟩

/-- Changes after the endpoint's file leave it backed. -/
theorem Backed.of_same (h : Backed s e d) (hsame : ∀ g : LogFileId, g.streamId = s →
    g.fileNumber.get ≤ e.logFileId.fileNumber.get →
      Same d d' (.log g) ∧ Same d d' (.index g)) : Backed s e d' := by
  obtain ⟨hlog, hindex⟩ := hsame e.logFileId h.stream (Nat.le_refl _)
  exact ⟨h.stream, h.before.mono fun g hg hlt => heldIn_of_same (hsame g hg (Nat.le_of_lt hlt)).1,
    h.pair.of_same hlog hindex⟩

theorem PairBacked.certified (h : PairBacked e d) : ∃ base L, d (.log e.logFileId) = some L ∧
    Certified e.logFileId (some e) base L.file.content (openedIndex d e.logFileId).content := by
  obtain ⟨base, L, I, hL, hI, hfills, hend, hlog, hindex⟩ := h
  refine ⟨base, L, hL, hfills, hend.symm, hlog.isPrefix, ?_⟩
  rw [openedIndex, hI]
  exact hindex.isPrefix

theorem CheckpointBacked.certifies (h : CheckpointBacked s cp d) : Certifies s cp d :=
  fun k hk => ⟨(h k hk).stream, (h k hk).pair.certified⟩

/-- Repairing a pair keeps every endpoint backed that is trusted where it is. -/
theorem PairBacked.mending {L : Stored} (h : PairBacked e d) (hL : d (.log f) = some L)
    (ht : e.logFileId = f → t = some e) (hmending : Mending p f t d L d') : PairBacked e d' := by
  by_cases hf : e.logFileId = f
  · obtain ⟨base, L', I, hL', hI, hfills, hend, hlog, hindex⟩ := h
    have ht := ht hf
    rw [hf] at hL' hI
    obtain rfl := Option.some.inj (hL.symm.trans hL')
    obtain ⟨hposition, -, -, -, hcount⟩ := hfills.endOf_eq_some hend
    rw [PairBacked, hf]
    rw [hf] at hfills
    cases hmending with
    | unopened => exact ⟨base, L, I, hL, hI, hfills, hend, hlog, hindex⟩
    | logOpened =>
      refine ⟨base, L.opened, I, Function.update_self _ _ _, ?_, hfills, hend, hlog.seekTo 0, hindex⟩
      rw [Function.update_of_ne (by simp), hI]
    | indexOpened =>
      refine ⟨base, L.opened, I.opened, ?_, ?_, hfills, hend, hlog.seekTo 0, hindex.seekTo 0⟩
      · rw [StorageProvider.indexOpened, Function.update_of_ne (by simp), Function.update_self]
      · rw [StorageProvider.indexOpened, Function.update_self, Function.update_of_ne (by simp), hI]
        rfl
    | @both l i hpair =>
      have hopened : openedIndex d f = I.opened.file := by
        rw [openedIndex, hI]
        rfl
      rw [hopened] at hpair
      subst ht
      obtain ⟨h1, h2⟩ := hpair.secures (hlog.seekTo 0) hposition.ge (hindex.seekTo 0)
        (by rw [length_indexBytes, ← hcount]; exact Nat.le_refl _)
      exact ⟨base, _, _, IndexedLogValidator.withPair_log, IndexedLogValidator.withPair_index,
        hfills, hend, h1, h2⟩
  · exact h.of_same (hmending.frame (by simpa using hf) (by simp))
      (hmending.frame (by simp) (by simpa using hf))

/-- Repairing a pair that is no earlier one keeps every endpoint backed that is trusted
where it is. -/
theorem Backed.mending {L : Stored} (h : Backed s e d) (hL : d (.log f) = some L)
    (hle : e.logFileId.fileNumber.get ≤ f.fileNumber.get) (ht : e.logFileId = f → t = some e)
    (hmending : Mending p f t d L d') : Backed s e d' := by
  refine ⟨h.stream, h.before.mono fun g hg hlt => ?_, h.pair.mending hL ht hmending⟩
  have hne : g ≠ f := by
    rintro rfl
    omega
  exact heldIn_of_same (hmending.frame (by simpa using hne) (by simp))

/-! ### Recovered pairs -/

/-- The log of a mended pair holds the records that it held before. -/
theorem Certifies.heldIn_withPair (h : Certifies s cp d) {L : Stored} (hL : d (.log f) = some L)
    {l i : File} {x : ValidatedFilePair} (hmended : Mended f
      (trustedAt (cp.map StreamCheckpoint.endLocation) f) L.opened.file (openedIndex d f) l i x) :
    heldIn (withPair d₁ f l i) f = heldIn d f := by
  obtain ⟨⟨⟨k, hl⟩, -⟩, -⟩ := h.exactly hL hmended
  have hfills : Fills f (heldIn d f) := by
    rw [heldIn, hL]
    exact held_fills f _
  rw [heldIn, IndexedLogValidator.withPair_log, Option.elim_some, hl, File.seekTo_content]
  exact held_encodings hfills

/-- The end of a mended pair is backed. -/
theorem Certifies.backed (h : Certifies s cp d) {L : Stored} (hL : d (.log f) = some L)
    {l i : File} {x : ValidatedFilePair} (hmended : Mended f
      (trustedAt (cp.map StreamCheckpoint.endLocation) f) L.opened.file (openedIndex d f) l i x)
    (hs : f.streamId = s) (hbefore : FullBefore s f.fileNumber.get d)
    (hend : endOf (heldIn d f) = some e) :
    Backed s e (withPair (d.link p (p.leafDirectory f)) f l i) ∧ e.logFileId = f := by
  obtain ⟨⟨⟨k, hl⟩, n, hi⟩, -⟩ := h.exactly hL hmended
  have hfills : Fills f (heldIn d f) := by
    rw [heldIn, hL]
    exact held_fills f _
  obtain ⟨-, hstream, -, hfile, -⟩ := hfills.endOf_eq_some hend
  refine ⟨⟨hstream.trans hs, ?_, ?_⟩, hfile⟩
  · rw [hfile]
    exact hbefore.mono fun g hg hlt => heldIn_of_same
      (IndexedLogValidator.same_files_withPair (LogFileId.ne_of_lt hlt) _).1
  · rw [PairBacked, hfile]
    refine ⟨heldIn d f, _, _, IndexedLogValidator.withPair_log, IndexedLogValidator.withPair_index,
      hfills, hend, ?_, ?_⟩
    · rw [hl]
      exact (File.secures_durable _).seekTo k
    · rw [hi]
      exact (File.secures_durable _).seekTo n

/-- The files are those numbered from `k` on. -/
def Following (s : StreamId) (k : Nat) (files : List LogFileId) : Prop :=
  ∀ xs g ys, files = xs ++ g :: ys → g.streamId = s ∧ g.fileNumber.get = k + xs.length

omit [Crc32c] in
theorem following_passed (h : Covered s cp m) {passed rest : List LogFileId}
    (hfiles : filesFrom (firstFile s cp) m = passed ++ rest) :
    Following s (firstFile s cp).fileNumber.get passed := by
  intro xs g ys hsplit
  rw [hsplit, List.append_assoc, List.cons_append] at hfiles
  exact filesFrom_eq_append h hfiles

omit [Crc32c] in
theorem Following.head {k : Nat} (h : Following s k (f :: files)) :
    f.streamId = s ∧ f.fileNumber.get = k := h [] f files rfl

omit [Crc32c] in
theorem Following.tail {k : Nat} (h : Following s k (f :: files)) : Following s (k + 1) files := by
  intro xs g ys hfiles
  obtain ⟨hs, hn⟩ := h (f :: xs) g ys (by rw [hfiles, List.cons_append])
  rw [List.length_cons] at hn
  exact ⟨hs, by omega⟩

/-- What is known between two validations: the checkpoint and the recovered end are
backed and before the next file, and so are full files. -/
structure Backing (s : StreamId) (cp : Option StreamCheckpoint) (r : Option RecordEndLocation)
    (k : Nat) (d : Disk) : Prop where
  checkpoint : CheckpointBacked s cp d
  full : FullBefore s k d
  recovered : ∀ e, r = some e → Backed s e d ∧ e.logFileId.fileNumber.get < k

/-- A repair keeps the checkpoint backed. -/
theorem CheckpointBacked.mending {L : Stored} (h : CheckpointBacked s cp d)
    (hL : d (.log f) = some L) (hle : ∀ k ∈ cp, k.endLocation.logFileId.fileNumber.get ≤
      f.fileNumber.get)
    (hmending : Mending p f (trustedAt (cp.map StreamCheckpoint.endLocation) f) d L d') :
    CheckpointBacked s cp d' :=
  fun k hk => (h k hk).mending hL (hle k hk)
    (fun hf => trustedAt_eq_some.mpr ⟨Option.mem_def.mp hk, hf⟩) hmending

theorem Passed.backing (h : Passed p (cp.map StreamCheckpoint.endLocation) d r files d' r') :
    ∀ {k : Nat}, Following s k files →
      (∀ c ∈ cp, c.endLocation.logFileId.fileNumber.get ≤ k) → Backing s cp r k d →
      Backing s cp r' (k + files.length) d' := by
  induction h with
  | nil => exact fun _ _ h => h
  | @cons d d' r r' f files L l i e hlog hmended rest ih =>
    intro k hfollowing hle hbacking
    obtain ⟨hs, hn⟩ := hfollowing.head
    have hcertifies := hbacking.checkpoint.certifies
    have hmending : Mending p f (trustedAt (cp.map StreamCheckpoint.endLocation) f) d L
        (withPair (d.link p (p.leafDirectory f)) f l i) := .both hmended.pairMending
    have hfull : (heldIn d f).length = recordsPerFile := by
      rw [hcertifies.length_heldIn hlog]
      exact hmended.complete.2.2.2
    have hend : endOf (heldIn d f) = some e := by
      rw [← hcertifies.endIn_eq hlog, endIn, hlog]
      exact hmended.complete.2.2.1
    obtain ⟨hbacked, hfile⟩ := hcertifies.backed (p := p) hlog hmended hs (hn ▸ hbacking.full) hend
    rw [List.length_cons, ← Nat.add_assoc, Nat.add_right_comm]
    refine ih hfollowing.tail (fun c hc => Nat.le_succ_of_le (hle c hc)) ⟨?_, ?_, ?_⟩
    · exact hbacking.checkpoint.mending hlog (hn.symm ▸ hle) hmending
    · intro g hg hlt
      by_cases hgf : g = f
      · subst hgf
        rw [hcertifies.heldIn_withPair hlog hmended]
        exact hfull
      · rw [heldIn_of_same (same_withPair (by simpa using hgf) (by simp) _)]
        refine hbacking.full g hg (Nat.lt_of_le_of_ne (Nat.le_of_lt_succ hlt) fun heq => hgf ?_)
        exact LogFileId.ext' (hg.trans hs.symm) (heq.trans hn.symm)
    · intro e' he'
      obtain rfl := Option.some.inj he'
      refine ⟨hbacked, ?_⟩
      rw [hfile, hn]
      exact Nat.lt_succ_self k

theorem Loaded.backed (h : Loaded s d d') (hb : Backed s e d) : Backed s e d' :=
  hb.of_same fun g _ _ => ⟨.inl (h.log g), .inl (h.index g)⟩

/-- What is known when the validation begins. -/
theorem Loaded.backing (h : Loaded s d₀ d₁) (hcp : CheckpointBacked s cp d₀) :
    Backing s cp none (firstFile s cp).fileNumber.get d₁ := by
  have hcp₁ : CheckpointBacked s cp d₁ := fun k hk => h.backed (hcp k hk)
  refine ⟨hcp₁, ?_, fun e he => nomatch he⟩
  cases cp with
  | none => exact fun g _ hlt => absurd hlt (Nat.not_lt_zero _)
  | some k => exact (hcp₁ k rfl).before

omit [Crc32c] in
theorem firstFile_of_mem (s : StreamId) {k : StreamCheckpoint} (hk : k ∈ cp) :
    k.endLocation.logFileId = firstFile s cp := by
  rw [Option.mem_def] at hk
  rw [hk]
  rfl

/-- After the walk, with `n` the number of the first file that it leaves to the rest
of the initialization. -/
structure Walked (s : StreamId) (cp : Option StreamCheckpoint) (st : InitializationState) (n : Nat)
    (d : Disk) : Prop where
  checkpoint : CheckpointBacked s cp d
  checkpoint_lt : ∀ k ∈ cp, k.endLocation.logFileId.fileNumber.get < n
  recovered : ∀ e, st.recoveredEnd = some e → Backed s e d ∧ e.logFileId.fileNumber.get < n
  to_remove : ∀ first, st.firstFileToRemove = some first → n ≤ first.fileNumber.get
  new : st.activePair = none → ∀ f, newFile st = some f → n ≤ f.fileNumber.get

theorem Visited.walked (h : Visited p s cp d₀ d₁ m st d) (hcp : CheckpointBacked s cp d₀) :
    ∃ n, Walked s cp st n d := by
  have hcov := h.covered
  have hbegin := h.loaded.backing hcp
  have hle : ∀ k ∈ cp, k.endLocation.logFileId.fileNumber.get ≤
      (firstFile s cp).fileNumber.get :=
    fun k hk => by rw [firstFile_of_mem s hk]
  by_cases hactive : st.activePair = none
  · obtain ⟨f, passed, rest, hnew, hs, hn, hfiles, -, -, hwhere, huntrusted, hpassed⟩ :=
      h.new_file hactive
    have hbacking := hpassed.backing (following_passed hcov hfiles) hle hbegin
    rw [← hn] at hbacking
    refine ⟨f.fileNumber.get, hbacking.checkpoint, fun k hk => ?_, hbacking.recovered,
      fun first hfirst => ?_, fun _ f' hf' => ?_⟩
    · refine Nat.lt_of_le_of_ne (Nat.le_trans (hle k hk) (by omega)) fun heq => ?_
      have hkf : k.endLocation.logFileId = f := by
        refine LogFileId.ext' ?_ heq
        rw [firstFile_of_mem s hk]
        exact hcov.firstFile_stream.trans hs.symm
      rw [trustedAt_eq_some.mpr ⟨Option.mem_def.mp hk, hkf⟩] at huntrusted
      cases huntrusted
    · rcases hwhere with hw | ⟨-, -, hw⟩
      · rw [Option.some.inj (hfirst.symm.trans hw)]
      · rw [hw] at hfirst
        cases hfirst
    · rw [Option.some.inj (hnew.symm.trans hf')]
  · obtain ⟨passed, rest, d₂, r, hfiles, hpassed, hended⟩ := h.walk
    have hbacking := hpassed.backing (following_passed hcov hfiles) hle hbegin
    cases hended with
    | all => exact absurd rfl hactive
    | missing => exact absurd rfl hactive
    | @incomplete f rest L l i o hlog hmended =>
      obtain ⟨hs, hn⟩ := filesFrom_eq_append hcov hfiles
      rw [← hn] at hbacking
      have hcertifies := hbacking.checkpoint.certifies
      have hmending : Mending p f (trustedAt (cp.map StreamCheckpoint.endLocation) f) d₂ L
          (withPair (d₂.link p (p.leafDirectory f)) f l i) := .both hmended.pairMending
      have hlef : ∀ k ∈ cp, k.endLocation.logFileId.fileNumber.get ≤ f.fileNumber.get :=
        fun k hk => Nat.le_trans (hle k hk) (by omega)
      refine ⟨f.fileNumber.get + 1, hbacking.checkpoint.mending hlog hlef hmending,
        fun k hk => Nat.lt_succ_of_le (hlef k hk), fun e he => ?_, fun first hfirst => ?_,
        fun hnone => absurd hnone hactive⟩
      · cases o with
        | some e' =>
          obtain rfl := Option.some.inj he
          have hend : endOf (heldIn d₂ f) = some e' := by
            rw [← hcertifies.endIn_eq hlog, endIn, hlog]
            exact hmended.incomplete.1.symm
          obtain ⟨hbacked, hfile⟩ := hcertifies.backed (p := p) hlog hmended hs hbacking.full hend
          exact ⟨hbacked, by rw [hfile]; exact Nat.lt_succ_self _⟩
        | none =>
          obtain ⟨hbacked, hlt⟩ := hbacking.recovered e he
          refine ⟨hbacked.of_same fun g hg hge => ?_, Nat.lt_succ_of_lt hlt⟩
          refine IndexedLogValidator.same_files_withPair ?_ _
          rintro rfl
          omega
      · exact (number_of_next hfirst).ge

/-! ### After the walk -/

theorem Walked.mono {n : Nat} (h : Walked s cp st n d) (hsame : ∀ g : LogFileId, g.streamId = s →
    g.fileNumber.get < n → Same d d' (.log g) ∧ Same d d' (.index g)) : Walked s cp st n d' where
  checkpoint k hk := (h.checkpoint k hk).of_same fun g hg hle =>
    hsame g hg (Nat.lt_of_le_of_lt hle (h.checkpoint_lt k hk))
  checkpoint_lt := h.checkpoint_lt
  recovered e he := ⟨(h.recovered e he).1.of_same fun g hg hle =>
    hsame g hg (Nat.lt_of_le_of_lt hle (h.recovered e he).2), (h.recovered e he).2⟩
  to_remove := h.to_remove
  new := h.new

theorem Walked.cleaned {n : Nat} (h : Walked s cp st n d) {first last : LogFileId}
    (hfirst : st.firstFileToRemove = some first) (hclean : Cleaned first last d d') :
    Walked s cp st n d' := by
  have hle := h.to_remove first hfirst
  refine h.mono fun g hg hlt => Same.files ?_ hclean.outside
  rintro f hf rfl
  have := hf.2.1
  omega

theorem Walked.removed {n : Nat} (h : Walked s cp st n d) (hremoved : Removed st d d') :
    Walked s cp st n d' := by
  rw [Removed] at hremoved
  split at hremoved
  · rename_i first last hfirst hlast
    exact h.cleaned hfirst hremoved.1
  · rw [hremoved]
    exact h

theorem Walked.advanced {n : Nat} (h : Walked s cp st n d) (hadvanced : Advanced p s st d d') :
    Walked s cp st n d' :=
  h.mono fun g _ _ => hadvanced.frame_files g

theorem Walked.created {n : Nat} (h : Walked s cp st n d) (hnone : st.activePair = none)
    (hnew : newFile st = some f) (hd' : d' = StorageProvider.created d (.log f) ∨
      d' = StorageProvider.created (StorageProvider.created d (.log f)) (.index f)) :
    Walked s cp st n d' := by
  have hle := h.new hnone f hnew
  exact h.mono fun g hg hlt => StorageProvider.same_files_created hd'
    (LogFileId.ne_of_lt (Nat.lt_of_lt_of_le hlt hle))

variable [CheckpointReader]

omit [Crc32c] in
theorem reads_of_content (h : StorageProvider.Reads d s cp)
    (hcontent : contentAt d' (.checkpoint s) = contentAt d (.checkpoint s)) :
    StorageProvider.Reads d' s cp := by
  rw [contentAt, contentAt] at hcontent
  cases cp with
  | none =>
    rw [StorageProvider.Reads] at h ⊢
    rw [h, Option.map_none, Option.map_eq_none_iff] at hcontent
    exact hcontent
  | some k =>
    obtain ⟨st, hst, hlen, hread⟩ := h
    rw [hst, Option.map_some, Option.map_eq_some_iff] at hcontent
    obtain ⟨st', hst', hfile⟩ := hcontent
    exact ⟨st', hst', hfile ▸ hlen, hfile ▸ hread⟩

omit [Crc32c] in
theorem Loaded.reads (h : Loaded s d d') (hr : StorageProvider.Reads d s cp) :
    StorageProvider.Reads d' s cp := by
  refine reads_of_content hr ?_
  rcases h with rfl | ⟨k, rfl⟩
  · rfl
  · rw [contentAt, contentAt, StorageProvider.moved, Function.update_self, Option.map_map]
    rfl

omit [Crc32c] in
theorem reads_holds {k : StreamCheckpoint} {file : File} {b : Bool}
    (h : StorageProvider.Holds k file) (hd : d (.checkpoint s) = some ⟨file, b⟩) :
    StorageProvider.Reads d s (some k) := by
  refine ⟨_, hd, ?_, ?_⟩
  · rw [h.1]
    exact StreamCheckpoint.length_toVec_le _
  · rw [h.1]
    exact CheckpointReader.fromSlice_toVec _

/-- The checkpoint that would be read next, if there is one, is backed. -/
def Safe (s : StreamId) (d : Disk) : Prop :=
  ∃ cp, StorageProvider.Reads d s cp ∧ CheckpointBacked s cp d

theorem Walked.safe {n : Nat} (h : Walked s cp st n d) (hr : StorageProvider.Reads d s cp) :
    Safe s d := ⟨cp, hr, h.checkpoint⟩

/-- What comes after the publication leaves the published endpoint backed. -/
theorem Walked.safe_advanced {n : Nat} (hwalked : Walked s cp st n d')
    (hr : StorageProvider.Reads d s cp) (hadvanced : Advanced p s st d d₁)
    (hcheckpoint : contentAt d' (.checkpoint s) = contentAt d₁ (.checkpoint s)) : Safe s d' := by
  by_cases hkept : ∀ e, st.recoveredEnd = some e → st.checkpoint = some ⟨e⟩
  · rw [hadvanced.kept hkept] at hcheckpoint
    exact hwalked.safe (reads_of_content hr hcheckpoint)
  · simp only [not_forall] at hkept
    obtain ⟨e, he, hnew⟩ := hkept
    obtain ⟨file, hfile, hd⟩ := hadvanced.published he hnew
    refine ⟨some ⟨e⟩, reads_of_content (reads_holds hfile hd) hcheckpoint, fun k hk => ?_⟩
    obtain rfl := Option.some.inj hk
    exact (hwalked.recovered e he).1

theorem Visited.reads (h : Visited p s cp d₀ d₁ m st d) (hr : StorageProvider.Reads d₀ s cp) :
    StorageProvider.Reads d s cp := by
  obtain ⟨passed, rest, d₂, r, -, hpassed, hended⟩ := h.walk
  have hpassed := hpassed.frame (x := .checkpoint s) (by simp)
  refine reads_of_content (h.loaded.reads hr) (contentAt_of_same (hpassed.trans ?_))
  cases hended with
  | all => exact .refl _ _
  | missing => exact .refl _ _
  | incomplete => exact same_withPair (by simp) (by simp) _

omit [Crc32c] in
theorem Removed.reads (h : Removed st d d') (hr : StorageProvider.Reads d s cp) :
    StorageProvider.Reads d' s cp :=
  reads_of_content hr (contentAt_of_same (h.frame (by simp)))

/-- A checkpoint that is being published is the old one or backed. -/
theorem Walked.publishing {n : Nat} {tree : Tree} (h : Walked s cp st n d)
    (hr : StorageProvider.Reads d s cp) (he : st.recoveredEnd = some e)
    (hp : StorageProvider.Publishing p s d ⟨e⟩ tree) : ∃ d', On p s d' tree ∧ Safe s d' := by
  have hupdate : ∀ x o, (x = .checkpoint s ∨ x = .pending s) → ∀ d, Walked s cp st n d →
      Walked s cp st n (Function.update d x o) := by
    intro x o hx d h
    refine h.mono fun g _ _ => ⟨.update ?_ o, .update ?_ o⟩ <;> rcases hx with rfl | rfl <;> simp
  rcases hp with hon | ⟨stored, -, hon⟩ | ⟨file, hfile, hon⟩
  · exact ⟨d, hon, h.safe hr⟩
  · refine ⟨_, hon, (hupdate _ _ (.inr rfl) d h).safe (reads_of_content hr ?_)⟩
    rw [contentAt, contentAt, Function.update_of_ne (by simp)]
  · have hd := (hupdate _ (some ⟨file, false⟩) (.inl rfl) _ (hupdate _ none (.inr rfl) d h))
    refine ⟨_, hon, some ⟨e⟩, reads_holds hfile (Function.update_self _ _ _), fun k hk => ?_⟩
    obtain rfl := Option.some.inj hk
    exact (hd.recovered e he).1

theorem Interrupted.safe {x : Exit InitializationError} {tree : Tree}
    (h : Interrupted c p s cp d₀ x tree) (hr : StorageProvider.Reads d₀ s cp)
    (hcp : CheckpointBacked s cp d₀) : ∃ d', On p s d' tree ∧ Safe s d' := by
  cases h with
  | @loading d₁ _ _ loaded on =>
    exact ⟨d₁, on, cp, loaded.reads hr, fun k hk => loaded.backed (hcp k hk)⟩
  | @validating d₁ m _ _ loaded maximum covered exit =>
    obtain ⟨passed, f, rest, d₂, r₁, hfiles, hpassed, hexit⟩ := exit
    obtain ⟨hs, hn⟩ := filesFrom_eq_append covered hfiles
    have hfollowing := following_passed covered hfiles
    have hle : ∀ k ∈ cp, k.endLocation.logFileId.fileNumber.get ≤
        (firstFile s cp).fileNumber.get :=
      fun k hk => by rw [firstFile_of_mem s hk]
    have hbacking := hpassed.backing hfollowing hle (loaded.backing hcp)
    have hreads : StorageProvider.Reads d₂ s cp := reads_of_content (loaded.reads hr)
      (contentAt_of_same (hpassed.frame (by simp)))
    cases hexit with
    | missing log on => exact ⟨d₂, on, cp, hreads, hbacking.checkpoint⟩
    | validation log exit =>
      obtain ⟨-, d', ⟨hmending, -⟩, hon⟩ := exit
      refine ⟨d', hon, cp, reads_of_content hreads
        (contentAt_of_same (hmending.frame (by simp) (by simp))), ?_⟩
      exact hbacking.checkpoint.mending log
        (fun k hk => Nat.le_trans (hle k hk) (by omega)) hmending
  | @removing d₁ d₂ d₃ m st _ _ visited removing on =>
    obtain ⟨n, hwalked⟩ := visited.walked hcp
    obtain ⟨first, last, hfirst, -, hcleaned⟩ := removing
    refine ⟨d₃, on, (hwalked.cleaned hfirst hcleaned).safe (reads_of_content (visited.reads hr)
      (contentAt_of_same (hcleaned.outside _ fun f _ => ⟨by simp, by simp⟩)))⟩
  | publishing visited removed recovered new publishing =>
    obtain ⟨n, hwalked⟩ := visited.walked hcp
    exact (hwalked.removed removed).publishing (removed.reads (visited.reads hr)) recovered publishing
  | @preparing d₁ d₂ d₃ d₄ m st _ f _ visited removed advanced none_active new creating =>
    obtain ⟨n, hwalked⟩ := visited.walked hcp
    have hread := removed.reads (visited.reads hr)
    have hwalked₄ := (hwalked.removed removed).advanced advanced
    rcases creating with on | on
    · exact ⟨d₄, on, hwalked₄.safe_advanced hread advanced rfl⟩
    · refine ⟨_, on, (hwalked₄.created none_active new (.inl rfl)).safe_advanced hread
        advanced ?_⟩
      rw [contentAt, contentAt, StorageProvider.created, Function.update_of_ne (by simp)]

theorem Initialized.safe {i : InitializedStream} (h : Initialized p s cp d₀ i d)
    (hr : StorageProvider.Reads d₀ s cp) (hcp : CheckpointBacked s cp d₀) : Safe s d := by
  obtain ⟨visited, removed, advanced, prepared, -⟩ := h
  obtain ⟨n, hwalked⟩ := visited.walked hcp
  have hread := removed.reads (visited.reads hr)
  have hwalked₄ := (hwalked.removed removed).advanced advanced
  rcases prepared with ⟨-, -, rfl⟩ | ⟨none_active, f, new, -, -, rfl⟩
  · exact hwalked₄.safe_advanced hread advanced rfl
  · refine (hwalked₄.created none_active new (.inr rfl)).safe_advanced hread advanced ?_
    rw [contentAt, contentAt, StorageProvider.created, StorageProvider.created,
      Function.update_of_ne (by simp), Function.update_of_ne (by simp)]

/-- **The checkpoint never leads its data.**  Wherever an initialization stops, the
checkpoint on the disk is absent or backed, if the one that it began with was. -/
theorem checkpoint_never_leads {tree : Tree} {plan : Plan} {w : World Tree}
    {x : Except (Exit InitializationError) InitializedStream}
    (hr : StorageProvider.Reads d s cp) (hon : On p s d tree) (hcp : CheckpointBacked s cp d)
    (hrun : (initializeStream p s).run tree plan = (x, w)) :
    ∃ d', On p s d' w.sys ∧ Safe s d' := by
  have h := (initializeStream_triple hr ⟨tree, plan⟩ hon plan.within_any).2
  rw [Io.run] at hrun
  rw [hrun] at h
  cases x with
  | error e => exact h.safe hr hcp
  | ok i =>
    obtain ⟨d', hinitialized, hon'⟩ := h
    exact ⟨d', hon', hinitialized.safe hr hcp⟩

omit [Crc32c] [CheckpointReader] in
theorem checkpoint_never_leads_twice : letI := Crc32c.reference
    letI := CheckpointReader.canonical
    let p : StorageProvider := ⟨[]⟩
    let f : LogFileId := ⟨⟨0, by decide⟩, .min⟩
    let log := File.durable (encodings [Fills.firstRecord f] ++ [1, 2])
    ∃ x w x' w' d, (initializeStream p f.streamId).run
        (StorageProvider.pairTree p f log (.durable [1, 2, 3])) .calm = (x, w) ∧
      (initializeStream p f.streamId).run w.sys (.next .all (.next (.fault (.device 5)) .stop)) =
        (x', w') ∧ On p f.streamId d w'.sys ∧ Safe f.streamId d := by
  let _ := Crc32c.reference
  let _ := CheckpointReader.canonical
  intro p f log
  have hreads : StorageProvider.Reads (StorageProvider.pairDisk f log (.durable [1, 2, 3]))
      f.streamId none := StorageProvider.pairDisk_of_ne (by simp) (by simp) _ _
  obtain ⟨⟨x, w⟩, hrun⟩ : ∃ y, (initializeStream p f.streamId).run
      (StorageProvider.pairTree p f log (.durable [1, 2, 3])) .calm = y := ⟨_, rfl⟩
  obtain ⟨d, hon, cp, hread, hbacked⟩ := checkpoint_never_leads hreads
    (StorageProvider.on_pairTree p f log (.durable [1, 2, 3])) (by simp [CheckpointBacked]) hrun
  obtain ⟨⟨x', w'⟩, hrun'⟩ : ∃ y, (initializeStream p f.streamId).run w.sys
      (.next .all (.next (.fault (.device 5)) .stop)) = y := ⟨_, rfl⟩
  obtain ⟨d', hon', hsafe⟩ := checkpoint_never_leads hread hon hbacked hrun'
  exact ⟨x, w, x', w', d', hrun, hrun', hon', hsafe⟩

end StreamInitializer

end TransactionLog
