import TransactionLog.Streams.CheckpointSafety
import TransactionLog.Streams.ReadFailure
import TransactionLog.Streams.History

/-!
# Recovering a stream's history

`Consistent s H n d` says that the disk `d` has a prefix of the history `H`, with its
first `n` records durable: files follow one another without a gap, all but the last
one full, and each log has kept its part.  `Published` says that the checkpoint is one
of these records.

An initialization keeps both wherever it ends, since nothing of such a stream is ever
removed.  One that has ended has made everything durable that is still there.
-/

namespace TransactionLog

open Lib

namespace IndexedLogValidator

variable [Crc32c] {f : LogFileId} {t : Option RecordEndLocation} {log index l i : File}
  {base H : List Record} {n : Nat}

/-- Repairing a pair takes nothing durable from its log, wherever it stops. -/
theorem PairMending.kept (h : PairMending f t log index l i) (hkept : Kept H n f log)
    (hfills : Fills f (part f H)) (hc : Certified f t base log.content index.content) :
    Kept H n f l := by
  have hheld := hkept.le_held hfills
  have hle : LogFileValidator.keptLength f t log.content ≤ log.content.length := by
    rw [hc.keptLength_eq]
    exact (encodings_held_isPrefix f _).length_le
  have hcut : Kept H n f (log.resized (LogFileValidator.keptLength f t log.content)) := by
    refine hkept.resized ?_ hle
    rw [hc.keptLength_eq]
    exact (encodings_mono hheld).length_le
  have huntouched : ∀ {file file' : File}, Kept H n f file →
      LogFileValidator.Untouched file file' → Kept H n f file' := by
    rintro file _ hfile ⟨k, rfl⟩
    exact hfile.seekTo k
  cases h with
  | log hlog _ =>
    rcases hlog with hlog | ⟨-, -, hlog⟩
    · exact huntouched hkept hlog
    · exact huntouched hcut hlog
  | index _ hlog _ => exact huntouched hcut.synchronized hlog
  | done _ hlog _ => exact huntouched hcut.synchronized hlog

theorem Mending.stillLinked {p : StorageProvider} {d d' : Disk} {L : Stored}
    (h : Mending p f t d L d') (hL : d (.log f) = some L) (g : LogFileId) :
    StillLinked d d' (.log g) ∧ StillLinked d d' (.index g) := by
  by_cases hgf : g = f
  · subst hgf
    cases h with
    | unopened => exact ⟨(Same.refl d _).stillLinked, (Same.refl d _).stillLinked⟩
    | logOpened =>
      refine ⟨fun file hfile => ?_, (Same.update (by simp) _).stillLinked⟩
      obtain rfl := Option.some.inj (hL.symm.trans hfile)
      exact ⟨file.seekTo 0, Function.update_self _ _ _⟩
    | indexOpened =>
      refine ⟨fun file hfile => ?_, fun file hfile => ?_⟩
      · obtain rfl := Option.some.inj (hL.symm.trans hfile)
        refine ⟨file.seekTo 0, ?_⟩
        rw [StorageProvider.indexOpened, Function.update_of_ne (by simp), Function.update_self]
        rfl
      · refine ⟨file.seekTo 0, ?_⟩
        rw [StorageProvider.indexOpened, Function.update_self, Function.update_of_ne (by simp),
          hfile]
        rfl
    | @both l i => exact ⟨fun _ _ => ⟨l, withPair_log⟩, fun _ _ => ⟨i, withPair_index⟩⟩
  · exact ⟨(h.frame (by simpa using hgf) (by simp)).stillLinked,
      (h.frame (by simp) (by simpa using hgf)).stillLinked⟩

end IndexedLogValidator

namespace StreamInitializer

open IndexedLogValidator (withPair openedIndex same_withPair Mended Mending PairMending)

variable [Crc32c] {p : StorageProvider} {s : StreamId} {H H' : List Record} {n n' k : Nat}
  {d d' d₀ d₁ d₂ : Disk} {f g : LogFileId} {e : RecordEndLocation} {r r' : Option RecordEndLocation}
  {cp : Option StreamCheckpoint} {m : Option LogFileId} {files : List LogFileId}
  {st : InitializationState} {i : InitializedStream} {c : Mode}

/-- The disk has a prefix of the history, of which `n` records are durable. -/
structure Consistent (s : StreamId) (H : List Record) (n : Nat) (d : Disk) : Prop where
  consecutive : Consecutive s 0 H
  le : n ≤ H.length
  short : H.length < 2 ^ 64
  log : ∀ f L, f.streamId = s → d (.log f) = some L → Kept H n f L.file
  there : ∀ f : LogFileId, f.streamId = s → f.before < n → d (.log f) ≠ none
  reached : ∀ f : LogFileId, f.streamId = s → d (.log f) ≠ none → f.before ≤ n
  index : ∀ f : LogFileId, f.streamId = s → d (.index f) ≠ none → d (.log f) ≠ none

/-- Both entries of the first `k` pairs are durable. -/
def Linked (s : StreamId) (k : Nat) (d : Disk) : Prop :=
  ∀ f : LogFileId, f.streamId = s → f.fileNumber.get < k →
    ∃ log index, d (.log f) = some ⟨log, true⟩ ∧ d (.index f) = some ⟨index, true⟩

/-- How many records there are up to the endpoint. -/
def countThrough (e : RecordEndLocation) : Nat := e.recordId.sequenceNumber.get + 1

omit [Crc32c] in
theorem before_le_countThrough (e : RecordEndLocation) :
    e.logFileId.before < countThrough e ∧ countThrough e ≤ e.logFileId.before + recordsPerFile := by
  obtain ⟨-, h1, h2⟩ := LogFileId.fromRecordId_eq_iff.mp (Eq.refl e.logFileId)
  rw [LogFileId.before_eq, countThrough, recordsPerFile_eq]
  omega

/-! ### Logs of a consistent disk -/

namespace Consistent

theorem fills (h : Consistent s H n d) (hf : f.streamId = s) : Fills f (part f H) :=
  fills_part h.consecutive hf

theorem held_isPrefix (h : Consistent s H n d) (hf : f.streamId = s) : heldIn d f <+: part f H := by
  rw [heldIn]
  cases hL : d (.log f) with
  | none => exact List.nil_prefix
  | some L => exact (h.log f L hf hL).held_isPrefix

theorem le_held (h : Consistent s H n d) (hf : f.streamId = s) :
    part f (H.take n) <+: heldIn d f := by
  rw [heldIn]
  cases hL : d (.log f) with
  | none =>
    have hle : n ≤ f.before := Nat.le_of_not_lt fun hlt => h.there f hf hlt hL
    rw [part_eq_nil (Nat.le_trans (List.length_take_le _ _) hle)]
    exact List.nil_prefix
  | some L => exact (h.log f L hf hL).le_held (h.fills hf)

/-- A file that ends within the durable records is full. -/
theorem heldIn_eq (h : Consistent s H n d) (hf : f.streamId = s)
    (hn : f.before + recordsPerFile ≤ n) :
    heldIn d f = part f H ∧ (heldIn d f).length = recordsPerFile := by
  have hlen := length_part_of_le (Nat.le_trans hn h.le)
  have hle := h.le_held hf
  rw [part_take_of_le hn] at hle
  have heq := (h.held_isPrefix hf).eq_of_length_le hle.length_le
  exact ⟨heq, heq ▸ hlen⟩

theorem before_le (h : Consistent s H n d) (hf : f.streamId = s) (hlog : d (.log f) ≠ none) :
    f.before + (heldIn d f).length ≤ H.length :=
  before_add_length_le (h.held_isPrefix hf) (Nat.le_trans (h.reached f hf hlog) h.le)

/-- A file before one that is there ends within the durable records. -/
theorem before_of_lt (h : Consistent s H n d) (hg : g.streamId = s) (hlog : d (.log g) ≠ none)
    (hlt : f.fileNumber.get < g.fileNumber.get) : f.before + recordsPerFile ≤ n :=
  Nat.le_trans (LogFileId.before_add_le hlt) (h.reached g hg hlog)

/-- A longer history has the same disk. -/
theorem extend (h : Consistent s H n d) (hH : H <+: H') (hconsecutive : Consecutive s 0 H')
    (hshort : H'.length < 2 ^ 64) : Consistent s H' n d :=
  { h with
    consecutive := hconsecutive
    le := Nat.le_trans h.le hH.length_le
    short := hshort
    log := fun f L hf hL => (h.log f L hf hL).extend h.le hH }

/-- One pair has changed, and perhaps more of its log is durable. -/
theorem change (h : Consistent s H n d) (hf : f.streamId = s)
    (hsame : ∀ g, g ≠ f → Same d d' (.log g) ∧ Same d d' (.index g)) {L : Stored}
    (hL : d' (.log f) = some L) (hkept : Kept H n' f L.file) (hbefore : f.before ≤ n)
    (hn : n ≤ n') (hle : n' ≤ H.length) (hlast : n' = n ∨ n' ≤ f.before + recordsPerFile) :
    Consistent s H n' d' := by
  -- the files after this one are there only if nothing more became durable
  have hpart : ∀ g : LogFileId, g ≠ f → g.streamId = s → g.before ≤ n →
      part g (H.take n') = part g (H.take n) := by
    intro g hgf hg hgn
    rcases Nat.lt_trichotomy g.fileNumber.get f.fileNumber.get with hlt | heq | hgt
    · have := LogFileId.before_add_le hlt
      rw [part_take_of_le (by omega), part_take_of_le (by omega)]
    · exact absurd (LogFileId.ext' (hg.trans hf.symm) heq) hgf
    · have := LogFileId.before_add_le hgt
      rw [show n' = n by omega]
  refine ⟨h.consecutive, hle, h.short, fun g L' hg hL' => ?_, fun g hg hlt => ?_, fun g hg hlog => ?_,
    fun g hg hindex => ?_⟩
  · by_cases hgf : g = f
    · subst hgf
      obtain rfl := Option.some.inj (hL.symm.trans hL')
      exact hkept
    · obtain ⟨hlog, -⟩ := hsame g hgf
      obtain ⟨L₀, hL₀, hfile⟩ := hlog.exists_before hL'
      have hold := h.log g L₀ hg hL₀
      rw [← hfile] at hold
      refine ⟨hold.content, hold.accepted, ?_⟩
      rw [hpart g hgf hg (h.reached g hg (by simp [hL₀]))]
      exact hold.durable
  · by_cases hgf : g = f
    · subst hgf
      simp [hL]
    · refine fun hnone => h.there g hg ?_ ((hsame g hgf).1.none_iff.mp hnone)
      rcases Nat.lt_trichotomy g.fileNumber.get f.fileNumber.get with hlt' | heq | hgt
      · have := LogFileId.before_add_le hlt'
        rw [recordsPerFile_eq] at this
        omega
      · exact absurd (LogFileId.ext' (hg.trans hf.symm) heq) hgf
      · have := LogFileId.before_add_le hgt
        omega
  · by_cases hgf : g = f
    · subst hgf
      exact Nat.le_trans hbefore hn
    · refine Nat.le_trans (h.reached g hg fun hnone => hlog ?_) hn
      exact (hsame g hgf).1.none_iff.mpr hnone
  · by_cases hgf : g = f
    · subst hgf
      simp [hL]
    · obtain ⟨hlog, hindexSame⟩ := hsame g hgf
      refine fun hnone => h.index g hg (fun hno => hindex (hindexSame.none_iff.mpr hno)) ?_
      exact hlog.none_iff.mp hnone

/-- No pair has changed. -/
theorem of_same (h : Consistent s H n d)
    (hsame : ∀ g : LogFileId, Same d d' (.log g) ∧ Same d d' (.index g)) : Consistent s H n d' := by
  refine ⟨h.consecutive, h.le, h.short, fun g L hg hL => ?_, fun g hg hlt hnone => ?_,
    fun g hg hlog => ?_, fun g hg hindex hnone => ?_⟩
  · obtain ⟨L₀, hL₀, hfile⟩ := (hsame g).1.exists_before hL
    rw [hfile]
    exact h.log g L₀ hg hL₀
  · exact h.there g hg hlt ((hsame g).1.none_iff.mp hnone)
  · exact h.reached g hg fun hnone => hlog ((hsame g).1.none_iff.mpr hnone)
  · exact h.index g hg (fun hno => hindex ((hsame g).2.none_iff.mpr hno))
      ((hsame g).1.none_iff.mp hnone)

end Consistent

/-! ### The checkpoint of a consistent disk -/

omit [Crc32c] in
theorem Linked.mono (h : Linked s k d) (hlinked : ∀ g : LogFileId, g.streamId = s →
    g.fileNumber.get < k → StillLinked d d' (.log g) ∧ StillLinked d d' (.index g)) :
    Linked s k d' := by
  intro g hg hlt
  obtain ⟨log, index, hlog, hindex⟩ := h g hg hlt
  obtain ⟨hstillLog, hstillIndex⟩ := hlinked g hg hlt
  obtain ⟨log', hlog'⟩ := hstillLog log hlog
  obtain ⟨index', hindex'⟩ := hstillIndex index hindex
  exact ⟨log', index', hlog', hindex'⟩

omit [Crc32c] in
/-- The entries of a pair that was opened are durable, and others stay so. -/
theorem stillLinked_withPair (q : Path) (l i : File) (g : LogFileId) :
    StillLinked d (withPair (d.link p q) f l i) (.log g) ∧
      StillLinked d (withPair (d.link p q) f l i) (.index g) := by
  by_cases hgf : g = f
  · subst hgf
    exact ⟨fun _ _ => ⟨l, IndexedLogValidator.withPair_log⟩,
      fun _ _ => ⟨i, IndexedLogValidator.withPair_index⟩⟩
  · obtain ⟨hlog, hindex⟩ := IndexedLogValidator.same_files_withPair hgf q
    exact ⟨hlog.stillLinked, hindex.stillLinked⟩

/-- Files before an endpoint among the durable records are full. -/
theorem Consistent.fullBefore (h : Consistent s H n d) (hle : countThrough e ≤ n) :
    FullBefore s e.logFileId.fileNumber.get d := by
  intro g hg hlt
  have hbefore := LogFileId.before_add_le (f := g) (g := e.logFileId) hlt
  have hcount := (before_le_countThrough e).1
  exact (h.heldIn_eq hg (by omega)).2

variable [CheckpointReader]

/-- The checkpoint that would be read next: all of it is durable, it is one of the first
`n` records, and so are the entries of the pairs up to its own. -/
structure Published (s : StreamId) (n : Nat) (cp : Option StreamCheckpoint) (d : Disk) : Prop where
  reads : StorageProvider.Reads d s cp
  whole : ∀ st, d (.checkpoint s) = some st → st.file.synced = st.file.content.length
  stream : ∀ k ∈ cp, k.endLocation.recordId.streamId = s
  pair : ∀ k ∈ cp, PairBacked k.endLocation d
  le : ∀ k ∈ cp, countThrough k.endLocation ≤ n
  linked : ∀ k ∈ cp, Linked s (k.endLocation.logFileId.fileNumber.get + 1) d

theorem Published.backed (h : Published s n cp d) (hc : Consistent s H n d) :
    CheckpointBacked s cp d :=
  fun k hk => ⟨h.stream k hk, hc.fullBefore (h.le k hk), h.pair k hk⟩

/-- What is known while an initialization goes on: the recovered end is durable as well,
and so are the entries of the first `k` pairs. -/
structure Progress (s : StreamId) (H : List Record) (n : Nat) (cp : Option StreamCheckpoint)
    (r : Option RecordEndLocation) (k : Nat) (d : Disk) : Prop where
  consistent : Consistent s H n d
  published : Published s n cp d
  linked : Linked s k d
  recovered : ∀ e, r = some e → Backed s e d ∧ countThrough e ≤ n ∧ e.logFileId.fileNumber.get < k

theorem Progress.backed (h : Progress s H n cp r k d) : CheckpointBacked s cp d :=
  h.published.backed h.consistent

/-- Changes that keep what the checkpoint needs keep it published. -/
theorem Published.mono (h : Published s n cp d) (hn : n ≤ n')
    (hcheckpoint : Same d d' (.checkpoint s)) (hpair : ∀ k ∈ cp, PairBacked k.endLocation d')
    (hlinked : ∀ g : LogFileId, g.streamId = s →
      StillLinked d d' (.log g) ∧ StillLinked d d' (.index g)) : Published s n' cp d' where
  reads := reads_of_content h.reads (contentAt_of_same hcheckpoint)
  whole st hst := by
    obtain ⟨st₀, hst₀, hfile⟩ := hcheckpoint.exists_before hst
    rw [hfile]
    exact h.whole st₀ hst₀
  stream := h.stream
  pair := hpair
  le k hk := Nat.le_trans (h.le k hk) hn
  linked k hk := (h.linked k hk).mono fun g hg _ => hlinked g hg

/-- Recovering the next pair makes all of its records durable. -/
theorem Progress.mended (h : Progress s H n cp r k d) (hf : f.streamId = s)
    (hk : f.fileNumber.get = k) {L : Stored} (hL : d (.log f) = some L) {l i : File}
    {x : ValidatedFilePair} (hmended : Mended f
      (trustedAt (cp.map StreamCheckpoint.endLocation) f) L.opened.file (openedIndex d f) l i x)
    (hle : ∀ c ∈ cp, c.endLocation.logFileId.fileNumber.get ≤ k) :
    ∃ n', n ≤ n' ∧ f.before + (heldIn d f).length ≤ n' ∧
      Progress s H n' cp ((endOf (heldIn d f)).or r) (k + 1)
        (withPair (d.link p (p.leafDirectory f)) f l i) := by
  have hc := h.consistent
  have hcp := h.backed
  have hcertifies := hcp.certifies
  have hmending : Mending p f (trustedAt (cp.map StreamCheckpoint.endLocation) f) d L
      (withPair (d.link p (p.leafDirectory f)) f l i) := .both hmended.pairMending
  have hlog : d (.log f) ≠ none := by simp [hL]
  have hbefore := hc.reached f hf hlog
  have hheld := hc.held_isPrefix hf
  have hfills := (hc.fills hf).of_isPrefix hheld
  obtain ⟨⟨⟨a, hl⟩, b, hi⟩, -⟩ := hcertifies.exactly hL hmended
  have hsame : ∀ g, g ≠ f → Same d (withPair (d.link p (p.leafDirectory f)) f l i) (.log g) ∧
      Same d (withPair (d.link p (p.leafDirectory f)) f l i) (.index g) :=
    fun g hgf => IndexedLogValidator.same_files_withPair hgf _
  have hkept : Kept H (max n (f.before + (heldIn d f).length)) f l := by
    rw [hl]
    refine (Kept.of_durable hheld ?_).seekTo a
    rcases Nat.le_total n (f.before + (heldIn d f).length) with hn | hn
    · rw [Nat.max_eq_right hn, part_take_length hheld]
    · rw [Nat.max_eq_left hn]
      exact hc.le_held hf
  have hconsistent := hc.change hf hsame IndexedLogValidator.withPair_log hkept hbefore
    (Nat.le_max_left _ _) (Nat.max_le.mpr ⟨hc.le, hc.before_le hf hlog⟩) (by
      have := hfills.length_le
      omega)
  have hlinked : Linked s (k + 1) (withPair (d.link p (p.leafDirectory f)) f l i) := by
    intro g hg hlt
    by_cases hgf : g = f
    · subst hgf
      exact ⟨l, i, IndexedLogValidator.withPair_log, IndexedLogValidator.withPair_index⟩
    · have hne : g.fileNumber.get ≠ k := fun heq =>
        hgf (LogFileId.ext' (hg.trans hf.symm) (heq.trans hk.symm))
      exact (h.linked.mono fun g _ _ => stillLinked_withPair _ l i g) g hg (by omega)
  refine ⟨_, Nat.le_max_left _ _, Nat.le_max_right _ _, hconsistent, h.published.mono
    (Nat.le_max_left _ _) (same_withPair (by simp) (by simp) _)
    (fun c hc' => ((hcp c hc').mending hL (hk ▸ hle c hc')
      (fun hcf => trustedAt_eq_some.mpr ⟨Option.mem_def.mp hc', hcf⟩) hmending).pair)
    (fun g _ => stillLinked_withPair _ l i g), hlinked, fun e he => ?_⟩
  cases hend : endOf (heldIn d f) with
  | none =>
    rw [hend, Option.none_or] at he
    obtain ⟨hbacked, hcount, hlt⟩ := h.recovered e he
    refine ⟨hbacked.of_same fun g _ hge => hsame g ?_, Nat.le_trans hcount (Nat.le_max_left _ _),
      Nat.lt_succ_of_lt hlt⟩
    rintro rfl
    omega
  | some e' =>
    rw [hend, Option.some_or] at he
    obtain rfl := Option.some.inj he
    obtain ⟨hbacked, hfile⟩ := hcertifies.backed (p := p) hL hmended hf (fun g hg hlt =>
      (hc.heldIn_eq hg (hc.before_of_lt hf hlog hlt)).2) hend
    obtain ⟨-, -, hcount, -⟩ := hfills.endOf_eq_some hend
    rw [f.first_sequence] at hcount
    refine ⟨hbacked, ?_, by rw [hfile, hk]; exact Nat.lt_succ_self k⟩
    rw [countThrough, hcount]
    exact Nat.le_max_right _ _

theorem Passed.progress (h : Passed p (cp.map StreamCheckpoint.endLocation) d r files d' r') :
    ∀ {k n : Nat}, Following s k files → (∀ c ∈ cp, c.endLocation.logFileId.fileNumber.get ≤ k) →
      k * recordsPerFile ≤ n → Progress s H n cp r k d →
      ∃ n', n ≤ n' ∧ (k + files.length) * recordsPerFile ≤ n' ∧
        Progress s H n' cp r' (k + files.length) d' := by
  induction h with
  | nil => exact fun _ _ hn h => ⟨_, Nat.le_refl _, hn, h⟩
  | @cons d d' r r' f files L l i e hlog hmended rest ih =>
    intro k n hfollowing hle hbefore hprogress
    obtain ⟨hs, hn⟩ := hfollowing.head
    obtain ⟨n₁, hn₁, hcount, hprogress₁⟩ := hprogress.mended (p := p) hs hn hlog hmended hle
    have hcertifies := hprogress.backed.certifies
    have hend : endOf (heldIn d f) = some e := by
      rw [← hcertifies.endIn_eq hlog, endIn, hlog]
      exact hmended.complete.2.2.1
    have hfull : (heldIn d f).length = recordsPerFile := by
      rw [hcertifies.length_heldIn hlog]
      exact hmended.complete.2.2.2
    rw [hend, Option.some_or] at hprogress₁
    rw [hfull, LogFileId.before, hn, ← Nat.succ_mul] at hcount
    obtain ⟨n₂, hn₂, hcount₂, hprogress₂⟩ := ih hfollowing.tail
      (fun c hc => Nat.le_succ_of_le (hle c hc)) hcount hprogress₁
    rw [List.length_cons, ← Nat.add_assoc, Nat.add_right_comm]
    exact ⟨n₂, Nat.le_trans hn₁ hn₂, hcount₂, hprogress₂⟩

theorem Loaded.published (h : Loaded s d d') (hp : Published s n cp d) : Published s n cp d' where
  reads := h.reads hp.reads
  whole st hst := by
    rcases h with rfl | ⟨k, rfl⟩
    · exact hp.whole st hst
    · rw [StorageProvider.moved, Function.update_self, Option.map_eq_some_iff] at hst
      obtain ⟨st₀, hst₀, rfl⟩ := hst
      exact hp.whole st₀ hst₀
  stream := hp.stream
  pair k hk := (hp.pair k hk).of_same (.inl (h.log _)) (.inl (h.index _))
  le := hp.le
  linked k hk := (hp.linked k hk).mono fun g _ _ =>
    ⟨Same.stillLinked (.inl (h.log g)), Same.stillLinked (.inl (h.index g))⟩

/-- What is known when the validation begins. -/
theorem Loaded.progress (h : Loaded s d d') (hc : Consistent s H n d) (hp : Published s n cp d) :
    Progress s H n cp none (firstFile s cp).fileNumber.get d' := by
  have hpublished := h.published hp
  refine ⟨hc.of_same fun g => ⟨.inl (h.log g), .inl (h.index g)⟩, hpublished, ?_,
    fun e he => nomatch he⟩
  cases cp with
  | none => exact fun g _ hlt => absurd hlt (Nat.not_lt_zero _)
  | some k => exact fun g hg hlt => hpublished.linked k rfl g hg (Nat.lt_succ_of_lt hlt)

omit [Crc32c] [CheckpointReader] in
/-- The files before the first one to validate are among the durable records. -/
theorem firstFile_before_le (hle : ∀ k ∈ cp, countThrough k.endLocation ≤ n) :
    (firstFile s cp).fileNumber.get * recordsPerFile ≤ n := by
  cases cp with
  | none => exact Nat.le_trans (Nat.le_of_eq (Nat.zero_mul _)) (Nat.zero_le n)
  | some k =>
    exact Nat.le_trans (Nat.le_of_lt (before_le_countThrough k.endLocation).1) (hle k rfl)

/-- What is known after the files that were passed. -/
theorem Passed.progress_from {passed rest : List LogFileId} (h : Passed p
      (cp.map StreamCheckpoint.endLocation) d₁ none passed d₂ r)
    (hloaded : Loaded s d₀ d₁) (hcov : Covered s cp m)
    (hfiles : filesFrom (firstFile s cp) m = passed ++ rest) (hc : Consistent s H n d₀)
    (hp : Published s n cp d₀) :
    ∃ n', n ≤ n' ∧ ((firstFile s cp).fileNumber.get + passed.length) * recordsPerFile ≤ n' ∧
      Progress s H n' cp r ((firstFile s cp).fileNumber.get + passed.length) d₂ := by
  refine h.progress (following_passed hcov hfiles) (fun k hk => ?_) (firstFile_before_le hp.le)
    (hloaded.progress hc hp)
  rw [firstFile_of_mem s hk]

/-- The walk over a consistent stream finds nothing to remove. -/
theorem Visited.nothing_to_remove (h : Visited p s cp d₀ d₁ m st d) (hc : Consistent s H n d₀)
    (hp : Published s n cp d₀) : st.firstFileToRemove = none := by
  have hcov := h.covered
  obtain ⟨passed, rest, d₂, r, hfiles, hpassed, hended⟩ := h.walk
  obtain ⟨n₂, -, -, hprogress⟩ := hpassed.progress_from h.loaded hcov hfiles hc hp
  have hc₂ := hprogress.consistent
  -- a file before the maximum is there and full
  have hbelow : ∀ f last, f ∈ rest → m = some last → f.fileNumber.get ≠ last.fileNumber.get →
      f.streamId = s ∧ f.before + recordsPerFile ≤ n₂ := by
    intro f last hf hlast hne
    obtain ⟨last', hlast', hstream, -, hfle⟩ :=
      (mem_filesFrom hcov).mp (hfiles ▸ List.mem_append_right passed hf)
    obtain rfl := Option.some.inj (hlast.symm.trans hlast')
    have hmax := h.maximum
    rw [hlast] at hmax
    exact ⟨hstream.trans hcov.firstFile_stream, hc₂.before_of_lt hmax.1 (hpassed.ne_none hmax.2.1)
      (Nat.lt_of_le_of_ne hfle hne)⟩
  cases hended with
  | all => rfl
  | @missing f rest log =>
    obtain ⟨last, hlast, -⟩ :=
      (mem_filesFrom hcov).mp (hfiles ▸ List.mem_append_right passed List.mem_cons_self)
    have hmax := h.maximum
    rw [hlast] at hmax
    have hne : f.fileNumber.get ≠ last.fileNumber.get := by
      intro heq
      obtain ⟨hs, -⟩ := filesFrom_eq_append hcov hfiles
      obtain rfl : f = last := LogFileId.ext' (hs.trans hmax.1.symm) heq
      exact hpassed.ne_none hmax.2.1 log
    obtain ⟨hs, hbefore⟩ := hbelow f last List.mem_cons_self hlast hne
    exact absurd log (hc₂.there f hs (by rw [recordsPerFile_eq] at hbefore; omega))
  | @incomplete f rest L l i o log mended =>
    by_cases hmax : some f = (discovered s cp m).maximumLogFile
    · exact if_pos hmax
    · obtain ⟨last, hlast, -⟩ :=
        (mem_filesFrom hcov).mp (hfiles ▸ List.mem_append_right passed List.mem_cons_self)
      have hmaximum := h.maximum
      rw [hlast] at hmaximum
      have hne : f.fileNumber.get ≠ last.fileNumber.get := by
        intro heq
        obtain ⟨hs, -⟩ := filesFrom_eq_append hcov hfiles
        obtain rfl : f = last := LogFileId.ext' (hs.trans hmaximum.1.symm) heq
        exact hmax hlast.symm
      obtain ⟨hs, hbefore⟩ := hbelow f last List.mem_cons_self hlast hne
      have hfull := (hc₂.heldIn_eq hs hbefore).2
      rw [hprogress.backed.certifies.length_heldIn log] at hfull
      exact absurd hfull (Nat.ne_of_lt mended.incomplete.2)

/-- What is known after the walk. -/
theorem Visited.progress (h : Visited p s cp d₀ d₁ m st d) (hc : Consistent s H n d₀)
    (hp : Published s n cp d₀) : ∃ n' k, n ≤ n' ∧ Progress s H n' cp st.recoveredEnd k d ∧
      (st.activePair = none → ∀ f, newFile st = some f →
        f.streamId = s ∧ d (.log f) = none ∧ f.before = n') := by
  have hcov := h.covered
  by_cases hactive : st.activePair = none
  · obtain ⟨f, passed, rest, hnew, hs, hn, hfiles, -, hlog, -, -, hpassed⟩ := h.new_file hactive
    obtain ⟨n₂, hn₂, hbefore, hprogress⟩ := hpassed.progress_from h.loaded hcov hfiles hc hp
    refine ⟨n₂, _, hn₂, hprogress, fun _ f' hf' => ?_⟩
    obtain rfl := Option.some.inj (hnew.symm.trans hf')
    rw [← hn] at hbefore
    refine ⟨hs, hlog, Nat.le_antisymm hbefore (Nat.le_of_not_lt fun hlt => ?_)⟩
    exact hprogress.consistent.there f hs hlt hlog
  · obtain ⟨passed, rest, d₂, r, hfiles, hpassed, hended⟩ := h.walk
    obtain ⟨n₂, hn₂, -, hprogress⟩ := hpassed.progress_from h.loaded hcov hfiles hc hp
    cases hended with
    | all => exact absurd rfl hactive
    | missing => exact absurd rfl hactive
    | @incomplete f rest L l i o log mended =>
      obtain ⟨hs, hn⟩ := filesFrom_eq_append hcov hfiles
      obtain ⟨n₃, hn₃, -, hprogress₃⟩ := hprogress.mended (p := p) hs hn log mended
        fun c hc => by rw [firstFile_of_mem s hc]; exact Nat.le_add_right _ _
      have hend : endOf (heldIn d₂ f) = o := by
        rw [← hprogress.backed.certifies.endIn_eq log, endIn, log]
        exact mended.incomplete.1.symm
      rw [hend] at hprogress₃
      exact ⟨n₃, _, Nat.le_trans hn₂ hn₃, hprogress₃, fun hnone => absurd hnone hactive⟩

/-! ### After the walk -/

/-- The recovered end, once it is published. -/
theorem Progress.publishes (h : Progress s H n cp r k d) (hr : r = some e) {file : File} {b : Bool}
    (hfile : StorageProvider.Holds ⟨e⟩ file) (hd' : d' (.checkpoint s) = some ⟨file, b⟩)
    (hsame : ∀ g : LogFileId, Same d d' (.log g) ∧ Same d d' (.index g)) :
    Published s n (some ⟨e⟩) d' := by
  obtain ⟨hbacked, hcount, hlt⟩ := h.recovered e hr
  refine ⟨reads_holds hfile hd', fun st hst => ?_, fun k' hk => ?_, fun k' hk => ?_, fun k' hk => ?_,
    fun k' hk => ?_⟩
  · obtain rfl := Option.some.inj (hd'.symm.trans hst)
    exact hfile.2
  all_goals obtain rfl := Option.some.inj hk
  · exact hbacked.stream
  · exact hbacked.pair.of_same (hsame _).1 (hsame _).2
  · exact hcount
  · intro g hg hg'
    refine (h.linked.mono fun g _ _ => ?_) g hg (Nat.lt_of_lt_of_le hg' hlt)
    exact ⟨(hsame g).1.stillLinked, (hsame g).2.stillLinked⟩

omit [Crc32c] [CheckpointReader] in
theorem eq_of_removed (h : Removed st d d') (hnone : st.firstFileToRemove = none) : d' = d := by
  rw [Removed, hnone] at h
  exact h

theorem Advanced.published_progress (h : Advanced p s st d d')
    (hp : Progress s H n cp st.recoveredEnd k d) : ∃ cp', Published s n cp' d' := by
  by_cases hkept : ∀ e, st.recoveredEnd = some e → st.checkpoint = some ⟨e⟩
  · rw [h.kept hkept]
    exact ⟨cp, hp.published⟩
  · simp only [not_forall] at hkept
    obtain ⟨e, he, hnew⟩ := hkept
    obtain ⟨file, hfile, hd⟩ := h.published he hnew
    exact ⟨_, hp.publishes he hfile hd h.frame_files⟩

/-- An empty pair after all durable records changes nothing. -/
theorem Consistent.created (h : Consistent s H n d) (hp : Published s n cp d) (hs : f.streamId = s)
    (hlog : d (.log f) = none) (hbefore : f.before = n)
    (hd' : d' = StorageProvider.created d (.log f) ∨
      d' = StorageProvider.created (StorageProvider.created d (.log f)) (.index f)) :
    Consistent s H n d' ∧ Published s n cp d' := by
  have hindex : d (.index f) = none := by
    by_contra hne
    exact h.index f hs hne hlog
  have hothers : ∀ g, g ≠ f → Same d d' (.log g) ∧ Same d d' (.index g) := fun g =>
    StorageProvider.same_files_created hd'
  refine ⟨h.change hs hothers (StorageProvider.created_log hd')
    (.empty f H (Nat.le_of_eq hbefore.symm)) (Nat.le_of_eq hbefore) (Nat.le_refl n) h.le (.inl rfl),
    hp.mono (Nat.le_refl n) (StorageProvider.same_created hd' (by simp) (by simp))
    (fun k hk => ?_) fun g _ => ?_⟩
  · have hne : k.endLocation.logFileId ≠ f := by
      intro hkf
      have hcount := (before_le_countThrough k.endLocation).1
      have hle := hp.le k hk
      rw [hkf] at hcount
      omega
    exact (hp.pair k hk).of_same (hothers _ hne).1 (hothers _ hne).2
  · by_cases hgf : g = f
    · subst hgf
      refine ⟨fun file hfile => ?_, fun file hfile => ?_⟩
      · rw [hlog] at hfile
        cases hfile
      · rw [hindex] at hfile
        cases hfile
    · exact ⟨(hothers g hgf).1.stillLinked, (hothers g hgf).2.stillLinked⟩

/-- A repair that ended early. -/
theorem Progress.mending (h : Progress s H n cp r k d) (hf : f.streamId = s) {L : Stored}
    (hL : d (.log f) = some L) (hle : ∀ c ∈ cp, c.endLocation.logFileId.fileNumber.get ≤
      f.fileNumber.get)
    (hmending : Mending p f (trustedAt (cp.map StreamCheckpoint.endLocation) f) d L d') :
    Consistent s H n d' ∧ Published s n cp d' := by
  have hc := h.consistent
  have hkept := hc.log f L hf hL
  have hbefore := hc.reached f hf (by simp [hL])
  obtain ⟨base, hcertified⟩ := h.backed.certifies.certified hL
  have hsame : ∀ g, g ≠ f → Same d d' (.log g) ∧ Same d d' (.index g) := fun g hgf =>
    ⟨hmending.frame (by simpa using hgf) (by simp), hmending.frame (by simp) (by simpa using hgf)⟩
  have hfiles : ∃ L', d' (.log f) = some L' ∧ Kept H n f L'.file := by
    cases hmending with
    | unopened => exact ⟨L, hL, hkept⟩
    | logOpened => exact ⟨_, Function.update_self _ _ _, hkept.seekTo 0⟩
    | indexOpened =>
      refine ⟨L.opened, ?_, hkept.seekTo 0⟩
      rw [StorageProvider.indexOpened, Function.update_of_ne (by simp), Function.update_self]
    | @both l i hpair =>
      exact ⟨_, IndexedLogValidator.withPair_log, hpair.kept (hkept.seekTo 0) (hc.fills hf)
        hcertified⟩
  obtain ⟨L', hL', hkept'⟩ := hfiles
  refine ⟨hc.change hf hsame hL' hkept' hbefore (Nat.le_refl n) hc.le (.inl rfl), h.published.mono
    (Nat.le_refl n) (hmending.frame (by simp) (by simp))
    (fun c hc' => (h.backed.mending hL hle hmending c hc').pair) fun g _ => hmending.stillLinked hL g⟩

/-! ### Wherever an initialization ends -/

/-- **An initialization that ended early** has lost nothing durable. -/
theorem Interrupted.consistent {x : Exit InitializationError} {tree : Tree}
    (h : Interrupted c p s cp d₀ x tree) (hc : Consistent s H n d₀) (hp : Published s n cp d₀) :
    ∃ n' cp' d', n ≤ n' ∧ On p s d' tree ∧ Consistent s H n' d' ∧ Published s n' cp' d' := by
  cases h with
  | @loading d₁ _ _ loaded on =>
    exact ⟨n, cp, d₁, Nat.le_refl n, on, (loaded.progress hc hp).consistent, loaded.published hp⟩
  | @validating d₁ m _ _ loaded maximum covered exit =>
    obtain ⟨passed, f, rest, d₂, r₁, hfiles, hpassed, hexit⟩ := exit
    obtain ⟨hs, hn⟩ := filesFrom_eq_append covered hfiles
    obtain ⟨n₂, hn₂, -, hprogress⟩ := hpassed.progress_from loaded covered hfiles hc hp
    cases hexit with
    | missing log on => exact ⟨n₂, cp, d₂, hn₂, on, hprogress.consistent, hprogress.published⟩
    | validation log exit =>
      obtain ⟨-, d', ⟨hmending, -⟩, hon⟩ := exit
      obtain ⟨hc', hp'⟩ := hprogress.mending hs log (fun k hk => by
        rw [firstFile_of_mem s hk]
        omega) hmending
      exact ⟨n₂, cp, d', hn₂, hon, hc', hp'⟩
  | @removing d₁ d₂ d₃ m st _ _ visited removing on =>
    obtain ⟨first, last, hfirst, -⟩ := removing
    rw [visited.nothing_to_remove hc hp] at hfirst
    cases hfirst
  | @publishing d₁ d₂ d₃ m st _ e _ visited removed recovered new publishing =>
    obtain ⟨n', k, hn', hprogress, -⟩ := visited.progress hc hp
    obtain rfl := eq_of_removed removed (visited.nothing_to_remove hc hp)
    have hupdate : ∀ x o, (x = .checkpoint s ∨ x = .pending s) → ∀ d (g : LogFileId),
        Same d (Function.update d x o) (.log g) ∧ Same d (Function.update d x o) (.index g) := by
      intro x o hx d g
      constructor <;> refine .update ?_ o <;> rcases hx with rfl | rfl <;> simp
    rcases publishing with hon | ⟨stored, -, hon⟩ | ⟨file, hfile, hon⟩
    · exact ⟨n', cp, _, hn', hon, hprogress.consistent, hprogress.published⟩
    · have hsame := hupdate _ (some stored) (.inr rfl) d₃
      refine ⟨n', cp, _, hn', hon, hprogress.consistent.of_same hsame, hprogress.published.mono
        (Nat.le_refl n') (.update (by simp) _) (fun k hk => (hprogress.published.pair k hk).of_same
          (hsame _).1 (hsame _).2) fun g _ => ⟨(hsame g).1.stillLinked, (hsame g).2.stillLinked⟩⟩
    · have hsame : ∀ g : LogFileId, Same d₃ (StorageProvider.published d₃ s file) (.log g) ∧
          Same d₃ (StorageProvider.published d₃ s file) (.index g) := fun g =>
        ⟨(hupdate _ none (.inr rfl) d₃ g).1.trans (hupdate _ _ (.inl rfl) _ g).1,
          (hupdate _ none (.inr rfl) d₃ g).2.trans (hupdate _ _ (.inl rfl) _ g).2⟩
      exact ⟨n', _, _, hn', hon, hprogress.consistent.of_same hsame,
        hprogress.publishes recovered hfile (Function.update_self _ _ _) hsame⟩
  | @preparing d₁ d₂ d₃ d₄ m st _ f _ visited removed advanced none_active new creating =>
    obtain ⟨n', k, hn', hprogress, hnew⟩ := visited.progress hc hp
    obtain ⟨hs, hlog, hbefore⟩ := hnew none_active f new
    obtain rfl := eq_of_removed removed (visited.nothing_to_remove hc hp)
    obtain ⟨cp', hp'⟩ := advanced.published_progress hprogress
    have hc' := hprogress.consistent.of_same fun g =>
      ⟨advanced.frame (x := .log g) (by simp) (by simp),
        advanced.frame (x := .index g) (by simp) (by simp)⟩
    have hlog' := (advanced.frame (x := .log f) (by simp) (by simp)).none_iff.mpr hlog
    rcases creating with on | on
    · exact ⟨n', cp', d₄, hn', on, hc', hp'⟩
    · obtain ⟨hc'', hp''⟩ := hc'.created hp' hs hlog' hbefore (.inl rfl)
      exact ⟨n', cp', _, hn', on, hc'', hp''⟩

theorem Initialized.consistent (h : Initialized p s cp d₀ i d) (hc : Consistent s H n d₀)
    (hp : Published s n cp d₀) :
    ∃ n' cp', n ≤ n' ∧ Consistent s H n' d ∧ Published s n' cp' d := by
  obtain ⟨visited, removed, advanced, prepared, -⟩ := h
  obtain ⟨n', k, hn', hprogress, hnew⟩ := visited.progress hc hp
  obtain rfl := eq_of_removed removed (visited.nothing_to_remove hc hp)
  obtain ⟨cp', hp'⟩ := advanced.published_progress hprogress
  have hc' := hprogress.consistent.of_same fun g =>
    ⟨advanced.frame (x := .log g) (by simp) (by simp),
      advanced.frame (x := .index g) (by simp) (by simp)⟩
  rcases prepared with ⟨-, -, rfl⟩ | ⟨none_active, f, new, -, -, rfl⟩
  · exact ⟨n', cp', hn', hc', hp'⟩
  · obtain ⟨hs, hlog, hbefore⟩ := hnew none_active f new
    have hlog' := (advanced.frame (x := .log f) (by simp) (by simp)).none_iff.mpr hlog
    obtain ⟨hc'', hp''⟩ := hc'.created hp' hs hlog' hbefore (.inr rfl)
    exact ⟨n', cp', hn', hc'', hp''⟩

/-- How many pairs have durable entries after an initialization of the disk `d`.  Those of a
pair that it created are not synchronized. -/
def linkedPairs (d : Disk) (i : InitializedStream) : Nat :=
  i.fileId.fileNumber.get + if (d (.log i.fileId)).isSome then 1 else 0

theorem Initialized.linked (h : Initialized p s cp d₀ i d) (hp : Published s n cp d₀) :
    Linked s (linkedPairs d₀ i) d := by
  obtain ⟨r, hrecovered⟩ := h.recovered
  intro g hg hlt
  unfold linkedPairs at hlt
  by_cases hfirst : g.fileNumber.get < (firstFile s cp).fileNumber.get
  · -- before the checkpoint's file
    cases cp with
    | none => exact absurd hfirst (Nat.not_lt_zero _)
    | some k =>
      obtain ⟨log, index, hlog, hindex⟩ := hp.linked k rfl g hg (Nat.lt_succ_of_lt hfirst)
      obtain ⟨hsameLog, hsameIndex⟩ := hrecovered.before g hg hfirst
      exact ⟨log, index, hsameLog.of_linked hlog, hsameIndex.of_linked hindex⟩
  by_cases hactive : g.fileNumber.get < i.fileId.fileNumber.get
  · obtain ⟨L, l, k, e, -, -, hl, hk⟩ := hrecovered.passed g hg (Nat.le_of_not_lt hfirst) hactive
    exact ⟨l, k, hl, hk⟩
  · rcases hrecovered.active with ⟨L, l, k, hL, -, hl, hk⟩ | ⟨hnone, -⟩
    · rw [hL, Option.isSome_some, if_pos rfl] at hlt
      obtain rfl : g = i.fileId := LogFileId.ext' (hg.trans hrecovered.stream.symm) (by omega)
      exact ⟨l, k, hl, hk⟩
    · -- a new pair is not counted
      rw [hnone, Option.isSome_none, if_neg Bool.false_ne_true] at hlt
      exact absurd hlt hactive

/-- A stream without files has no history yet. -/
theorem consistent_blank (h : ∀ x : Place, x.streamId = s → d x = none) :
    Consistent s [] 0 d ∧ Published s 0 none d := by
  refine ⟨⟨trivial, Nat.le_refl 0, Nat.two_pow_pos 64, ?_, ?_, ?_, ?_⟩,
    ⟨h (.checkpoint s) rfl, ?_, by simp, by simp, by simp, by simp⟩⟩
  · intro f L hf hL
    rw [h (.log f) hf] at hL
    cases hL
  · intro f _ hlt
    exact absurd hlt (Nat.not_lt_zero _)
  · intro f hf hlog
    exact absurd (h (.log f) hf) hlog
  · intro f hf hindex
    exact absurd (h (.index f) hf) hindex
  · intro st hst
    rw [h (.checkpoint s) rfl] at hst
    cases hst

/-! ### What a completed initialization keeps -/

/-- The records in the logs of the stream, from its first file through the active one. -/
def recordsThrough (d : Disk) (i : InitializedStream) : List Record :=
  (filesFrom (.first i.fileId.streamId) (some i.fileId)).flatMap (heldIn d)

omit [CheckpointReader] in
/-- If no log has accepted more than what is durable, that is all there is. -/
theorem Consistent.cut (h : Consistent s H n d) (haccepted : ∀ f L, f.streamId = s →
    d (.log f) = some L → L.file.accepted <+: encodings (part f (H.take n))) :
    Consistent s (H.take n) n d where
  consecutive := h.consecutive.of_isPrefix (List.take_prefix n H)
  le := by
    rw [List.length_take]
    exact Nat.le_min.mpr ⟨Nat.le_refl n, h.le⟩
  short := Nat.lt_of_le_of_lt (List.length_take_le' _ _) h.short
  log f L hf hL := by
    have hkept := h.log f L hf hL
    refine ⟨hkept.content, haccepted f L hf hL, ?_⟩
    rw [List.take_take, Nat.min_self]
    exact hkept.durable
  there := h.there
  reached := h.reached
  index := h.index

omit [CheckpointReader] in
/-- The logs up to one that ends with the durable records hold just these. -/
theorem Consistent.flatMap_heldIn (h : Consistent s H n d) (hs : f.streamId = s)
    (hlog : d (.log f) ≠ none) (hn : n = f.before + (heldIn d f).length) :
    (filesFrom (.first s) (some f)).flatMap (heldIn d) = H.take n := by
  have hheld := h.held_isPrefix hs
  have hle := ((h.fills hs).of_isPrefix hheld).length_le
  have hmax := f.fileNumber.le
  have heq : ∀ g ∈ LogFileId.successors f.fileNumber.get (.first s),
      heldIn d g = part g (H.take n) := by
    intro g hg
    obtain ⟨hgs, -, hgn⟩ := (LogFileId.mem_successors _ (.first s) _
      ((Nat.zero_add _).trans_le hmax)).mp hg
    replace hgn := hgn.trans_eq (Nat.zero_add _)
    rcases Nat.lt_or_eq_of_le hgn with hlt | heq
    · have hfull := h.before_of_lt hs hlog hlt
      rw [part_take_of_le hfull]
      exact (h.heldIn_eq hgs hfull).1
    · obtain rfl : g = f := LogFileId.ext' (hgs.trans hs.symm) heq
      rw [hn, part_take_length hheld]
  rw [filesFrom, show f.fileNumber.get - (LogFileId.first s).fileNumber.get = f.fileNumber.get from
    Nat.sub_zero _, List.flatMap_congr heq, flatMap_part _ (by omega), List.take_take,
    Nat.min_eq_right]
  rw [Nat.succ_mul]
  exact hn.trans_le (Nat.add_le_add_left hle _)

/-- What a writer finds in the pair that an initialization hands over. -/
structure HandedOver (s : StreamId) (R : List Record) (d : Disk) (i : InitializedStream) : Prop where
  stream : i.fileId.streamId = s
  count : R.length = i.fileId.before + (part i.fileId R).length
  room : (part i.fileId R).length < recordsPerFile
  end_eq : i.endLocation = endOf (part i.fileId R)
  log : (d (.log i.fileId)).map Stored.file = some (.atEnd (encodings (part i.fileId R)))
  index : (d (.index i.fileId)).map Stored.file = some (.atEnd (indexBytes (part i.fileId R)))

/-- **A completed initialization** keeps a prefix of the history with all durable
records in it, makes it durable, and hands over the pair where it goes on. -/
theorem Initialized.settles (h : Initialized p s cp d₀ i d) (hc : Consistent s H n d₀)
    (hp : Published s n cp d₀) : ∃ cp', recordsThrough d i <+: H ∧
      H.take n <+: recordsThrough d i ∧
      Consistent s (recordsThrough d i) (recordsThrough d i).length d ∧
      Published s (recordsThrough d i).length cp' d ∧ HandedOver s (recordsThrough d i) d i := by
  obtain ⟨n', cp', hn', hc', hp'⟩ := h.consistent hc hp
  obtain ⟨r, hrecovered⟩ := h.recovered
  have hs := hrecovered.stream
  obtain ⟨hroom, hend, hlog, hindex⟩ := hrecovered.active_held (hp.backed hc).certifies
  obtain ⟨L, hL, hfile⟩ := Option.map_eq_some_iff.mp hlog
  -- the active log holds just what it held before, and all of it is durable
  have hfront := hc.held_isPrefix hs
  have hheld : heldIn d i.fileId = heldIn d₀ i.fileId := by
    rw [heldIn, hL, Option.elim_some, hfile]
    exact held_encodings ((hc.fills hs).of_isPrefix hfront)
  have hactive : d (.log i.fileId) ≠ none := by simp [hL]
  have hbefore := hc'.reached i.fileId hs hactive
  have hn₂ : n' ≤ i.fileId.before + (heldIn d i.fileId).length := by
    have hle := (hc'.le_held hs).length_le
    have := hc'.le
    rw [length_part, List.length_take] at hle
    rw [← hheld] at hroom
    omega
  have hkept : Kept H (i.fileId.before + (heldIn d i.fileId).length) i.fileId L.file := by
    rw [hfile, hheld]
    refine (Kept.of_durable hfront ?_).seekTo _
    rw [part_take_length hfront]
  have hc₂ := hc'.change hs (fun g _ => ⟨.refl _ _, .refl _ _⟩) hL hkept hbefore hn₂
    (hc'.before_le hs hactive) (.inr (by rw [hheld]; omega))
  have hR : recordsThrough d i = H.take (i.fileId.before + (heldIn d i.fileId).length) := by
    rw [recordsThrough, hs]
    exact hc₂.flatMap_heldIn hs hactive rfl
  have hpart : part i.fileId (recordsThrough d i) = heldIn d i.fileId := by
    rw [hR, part_take_length (hc'.held_isPrefix hs)]
  have hlength : (recordsThrough d i).length =
      i.fileId.before + (heldIn d i.fileId).length := by
    rw [hR, List.length_take, Nat.min_eq_left hc₂.le]
  have hcut := hc₂.cut fun f L' hf hL' => by
    have hlast : f.fileNumber.get ≤ i.fileId.fileNumber.get := Nat.le_of_not_lt fun hlt => by
      rw [(hrecovered.after f hf hlt).1] at hL'
      cases hL'
    rcases Nat.lt_or_eq_of_le hlast with hlt | heq
    · have hfull := hc₂.before_of_lt hs hactive hlt
      rw [part_take_of_le hfull, ((hc₂.log f L' hf hL').full hfull).2.1]
    · obtain rfl : f = i.fileId := LogFileId.ext' (hf.trans hs.symm) heq
      obtain rfl := Option.some.inj (hL.symm.trans hL')
      rw [part_take_length (hc'.held_isPrefix hs), hfile, hheld]
      exact List.prefix_refl _
  refine ⟨cp', ?_, ?_, ?_, ?_, ⟨hs, ?_, ?_, ?_, ?_, ?_⟩⟩
  · rw [hR]
    exact List.take_prefix _ _
  · rw [hR]
    exact List.take_prefix_take_left (Nat.le_trans hn' hn₂)
  · rw [hlength, hR]
    exact hcut
  · rw [hlength]
    exact { hp' with le := fun k hk => Nat.le_trans (hp'.le k hk) hn₂ }
  · rw [hpart, hlength]
  · rw [hpart, hheld]
    exact hroom
  · rw [hpart, hheld]
    exact hend
  · rw [hpart, hheld]
    exact hlog
  · rw [hpart, hheld]
    exact hindex

end StreamInitializer

end TransactionLog
