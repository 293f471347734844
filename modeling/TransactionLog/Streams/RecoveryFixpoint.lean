import TransactionLog.Streams.StreamRecovery

/-!
# Recovering twice

A recovered pair is a fixed point of recovery: with its own end trusted, the scan
finds nothing more, the index has its last entry, and both files keep their bytes.
So an initialization right after another one trusts more, does less, and leaves the
stream as it was.
-/

namespace TransactionLog

open Lib

namespace IndexedLogValidator

open LogFileValidator (trustedCount startPosition Accepts Plausible repaired found endAfter suffixOf
  keptLength validLength)
open IndexFileValidator (Trusts trustedEntries entriesOf length_trustedEntries)

theorem entryAt_take {index : List UInt8} {n k : Nat} (h : 8 * (k + 1) ≤ n) :
    entryAt (index.take n) k = entryAt index k := by
  rw [entryAt, entryAt, indexEntryLen_eq, List.drop_take, List.take_take, Nat.min_eq_left (by omega)]

theorem entryAt_append {xs ys : List UInt8} {n : Nat} (h : xs.length = 8 * n) (k : Nat) :
    entryAt (xs ++ ys) (n + k) = entryAt ys k := by
  rw [entryAt, entryAt, indexEntryLen_eq, List.drop_append, List.drop_eq_nil_of_le (by omega),
    List.nil_append, h, Nat.mul_add, Nat.add_sub_cancel_left]

variable [Crc32c] {f : LogFileId} {t : Option RecordEndLocation} {log index l i : File}
  {r : ValidatedFilePair}

theorem Mended.log_content (h : Mended f t log index l i r) :
    l.content = log.content.take (keptLength f t log.content) := by
  obtain ⟨k, rfl⟩ := h.log_repaired
  exact LogFileValidator.repaired_content h.accepts

/-- The log ends where the validator says. -/
theorem Mended.log_length (h : Mended f t log index l i r) :
    l.content.length = (startPosition (endAfter t (found f t log.content))).get := by
  rw [h.log_content, List.length_take,
    Nat.min_eq_left (LogFileValidator.keptLength_le h.accepts.2),
    LogFileValidator.startPosition_endAfter h.accepts]

theorem Mended.index_length (h : Mended f t log index l i r) :
    i.content.length = 8 * trustedCount (endAfter t (found f t log.content)) := by
  have hlen := length_trustedEntries h.index_rebuilt.trusts
  have hentries : ∀ ps : List LogFilePosition, (entriesOf ps).length = 8 * ps.length := by
    intro ps
    induction ps with
    | nil => rfl
    | cons p ps ih =>
      rw [entriesOf, List.flatMap_cons, List.length_append, length_toLe]
      rw [entriesOf] at ih
      rw [ih, List.length_cons, indexEntryLen_eq]
      omega
  rw [h.index_rebuilt.content, List.length_append, trustedEntries, List.length_take,
    Nat.min_eq_left hlen, hentries, LogFileValidator.trustedCount_endAfter h.accepts, suffixOf,
    List.length_map, length_ends]
  omega

/-- The end that was found may be trusted. -/
theorem Mended.plausible_again (h : Mended f t log index l i r) :
    Plausible f (endAfter t (found f t log.content)) := by
  have hplausible := h.accepts.1
  have hcount := LogFileValidator.trustedCount_endAfter h.accepts
  have hstart := LogFileValidator.startPosition_endAfter h.accepts
  have hge := encodings_length_ge (found f t log.content)
  have hle := encodings_length_le (found f t log.content)
  have hmin := hplausible.min_le
  have hmax := hplausible.le_max
  rw [keptLength, validLength] at hstart
  exact ⟨fun e he => (LogFileValidator.endAfter_eq_some h.accepts he).1, by omega, by omega⟩

theorem Mended.accepts_again (h : Mended f t log index l i r) :
    Accepts f (endAfter t (found f t log.content)) l :=
  ⟨h.plausible_again, h.log_length.ge⟩

/-- The scan of a repaired log finds nothing after its end. -/
theorem Mended.found_again (h : Mended f t log index l i r) :
    found f (endAfter t (found f t log.content)) l.content = [] := by
  rw [found, ← h.log_length, List.drop_length, scanned, records_nil]
  rfl

/-- The last entry is that of the end. -/
theorem Mended.trusts_again (h : Mended f t log index l i r) :
    Trusts (endAfter t (found f t log.content)) i.content := by
  intro e he
  refine ⟨h.index_length.ge, ?_⟩
  have htrusts := h.index_rebuilt.trusts
  have hlen := length_trustedEntries htrusts
  have hroom := (LogFileValidator.scanning_found h.accepts).count_le
  have hlt := LogFileValidator.validLength_lt h.accepts.1 hroom
  have hcount := LogFileValidator.trustedCount_endAfter h.accepts
  rw [h.index_rebuilt.content, LogFileValidator.trustedCount_endAfter h.accepts]
  rw [endAfter] at he
  cases hl : (found f t log.content).getLast? with
  | none =>
    -- nothing was found, so the last entry is the trusted one
    have ht : t = some e := by
      rw [hl] at he
      exact he
    have hpos : 0 < trustedCount t := by
      rw [ht]
      exact LogFileId.recordCountThrough_pos _
    rw [List.getLast?_eq_none_iff.mp hl, List.length_nil, Nat.add_zero]
    show entryAt (index.content.take (8 * trustedCount t) ++ []) _ = _
    rw [List.append_nil, entryAt_take (by omega)]
    exact (htrusts e ht).2
  | some record =>
    have hpos := List.length_pos_of_mem (List.mem_of_getLast? hl)
    rw [hl] at he
    obtain rfl := Option.some.inj he
    rw [entriesOf_suffixOf hlt, Nat.add_sub_assoc hpos, entryAt_append (by
      rw [trustedEntries, List.length_take, Nat.min_eq_left hlen]),
      entryAt_of_isPrefix (List.prefix_refl _) (by rw [length_entries]; omega) hlt,
      Nat.sub_add_cancel hpos, List.take_length]
    exact (LogFilePosition.get_ofNat hlt).symm

theorem Mended.log_durable (h : Mended f t log index l i r) :
    ∃ k, l = (File.durable l.content).seekTo k := by
  obtain ⟨k, hk⟩ := h.log_repaired
  rw [hk]
  exact File.eq_durable rfl rfl rfl

theorem Mended.index_durable (h : Mended f t log index l i r) :
    ∃ k, i = (File.durable i.content).seekTo k :=
  File.eq_durable rfl h.index_rebuilt.accepted h.index_rebuilt.synced

/-- **A recovered pair is a fixed point.**  Recovering it again with its end trusted
leaves the same bytes and reports the same. -/
theorem Mended.again (h : Mended f t log index l i r) {log' index' l' i' : File}
    {r' : ValidatedFilePair} (hlog : log'.content = l.content) (hindex : index'.content = i.content)
    (h' : Mended f (endAfter t (found f t log.content)) log' index' l' i' r') :
    l'.content = l.content ∧ i'.content = i.content ∧ r' = r ∧
      ∀ e, r = .incomplete e → l' = l ∧ i' = i := by
  have hfound : found f (endAfter t (found f t log.content)) log'.content = [] := by
    rw [hlog, h.found_again]
  have hl : l'.content = l.content := by
    rw [h'.log_content, keptLength, hfound, validLength, hlog, encodings_nil, List.length_nil,
      Nat.add_zero, ← h.log_length, List.take_length]
  have hi : i'.content = i.content := by
    rw [h'.index_rebuilt.content, hfound, trustedEntries, ← h.index_length, hindex, List.take_length]
    exact List.append_nil _
  have hr : r' = r := by
    rw [h'.result, hfound, h.result]
    rfl
  refine ⟨hl, hi, hr, fun e he => ?_⟩
  obtain ⟨k, hk⟩ := h.log_durable
  obtain ⟨k', hk'⟩ := h'.log_durable
  obtain ⟨n, hn⟩ := h.index_durable
  obtain ⟨n', hn'⟩ := h'.index_durable
  obtain ⟨h1, h2⟩ := h.positioned e he
  obtain ⟨h1', h2'⟩ := h'.positioned e (hr.trans he)
  rw [hk] at h1
  rw [hn] at h2
  rw [hk'] at h1'
  rw [hn'] at h2'
  refine ⟨?_, ?_⟩
  · rw [hk, hk', hl]
    exact congrArg (fun k => (File.durable l.content).seekTo k) (h1'.trans h1.symm)
  · rw [hn, hn', hi]
    exact congrArg (fun k => (File.durable i.content).seekTo k) (h2'.trans h2.symm)

/-- A new pair is as if it had been recovered. -/
theorem mended_empty (f : LogFileId) :
    Mended f none .empty .empty .empty .empty (.incomplete none) := by
  have hfound : found f none File.empty.content = [] := by
    rw [found, show File.empty.content = [] from rfl, List.drop_nil, scanned, records_nil]
    rfl
  refine ⟨LogFileValidator.accepts_none f _, ⟨0, ?_⟩, ?_, ?_, ?_⟩
  · rw [repaired, keptLength, hfound]
    rfl
  · rw [hfound]
    exact ⟨Nat.zero_le _, by simp [Trusts], rfl, rfl, rfl⟩
  · rw [hfound]
    rfl
  · intro e he
    obtain rfl := ValidatedFilePair.incomplete.inj he
    exact ⟨rfl, rfl⟩

end IndexedLogValidator

namespace StreamInitializer

open IndexedLogValidator (openedIndex Mended)
open LogFileValidator (trustedCount startPosition Accepts found endAfter)
open IndexFileValidator (Trusts)

variable [Crc32c] {p : StorageProvider} {s : StreamId} {t r r' : Option RecordEndLocation}
  {d d' d₀ : Disk} {f g : LogFileId} {cp : Option StreamCheckpoint} {i i' : InitializedStream}

/-- The pair of a file, as its recovery left it. -/
structure Pair (d : Disk) (g : LogFileId) (e : Option RecordEndLocation) (l k : File)
    (x : ValidatedFilePair) : Prop where
  mended : ∃ t log index, Mended g t log index l k x ∧ e = endAfter t (found g t log.content)
  log : ∃ b, d (.log g) = some ⟨l, b⟩
  index : ∃ b, d (.index g) = some ⟨k, b⟩

theorem PassedAt.pair (h : PassedAt t d d' g) :
    ∃ l k e, Pair d' g (some e) l k (.complete e) ∧ endIn t d g = some e ∧ e.logFileId = g := by
  obtain ⟨L, l, k, e, hL, hmended, hl, hk⟩ := h
  obtain ⟨hfile, -, hend, -⟩ := hmended.complete
  refine ⟨l, k, e, ⟨⟨_, _, _, hmended, hend.symm⟩, ⟨_, hl⟩, ⟨_, hk⟩⟩, ?_, hfile⟩
  rw [endIn, hL]
  exact hend

theorem ActiveAt.pair (h : ActiveAt t d d' i) :
    ∃ l k, Pair d' i.fileId i.endLocation l k (.incomplete i.endLocation) := by
  rcases h with ⟨L, l, k, hL, hmended, hl, hk⟩ | ⟨hL, ht, he, hl, hk⟩
  · exact ⟨l, k, ⟨_, _, _, hmended, hmended.incomplete.1⟩, ⟨_, hl⟩, ⟨_, hk⟩⟩
  · rw [he]
    exact ⟨_, _, ⟨_, _, _, IndexedLogValidator.mended_empty i.fileId,
      (IndexedLogValidator.mended_empty i.fileId).incomplete.1⟩, ⟨_, hl⟩, ⟨_, hk⟩⟩

/-- The end of a pair may be trusted. -/
theorem Pair.sound {e : Option RecordEndLocation} {l k : File} {x : ValidatedFilePair}
    (h : Pair d g e l k x) : Accepts g e l ∧ Trusts e (openedIndex d g).content := by
  obtain ⟨⟨t, log, index, hmended, rfl⟩, -, b, hk⟩ := h
  rw [openedIndex, hk]
  exact ⟨hmended.accepts_again, hmended.trusts_again⟩

theorem Pair.found_eq {e : Option RecordEndLocation} {l k : File} {x : ValidatedFilePair}
    (h : Pair d g e l k x) : found g e l.content = [] := by
  obtain ⟨⟨t, log, index, hmended, rfl⟩, -⟩ := h
  exact hmended.found_again

/-- A pair that goes on has room. -/
theorem Pair.room {e y : Option RecordEndLocation} {l k : File}
    (h : Pair d g e l k (.incomplete y)) : trustedCount e < recordsPerFile := by
  obtain ⟨⟨t, log, index, hmended, rfl⟩, -⟩ := h
  rw [LogFileValidator.trustedCount_endAfter hmended.accepts]
  exact hmended.incomplete.2

/-- Recovering the pair again leaves it. -/
theorem Pair.again {e : Option RecordEndLocation} {l k l' k' : File} {x x' : ValidatedFilePair}
    {L : Stored} (h : Pair d g e l k x) (hL : d (.log g) = some L)
    (h' : Mended g e L.opened.file (openedIndex d g) l' k' x') :
    l'.content = l.content ∧ k'.content = k.content ∧ x' = x ∧
      ∀ y, x = .incomplete y → l' = l ∧ k' = k := by
  obtain ⟨⟨t, log, index, hmended, rfl⟩, ⟨b, hl⟩, b', hk⟩ := h
  obtain rfl := Option.some.inj (hL.symm.trans hl)
  refine hmended.again ?_ ?_ h'
  · rfl
  · rw [openedIndex, hk]
    rfl

/-- The end of a pair is in its file. -/
theorem Pair.file {e : RecordEndLocation} {l k : File} {x : ValidatedFilePair}
    (h : Pair d g (some e) l k x) : e.logFileId = g := by
  obtain ⟨⟨t, log, index, hmended, he⟩, -⟩ := h
  exact (LogFileValidator.endAfter_eq_some hmended.accepts he.symm).1

omit [Crc32c] in
theorem exists_previous (hlt : f.fileNumber.get < g.fileNumber.get) :
    ∃ h : LogFileId, h.streamId = f.streamId ∧ f.fileNumber.get ≤ h.fileNumber.get ∧
      g.fileNumber.get = h.fileNumber.get + 1 := by
  have hle := g.fileNumber.le
  exact ⟨⟨f.streamId, ⟨g.fileNumber.get - 1, by omega⟩⟩, rfl, by simp only; omega, by simp only; omega⟩

/-- The active pair is the checkpoint's, and has an end if there is a checkpoint. -/
theorem Recovered.checkpoint_none (h : Recovered s cp d₀ i r d) (hfirst : i.fileId = firstFile s cp)
    (hend : i.endLocation = none) : cp = none := by
  cases cp with
  | none => rfl
  | some k =>
    have ht : trustedAt (Option.map StreamCheckpoint.endLocation (some k)) i.fileId =
        some k.endLocation := trustedAt_eq_some.mpr ⟨rfl, hfirst.symm⟩
    rcases h.active with ⟨L, l, k', hL, hmended, -⟩ | ⟨-, hnone, -⟩
    · have he := hmended.incomplete.1
      rw [ht, hend, endAfter] at he
      cases hl : (found i.fileId (some k.endLocation) L.opened.file.content).getLast? <;>
        rw [hl] at he <;> cases he
    · rw [ht] at hnone
      cases hnone

/-- Where the recovered end is. -/
theorem Recovered.end_cases (h : Recovered s cp d₀ i r d) :
    (∃ e, i.endLocation = some e ∧ r = some e ∧ e.logFileId = i.fileId) ∨
    (i.endLocation = none ∧ r = none ∧ cp = none ∧ i.fileId = firstFile s cp) ∨
    i.endLocation = none ∧ ∃ e, r = some e ∧ e.logFileId.streamId = s ∧
      (firstFile s cp).fileNumber.get ≤ e.logFileId.fileNumber.get ∧
      i.fileId.fileNumber.get = e.logFileId.fileNumber.get + 1 ∧
      ∃ l k, Pair d e.logFileId (some e) l k (.complete e) := by
  obtain ⟨l, k, hactive⟩ := h.active.pair
  by_cases hfirst : i.fileId = firstFile s cp
  · have hr := h.recovered_first hfirst
    cases he : i.endLocation with
    | none => exact .inr (.inl ⟨rfl, hr.trans he, h.checkpoint_none hfirst he, hfirst⟩)
    | some e =>
      rw [he] at hactive
      exact .inl ⟨e, rfl, hr.trans he, hactive.file⟩
  · have hlt : (firstFile s cp).fileNumber.get < i.fileId.fileNumber.get :=
      Nat.lt_of_le_of_ne h.first_le fun heq => hfirst
        (LogFileId.ext' (h.stream.trans h.first_stream.symm) heq.symm)
    obtain ⟨g, hs, hle, hnext⟩ := exists_previous hlt
    have hg := hs.trans h.first_stream
    obtain ⟨l', k', e', hpair, hend, hfile⟩ := (h.passed g hg hle (by omega)).pair
    have hr := h.recovered_later g hg hle hnext
    rw [hend] at hr
    cases he : i.endLocation with
    | none =>
      rw [he] at hr
      subst hfile
      exact .inr (.inr ⟨rfl, e', hr, hg, hle, hnext, l', k', hpair⟩)
    | some e =>
      rw [he] at hr hactive
      exact .inl ⟨e, rfl, hr, hactive.file⟩

/-! ### The stream after an initialization -/

omit [Crc32c] in
@[simp] theorem map_endLocation (r : Option RecordEndLocation) :
    (r.map StreamCheckpoint.mk).map StreamCheckpoint.endLocation = r := by
  cases r <;> rfl

/-- A stream that an initialization would leave alone: its checkpoint is the end of
the active pair, or that of the full pair before it. -/
structure Settled (s : StreamId) (r : Option RecordEndLocation) (i : InitializedStream)
    (d : Disk) : Prop where
  stream : i.fileId.streamId = s
  active : ∃ l k, Pair d i.fileId i.endLocation l k (.incomplete i.endLocation)
  trusted : trustedAt r i.fileId = i.endLocation
  first : firstFile s (r.map StreamCheckpoint.mk) = i.fileId ∨ ∃ e, r = some e ∧
    e.logFileId.streamId = s ∧ i.fileId.fileNumber.get = e.logFileId.fileNumber.get + 1 ∧
    ∃ l k, Pair d e.logFileId (some e) l k (.complete e)
  after : ∀ g : LogFileId, g.streamId = s → i.fileId.fileNumber.get < g.fileNumber.get →
    d (.log g) = none

theorem Recovered.settled (h : Recovered s cp d₀ i r d) : Settled s r i d := by
  have htrusted : ∀ e, trustedAt (some e) i.fileId =
      if e.logFileId = i.fileId then some e else none := by
    intro e
    rw [trustedAt, Option.filter_some]
    simp only [decide_eq_true_eq]
  refine ⟨h.stream, h.active.pair, ?_, ?_, fun g hg hlt => (h.after g hg hlt).1⟩
  · rcases h.end_cases with ⟨e, he, hr, hfile⟩ | ⟨he, hr, -⟩ | ⟨he, e, hr, -, -, hnext, -⟩
    · rw [hr, he, htrusted, if_pos hfile]
    · rw [hr, he]
      rfl
    · rw [hr, he, htrusted, if_neg]
      intro hfile
      rw [hfile] at hnext
      omega
  · rcases h.end_cases with ⟨e, he, hr, hfile⟩ | ⟨he, hr, hcp, hfirst⟩ |
      ⟨he, e, hr, hs, -, hnext, hpair⟩
    · rw [hr]
      exact .inl hfile
    · rw [hr, hfirst, hcp]
      exact .inl rfl
    · exact .inr ⟨e, hr, hs, hnext, hpair⟩

/-- The checkpoint of a settled stream is sound. -/
theorem Settled.sound (h : Settled s r i d) : Sound s (r.map StreamCheckpoint.mk) d := by
  intro k hk
  obtain ⟨e, rfl, rfl⟩ := Option.map_eq_some_iff.mp hk
  have hpair : ∃ l k x, Pair d e.logFileId (some e) l k x ∧ e.logFileId.streamId = s := by
    rcases h.first with hfirst | ⟨e', he', hs, -, l, k, hpair⟩
    · have hfile : e.logFileId = i.fileId := hfirst
      obtain ⟨l, k, hpair⟩ := h.active
      have htrusted := h.trusted
      rw [trustedAt, Option.filter_some, if_pos (by simpa using hfile)] at htrusted
      rw [← htrusted, ← hfile] at hpair
      exact ⟨l, k, _, hpair, hfile ▸ h.stream⟩
    · obtain rfl := Option.some.inj he'
      exact ⟨l, k, _, hpair, hs⟩
  obtain ⟨l, k, x, hpair, hs⟩ := hpair
  obtain ⟨haccepts, htrusts⟩ := hpair.sound
  obtain ⟨b, hl⟩ := hpair.log
  exact ⟨hs, ⟨l, b⟩, hl, haccepts, htrusts⟩

theorem Settled.first_le (h : Settled s r i d) :
    (firstFile s (r.map StreamCheckpoint.mk)).fileNumber.get ≤ i.fileId.fileNumber.get := by
  rcases h.first with hfirst | ⟨e, rfl, -, hnext, -⟩
  · rw [hfirst]
  · show e.logFileId.fileNumber.get ≤ _
    omega

/-- The active pair is not full. -/
theorem Settled.vacant (h : Settled s r i d) : Vacant s (r.map StreamCheckpoint.mk) d := by
  intro f hf hbeyond hfull
  exfalso
  obtain ⟨l, k, hactive⟩ := h.active
  obtain ⟨b, hl⟩ := hactive.log
  have hlt := hbeyond.1 i.fileId (h.stream.trans hf.symm) (by simp [hl])
  obtain ⟨L, hL, hcount⟩ := hfull i.fileId h.stream h.first_le hlt
  obtain rfl := Option.some.inj (hL.symm.trans hl)
  rw [map_endLocation, h.trusted, hactive.found_eq, List.length_nil, Nat.add_zero] at hcount
  exact Nat.ne_of_lt hactive.room hcount

omit [Crc32c] in
theorem trustedAt_first (hfirst : firstFile s (r.map StreamCheckpoint.mk) = f) :
    trustedAt r f = r := by
  cases r with
  | none => rfl
  | some e =>
    have hfile : e.logFileId = f := hfirst
    rw [trustedAt, Option.filter_some, if_pos (by simpa using hfile)]

/-- The same active pair is found again. -/
theorem Settled.same_file (h : Settled s r i d)
    (h' : Recovered s (r.map StreamCheckpoint.mk) d i' r' d') : i'.fileId = i.fileId := by
  obtain ⟨l, k, hactive⟩ := h.active
  obtain ⟨b, hl⟩ := hactive.log
  refine LogFileId.ext' (h'.stream.trans h.stream.symm) (Nat.le_antisymm ?_ ?_)
  · -- not after it, since it is not full
    by_contra hlt
    obtain ⟨L, l', k', e, hL, hmended, -⟩ := h'.passed i.fileId h.stream h.first_le (by omega)
    rw [map_endLocation, h.trusted] at hmended
    have hcomplete := (hactive.again hL hmended).2.2.1
    cases hcomplete
  · -- not before it, since the file before it is full
    by_contra hlt
    have hle := h'.first_le
    rcases h.first with hfirst | ⟨e, rfl, hs, hnext, l', k', hpair⟩
    · rw [hfirst] at hle
      exact hlt hle
    · have hfile : i'.fileId = e.logFileId := by
        refine LogFileId.ext' (h'.stream.trans hs.symm) ?_
        have : e.logFileId.fileNumber.get ≤ i'.fileId.fileNumber.get := hle
        omega
      obtain ⟨b', hl'⟩ := hpair.log
      rcases h'.active with ⟨L, l'', k'', hL, hmended, -⟩ | ⟨hnone, -⟩
      · have ht : trustedAt (some e) e.logFileId = some e := trustedAt_first (s := s) rfl
        rw [map_endLocation, hfile, ht] at hmended
        rw [hfile] at hL
        have hcomplete := (hpair.again hL hmended).2.2.1
        cases hcomplete
      · rw [hfile, hl'] at hnone
        cases hnone

/-- What stands at a place, without the cursor. -/
def contentAt (d : Disk) (x : Place) : Option (List UInt8) := (d x).map fun st => st.file.content

omit [Crc32c] in
theorem contentAt_of_same {x : Place} (h : Same d d' x) : contentAt d' x = contentAt d x := by
  rw [contentAt, contentAt]
  rcases h with h | ⟨st, hst, h⟩
  · rw [h]
  · rw [h, hst]
    rfl

/-- Nothing changes. -/
structure Unchanged (s : StreamId) (i : InitializedStream) (d d' : Disk) : Prop where
  log : ∀ g : LogFileId, g.streamId = s → contentAt d' (.log g) = contentAt d (.log g)
  index : ∀ g : LogFileId, g.streamId = s → contentAt d' (.index g) = contentAt d (.index g)
  checkpoint : contentAt d' (.checkpoint s) = contentAt d (.checkpoint s)
  active_log : (d' (.log i.fileId)).map Stored.file = (d (.log i.fileId)).map Stored.file
  active_index : (d' (.index i.fileId)).map Stored.file = (d (.index i.fileId)).map Stored.file

/-- The active pair is left as it is. -/
theorem Settled.same_active (h : Settled s r i d)
    (h' : Recovered s (r.map StreamCheckpoint.mk) d i' r' d') {l k : File}
    (hactive : Pair d i.fileId i.endLocation l k (.incomplete i.endLocation)) :
    i'.endLocation = i.endLocation ∧ d' (.log i.fileId) = some ⟨l, true⟩ ∧
      d' (.index i.fileId) = some ⟨k, true⟩ := by
  obtain ⟨b, hl⟩ := hactive.log
  have hfile := h.same_file h'
  rcases h'.active with ⟨L, l', k', hL, hmended, hl', hk'⟩ | ⟨hnone, -⟩
  · rw [map_endLocation, hfile, h.trusted] at hmended
    rw [hfile] at hL hl' hk'
    obtain ⟨-, -, hx, hcursor⟩ := hactive.again hL hmended
    obtain ⟨rfl, rfl⟩ := hcursor _ rfl
    exact ⟨ValidatedFilePair.incomplete.inj hx, hl', hk'⟩
  · rw [hfile, hl] at hnone
    cases hnone

/-- So is the full pair before it, if the checkpoint is there. -/
theorem Settled.same_full {e : RecordEndLocation} (h : Settled s (some e) i d)
    (h' : Recovered s ((some e).map StreamCheckpoint.mk) d i' r' d') (hne : e.logFileId ≠ i.fileId) :
    endIn (some e) d e.logFileId = some e ∧ e.logFileId.streamId = s ∧
      i.fileId.fileNumber.get = e.logFileId.fileNumber.get + 1 ∧
      contentAt d' (.log e.logFileId) = contentAt d (.log e.logFileId) ∧
      contentAt d' (.index e.logFileId) = contentAt d (.index e.logFileId) := by
  rcases h.first with hfirst | ⟨e', he', hs, hnext, l', k', hpair⟩
  · exact absurd hfirst hne
  obtain rfl := Option.some.inj he'
  have ht : trustedAt (some e) e.logFileId = some e := trustedAt_first (s := s) rfl
  obtain ⟨c, hc⟩ := hpair.log
  obtain ⟨c', hc'⟩ := hpair.index
  obtain ⟨L, l'', k'', e', hL, hmended, hl'', hk''⟩ := h'.passed e.logFileId hs
    (Nat.le_refl _) (by rw [h.same_file h']; omega)
  rw [map_endLocation, ht] at hmended
  obtain ⟨h1, h2, -⟩ := hpair.again hL hmended
  refine ⟨?_, hs, hnext, ?_, ?_⟩
  · rw [endIn, hc, Option.bind_some, ht, hpair.found_eq]
    rfl
  · rw [contentAt, contentAt, hl'', hc, Option.map_some, h1, Option.map_some]
  · rw [contentAt, contentAt, hk'', hc', Option.map_some, h2, Option.map_some]

/-- An initialization leaves a settled stream alone. -/
theorem Settled.unchanged (h : Settled s r i d)
    (h' : Recovered s (r.map StreamCheckpoint.mk) d i' r' d') : i' = i ∧ r' = r ∧
      Unchanged s i d d' := by
  obtain ⟨l, k, hactive⟩ := h.active
  obtain ⟨b, hl⟩ := hactive.log
  obtain ⟨b', hk⟩ := hactive.index
  have hfile := h.same_file h'
  obtain ⟨hend, hl', hk'⟩ := h.same_active h' hactive
  have hr : r' = r := by
    by_cases hfirst : firstFile s (r.map StreamCheckpoint.mk) = i.fileId
    · rw [h'.recovered_first (hfile.trans hfirst.symm), hend, ← h.trusted, trustedAt_first hfirst]
    · obtain ⟨e, rfl, hs, hnext, -⟩ := h.first.resolve_left hfirst
      have hne : e.logFileId ≠ i.fileId := hfirst
      obtain ⟨hendIn, -⟩ := h.same_full h' hne
      rw [h'.recovered_later e.logFileId hs (Nat.le_refl _) (by rw [hfile, hnext]), map_endLocation,
        hendIn, hend, ← h.trusted, trustedAt, Option.filter_some, if_neg (by simpa using hne)]
      rfl
  have hplaces : ∀ g : LogFileId, g.streamId = s → contentAt d' (.log g) = contentAt d (.log g) ∧
      contentAt d' (.index g) = contentAt d (.index g) := by
    intro g hg
    by_cases hbefore : g.fileNumber.get <
        (firstFile s (r.map StreamCheckpoint.mk)).fileNumber.get
    · obtain ⟨h1, h2⟩ := h'.before g hg hbefore
      exact ⟨contentAt_of_same h1, contentAt_of_same h2⟩
    rcases Nat.lt_trichotomy g.fileNumber.get i.fileId.fileNumber.get with hlt | heq | hlt
    · obtain ⟨e, rfl, hs, hnext, -⟩ := h.first.resolve_left fun hfirst => hbefore (hfirst ▸ hlt)
      have hge : e.logFileId.fileNumber.get ≤ g.fileNumber.get := Nat.le_of_not_lt hbefore
      obtain rfl : g = e.logFileId := LogFileId.ext' (hg.trans hs.symm) (by omega)
      exact (h.same_full h' (LogFileId.ne_of_lt hlt)).2.2.2
    · obtain rfl : g = i.fileId := LogFileId.ext' (hg.trans h.stream.symm) heq
      simp only [contentAt, hl', hl, hk', hk, Option.map_some, and_self]
    · obtain ⟨h1, h2⟩ := h'.after g hg (hfile ▸ hlt)
      have hnone := h.after g hg hlt
      refine ⟨by rw [contentAt, contentAt, h1, hnone], ?_⟩
      rcases h2 with ⟨⟨g', hg', hlog', hle⟩, -⟩ | ⟨-, hsame⟩
      · exact absurd (h.after g' hg' (by omega)) hlog'
      · exact contentAt_of_same hsame
  refine ⟨?_, hr, fun g hg => (hplaces g hg).1, fun g hg => (hplaces g hg).2, ?_, ?_, ?_⟩
  · obtain ⟨f', e'⟩ := i'
    obtain ⟨f, e⟩ := i
    simp only at hfile hend
    rw [hfile, hend]
  · obtain ⟨hnone, hsome⟩ := h'.kept fun e he => by rw [← hr, he]; rfl
    cases hd : d (.checkpoint s) with
    | none => rw [contentAt, contentAt, hd, hnone hd]
    | some st =>
      obtain ⟨st', n, hst', hfile'⟩ := hsome st hd
      rw [contentAt, contentAt, hd, hst', Option.map_some, Option.map_some, hfile',
        File.seekTo_content]
  · rw [hl', hl]
    rfl
  · rw [hk', hk]
    rfl

/-- The log was there before, or it is that of a new pair. -/
theorem Recovered.log_cases (h : Recovered s cp d₀ i r d) (hf : f.streamId = s)
    (hlog : d (.log f) ≠ none) : d₀ (.log f) ≠ none ∨ f = i.fileId ∧ i.endLocation = none ∧
      d (.log f) = some ⟨.empty, false⟩ := by
  rcases Nat.lt_trichotomy f.fileNumber.get i.fileId.fileNumber.get with hlt | heq | hlt
  · by_cases hbefore : f.fileNumber.get < (firstFile s cp).fileNumber.get
    · exact .inl fun hnone => hlog ((h.before f hf hbefore).1.none_iff.mpr hnone)
    · obtain ⟨L, l, k, e, hL, -⟩ := h.passed f hf (Nat.le_of_not_lt hbefore) hlt
      exact .inl (by simp [hL])
  · obtain rfl : f = i.fileId := LogFileId.ext' (hf.trans h.stream.symm) heq
    rcases h.active with ⟨L, l, k, hL, -⟩ | ⟨-, -, hend, hl, -⟩
    · exact .inl (by simp [hL])
    · exact .inr ⟨rfl, hend, hl⟩
  · exact absurd (h.after f hf hlt).1 hlog

/-- Initializing brings no log near the last record ID there is. -/
theorem Recovered.ordinary (h : Recovered s cp d₀ i r d)
    (hordinary : ∀ f, f.streamId = s → d₀ (.log f) ≠ none → ¬ f.Terminal) :
    Ordinary s (r.map StreamCheckpoint.mk) d := by
  intro f L hf hL
  rcases h.log_cases hf (by simp [hL]) with hlog | ⟨rfl, hend, hl⟩
  · exact LogFileValidator.not_exhausted (hordinary f hf hlog)
  · rw [hL] at hl
    obtain rfl := Option.some.inj hl
    have htrusted := h.settled.trusted
    rw [map_endLocation, htrusted, hend]
    intro hexhausted
    have hlt := i.fileId.firstRecordId.sequenceNumber.lt
    have hnone : (LogFileValidator.found i.fileId none File.empty.content) = [] := by
      rw [found, show File.empty.content = [] from rfl, List.drop_nil, scanned, records_nil]
      rfl
    have hle : 2 ^ 64 ≤ i.fileId.firstRecordId.sequenceNumber.get +
      (0 + (LogFileValidator.found i.fileId none File.empty.content).length) := hexhausted
    rw [hnone, List.length_nil] at hle
    omega

variable [CheckpointReader]

/-- The recovered end is what the next initialization reads. -/
theorem Recovered.reads (h : Recovered s cp d₀ i r d) (hr : StorageProvider.Reads d₀ s cp) :
    StorageProvider.Reads d s (r.map StreamCheckpoint.mk) := by
  cases hrec : r with
  | none =>
    have hcp : cp = none := by
      rcases h.end_cases with ⟨e, -, he, -⟩ | ⟨-, -, hcp, -⟩ | ⟨-, e, he, -⟩
      · rw [hrec] at he
        cases he
      · exact hcp
      · rw [hrec] at he
        cases he
    subst hcp
    exact (h.kept fun e he => by rw [hrec] at he; cases he).1 hr
  | some e =>
    by_cases hsame : cp = some ⟨e⟩
    · subst hsame
      obtain ⟨st, hst, hlen, hread⟩ := hr
      obtain ⟨st', k, hst', hfile⟩ := (h.kept fun e' he' => by
        rw [Option.some.inj (hrec.symm.trans he')]).2 st hst
      refine ⟨st', hst', ?_, ?_⟩
      · rw [hfile]
        exact hlen
      · rw [hfile]
        exact hread
    · obtain ⟨file, ⟨hcontent, -⟩, hd⟩ := h.published e hrec hsame
      refine ⟨_, hd, ?_, ?_⟩
      · rw [hcontent]
        exact StreamCheckpoint.length_toVec_le _
      · rw [hcontent]
        exact CheckpointReader.fromSlice_toVec _

/-- **Initializing again changes nothing.**  After an initialization that has ended,
another one without faults ends with the same active pair and leaves every log, every
index and the checkpoint as they were, the cursors of the pair included. -/
theorem initialize_again {tree : Tree} {plan plan' : Plan} {w : World Tree}
    (hr : StorageProvider.Reads d₀ s cp) (hon : On p s d₀ tree)
    (hordinary : ∀ f, f.streamId = s → d₀ (.log f) ≠ none → ¬ f.Terminal)
    (hrun : (initializeStream p s).run tree plan = (.ok i, w)) (hplan' : plan'.Smooth) :
    ∃ d d' w', On p s d w.sys ∧
      (initializeStream p s).run w.sys plan' = (.ok i, w') ∧ On p s d' w'.sys ∧
      Unchanged s i d d' := by
  have hfirst := (initializeStream_triple hr ⟨tree, plan⟩ hon plan.within_any).2
  rw [Io.run] at hrun
  rw [hrun] at hfirst
  obtain ⟨d, hinitialized, hon'⟩ := hfirst
  obtain ⟨r, hrecovered⟩ := hinitialized.recovered
  have hsettled := hrecovered.settled
  obtain ⟨i', d', w', hw', hinitialized', hon''⟩ := initializeStream_completes
    (hrecovered.reads hr) hon' hsettled.sound (hrecovered.ordinary hordinary) hsettled.vacant hplan'
  obtain ⟨r', hrecovered'⟩ := hinitialized'.recovered
  obtain ⟨rfl, -, hunchanged⟩ := hsettled.unchanged hrecovered'
  exact ⟨d, d', w', hon', hw', hon'', hunchanged⟩

omit [Crc32c] [CheckpointReader] in
/-- The first initialization cuts a torn tail off, rebuilds the index and publishes the end
of the record that is left, which the second one trusts. -/
theorem initialize_again_torn : letI := Crc32c.reference
    letI := CheckpointReader.canonical
    let p : StorageProvider := ⟨[]⟩
    let f : LogFileId := .first ⟨0, by decide⟩
    let log := File.durable (encodings [Fills.firstRecord f] ++ [15, 0, 0])
    let index := File.durable [1, 2, 3]
    let tree := StorageProvider.pairTree p f log index
    ((p.readCheckpoint f.streamId).run ((initializeStream p f.streamId).run tree .calm).2.sys
      .calm).1 = .ok ((endOf [Fills.firstRecord f]).map StreamCheckpoint.mk) ∧
    ∃ i w d d' w', (initializeStream p f.streamId).run tree .calm = (.ok i, w) ∧
      On p f.streamId d w.sys ∧
      (initializeStream p f.streamId).run w.sys (.next (.upTo 3 0) .calm) = (.ok i, w') ∧
      On p f.streamId d' w'.sys ∧ Unchanged f.streamId i d d' := by
  intro p f log index tree
  refine ⟨by decide +kernel, ?_⟩
  let _ := Crc32c.reference
  let _ := CheckpointReader.canonical
  have hon := StorageProvider.on_pairTree p f log index
  have hreads : StorageProvider.Reads (StorageProvider.pairDisk f log index) f.streamId none :=
    StorageProvider.pairDisk_of_ne (by simp) (by simp) _ _
  obtain ⟨hordinary, hvacant⟩ := pairDisk_fits (f := f) (by decide) log index none
  have hterminal : ∀ g, g.streamId = f.streamId →
      StorageProvider.pairDisk f log index (.log g) ≠ none → ¬ g.Terminal := by
    intro g _ hlog
    rw [eq_of_pairDisk_log hlog]
    decide
  have hstart : ∃ i d w, (initializeStream p f.streamId).run tree .calm = (.ok i, w) ∧ _ ∧ _ :=
    initializeStream_completes hreads hon (by simp [Sound]) hordinary hvacant trivial
  obtain ⟨i, -, w, hw, -⟩ := hstart
  obtain ⟨d, d', w', hd, hw', hd', hunchanged⟩ := initialize_again hreads hon hterminal hw
    (show (Plan.next (.upTo 3 0) .calm).Smooth from ⟨fun _ => by decide, trivial⟩)
  exact ⟨i, w, d, d', w', hw, hd, hw', hd', hunchanged⟩

end StreamInitializer

end TransactionLog
