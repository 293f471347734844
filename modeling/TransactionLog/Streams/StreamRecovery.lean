import TransactionLog.Streams.StreamInitializer

/-!
# What an initialization leaves

`Recovered` describes the disk after an initialization by the one before it: the
files from the checkpoint's on are complete up to the active one, each of them
mended, nothing is left after it, and the published end is the last one recovered.
Without faults every initialization whose trusted endpoint is sound gets there.
-/

namespace TransactionLog

open Lib

namespace StreamInitializer

open IndexedLogValidator (withPair openedIndex openedIndex_congr same_withPair same_files_withPair
  Mended)
open LogFileValidator (trustedCount startPosition Accepts found endAfter Exhausted)
open IndexFileValidator (Trusts)

variable {p : StorageProvider} {s : StreamId} {t r r' : Option RecordEndLocation}
  {st st' : InitializationState} {d d' d₀ d₁ : Disk} {f g : LogFileId} {files : List LogFileId}
  {c : Mode} {cp : Option StreamCheckpoint} {m : Option LogFileId}

/-! ### Places that a step leaves alone -/

theorem Loaded.log (h : Loaded s d d') (f : LogFileId) : d' (.log f) = d (.log f) := by
  rcases h with rfl | ⟨k, rfl⟩
  · rfl
  · rw [StorageProvider.moved, Function.update_of_ne (by simp)]

theorem Loaded.index (h : Loaded s d d') (f : LogFileId) : d' (.index f) = d (.index f) := by
  rcases h with rfl | ⟨k, rfl⟩
  · rfl
  · rw [StorageProvider.moved, Function.update_of_ne (by simp)]

/-- The bytes of the checkpoint are those that were read. -/
theorem Loaded.checkpoint (h : Loaded s d d') : ∀ {s' : StreamId} {st : Stored},
    d (.checkpoint s') = some st → ∃ k, d' (.checkpoint s') = some ⟨st.file.seekTo k, st.linked⟩ := by
  intro s' st hst
  rcases h with rfl | ⟨k, rfl⟩
  · exact ⟨st.file.cursor, hst⟩
  · by_cases hs : s' = s
    · subst hs
      rw [StorageProvider.moved_eq hst, Function.update_self]
      exact ⟨k, rfl⟩
    · rw [StorageProvider.moved, Function.update_of_ne (by simpa using hs)]
      exact ⟨st.file.cursor, hst⟩

/-- The same file of the same place. -/
theorem opened_congr {x : Place} {L L' : Stored} (h : Same d d' x) (hL : d x = some L)
    (hL' : d' x = some L') : L'.opened.file = L.opened.file := by
  obtain ⟨L'', hL'', hfile, -⟩ := h.exists_file hL
  obtain rfl := Option.some.inj (hL'.symm.trans hL'')
  exact congrArg (File.seekTo 0) hfile

theorem nodup_filesFrom (h : Covered s cp m) : (filesFrom (firstFile s cp) m).Nodup := by
  cases m with
  | none => exact List.nodup_nil
  | some last =>
    have hle := (h.maximum last rfl).2
    have hlast := last.fileNumber.le
    refine List.Nodup.of_map (fun g : LogFileId => g.fileNumber.get) ?_
    rw [filesFrom, LogFileId.map_successors _ _ (by omega)]
    exact List.nodup_range'

theorem nodup_passed (h : Covered s cp m) {passed rest : List LogFileId}
    (hfiles : filesFrom (firstFile s cp) m = passed ++ rest) : passed.Nodup :=
  List.Nodup.of_append_left (hfiles ▸ nodup_filesFrom h)

/-- The passed files are those before the file that follows them. -/
theorem mem_passed (h : Covered s cp m) {passed rest : List LogFileId}
    (hfiles : filesFrom (firstFile s cp) m = passed ++ rest)
    (hf : f.fileNumber.get = (firstFile s cp).fileNumber.get + passed.length) :
    g ∈ passed ↔ g.streamId = s ∧ (firstFile s cp).fileNumber.get ≤ g.fileNumber.get ∧
      g.fileNumber.get < f.fileNumber.get := by
  constructor
  · intro hg
    obtain ⟨xs, ys, rfl⟩ := List.append_of_mem hg
    rw [List.append_assoc, List.cons_append] at hfiles
    obtain ⟨hs, hn⟩ := filesFrom_eq_append h hfiles
    rw [List.length_append, List.length_cons] at hf
    exact ⟨hs, by omega, by omega⟩
  · rintro ⟨hs, hle, hlt⟩
    obtain ⟨k, hk⟩ := Nat.exists_eq_add_of_le hle
    have hlen : k < passed.length := by omega
    have hsplit : passed = passed.take k ++ passed[k] :: passed.drop (k + 1) := by
      rw [List.getElem_cons_drop, List.take_append_drop]
    rw [hsplit, List.append_assoc, List.cons_append] at hfiles
    obtain ⟨hs', hn'⟩ := filesFrom_eq_append h hfiles
    rw [List.length_take, Nat.min_eq_left (Nat.le_of_lt hlen)] at hn'
    have hsame : g = passed[k] := LogFileId.ext' (hs.trans hs'.symm) (hk.trans hn'.symm)
    rw [hsame]
    exact List.getElem_mem hlen

/-- A file that is not before the next one has not been passed. -/
theorem ne_of_mem_passed (h : Covered s cp m) {passed rest : List LogFileId}
    (hfiles : filesFrom (firstFile s cp) m = passed ++ rest)
    (hf : f.fileNumber.get = (firstFile s cp).fileNumber.get + passed.length)
    (hle : f.fileNumber.get ≤ g.fileNumber.get) : ∀ f' ∈ passed, g ≠ f' := by
  rintro f' hf' rfl
  have := ((mem_passed h hfiles hf).mp hf').2.2
  omega

/-! ### After the walk -/

theorem Removed.frame (h : Removed st d d') {x : Place}
    (hx : ∀ first ∈ st.firstFileToRemove, ∀ last ∈ st.maximumLogFile, ∀ f,
      LogFileId.Between first last f → x ≠ .log f ∧ x ≠ .index f) : Same d d' x := by
  rw [Removed] at h
  split at h
  · rename_i first last hfirst hlast
    exact h.1.outside x (hx first hfirst last hlast)
  · rw [h]
    exact .refl _ _

/-- The files before the removed ones. -/
theorem Removed.below (h : Removed st d d')
    (hlt : ∀ first ∈ st.firstFileToRemove, g.fileNumber.get < first.fileNumber.get) :
    Same d d' (.log g) ∧ Same d d' (.index g) := by
  have hne : ∀ first ∈ st.firstFileToRemove, ∀ last ∈ st.maximumLogFile, ∀ f,
      LogFileId.Between first last f → g ≠ f := by
    rintro first hfirst last - f hf rfl
    have := hlt first hfirst
    have := hf.2.1
    omega
  exact ⟨h.frame fun first h1 last h2 f h3 => ⟨by simpa using hne first h1 last h2 f h3, by simp⟩,
    h.frame fun first h1 last h2 f h3 => ⟨by simp, by simpa using hne first h1 last h2 f h3⟩⟩

theorem Prepared.frame {i : InitializedStream} (h : Prepared st d st' d')
    (hi : st'.activePair = some i) {x : Place} (hlog : x ≠ .log i.fileId)
    (hindex : x ≠ .index i.fileId) : Same d d' x := by
  rcases h with ⟨-, -, rfl⟩ | ⟨-, f, -, -, rfl, rfl⟩
  · exact .refl _ _
  · obtain rfl := Option.some.inj hi
    exact StorageProvider.same_created (.inr rfl) hlog hindex

theorem Prepared.frame_files {i : InitializedStream} (h : Prepared st d st' d')
    (hi : st'.activePair = some i) (hne : g ≠ i.fileId) :
    Same d d' (.log g) ∧ Same d d' (.index g) :=
  ⟨h.frame hi (by simpa using hne) (by simp), h.frame hi (by simp) (by simpa using hne)⟩

theorem Advanced.frame_files (h : Advanced p s st d d') (g : LogFileId) :
    Same d d' (.log g) ∧ Same d d' (.index g) :=
  ⟨h.frame (by simp) (by simp), h.frame (by simp) (by simp)⟩

theorem Advanced.published (h : Advanced p s st d d') {e : RecordEndLocation}
    (he : st.recoveredEnd = some e) (hnew : st.checkpoint ≠ some ⟨e⟩) :
    ∃ file, StorageProvider.Holds ⟨e⟩ file ∧ d' (.checkpoint s) = some ⟨file, true⟩ := by
  rw [Advanced, he] at h
  simp only [if_neg hnew] at h
  obtain ⟨file, hfile, rfl⟩ := h
  refine ⟨file, hfile, ?_⟩
  rw [Disk.link, if_pos (show Place.directory p (.checkpoint s) = p.streamDirectory s from rfl),
    StorageProvider.published, Function.update_self]
  rfl

theorem Advanced.kept (h : Advanced p s st d d')
    (hkept : ∀ e, st.recoveredEnd = some e → st.checkpoint = some ⟨e⟩) : d' = d := by
  rw [Advanced] at h
  split at h
  · exact h
  · rename_i e he
    rw [if_pos (hkept e he)] at h
    exact h

variable [Crc32c]

/-- A complete file with its repaired pair. -/
def PassedAt (t : Option RecordEndLocation) (d d' : Disk) (g : LogFileId) : Prop :=
  ∃ L l i e, d (.log g) = some L ∧
    Mended g (trustedAt t g) L.opened.file (openedIndex d g) l i (.complete e) ∧
    d' (.log g) = some ⟨l, true⟩ ∧ d' (.index g) = some ⟨i, true⟩

/-- Every passed file was mended as it was at the beginning. -/
theorem Passed.passedAt (h : Passed p t d r files d' r') (hnodup : files.Nodup) :
    ∀ g ∈ files, PassedAt t d d' g := by
  induction h with
  | nil => simp
  | @cons d d' r r' f files L l i e hlog hmended rest ih =>
    obtain ⟨hf, hnodup⟩ := List.nodup_cons.mp hnodup
    intro g hg
    rcases List.mem_cons.mp hg with rfl | hg
    · have hne : ∀ f ∈ files, g ≠ f := fun f hf' heq => hf (heq ▸ hf')
      obtain ⟨hlogSame, hindexSame⟩ := rest.frame_files hne
      exact ⟨L, l, i, e, hlog, hmended, hlogSame.of_linked IndexedLogValidator.withPair_log,
        hindexSame.of_linked IndexedLogValidator.withPair_index⟩
    · obtain ⟨L', l', i', e', hlog', hmended', hl, hi⟩ := ih hnodup g hg
      have hne : g ≠ f := fun heq => hf (heq ▸ hg)
      obtain ⟨hlogSame, hindexSame⟩ : Same d (withPair (d.link p (p.leafDirectory f)) f l i) (.log g) ∧
          Same d (withPair (d.link p (p.leafDirectory f)) f l i) (.index g) :=
        same_files_withPair hne _
      obtain ⟨L₀, hL₀⟩ : ∃ L₀, d (.log g) = some L₀ := by
        refine Option.ne_none_iff_exists'.mp fun hnone => ?_
        rw [hlogSame.none_iff.mpr hnone] at hlog'
        cases hlog'
      refine ⟨L₀, l', i', e', hL₀, ?_, hl, hi⟩
      rwa [← opened_congr hlogSame hL₀ hlog', ← openedIndex_congr hindexSame]

/-! ### The disk after an initialization -/

/-- The end that the validation of a file reports. -/
def endIn (t : Option RecordEndLocation) (d : Disk) (g : LogFileId) : Option RecordEndLocation :=
  (d (.log g)).bind fun L => endAfter (trustedAt t g) (found g (trustedAt t g) L.file.content)

/-- The active pair: one that was not full, or a new one. -/
def ActiveAt (t : Option RecordEndLocation) (d d' : Disk) (i : InitializedStream) : Prop :=
  (∃ L l k, d (.log i.fileId) = some L ∧
    Mended i.fileId (trustedAt t i.fileId) L.opened.file (openedIndex d i.fileId) l k
      (.incomplete i.endLocation) ∧
    d' (.log i.fileId) = some ⟨l, true⟩ ∧ d' (.index i.fileId) = some ⟨k, true⟩) ∨
  (d (.log i.fileId) = none ∧ trustedAt t i.fileId = none ∧ i.endLocation = none ∧
    d' (.log i.fileId) = some ⟨.empty, false⟩ ∧ d' (.index i.fileId) = some ⟨.empty, false⟩)

/-- There is a log of the file or of one after it. -/
def Reached (s : StreamId) (d : Disk) (g : LogFileId) : Prop :=
  ∃ h : LogFileId, h.streamId = s ∧ d (.log h) ≠ none ∧ g.fileNumber.get ≤ h.fileNumber.get

/-- What an initialization leaves of the disk `d₀`; `r` is the recovered end. -/
structure Recovered (s : StreamId) (cp : Option StreamCheckpoint) (d₀ : Disk)
    (i : InitializedStream) (r : Option RecordEndLocation) (d : Disk) : Prop where
  stream : i.fileId.streamId = s
  first_stream : (firstFile s cp).streamId = s
  first_le : (firstFile s cp).fileNumber.get ≤ i.fileId.fileNumber.get
  before : ∀ g : LogFileId, g.streamId = s → g.fileNumber.get < (firstFile s cp).fileNumber.get →
    Same d₀ d (.log g) ∧ Same d₀ d (.index g)
  passed : ∀ g : LogFileId, g.streamId = s → (firstFile s cp).fileNumber.get ≤ g.fileNumber.get →
    g.fileNumber.get < i.fileId.fileNumber.get →
    PassedAt (cp.map StreamCheckpoint.endLocation) d₀ d g
  active : ActiveAt (cp.map StreamCheckpoint.endLocation) d₀ d i
  after : ∀ g : LogFileId, g.streamId = s → i.fileId.fileNumber.get < g.fileNumber.get →
    d (.log g) = none ∧ (Reached s d₀ g ∧ d (.index g) = none ∨
      ¬ Reached s d₀ g ∧ Same d₀ d (.index g))
  recovered_first : i.fileId = firstFile s cp → r = i.endLocation
  recovered_later : ∀ g : LogFileId, g.streamId = s →
    (firstFile s cp).fileNumber.get ≤ g.fileNumber.get →
    i.fileId.fileNumber.get = g.fileNumber.get + 1 →
    r = i.endLocation.or (endIn (cp.map StreamCheckpoint.endLocation) d₀ g)
  published : ∀ e, r = some e → cp ≠ some ⟨e⟩ →
    ∃ file, StorageProvider.Holds ⟨e⟩ file ∧ d (.checkpoint s) = some ⟨file, true⟩
  kept : (∀ e, r = some e → cp = some ⟨e⟩) →
    (d₀ (.checkpoint s) = none → d (.checkpoint s) = none) ∧
    ∀ st, d₀ (.checkpoint s) = some st →
      ∃ st' k, d (.checkpoint s) = some st' ∧ st'.file = st.file.seekTo k

/-! ### Every initialization gets there -/

theorem endIn_congr (h : Same d d' (.log g)) : endIn t d' g = endIn t d g := by
  rw [endIn, endIn]
  rcases h with h | ⟨L, hL, h⟩
  · rw [h]
  · rw [h, hL]
    rfl

omit [Crc32c] in
theorem Loaded.reached (h : Loaded s d d') : Reached s d' g ↔ Reached s d g := by
  simp only [Reached, h.log]

theorem Loaded.endIn_eq (h : Loaded s d d') : endIn t d' g = endIn t d g := by
  rw [endIn, endIn, h.log]

/-- The recovered end is that of the last file passed. -/
theorem Passed.recovered_endIn (h : Passed p t d r files d' r') (hnodup : files.Nodup) :
    ∀ g ∈ files.getLast?, r' = endIn t d g := by
  induction h with
  | nil => simp
  | @cons d d' r r' f files L l i e hlog hmended rest ih =>
    obtain ⟨hf, hnodup⟩ := List.nodup_cons.mp hnodup
    intro g hg
    cases files with
    | nil =>
      obtain rfl : f = g := by simpa using hg
      have hr := rest.recovered
      rw [List.getLast?_nil] at hr
      rw [hr, endIn, hlog]
      exact hmended.complete.2.2.1.symm
    | cons f' files =>
      rw [List.getLast?_cons_cons] at hg
      have hne : g ≠ f := fun heq => hf (heq ▸ List.mem_of_getLast? hg)
      rw [ih hnodup g hg]
      exact endIn_congr (same_files_withPair hne _).1

/-- What the walk has done, what the rest of the initialization leaves alone, and
what it puts where the walk ended. -/
theorem recovered_of_walk {i : InitializedStream} {passed rest : List LogFileId} {d₂ : Disk}
    (hloaded : Loaded s d₀ d₁) (hcov : Covered s cp m)
    (hfiles : filesFrom (firstFile s cp) m = passed ++ rest)
    (hpassed : Passed p (cp.map StreamCheckpoint.endLocation) d₁ none passed d₂ r)
    (hs : i.fileId.streamId = s)
    (hn : i.fileId.fileNumber.get = (firstFile s cp).fileNumber.get + passed.length)
    (hframe : ∀ g : LogFileId, g.streamId = s → g.fileNumber.get < i.fileId.fileNumber.get →
      Same d₂ d (.log g) ∧ Same d₂ d (.index g))
    (hactive : ActiveAt (cp.map StreamCheckpoint.endLocation) d₁ d i)
    (hafter : ∀ g : LogFileId, g.streamId = s → i.fileId.fileNumber.get < g.fileNumber.get →
      d (.log g) = none ∧ (Reached s d₁ g ∧ d (.index g) = none ∨
        ¬ Reached s d₁ g ∧ Same d₁ d (.index g)))
    (hpublished : ∀ e, i.endLocation.or r = some e → cp ≠ some ⟨e⟩ →
      ∃ file, StorageProvider.Holds ⟨e⟩ file ∧ d (.checkpoint s) = some ⟨file, true⟩)
    (hkept : (∀ e, i.endLocation.or r = some e → cp = some ⟨e⟩) →
      Same d₁ d (.checkpoint s)) :
    Recovered s cp d₀ i (i.endLocation.or r) d where
  stream := hs
  first_stream := hcov.firstFile_stream
  first_le := by omega
  before := by
    intro g hg hlt
    have hne : ∀ f ∈ passed, g ≠ f := by
      intro f hf heq
      have := ((mem_passed hcov hfiles hn).mp hf).2.1
      rw [heq] at hlt
      omega
    rw [Same, ← hloaded.log, Same, ← hloaded.index]
    exact Same.files_trans (hpassed.frame_files hne) (hframe g hg (by omega))
  passed := by
    intro g hg hle hlt
    obtain ⟨L, l, k, e, hL, hmended, hl, hk⟩ := hpassed.passedAt (nodup_passed hcov hfiles) g
      ((mem_passed hcov hfiles hn).mpr ⟨hg, hle, hlt⟩)
    obtain ⟨hlog, hindex⟩ := hframe g hg hlt
    refine ⟨L, l, k, e, hloaded.log g ▸ hL, ?_, hlog.of_linked hl, hindex.of_linked hk⟩
    rwa [← openedIndex_congr (.inl (hloaded.index g))]
  active := by
    rcases hactive with ⟨L, l, k, hL, hmended, h⟩ | ⟨hL, h⟩
    · refine .inl ⟨L, l, k, hloaded.log _ ▸ hL, ?_, h⟩
      rwa [← openedIndex_congr (.inl (hloaded.index _))]
    · exact .inr ⟨hloaded.log _ ▸ hL, h⟩
  after := by
    intro g hg hlt
    obtain ⟨hlog, hindex⟩ := hafter g hg hlt
    rw [hloaded.reached] at hindex
    refine ⟨hlog, hindex.imp id fun h => ⟨h.1, ?_⟩⟩
    rw [Same, ← hloaded.index]
    exact h.2
  recovered_first := by
    intro hfirst
    rw [hfirst] at hn
    obtain rfl := List.length_eq_zero_iff.mp (show passed.length = 0 by omega)
    rw [show r = none from hpassed.recovered, Option.or_none]
  recovered_later := by
    intro g hg hle hnext
    have hmem := (mem_passed hcov hfiles hn).mpr ⟨hg, hle, by omega⟩
    rcases List.eq_nil_or_concat passed with rfl | ⟨init, g', rfl⟩
    · cases hmem
    rw [List.concat_eq_append] at hpassed hfiles hn
    rw [List.length_append, List.length_singleton] at hn
    have hfiles' := hfiles
    rw [List.append_assoc, List.singleton_append] at hfiles'
    obtain ⟨hs', hn'⟩ := filesFrom_eq_append hcov hfiles'
    obtain rfl : g = g' := LogFileId.ext' (hg.trans hs'.symm) (by omega)
    rw [hpassed.recovered_endIn (nodup_passed hcov hfiles) g (by simp), hloaded.endIn_eq]
  published := hpublished
  kept := by
    intro hsame
    have h := hkept hsame
    refine ⟨fun hnone => h.none_iff.mpr ?_, fun st hst => ?_⟩
    · rcases hloaded with rfl | ⟨k, rfl⟩
      · exact hnone
      · rw [StorageProvider.moved, hnone, Function.update_self]
        rfl
    · obtain ⟨k, hk⟩ := hloaded.checkpoint hst
      obtain ⟨st', hst', hfile, -⟩ := h.exists_file hk
      exact ⟨st', k, hst', hfile⟩

/-- Files after the range that was removed are after every log. -/
theorem Visited.after (h : Visited p s cp d₀ d₁ m st d₂) {d₃ : Disk} (hremoved : Removed st d₂ d₃)
    (hf : ∀ first ∈ st.firstFileToRemove, first.fileNumber.get ≤ f.fileNumber.get + 1)
    (hlast : st.firstFileToRemove = none → ∀ g : LogFileId, g.streamId = s → d₁ (.log g) ≠ none →
      g.fileNumber.get ≤ f.fileNumber.get)
    (hsame : ∀ g : LogFileId, g.streamId = s → f.fileNumber.get < g.fileNumber.get →
      Same d₁ d₂ (.log g) ∧ Same d₁ d₂ (.index g))
    (hg : g.streamId = s) (hlt : f.fileNumber.get < g.fileNumber.get) :
    d₃ (.log g) = none ∧ (Reached s d₁ g ∧ d₃ (.index g) = none ∨
      ¬ Reached s d₁ g ∧ Same d₁ d₃ (.index g)) := by
  obtain ⟨hlog, hindex⟩ := hsame g hg hlt
  have hmax := h.maximum
  cases hfirst : st.firstFileToRemove with
  | none =>
    have hd : d₃ = d₂ := by
      rw [Removed, hfirst] at hremoved
      exact hremoved
    have habove := hlast hfirst
    subst hd
    refine ⟨hlog.none_iff.mpr ?_, .inr ⟨?_, hindex⟩⟩
    · by_contra hne
      have := habove g hg hne
      omega
    · rintro ⟨h, hh, hlogh, hle⟩
      have := habove h hh hlogh
      omega
  | some first =>
    have hle := hf first hfirst
    obtain ⟨hs, last, rfl, hbetween⟩ := h.first_to_remove hfirst
    have hstate := h.state.2.2
    by_cases hin : g.fileNumber.get ≤ last.fileNumber.get
    · rw [Removed, hfirst, hstate] at hremoved
      obtain ⟨h1, h2⟩ := hremoved.2 g ⟨hg.trans hs.symm, by omega, hin⟩
      exact ⟨h1, .inl ⟨⟨last, hmax.1, hmax.2.1, hin⟩, h2⟩⟩
    · have hout : ∀ x : Place, (x = .log g ∨ x = .index g) → Same d₂ d₃ x := by
        intro x hx
        refine hremoved.frame fun first' _ last' hlast' f' hf' => ?_
        rw [hstate] at hlast'
        obtain rfl := Option.some.inj hlast'
        have hne : g ≠ f' := fun heq => hin (heq ▸ hf'.2.2)
        rcases hx with rfl | rfl
        · exact ⟨by simpa using hne, by simp⟩
        · exact ⟨by simp, by simpa using hne⟩
      have hnone : d₁ (.log g) = none := by
        by_contra hne
        exact hin (hmax.2.2 g hg hne)
      refine ⟨(hlog.trans (hout _ (.inl rfl))).none_iff.mpr hnone,
        .inr ⟨?_, hindex.trans (hout _ (.inr rfl))⟩⟩
      rintro ⟨h, hh, hlogh, hle⟩
      have := hmax.2.2 h hh hlogh
      omega

omit [Crc32c] in
/-- Files are removed from the one after the pair that goes on. -/
theorem number_of_next {first : LogFileId} {maximum : Option LogFileId}
    (h : (if some f = maximum then none else f.next) = some first) :
    first.fileNumber.get = f.fileNumber.get + 1 := by
  split at h
  · cases h
  · exact (LogFileId.next_eq_some.mp h).2

omit [Crc32c] in
/-- Where none are removed, no log is after the pair. -/
theorem le_of_no_next (hmax : StorageProvider.IsMaximum d s m)
    (h : (if some f = m then none else f.next) = none) (hg : g.streamId = s)
    (hlog : d (.log g) ≠ none) : g.fileNumber.get ≤ f.fileNumber.get := by
  split at h
  · rename_i heq
    rw [← heq] at hmax
    exact hmax.2.2 g hg hlog
  · have hterminal : f.Terminal := by
      by_contra hf
      obtain ⟨f', hf'⟩ := LogFileId.exists_next hf
      rw [hf'] at h
      cases h
    have := (not_congr LogFileId.not_terminal_iff).mp (not_not.mpr hterminal)
    have := g.fileNumber.le
    omega

/-- The pair after the passed ones goes on. -/
theorem Visited.goes_on {i : InitializedStream} {d₂ d₃ : Disk}
    (h : Visited p s cp d₀ d₁ m st d₂) (hremoved : Removed st d₂ d₃)
    (hadvanced : Advanced p s st d₃ d) (hi : st.activePair = some i)
    (hpublished : ∀ e, st.recoveredEnd = some e → cp ≠ some ⟨e⟩ →
      ∃ file, StorageProvider.Holds ⟨e⟩ file ∧ d (.checkpoint s) = some ⟨file, true⟩)
    (hkept : (∀ e, st.recoveredEnd = some e → cp = some ⟨e⟩) → Same d₂ d (.checkpoint s)) :
    ∃ r, Recovered s cp d₀ i r d := by
  have hcov := h.covered
  obtain ⟨passed, rest, d₅, r, hfiles, hpassed, hended⟩ := h.walk
  cases hended with
  | all => cases hi
  | missing => cases hi
  | @incomplete f rest L l k e hlog hmended =>
    obtain rfl := Option.some.inj hi
    obtain ⟨hs, hn⟩ := filesFrom_eq_append hcov hfiles
    have hnotMem := fun g => ne_of_mem_passed (g := g) hcov hfiles hn
    have hbelow : ∀ g : LogFileId, g.fileNumber.get ≤ f.fileNumber.get →
        Same (withPair (d₅.link p (p.leafDirectory f)) f l k) d (.log g) ∧
          Same (withPair (d₅.link p (p.leafDirectory f)) f l k) d (.index g) := by
      intro g hle
      refine Same.files_trans (hremoved.below fun first hfirst => ?_) (hadvanced.frame_files g)
      have := number_of_next hfirst
      omega
    have hbeyond : ∀ g : LogFileId, g.streamId = s → f.fileNumber.get < g.fileNumber.get →
        Same d₁ (withPair (d₅.link p (p.leafDirectory f)) f l k) (.log g) ∧
          Same d₁ (withPair (d₅.link p (p.leafDirectory f)) f l k) (.index g) := by
      intro g _ hlt
      exact Same.files_trans (hpassed.frame_files (hnotMem g (Nat.le_of_lt hlt)))
        (same_files_withPair (LogFileId.ne_of_lt hlt).symm _)
    refine ⟨_, recovered_of_walk h.loaded hcov hfiles hpassed hs hn (fun g hg hlt => ?_)
      (.inl ?_) (fun g hg hlt => ?_) hpublished fun hsame => ?_⟩
    · exact Same.files_trans (same_files_withPair (LogFileId.ne_of_lt hlt) _)
        (hbelow g (Nat.le_of_lt hlt))
    · obtain ⟨h1, h2⟩ := hbelow f (Nat.le_refl _)
      obtain ⟨hlogSame, hindexSame⟩ := hpassed.frame_files (hnotMem f (Nat.le_refl _))
      obtain ⟨L₀, hL₀⟩ : ∃ L₀, d₁ (.log f) = some L₀ :=
        Option.ne_none_iff_exists'.mp fun h => by
          rw [hlogSame.none_iff.mpr h] at hlog
          cases hlog
      refine ⟨L₀, l, k, hL₀, ?_, h1.of_linked IndexedLogValidator.withPair_log,
        h2.of_linked IndexedLogValidator.withPair_index⟩
      rwa [← opened_congr hlogSame hL₀ hlog, ← openedIndex_congr hindexSame]
    · obtain ⟨h1, h2⟩ := h.after hremoved (fun first hfirst => (number_of_next hfirst).le)
        (fun hnone g => le_of_no_next h.maximum hnone) hbeyond hg hlt
      obtain ⟨hlogSame, hindexSame⟩ := hadvanced.frame_files g
      exact ⟨hlogSame.none_iff.mpr h1, h2.imp (fun h => ⟨h.1, hindexSame.none_iff.mpr h.2⟩)
        fun h => ⟨h.1, h.2.trans hindexSame⟩⟩
    · refine Same.trans ?_ (hkept hsame)
      exact (hpassed.frame (by simp)).trans (same_withPair (by simp) (by simp) _)

/-- A new pair follows the passed ones. -/
theorem Visited.begins {d₂ d₃ d₄ : Disk} (h : Visited p s cp d₀ d₁ m st d₂)
    (hremoved : Removed st d₂ d₃) (hadvanced : Advanced p s st d₃ d₄)
    (hnone : st.activePair = none) (hnew : newFile st = some f)
    (hframe : ∀ g, g ≠ f → Same d₄ d (.log g) ∧ Same d₄ d (.index g))
    (hlogNew : d (.log f) = some ⟨.empty, false⟩) (hindexNew : d (.index f) = some ⟨.empty, false⟩)
    (hpublished : ∀ e, st.recoveredEnd = some e → cp ≠ some ⟨e⟩ →
      ∃ file, StorageProvider.Holds ⟨e⟩ file ∧ d (.checkpoint s) = some ⟨file, true⟩)
    (hkept : (∀ e, st.recoveredEnd = some e → cp = some ⟨e⟩) → Same d₂ d (.checkpoint s)) :
    ∃ r, Recovered s cp d₀ ⟨f, none⟩ r d := by
  have hcov := h.covered
  obtain ⟨f', passed, rest, hnew', hs, hn, hfiles, hlog, -, hwhere, huntrusted, hpassed⟩ :=
    h.new_file hnone
  obtain rfl : f = f' := Option.some.inj (hnew.symm.trans hnew')
  have hfirst : ∀ first ∈ st.firstFileToRemove, first = f := by
    intro first hfirst
    rcases hwhere with hw | ⟨-, -, hw⟩
    · exact Option.some.inj (hfirst.symm.trans hw)
    · rw [hw] at hfirst
      cases hfirst
  have habove : st.firstFileToRemove = none → ∀ g : LogFileId, g.streamId = s →
      d₁ (.log g) ≠ none → g.fileNumber.get ≤ f.fileNumber.get := by
    intro hno g hg hlog
    rcases hwhere with hw | ⟨hbeyond, -⟩
    · rw [hno] at hw
      cases hw
    · exact Nat.le_of_lt (hbeyond.1 g (hg.trans hs.symm) hlog)
  refine ⟨_, recovered_of_walk h.loaded hcov hfiles hpassed hs hn (fun g hg hlt => ?_)
    (.inr ⟨hlog, huntrusted, rfl, hlogNew, hindexNew⟩) (fun g hg hlt => ?_) hpublished
    fun hsame => ?_⟩
  · refine Same.files_trans (hremoved.below fun first h => ?_)
      (Same.files_trans (hadvanced.frame_files g) (hframe g (LogFileId.ne_of_lt hlt)))
    rw [hfirst first h]
    exact hlt
  · obtain ⟨h1, h2⟩ := h.after hremoved
      (fun first h => by rw [hfirst first h]; exact Nat.le_succ _) habove
      (fun g hg hlt => hpassed.frame_files
        (ne_of_mem_passed hcov hfiles hn (Nat.le_of_lt hlt))) hg hlt
    obtain ⟨hlogSame, hindexSame⟩ := Same.files_trans (hadvanced.frame_files g)
      (hframe g (LogFileId.ne_of_lt hlt).symm)
    exact ⟨hlogSame.none_iff.mpr h1, h2.imp (fun h => ⟨h.1, hindexSame.none_iff.mpr h.2⟩)
      fun h => ⟨h.1, h.2.trans hindexSame⟩⟩
  · refine Same.trans ?_ (hkept hsame)
    exact hpassed.frame (by simp)

/-- **What an initialization leaves.** -/
theorem Initialized.recovered {i : InitializedStream} (h : Initialized p s cp d₀ i d) :
    ∃ r, Recovered s cp d₀ i r d := by
  obtain @⟨d₁, d₂, d₃, d₄, _, m, st, st', _, hvisited, hremoved, hadvanced, hprepared, hi⟩ := h
  obtain ⟨-, hcheckpoint, -⟩ := hvisited.state
  have hpublished : ∀ e, st.recoveredEnd = some e → cp ≠ some ⟨e⟩ →
      ∃ file, StorageProvider.Holds ⟨e⟩ file ∧ d (.checkpoint s) = some ⟨file, true⟩ := by
    intro e he hnew
    obtain ⟨file, hfile, hd⟩ := hadvanced.published he (hcheckpoint ▸ hnew)
    exact ⟨file, hfile, (hprepared.frame hi (by simp) (by simp)).of_linked hd⟩
  have hkept : (∀ e, st.recoveredEnd = some e → cp = some ⟨e⟩) → Same d₂ d (.checkpoint s) := by
    intro hsame
    have hd := hadvanced.kept (hcheckpoint.symm ▸ hsame)
    subst hd
    exact (hremoved.frame (by simp)).trans (hprepared.frame hi (by simp) (by simp))
  have hframe := fun g => hprepared.frame_files (g := g) hi
  rcases hprepared with ⟨-, rfl, rfl⟩ | ⟨hnone, f, hnew, -, rfl, rfl⟩
  · exact hvisited.goes_on hremoved hadvanced hi hpublished hkept
  · obtain rfl := Option.some.inj hi
    exact hvisited.begins hremoved hadvanced hnone hnew hframe
      (StorageProvider.created_log (.inr rfl)) (Function.update_self _ _ _) hpublished hkept

/-! ### Initializing without faults -/

/-- The checkpoint is one of the stream, and its file begins with what it trusts. -/
def Sound (s : StreamId) (cp : Option StreamCheckpoint) (d : Disk) : Prop :=
  ∀ k ∈ cp, k.endLocation.recordId.streamId = s ∧ ∃ L, d (.log k.endLocation.logFileId) = some L ∧
    Accepts k.endLocation.logFileId (some k.endLocation) L.file ∧
    Trusts (some k.endLocation) (openedIndex d k.endLocation.logFileId).content

/-- No log holds the last record ID there is. -/
def Ordinary (s : StreamId) (cp : Option StreamCheckpoint) (d : Disk) : Prop :=
  ∀ f L, f.streamId = s → d (.log f) = some L →
    ¬ Exhausted f (trustedAt (cp.map StreamCheckpoint.endLocation) f)
      (L.file.content.drop (startPosition (trustedAt (cp.map StreamCheckpoint.endLocation) f)).get)

/-- The file holds as many records as fit. -/
def FullAt (t : Option RecordEndLocation) (d : Disk) (g : LogFileId) : Prop :=
  ∃ L, d (.log g) = some L ∧
    trustedCount (trustedAt t g) + (found g (trustedAt t g) L.file.content).length = recordsPerFile

/-- If all files are full, no index stands where the pair after the last one goes. -/
def Vacant (s : StreamId) (cp : Option StreamCheckpoint) (d : Disk) : Prop :=
  ∀ f : LogFileId, f.streamId = s → Beyond d f →
    (∀ g : LogFileId, g.streamId = s → (firstFile s cp).fileNumber.get ≤ g.fileNumber.get →
      g.fileNumber.get < f.fileNumber.get → FullAt (cp.map StreamCheckpoint.endLocation) d g) →
    d (.index f) = none

omit [Crc32c] in
theorem trustedAt_eq_some {e : RecordEndLocation} :
    trustedAt (cp.map StreamCheckpoint.endLocation) f = some e ↔
      cp = some ⟨e⟩ ∧ e.logFileId = f := by
  cases cp with
  | none => simp [trustedAt]
  | some k =>
    obtain ⟨e'⟩ := k
    simp only [trustedAt, Option.map_some, Option.filter_eq_some_iff, Option.some.injEq,
      decide_eq_true_eq, StreamCheckpoint.mk.injEq]

omit [Crc32c] in
/-- What is trusted in a file that is there is right. -/
theorem Sound.trusted (h : Sound s cp d) {L : Stored} (hL : d (.log f) = some L) :
    Accepts f (trustedAt (cp.map StreamCheckpoint.endLocation) f) L.file ∧
      Trusts (trustedAt (cp.map StreamCheckpoint.endLocation) f) (openedIndex d f).content := by
  cases ht : trustedAt (cp.map StreamCheckpoint.endLocation) f with
  | none => exact ⟨LogFileValidator.accepts_none _ _, by simp [Trusts]⟩
  | some e =>
    obtain ⟨rfl, rfl⟩ := trustedAt_eq_some.mp ht
    obtain ⟨-, L', hL', haccepts, htrusts⟩ := h _ rfl
    obtain rfl := Option.some.inj (hL.symm.trans hL')
    exact ⟨haccepts, htrusts⟩

/-- Without faults an initialization whose checkpoint is sound has nowhere to end early. -/
theorem Interrupted.not_calm {e : Exit InitializationError} {tree : Tree}
    (h : Interrupted ⟨True, fun _ => True⟩ p s cp d₀ e tree) (hsound : Sound s cp d₀)
    (hordinary : Ordinary s cp d₀) (hvacant : Vacant s cp d₀) : False := by
  cases h with
  | @loading d₁ _ _ loaded _ _ _ cause =>
    obtain ⟨k, hk, hne | hnone⟩ := cause.resolve_left (fun h => h trivial)
    · exact hne (hsound k hk).1
    · obtain ⟨-, L, hL, -⟩ := hsound k hk
      rw [loaded.log, hL] at hnone
      cases hnone
  | removing _ _ _ _ faulted => exact faulted.1 trivial
  | publishing _ _ _ _ _ _ faulted => exact faulted.1 trivial
  | @validating d₁ m _ _ loaded maximum covered exit =>
    obtain ⟨passed, f, rest, d₂, r₁, hfiles, hpassed, hexit⟩ := exit
    obtain ⟨hs, hn⟩ := filesFrom_eq_append covered hfiles
    have hne : ∀ g ∈ passed, f ≠ g := fun g hg heq => not_mem_passed covered hfiles hn (heq ▸ hg)
    obtain ⟨hlogSame, hindexSame⟩ := hpassed.frame_files hne
    cases hexit with
    | missing log _ _ cause =>
      obtain ⟨e, he⟩ := Option.ne_none_iff_exists'.mp (cause.resolve_left fun h => h trivial)
      obtain ⟨rfl, rfl⟩ := trustedAt_eq_some.mp he
      obtain ⟨-, L, hL, -⟩ := hsound _ rfl
      rw [hlogSame.none_iff, loaded.log, hL] at log
      cases log
    | @validation L e _ log exit =>
      obtain ⟨L₀, hL₀⟩ : ∃ L₀, d₁ (.log f) = some L₀ :=
        Option.ne_none_iff_exists'.mp fun h => by
          rw [hlogSame.none_iff.mpr h] at log
          cases log
      have hopened := opened_congr hlogSame hL₀ log
      have hindex := openedIndex_congr hindexSame
      rw [openedIndex_congr (.inl (loaded.index f))] at hindex
      rw [loaded.log] at hL₀
      obtain ⟨haccepts, htrusts⟩ := hsound.trusted hL₀
      have hexhausted := hordinary f L₀ hs hL₀
      obtain ⟨hcause, -⟩ := exit
      rw [hopened, hindex] at hcause
      have hacc : Accepts f (trustedAt (cp.map StreamCheckpoint.endLocation) f) L₀.opened.file :=
        haccepts
      rcases e with (e | (_ | _ | _) | (_ | _ | _ | _)) | _ | _
      · exact hcause.1 trivial
      · exact hcause hacc
      · exact hcause trivial
      · exact hcause trivial
      · exact hcause trivial
      · exact hcause htrusts
      · exact hcause (LogFileValidator.scanning_found hacc).count_le
      · exact hcause trivial
      · exact hcause trivial
      · exact hexhausted hcause
  | @preparing d₁ d₂ d₃ d₄ m st _ f _ visited removed advanced none_active new _ _ cause =>
    have hindex := cause.1.resolve_left fun h => h trivial
    obtain ⟨f', passed, rest, hnew, hs, hn, hfiles, -, -, hwhere, -, hpassed⟩ :=
      visited.new_file none_active
    have hcov := visited.covered
    obtain rfl : f = f' := Option.some.inj (new.symm.trans hnew)
    rw [Ne, (advanced.frame (by simp) (by simp)).none_iff] at hindex
    rcases hwhere with hfirst | ⟨hbeyond, hsame, -⟩
    · obtain ⟨-, last, hlast, hbetween⟩ := visited.first_to_remove hfirst
      rw [Removed, hfirst, visited.state.2.2, hlast] at removed
      exact hindex (removed.2 f ⟨rfl, Nat.le_refl _, hbetween.2.1⟩).2
    · have hbeyond' : Beyond d₀ f := by
        simpa only [Beyond, visited.loaded.log] using hbeyond
      refine hindex (removed.none (hsame.none_iff.mpr ?_))
      rw [visited.loaded.index]
      refine hvacant f hs hbeyond' fun g hg hle hlt => ?_
      obtain ⟨L, l, i, e, hL, hmended, -⟩ := hpassed.passedAt (nodup_passed hcov hfiles) g
        ((mem_passed hcov hfiles hn).mpr ⟨hg, hle, hlt⟩)
      exact ⟨L, visited.loaded.log g ▸ hL, hmended.complete.2.2.2⟩

omit [Crc32c] in
/-- The only log on the disk of a pair is its own. -/
theorem eq_of_pairDisk_log {f g : LogFileId} {log index : File}
    (h : StorageProvider.pairDisk f log index (.log g) ≠ none) : g = f := by
  by_contra hgf
  exact h (StorageProvider.pairDisk_of_ne (by simpa using hgf) (by simp) _ _)

/-- A stream of a single pair is ordinary, and there is room after it. -/
theorem pairDisk_fits {f : LogFileId} (hf : ¬ f.Terminal) (log index : File)
    (cp : Option StreamCheckpoint) :
    Ordinary f.streamId cp (StorageProvider.pairDisk f log index) ∧
      Vacant f.streamId cp (StorageProvider.pairDisk f log index) := by
  refine ⟨fun g L hg hL => ?_, fun g hg hbeyond _ => ?_⟩
  · obtain rfl := eq_of_pairDisk_log (hL.symm ▸ Option.some_ne_none L)
    exact LogFileValidator.not_exhausted hf
  · have hlt := hbeyond.1 f hg.symm (by simp)
    have hne := (LogFileId.ne_of_lt hlt).symm
    exact StorageProvider.pairDisk_of_ne (by simp) (by simpa using hne) _ _

variable [CheckpointReader] {tree : Tree} {plan : Plan}

/-- **Every initialization without faults completes.** -/
theorem initializeStream_completes (hr : StorageProvider.Reads d s cp) (hon : On p s d tree)
    (hsound : Sound s cp d) (hordinary : Ordinary s cp d) (hvacant : Vacant s cp d)
    (hplan : plan.Smooth) : ∃ i d' w, (initializeStream p s).run tree plan = (.ok i, w) ∧
      Initialized p s cp d i d' ∧ On p s d' w.sys := by
  have hrun := (initializeStream_triple hr ⟨tree, plan⟩ hon hplan).2
  rw [Io.run]
  rcases hw : initializeStream p s ⟨tree, plan⟩ with ⟨e | i, w⟩
  · rw [hw] at hrun
    exact (hrun.not_calm hsound hordinary hvacant).elim
  · rw [hw] at hrun
    obtain ⟨d', hinitialized, hon'⟩ := hrun
    exact ⟨i, d', w, rfl, hinitialized, hon'⟩

end StreamInitializer

end TransactionLog
