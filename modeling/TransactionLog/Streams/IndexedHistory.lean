import TransactionLog.Streams.Sessions

/-!
# The indexes of a history

A reader finds a record through the index of its file.  `Indexed s H k d` says that the
indexes of the first `k` files hold the ends of all records of these files, durably.

An initialization leaves it so for the files before the checkpoint's, wherever it ends, and
for those before the active one, once it has completed.  A writer changes only its own
pair, and a crash takes nothing durable.  So it holds after every run.
-/

namespace TransactionLog

open Lib

namespace StreamInitializer

variable [Crc32c] {p : StorageProvider} {s : StreamId} {H H' : List Record} {n k k' : Nat}
  {d d' d₀ d₁ d₂ : Disk} {f g : LogFileId} {r : Option RecordEndLocation}
  {cp cp' : Option StreamCheckpoint} {m : Option LogFileId} {files passed rest : List LogFileId}
  {st : InitializationState} {i : InitializedStream} {c : Mode}

/-- The index holds the ends of all records of the file, durably. -/
def IndexedAt (H : List Record) (d : Disk) (f : LogFileId) : Prop :=
  ∃ I, d (.index f) = some I ∧ File.Secures (indexBytes (part f H)) I.file

/-- So it is for the first `k` files. -/
def Indexed (s : StreamId) (H : List Record) (k : Nat) (d : Disk) : Prop :=
  ∀ f : LogFileId, f.streamId = s → f.fileNumber.get < k → IndexedAt H d f

theorem IndexedAt.of_same (h : IndexedAt H d f) (hsame : Same d d' (.index f)) :
    IndexedAt H d' f := by
  obtain ⟨I, hI, hsecures⟩ := h
  obtain ⟨I', hI', hfile, -⟩ := hsame.exists_file hI
  exact ⟨I', hI', hfile ▸ hsecures⟩

theorem Indexed.of_same (h : Indexed s H k d) (hsame : ∀ f : LogFileId, f.streamId = s →
    f.fileNumber.get < k → Same d d' (.index f)) : Indexed s H k d' :=
  fun f hf hlt => (h f hf hlt).of_same (hsame f hf hlt)

theorem Indexed.mono (h : Indexed s H k d) (hle : k' ≤ k) : Indexed s H k' d :=
  fun f hf hlt => h f hf (Nat.lt_of_lt_of_le hlt hle)

/-- Files that were full have the same indexes when the history goes on. -/
theorem indexed_iff_of_isPrefix (hH : H <+: H') (hk : k * recordsPerFile ≤ H.length) :
    Indexed s H k d ↔ Indexed s H' k d := by
  have hpart : ∀ f : LogFileId, f.fileNumber.get < k → part f H = part f H' := by
    intro f hlt
    have hfull : f.before + recordsPerFile ≤ H.length := by
      have := Nat.mul_le_mul_right recordsPerFile (Nat.succ_le_of_lt hlt)
      rw [Nat.succ_mul] at this
      exact Nat.le_trans this hk
    rw [List.prefix_iff_eq_take.mp hH, part_take_of_le hfull]
  constructor
  · intro h f hf hlt
    rw [IndexedAt, ← hpart f hlt]
    exact h f hf hlt
  · intro h f hf hlt
    rw [IndexedAt, hpart f hlt]
    exact h f hf hlt

theorem Indexed.crashed (h : Indexed s H k d) (c : Crash p s) : Indexed s H k (c.disk d) := by
  intro f hf hlt
  obtain ⟨I, hI, hsecures⟩ := h f hf hlt
  exact ⟨_, c.disk_of_some hI, hsecures.scrambled (c.index f hf I.file)⟩

theorem indexed_zero (s : StreamId) (H : List Record) (d : Disk) : Indexed s H 0 d :=
  fun _ _ hlt => absurd hlt (Nat.not_lt_zero _)

/-! ### The files that a walk has passed -/

omit [Crc32c] in
theorem Following.mem (h : Following s k files) (hg : g.streamId = s) (hle : k ≤ g.fileNumber.get)
    (hlt : g.fileNumber.get < k + files.length) : g ∈ files := by
  obtain ⟨j, hj⟩ := Nat.exists_eq_add_of_le hle
  have hplace : j < files.length := by omega
  have hsplit : files = files.take j ++ files[j] :: files.drop (j + 1) := by
    rw [List.getElem_cons_drop, List.take_append_drop]
  obtain ⟨hs, hn⟩ := h _ _ _ hsplit
  rw [List.length_take, Nat.min_eq_left (Nat.le_of_lt hplace)] at hn
  have hsame : g = files[j] := LogFileId.ext' (hg.trans hs.symm) (hj.trans hn.symm)
  rw [hsame]
  exact List.getElem_mem hplace

/-- A file that was full has the index that its repair has left. -/
theorem PassedAt.indexed (h : PassedAt (cp.map StreamCheckpoint.endLocation) d d' f)
    (hc : Consistent s H n d) (hcertifies : Certifies s cp d) (hf : f.streamId = s) :
    IndexedAt H d' f := by
  obtain ⟨L, l, i, e, hL, hmended, -, hi⟩ := h
  obtain ⟨⟨-, b, rfl⟩, -⟩ := hcertifies.exactly hL hmended
  have hfull : (heldIn d f).length = recordsPerFile := by
    rw [hcertifies.length_heldIn hL]
    exact hmended.complete.2.2.2
  have hheld : heldIn d f = part f H := by
    refine (hc.held_isPrefix hf).eq_of_length_le ?_
    rw [hfull]
    exact (hc.fills hf).length_le
  rw [hheld] at hi
  exact ⟨_, hi, (File.secures_durable _).seekTo b⟩

variable [CheckpointReader]

theorem Passed.indexed (h : Passed p (cp.map StreamCheckpoint.endLocation) d₁ none passed d₂ r)
    (hloaded : Loaded s d₀ d₁) (hcov : Covered s cp m)
    (hfiles : filesFrom (firstFile s cp) m = passed ++ rest) (hc : Consistent s H n d₀)
    (hp : Published s n cp d₀) (hx : Indexed s H (firstFile s cp).fileNumber.get d₀) :
    Indexed s H ((firstFile s cp).fileNumber.get + passed.length) d₂ := by
  have hfollowing := following_passed hcov hfiles
  have hprogress := hloaded.progress hc hp
  intro g hg hlt
  by_cases hfirst : g.fileNumber.get < (firstFile s cp).fileNumber.get
  · -- before the files that were visited
    have hne : ∀ f ∈ passed, g ≠ f := by
      intro f hf heq
      obtain ⟨xs, ys, rfl⟩ := List.append_of_mem hf
      have hn := (hfollowing xs f ys rfl).2
      rw [← heq] at hn
      omega
    exact ((hx g hg hfirst).of_same (.inl (hloaded.index g))).of_same (h.frame_files hne).2
  · have hmem := hfollowing.mem hg (Nat.le_of_not_lt hfirst) hlt
    exact (h.passedAt (nodup_passed hcov hfiles) g hmem).indexed hprogress.consistent
      hprogress.backed.certifies hg

/-- The files before that of the recovered end are indexed. -/
theorem Visited.indexed (h : Visited p s cp d₀ d₁ m st d) (hc : Consistent s H n d₀)
    (hp : Published s n cp d₀) (hx : Indexed s H (firstFile s cp).fileNumber.get d₀) :
    ∃ k, (firstFile s cp).fileNumber.get ≤ k ∧ Indexed s H k d ∧
      ∀ e, st.recoveredEnd = some e → e.logFileId.fileNumber.get ≤ k := by
  have hcov := h.covered
  obtain ⟨passed, rest, d₂, r, hfiles, hpassed, hended⟩ := h.walk
  have hindexed := hpassed.indexed h.loaded hcov hfiles hc hp hx
  obtain ⟨n₂, -, -, hprogress⟩ := hpassed.progress_from h.loaded hcov hfiles hc hp
  refine ⟨(firstFile s cp).fileNumber.get + passed.length, Nat.le_add_right _ _, ?_⟩
  cases hended with
  | all => exact ⟨hindexed, fun e he => Nat.le_of_lt (hprogress.recovered e he).2.2⟩
  | missing => exact ⟨hindexed, fun e he => Nat.le_of_lt (hprogress.recovered e he).2.2⟩
  | @incomplete f rest L l i o log mended =>
    obtain ⟨hs, hn⟩ := filesFrom_eq_append hcov hfiles
    obtain ⟨n₃, -, -, hprogress₃⟩ := hprogress.mended (p := p) hs hn log mended
      fun c hc => by rw [firstFile_of_mem s hc]; exact Nat.le_add_right _ _
    have hend : endOf (heldIn d₂ f) = o := by
      rw [← hprogress.backed.certifies.endIn_eq log, endIn, log]
      exact mended.incomplete.1.symm
    rw [hend] at hprogress₃
    refine ⟨hindexed.of_same fun g _ hlt => ?_,
      fun e he => Nat.le_of_lt_succ (hprogress₃.recovered e he).2.2⟩
    exact (IndexedLogValidator.same_files_withPair (LogFileId.ne_of_lt (hn ▸ hlt)) _).2

/-- **A completed initialization** has indexed all files before the active one. -/
theorem Initialized.indexed (h : Initialized p s cp d₀ i d) (hc : Consistent s H n d₀)
    (hp : Published s n cp d₀) (hx : Indexed s H (firstFile s cp).fileNumber.get d₀) :
    Indexed s H i.fileId.fileNumber.get d := by
  obtain ⟨r, hrecovered⟩ := h.recovered
  intro g hg hlt
  by_cases hfirst : g.fileNumber.get < (firstFile s cp).fileNumber.get
  · exact (hx g hg hfirst).of_same (hrecovered.before g hg hfirst).2
  · exact (hrecovered.passed g hg (Nat.le_of_not_lt hfirst) hlt).indexed hc
      (hp.backed hc).certifies hg

/-! ### Up to the checkpoint -/

/-- The files before the checkpoint's are indexed. -/
def CheckpointIndexed (s : StreamId) (H : List Record) (d : Disk) : Prop :=
  ∀ cp, StorageProvider.Reads d s cp → Indexed s H (firstFile s cp).fileNumber.get d

omit [Crc32c] in
theorem reads_unique (h : StorageProvider.Reads d s cp) (h' : StorageProvider.Reads d s cp') :
    cp' = cp := by
  cases cp with
  | none =>
    cases cp' with
    | none => rfl
    | some k' =>
      obtain ⟨st', hst', -⟩ := h'
      exact absurd (h.symm.trans hst') (Option.some_ne_none _).symm
  | some k =>
    obtain ⟨st, hst, -, hread⟩ := h
    cases cp' with
    | none => exact absurd (hst.symm.trans h') (Option.some_ne_none _)
    | some k' =>
      obtain ⟨st', hst', -, hread'⟩ := h'
      obtain rfl := Option.some.inj (hst.symm.trans hst')
      exact hread'.symm.trans hread

theorem Indexed.checkpoint (h : Indexed s H k d) (hr : StorageProvider.Reads d s cp)
    (hle : (firstFile s cp).fileNumber.get ≤ k) : CheckpointIndexed s H d := by
  intro cp' hr'
  rw [reads_unique hr hr']
  exact h.mono hle

theorem checkpointIndexed_none (H : List Record) (h : d (.checkpoint s) = none) :
    CheckpointIndexed s H d := by
  have hr : StorageProvider.Reads d s none := h
  exact (indexed_zero s H d).checkpoint hr (Nat.le_refl 0)

/-- The checkpoint that is published is that of the recovered end. -/
theorem Advanced.indexed (h : Advanced p s st d d') (hr : StorageProvider.Reads d s cp)
    (hx : Indexed s H k d) (hle : (firstFile s cp).fileNumber.get ≤ k)
    (hrecovered : ∀ e, st.recoveredEnd = some e → e.logFileId.fileNumber.get ≤ k) :
    CheckpointIndexed s H d' := by
  by_cases hkept : ∀ e, st.recoveredEnd = some e → st.checkpoint = some ⟨e⟩
  · rw [h.kept hkept]
    exact hx.checkpoint hr hle
  · simp only [not_forall] at hkept
    obtain ⟨e, he, hnew⟩ := hkept
    obtain ⟨file, hfile, hd⟩ := h.published he hnew
    exact (hx.of_same fun g _ _ => (h.frame_files g).2).checkpoint (reads_holds hfile hd)
      (hrecovered e he)

/-- **Wherever an initialization ends**, the files before the checkpoint's are indexed. -/
theorem Interrupted.indexed {x : Exit InitializationError} {tree : Tree}
    (h : Interrupted c p s cp d₀ x tree) (hc : Consistent s H n d₀) (hp : Published s n cp d₀)
    (hx : Indexed s H (firstFile s cp).fileNumber.get d₀) :
    ∃ d', On p s d' tree ∧ CheckpointIndexed s H d' := by
  cases h with
  | @loading d₁ _ _ loaded on =>
    exact ⟨d₁, on, (hx.of_same fun g _ _ => .inl (loaded.index g)).checkpoint
      (loaded.published hp).reads (Nat.le_refl _)⟩
  | @validating d₁ m _ _ loaded maximum covered exit =>
    obtain ⟨passed, f, rest, d₂, r₁, hfiles, hpassed, hexit⟩ := exit
    obtain ⟨hs, hn⟩ := filesFrom_eq_append covered hfiles
    have hindexed := hpassed.indexed loaded covered hfiles hc hp hx
    obtain ⟨n₂, -, -, hprogress⟩ := hpassed.progress_from loaded covered hfiles hc hp
    cases hexit with
    | missing log on =>
      exact ⟨d₂, on, hindexed.checkpoint hprogress.published.reads (Nat.le_add_right _ _)⟩
    | validation log exit =>
      obtain ⟨-, d', ⟨hmending, -⟩, hon⟩ := exit
      obtain ⟨-, hp'⟩ := hprogress.mending hs log (fun k hk => by
        rw [firstFile_of_mem s hk]
        omega) hmending
      refine ⟨d', hon, Indexed.checkpoint (hindexed.of_same fun g _ hlt => ?_) hp'.reads
        (Nat.le_add_right _ _)⟩
      have hne : g ≠ f := LogFileId.ne_of_lt (hn ▸ hlt)
      exact hmending.frame (by simp) (by simpa using hne)
  | @removing d₁ d₂ d₃ m st _ _ visited removing on =>
    obtain ⟨first, last, hfirst, -⟩ := removing
    rw [visited.nothing_to_remove hc hp] at hfirst
    cases hfirst
  | @publishing d₁ d₂ d₃ m st _ e _ visited removed recovered new publishing =>
    obtain ⟨n', k', -, hprogress, -⟩ := visited.progress hc hp
    obtain ⟨k, hle, hindexed, hrecovered⟩ := visited.indexed hc hp hx
    obtain rfl := eq_of_removed removed (visited.nothing_to_remove hc hp)
    have hreads := hprogress.published.reads
    rcases publishing with hon | ⟨stored, -, hon⟩ | ⟨file, hfile, hon⟩
    · exact ⟨_, hon, hindexed.checkpoint hreads hle⟩
    · exact ⟨_, hon, (hindexed.of_same fun g _ _ => .update (by simp) _).checkpoint
        (reads_of_content hreads (contentAt_of_same (.update (by simp) _))) hle⟩
    · refine ⟨_, hon, Indexed.checkpoint (hindexed.of_same fun g _ _ => ?_)
        (reads_holds hfile (Function.update_self _ _ _)) (hrecovered e recovered)⟩
      exact (Same.update (by simp) none).trans (.update (by simp) _)
  | @preparing d₁ d₂ d₃ d₄ m st _ f _ visited removed advanced none_active new creating =>
    obtain ⟨n', k', -, hprogress, -⟩ := visited.progress hc hp
    obtain ⟨k, hle, hindexed, hrecovered⟩ := visited.indexed hc hp hx
    obtain rfl := eq_of_removed removed (visited.nothing_to_remove hc hp)
    have hadvanced := advanced.indexed hprogress.published.reads hindexed hle hrecovered
    rcases creating with on | on
    · exact ⟨d₄, on, hadvanced⟩
    · refine ⟨_, on, fun cp' hr' => ?_⟩
      have hr₄ := reads_of_content hr' (contentAt_of_same
        (Same.update (d := d₄) (x := .checkpoint s) (y := .log f) (by simp) (some ⟨.empty, false⟩))).symm
      exact (hadvanced cp' hr₄).of_same fun g _ _ => .update (by simp) _

omit [Crc32c] [CheckpointReader] in
/-- The checkpoint's file is not after the one in which the durable records end. -/
theorem firstFile_le (hle : ∀ k ∈ cp, countThrough k.endLocation ≤ n)
    (hn : n ≤ f.before + recordsPerFile) :
    (firstFile s cp).fileNumber.get ≤ f.fileNumber.get := by
  cases cp with
  | none => exact Nat.zero_le _
  | some k =>
    have hbefore := (before_le_countThrough k.endLocation).1
    have hcount := hle k rfl
    rw [LogFileId.before_eq] at hbefore
    rw [f.before_eq, recordsPerFile_eq] at hn
    show k.endLocation.logFileId.fileNumber.get ≤ _
    omega

end StreamInitializer

namespace Sessions

open StreamInitializer (initializeStream Consistent Published Initialized Interrupted
  recordsThrough Indexed CheckpointIndexed checkpointIndexed_none indexed_zero
  indexed_iff_of_isPrefix firstFile firstFile_le reads_of_content contentAt_of_same)
open IndexedLogWriter (Writing Carries Ghost At ofInitialized tracks_carries same_withFiles)

variable [Crc32c] [CheckpointReader] {p : StorageProvider} {s : StreamId} {st : State} {n : Nat}
  {plan : Plan} {i : InitializedStream} {w : World Tree}

/-- The files before the checkpoint's are indexed, and so are those before the writer's. -/
structure IndexedTo (p : StorageProvider) (s : StreamId) (st : State) : Prop where
  checkpoint : CheckpointIndexed s st.history (diskOf p st.tree)
  writer : ∀ w ∈ st.writer, Indexed s st.history w.fileId.fileNumber.get (diskOf p st.tree)

theorem IndexedTo.closed (h : IndexedTo p s st) : IndexedTo p s { st with writer := none } :=
  ⟨h.checkpoint, by simp⟩

/-- What an initialization that completed has done. -/
theorem Holds.initializes (h : Holds p s st n)
    (hrun : (initializeStream p s).run st.tree plan = (.ok i, w)) :
    ∃ d cp, (cp = none ∨ On p s d st.tree) ∧ Consistent s st.history n d ∧ Published s n cp d ∧
      Initialized p s cp d i (diskOf p w.sys) := by
  rcases h.split with ⟨hfresh, hbase, hhistory, rfl⟩ | ⟨d, cp, hon, hc, hp⟩
  · have hresult := (StreamInitializer.initializeStream_fresh (c := ⟨False, fun _ => True⟩) hfresh
      hbase ⟨st.tree, plan⟩ rfl plan.within_any).2
    rw [Io.run] at hrun
    rw [hrun] at hresult
    obtain ⟨rfl, d, hblank, hon⟩ := hresult
    obtain ⟨hc, hp⟩ := StreamInitializer.consistent_blank hblank
    refine ⟨d, none, .inl rfl, hhistory ▸ hc, hp, ?_⟩
    rw [hon.2]
    exact StreamInitializer.initialized_blank hblank
  · have hresult := (StreamInitializer.initializeStream_triple (c := ⟨False, fun _ => True⟩)
      hp.reads ⟨st.tree, plan⟩ hon plan.within_any).2
    rw [Io.run] at hrun
    rw [hrun] at hresult
    obtain ⟨d', hinitialized, hon'⟩ := hresult
    refine ⟨d, cp, .inr hon, hc, hp, ?_⟩
    rw [hon'.2]
    exact hinitialized

/-- How far an initialization came that did not. -/
theorem Holds.interrupts (h : Holds p s st n) {e : Exit InitializationError}
    (hrun : (initializeStream p s).run st.tree plan = (.error e, w)) :
    (Fresh p s st.tree ∧ diskOf p w.sys (.checkpoint s) = none) ∨
      ∃ d cp, On p s d st.tree ∧ Consistent s st.history n d ∧ Published s n cp d ∧
        Interrupted ⟨False, fun _ => True⟩ p s cp d e w.sys := by
  rcases h.split with ⟨hfresh, hbase, -, -⟩ | ⟨d, cp, hon, hc, hp⟩
  · have hresult := (StreamInitializer.initializeStream_fresh (c := ⟨False, fun _ => True⟩) hfresh
      hbase ⟨st.tree, plan⟩ rfl plan.within_any).2
    rw [Io.run] at hrun
    rw [hrun] at hresult
    obtain ⟨-, hfresh' | ⟨d, hblank, hon⟩⟩ := hresult
    · refine .inl ⟨hfresh, ?_⟩
      rw [diskOf, hfresh'.empty (.checkpoint s) rfl]
      rfl
    · refine .inl ⟨hfresh, ?_⟩
      rw [hon.2, StorageProvider.created, Function.update_of_ne (by simp)]
      exact hblank (.checkpoint s) rfl
  · have hresult := (StreamInitializer.initializeStream_triple (c := ⟨False, fun _ => True⟩)
      hp.reads ⟨st.tree, plan⟩ hon plan.within_any).2
    rw [Io.run] at hrun
    rw [hrun] at hresult
    exact .inr ⟨d, cp, hon, hc, hp, hresult⟩

theorem IndexedTo.initialized (hx : IndexedTo p s st) (h : Holds p s st n)
    (hrun : (initializeStream p s).run st.tree plan = (.ok i, w)) :
    Indexed s (recordsThrough (diskOf p w.sys) i) i.fileId.fileNumber.get (diskOf p w.sys) := by
  have hrecovers := h.initialized hrun
  obtain ⟨d, cp, hon, hc, hp, hinitialized⟩ := h.initializes hrun
  have hfirst : Indexed s st.history (firstFile s cp).fileNumber.get d := by
    rcases hon with rfl | hon
    · exact indexed_zero s _ d
    · rw [← hon.2] at hp ⊢
      exact hx.checkpoint cp hp.reads
  refine (indexed_iff_of_isPrefix hrecovers.isPrefix ?_).mpr (hinitialized.indexed hc hp hfirst)
  rw [hrecovers.handedOver.count]
  exact Nat.le_add_right _ _

/-- **After an initialization** the writer's file is the active one. -/
theorem IndexedTo.started (hx : IndexedTo p s st) (h : Holds p s st n)
    (hrun : (initializeStream p s).run st.tree plan = (.ok i, w)) (reported : List Record)
    (pairs : Nat) :
    IndexedTo p s ⟨w.sys, ofInitialized i, recordsThrough (diskOf p w.sys) i, reported, pairs⟩ := by
  have hrecovers := h.initialized hrun
  have hindexed := hx.initialized h hrun
  obtain ⟨cp, hp⟩ := hrecovers.published
  refine ⟨hindexed.checkpoint hp.reads (firstFile_le hp.le ?_), fun w' hw' => ?_⟩
  · have hroom := hrecovers.handedOver.room
    rw [hrecovers.handedOver.count]
    omega
  · obtain ⟨id, -, rfl⟩ := Option.map_eq_some_iff.mp hw'
    exact hindexed

theorem IndexedTo.interrupted (hx : IndexedTo p s st) (h : Holds p s st n)
    {e : Exit InitializationError}
    (hrun : (initializeStream p s).run st.tree plan = (.error e, w)) :
    IndexedTo p s { st with tree := w.sys, writer := none } := by
  refine ⟨?_, by simp⟩
  rcases h.interrupts hrun with ⟨-, hnone⟩ | ⟨d, cp, hon, hc, hp, hinterrupted⟩
  · exact checkpointIndexed_none _ hnone
  · have hfirst := hx.checkpoint cp (hon.2 ▸ hp.reads)
    rw [hon.2] at hfirst
    obtain ⟨d', hon', hindexed⟩ := hinterrupted.indexed hc hp hfirst
    show CheckpointIndexed s st.history (diskOf p w.sys)
    rw [hon'.2]
    exact hindexed

omit [CheckpointReader] in
/-- A writer changes its own pair only. -/
theorem Open.same {d : Disk} {f : LogFileId} {writer : IndexedLogWriter} {tree : Tree} {g : Ghost}
    {log index : List UInt8} {logLinked indexLinked : Bool}
    (hat : At f (Carries p s d f log index logLinked indexLinked) g (writer, tree)) {x : Place}
    (hlog : x ≠ .log f) (hindex : x ≠ .index f) :
    writer.fileId = f ∧ Same d (diskOf p tree) x := by
  obtain ⟨l, k, hinv, L, I, -, -, hon⟩ := hat
  refine ⟨hinv.marks.file, ?_⟩
  rw [show diskOf p tree = _ from hon.2]
  exact same_withFiles hlog hindex _ _

/-- The checkpoint is the one that was there, and the files before the writer's are indexed
as they were. -/
theorem Open.indexed {H : List Record} {d : Disk} {cp : Option StreamCheckpoint}
    {writer w' : IndexedLogWriter} {tree : Tree} {g g' : Ghost} {l k : Channel} {L I : Stored}
    (hp : Published s n cp d) (hwriting : Writing s H n d writer g l k L I)
    (hat : At writer.fileId (Carries p s d writer.fileId (encodings g.base) (indexBytes g.base)
      L.linked I.linked) g' (w', tree))
    (hx : Indexed s H writer.fileId.fileNumber.get d) (records reported : List Record)
    (pairs : Nat) : IndexedTo p s ⟨tree, some w', H ++ records, reported, pairs⟩ := by
  obtain ⟨hfile, hcheckpoint⟩ := Open.same (x := .checkpoint s) hat (by simp) (by simp)
  have hreads := reads_of_content hp.reads (contentAt_of_same hcheckpoint)
  have hindexed : Indexed s (H ++ records) writer.fileId.fileNumber.get (diskOf p tree) := by
    rw [← indexed_iff_of_isPrefix (List.prefix_append H records) hwriting.before_le]
    refine hx.of_same fun f _ hlt => (Open.same hat (by simp) ?_).2
    simpa using LogFileId.ne_of_lt hlt
  refine ⟨hindexed.checkpoint hreads (firstFile_le hp.le ?_), fun w hw => ?_⟩
  · have hm := hwriting.inv.marks
    have hsynced := hm.synced_le
    have hflushed := hm.flushed_le
    have hfits := hm.fills.length_le
    have hdurable := hwriting.durable
    omega
  · obtain rfl := Option.some.inj hw
    rw [hfile]
    exact hindexed

theorem IndexedTo.perform {α : Type} {records : List Record}
    {m : IndexedLogWriter → Io (IndexedLogWriter × Tree) IndexedLogWriteError α}
    (hx : IndexedTo p s st) (h : Holds p s st n) (hm : Appends p records m) :
    IndexedTo p s (perform st records plan m) := by
  unfold Sessions.perform
  cases hwriter : st.writer with
  | none => exact hx
  | some writer =>
    cases h with
    | fresh _ closed => simp [hwriter] at closed
    | there hon hc hp hopen =>
      obtain ⟨-, g, l, k, L, I, hwriting⟩ := hopen writer hwriter
      have hindexed := hx.writer writer hwriter
      rw [hon.2] at hindexed
      have hresult := (hm writer st.tree _ g (tracks_carries hwriting.stream _ _ _ _)
        (hwriting.at_carries hon) ⟨(writer, st.tree), plan⟩ rfl plan.within_any).2
      simp only [Io.run]
      rcases hrun : m writer ⟨(writer, st.tree), plan⟩ with ⟨e | a, w⟩ <;> rw [hrun] at hresult
      · obtain ⟨g', hat', -⟩ := hresult
        have hleft := Open.indexed hp hwriting hat' hindexed [] st.reported st.pairs
        rwa [List.append_nil] at hleft
      · obtain ⟨g', hat', -⟩ := hresult
        exact Open.indexed hp hwriting hat' hindexed records st.reported st.pairs

theorem IndexedTo.crashed (hx : IndexedTo p s st) (h : Holds p s st n) (c : Crash p s) :
    IndexedTo p s { st with tree := st.tree.mapFiles c.left, writer := none } := by
  refine ⟨?_, by simp⟩
  cases h with
  | fresh fresh =>
    refine checkpointIndexed_none _ ?_
    rw [diskOf, (c.fresh fresh).empty (.checkpoint s) rfl]
    rfl
  | there hon consistent published _ =>
    show CheckpointIndexed s st.history (diskOf p (st.tree.mapFiles c.left))
    rw [(c.on hon).2]
    have hd := hon.2
    subst hd
    exact ((hx.checkpoint _ published.reads).crashed c).checkpoint (published.crashed c).reads
      (Nat.le_refl _)

/-- **One operation** keeps the indexes complete. -/
theorem IndexedTo.act (hx : IndexedTo p s st) (h : Holds p s st n) (op : Op p s) :
    IndexedTo p s (act p s st op) := by
  cases op with
  | start plan =>
    rcases hrun : (initializeStream p s).run st.tree plan with ⟨e | i, w⟩
    · simp only [Sessions.act, hrun]
      exact hx.interrupted h hrun
    · simp only [Sessions.act, hrun]
      exact hx.started h hrun st.reported _
  | writeRecord record => exact hx.perform h (appends_writeRecord record)
  | flush plan => exact hx.perform h appends_flush
  | syncData plan => exact hx.perform h appends_syncData
  | finalize => exact hx.perform h appends_finalize
  | drop => exact hx.closed
  | crash c => exact hx.crashed h c

theorem IndexedTo.step (hx : IndexedTo p s st) (h : Holds p s st n) (op : Op p s) :
    IndexedTo p s (step p s st op) :=
  ⟨(hx.act h op).checkpoint, (hx.act h op).writer⟩

/-- **Every run** keeps them so. -/
theorem IndexedTo.run : ∀ (ops : List (Op p s)) {st : State} {n : Nat}, IndexedTo p s st →
    Holds p s st n → st.reported <+: st.history.take n → ∃ n', Holds p s (run p s st ops) n' ∧
      IndexedTo p s (Sessions.run p s st ops) := by
  intro ops
  induction ops with
  | nil => exact fun hx h _ => ⟨_, h, hx⟩
  | cons op ops ih =>
    intro st n hx h hreported
    obtain ⟨n', h', hreported'⟩ := h.step hreported op
    exact ih (hx.step h op) h' hreported'

theorem indexedTo_new {t : Tree} (h : Fresh p s t) : IndexedTo p s (.new t) := by
  refine ⟨checkpointIndexed_none _ ?_, by simp [State.new]⟩
  rw [State.new, diskOf, h.empty (.checkpoint s) rfl]
  rfl

end Sessions

end TransactionLog
