import TransactionLog.Storage.Establishment
import TransactionLog.Streams.Isolation
import TransactionLog.Streams.Sessions

/-!
# All streams of a provider

The streams share one tree.  Their operations come in any order; each has its own plan, so
a fault strikes the operation of one stream.  A crash strikes all of them at once.

Each stream goes through its own operations as if it were alone (`Alike`), so what holds of
the sessions of one stream holds of it among all others.

A crash takes content that was not synchronized; it takes no entry of a directory and no
rename that was done.
-/

namespace TransactionLog

open Lib Lib.Tree

namespace Sessions

variable [Crc32c] {p : StorageProvider} {s s' : StreamId} {st st' : State}

/-! ### One stream in two trees -/

/-- All operations but a crash. -/
def Op.Running : Op p s → Prop
  | .crash _ => False
  | _ => True

/-- The stream is the same in both, whatever else is in the trees. -/
structure Alike (p : StorageProvider) (s : StreamId) (st st' : State) : Prop where
  base : st.tree.isDir (p.streamDirectory s) = true
  tree : SameIn (below (p.streamDirectory s)) st.tree st'.tree
  writer : st'.writer = st.writer
  own : ∀ w ∈ st.writer, w.fileId.streamId = s
  history : st'.history = st.history
  reported : st'.reported = st.reported
  pairs : st'.pairs = st.pairs

/-- Nothing has changed beside the stream's directory. -/
abbrev Frame (p : StorageProvider) (s : StreamId) (st st' : State) : Prop :=
  SameIn (beside (p.streamDirectory s)) st.tree st'.tree

theorem Alike.agree (h : Alike p s st st') : p.Agree s st.tree st'.tree st.tree st'.tree :=
  ⟨h.base, h.tree, .refl _ _, .refl _ _⟩

theorem Alike.refl (hbase : st.tree.isDir (p.streamDirectory s) = true)
    (hown : ∀ w ∈ st.writer, w.fileId.streamId = s) : Alike p s st st :=
  ⟨hbase, .refl _ _, rfl, hown, rfl, rfl, rfl⟩

/-- Both may be followed by what has changed neither region. -/
theorem Alike.of_tree {tree : Tree} (h : Alike p s st st')
    (ht : SameIn (below (p.streamDirectory s)) tree st.tree) :
    Alike p s { st with tree := tree } st' where
  base := by
    rw [← ht.isDir StorageProvider.below_streamDirectory]
    exact h.base
  tree := ht.trans h.tree
  writer := h.writer
  own := h.own
  history := h.history
  reported := h.reported
  pairs := h.pairs

/-- The changes of one stream are beside every other one. -/
theorem Frame.sameIn (h : Frame p s st st') (hne : s' ≠ s) :
    SameIn (below (p.streamDirectory s')) st.tree st'.tree :=
  h.mono fun _ hq => StorageProvider.beside_of_ne hne hq

/-! ### What is read of the tree -/

theorem recordsThrough_congr {i : InitializedStream} (hi : i.fileId.streamId = s) {t t' : Tree}
    (h : SameIn (below (p.streamDirectory s)) t t') :
    StreamInitializer.recordsThrough (diskOf p t') i =
      StreamInitializer.recordsThrough (diskOf p t) i := by
  have hfirst : LogFileId.Between (.first i.fileId.streamId) i.fileId i.fileId :=
    ⟨rfl, Nat.zero_le _, Nat.le_refl _⟩
  refine List.flatMap_congr fun f hf => ?_
  have hf : below (p.streamDirectory s) (p.logFilePath f) = true :=
    StorageProvider.below_logFilePath (((LogFileId.mem_visited hfirst).mp hf).1.trans hi)
  rw [StreamInitializer.heldIn, StreamInitializer.heldIn, diskOf, diskOf]
  congr 2
  exact h.get _ hf

omit [Crc32c] in
theorem linkedPairs_congr {i : InitializedStream} (hi : i.fileId.streamId = s) {t t' : Tree}
    (h : SameIn (below (p.streamDirectory s)) t t') :
    StreamInitializer.linkedPairs (diskOf p t') i = StreamInitializer.linkedPairs (diskOf p t) i := by
  have hlog : t'.get ((Place.log i.fileId).path p) = t.get ((Place.log i.fileId).path p) :=
    h.get _ (StorageProvider.below_logFilePath hi)
  rw [StreamInitializer.linkedPairs, StreamInitializer.linkedPairs, diskOf, diskOf, hlog]

variable [CheckpointReader]

omit [Crc32c] in
theorem checkpointEnd_congr {t t' : Tree} (h : SameIn (below (p.streamDirectory s)) t t') :
    checkpointEnd p s t' = checkpointEnd p s t := by
  unfold checkpointEnd
  rw [h.file? StorageProvider.below_checkpointFilePath]

theorem Alike.reports (h : Alike p s st st') : reports p s st' = reports p s st := by
  unfold Sessions.reports
  rw [checkpointEnd_congr h.tree, h.writer]

/-! ### One operation -/

/-- What an operation of the writer needs: it does the same on related trees. -/
def Blind {α : Type} (p : StorageProvider) (s : StreamId)
    (m : IndexedLogWriter → Io (IndexedLogWriter × Tree) IndexedLogWriteError α) : Prop :=
  ∀ (writer : IndexedLogWriter) (t t' : Tree), writer.fileId.streamId = s →
    Respects (IndexedLogWriter.Mirrored writer.fileId (p.Agree s t t')) (m writer) (m writer)

omit [CheckpointReader] in
theorem Alike.perform {α : Type} {records : List Record} {plan : Plan}
    {m : IndexedLogWriter → Io (IndexedLogWriter × Tree) IndexedLogWriteError α}
    (h : Alike p s st st') (hm : Blind p s m) :
    Alike p s (perform st records plan m) (perform st' records plan m) ∧
      Frame p s st (perform st records plan m) := by
  unfold Sessions.perform
  rw [h.writer]
  cases hwriter : st.writer with
  | none => exact ⟨h, .refl _ _⟩
  | some writer =>
    have hs := h.own writer hwriter
    obtain ⟨r, x, x', rest, hrun, hrun', hx⟩ := hm writer st.tree st'.tree hs (writer, st.tree)
      (writer, st'.tree) plan ⟨rfl, rfl, h.agree⟩
    have hown : ∀ w ∈ some x.1, w.fileId.streamId = s := by
      rintro w ⟨⟩
      rw [hx.file, hs]
    simp only [Io.run, hrun, hrun']
    rcases r with e | a
    · exact ⟨⟨hx.tree.isDir, hx.tree.inside, congrArg some hx.writer.symm, hown, h.history,
        h.reported, h.pairs⟩, hx.tree.outside⟩
    · exact ⟨⟨hx.tree.isDir, hx.tree.inside, congrArg some hx.writer.symm, hown,
        congrArg (· ++ records) h.history, h.reported, h.pairs⟩, hx.tree.outside⟩

omit [CheckpointReader] in
theorem blind_writeRecord (record : Record) :
    Blind p s fun _ => IndexedLogWriter.writeRecord record :=
  fun _ _ _ _ => IndexedLogWriter.respects_writeRecord record

omit [Crc32c] [CheckpointReader] in
theorem blind_finalize : Blind p s fun _ => IndexedLogWriter.finalize :=
  fun _ _ _ _ => IndexedLogWriter.respects_finalize

omit [Crc32c] [CheckpointReader] in
theorem blind_flush : Blind p s fun w => IndexedLogWriter.flush (logDest p w) (indexDest p w) :=
  fun _ _ _ hs => IndexedLogWriter.respects_flush
    (Fs.respects_dest (StorageProvider.below_logFilePath hs))
    (Fs.respects_dest (StorageProvider.below_indexFilePath hs))

omit [Crc32c] [CheckpointReader] in
theorem blind_syncData :
    Blind p s fun w => IndexedLogWriter.syncData (logDest p w) (indexDest p w) :=
  fun _ _ _ hs => IndexedLogWriter.respects_syncData
    (Fs.respects_dest (StorageProvider.below_logFilePath hs))
    (Fs.respects_dest (StorageProvider.below_indexFilePath hs))

theorem Alike.start {plan : Plan} (h : Alike p s st st') :
    Alike p s (act p s st (.start plan)) (act p s st' (.start plan)) ∧
      Frame p s st (act p s st (.start plan)) := by
  obtain ⟨r, t, t', rest, hrun, hrun', ht⟩ :=
    StreamInitializer.respects_initializeStream st.tree st'.tree plan h.agree
  simp only [act, Io.run, hrun, hrun']
  rcases r with e | i
  · exact ⟨⟨ht.isDir, ht.inside, rfl, by simp, h.history, h.reported, h.pairs⟩, ht.outside⟩
  · have hi : i.fileId.streamId = s := StreamInitializer.initializeStream_stream.of_ok hrun
    refine ⟨⟨ht.isDir, ht.inside, rfl, fun w hw => ?_, ?_, h.reported, ?_⟩, ht.outside⟩
    · obtain ⟨id, -, rfl⟩ := Option.map_eq_some_iff.mp hw
      exact hi
    · exact recordsThrough_congr hi ht.inside
    · exact linkedPairs_congr hi h.tree

/-- **An operation** does the same to the stream in both trees, and nothing beside it. -/
theorem Alike.act (h : Alike p s st st') {op : Op p s} (hop : op.Running) :
    Alike p s (act p s st op) (act p s st' op) ∧ Frame p s st (act p s st op) := by
  cases op with
  | start plan => exact h.start
  | writeRecord record => exact h.perform (blind_writeRecord record)
  | flush plan => exact h.perform blind_flush
  | syncData plan => exact h.perform blind_syncData
  | finalize => exact h.perform blind_finalize
  | drop =>
    exact ⟨⟨h.base, h.tree, rfl, by simp [Sessions.act], h.history, h.reported, h.pairs⟩, .refl _ _⟩
  | crash c => exact hop.elim

/-- What is reported depends on the stream alone. -/
theorem Alike.step (h : Alike p s st st') {op : Op p s}
    (hact : Alike p s (Sessions.act p s st op) (Sessions.act p s st' op)) :
    Alike p s (Sessions.step p s st op) (Sessions.step p s st' op) where
  base := hact.base
  tree := hact.tree
  writer := hact.writer
  own := hact.own
  history := hact.history
  reported := by
    simp only [Sessions.step]
    rw [hact.history, hact.reports, h.reported]
  pairs := hact.pairs

theorem Alike.crash (h : Alike p s st st') (c : Crash p s) :
    Alike p s (Sessions.step p s st (.crash c)) (Sessions.step p s st' (.crash c)) := by
  refine h.step ⟨?_, h.tree.mapFiles c.left, rfl, by simp [Sessions.act], h.history, h.reported,
    h.pairs⟩
  exact (Crash.isDir_mapFiles c.left _).trans h.base

end Sessions

/-! ## The service -/

namespace Service

open Sessions (Op Alike)
open StreamInitializer (initializeStream recordsThrough)

variable [Crc32c]

/-- What a stream has beside the tree. -/
structure Client where
  writer : Option IndexedLogWriter
  history : List Record
  reported : List Record
  pairs : Nat

structure State where
  tree : Tree
  client : StreamId → Client

def State.new (tree : Tree) : State := ⟨tree, fun _ => ⟨none, [], [], 0⟩⟩

/-- One stream of the service. -/
def State.at (st : State) (s : StreamId) : Sessions.State :=
  ⟨st.tree, (st.client s).writer, (st.client s).history, (st.client s).reported, (st.client s).pairs⟩

def clientOf (st : Sessions.State) : Client := ⟨st.writer, st.history, st.reported, st.pairs⟩

/-- What a crash of the machine leaves of the content of each file.  Entries of directories
stay, synchronized or not, and so do renames that were done. -/
structure MachineCrash (p : StorageProvider) where
  left : Path → File → File
  log : ∀ (f : LogFileId) file, File.Torn file (left (p.logFilePath f) file)
  index : ∀ (f : LogFileId) file, File.Scrambled file (left (p.indexFilePath f) file)
  checkpoint : ∀ (s : StreamId) (file : File), file.synced = file.content.length →
    (left (p.checkpointFilePath s) file).content = file.content ∧
      (left (p.checkpointFilePath s) file).synced = file.synced

/-- The crash of the machine, as one stream sees it. -/
def MachineCrash.on {p : StorageProvider} (c : MachineCrash p) (s : StreamId) : Crash p s :=
  ⟨c.left, fun f _ => c.log f, fun f _ => c.index f, c.checkpoint s⟩

inductive Event (p : StorageProvider) where
  /-- An operation of one stream. -/
  | on (s : StreamId) (op : Op p s) (running : op.Running)
  /-- The provider is constructed once more. -/
  | establish (plan : Plan)
  | crash (c : MachineCrash p)

/-- What an event is to one stream. -/
def Event.onto {p : StorageProvider} (s : StreamId) : Event p → Option (Op p s)
  | .on s' op _ => if h : s' = s then some (h ▸ op) else none
  | .establish _ => none
  | .crash c => some (.crash (c.on s))

variable [CheckpointReader] (p : StorageProvider)

def step (st : State) : Event p → State
  | .on s op _ =>
    let st' := Sessions.step p s (st.at s) op
    ⟨st'.tree, Function.update st.client s (clientOf st')⟩
  | .establish plan => { st with tree := ((StorageProvider.new p.rootDirectory).run st.tree plan).2.sys }
  | .crash c =>
    ⟨st.tree.mapFiles c.left, fun s => clientOf (Sessions.step p s (st.at s) (.crash (c.on s)))⟩

def run : State → List (Event p) → State
  | st, [] => st
  | st, event :: events => run (step p st event) events

variable {p} {s : StreamId} {st : State} {st' : Sessions.State}

/-- Each stream is there and its writer is one of its own. -/
def Ready (p : StorageProvider) (st : State) : Prop := ∀ s, Alike p s (st.at s) (st.at s)

omit [CheckpointReader] in
theorem ready_new {t : Tree} (h : StorageProvider.Established p t) : Ready p (.new t) :=
  fun s => .refl (h s) (by simp [State.new, State.at])

omit [CheckpointReader] in
theorem Event.onto_of_ne {s' : StreamId} {op : Op p s'} {hop : op.Running} (hne : s' ≠ s) :
    (Event.on s' op hop).onto s = none := dif_neg hne

/-- The stream of an operation. -/
theorem at_step_on {op : Op p s} {hop : op.Running} :
    (step p st (.on s op hop)).at s = Sessions.step p s (st.at s) op := by
  simp only [step, State.at, clientOf, Function.update_self]

/-- Any other stream. -/
theorem at_step_of_ne {s' : StreamId} {op : Op p s'} {hop : op.Running} (hne : s ≠ s') :
    (step p st (.on s' op hop)).at s =
      { st.at s with tree := (Sessions.step p s' (st.at s') op).tree } := by
  simp only [step, State.at, Function.update_of_ne hne]

/-- **One event** is to each stream its own operation, if it is one. -/
theorem Ready.alike (hready : Ready p st) (h : Alike p s (st.at s) st') (event : Event p) :
    Alike p s ((step p st event).at s) (Sessions.run p s st' (event.onto s).toList) := by
  cases event with
  | on s' op hop =>
    by_cases hs : s' = s
    · subst hs
      rw [Event.onto, dif_pos rfl, at_step_on]
      exact h.step (h.act hop).1
    · rw [Event.onto_of_ne hs, at_step_of_ne (Ne.symm hs)]
      have hframe := ((hready s').act hop).2
      exact h.of_tree ((Sessions.Frame.sameIn hframe (Ne.symm hs)).symm)
  | establish plan =>
    have hsame : step p st (.establish plan) = st := by
      rw [step, StorageProvider.Established.new (fun s => (hready s).base)]
    rw [hsame]
    exact h
  | crash c => exact h.crash (c.on s)

theorem Ready.step (hready : Ready p st) (event : Event p) : Ready p (step p st event) :=
  fun s => have h := hready.alike (hready s) event; .refl h.base h.own

/-- **Every run** is to each stream the run of its own operations. -/
theorem Ready.run_alike : ∀ (events : List (Event p)) {st : State} {st' : Sessions.State},
    Ready p st → Alike p s (st.at s) st' →
    Alike p s ((run p st events).at s) (Sessions.run p s st' (events.filterMap (Event.onto s))) := by
  intro events
  induction events with
  | nil => exact fun _ h => h
  | cons event events ih =>
    intro st st' hready h
    have hstep := hready.alike h event
    have hrest := ih (hready.step event) hstep
    rw [run]
    cases honto : event.onto s with
    | none =>
      rw [List.filterMap_cons_none honto]
      rw [honto] at hrest
      exact hrest
    | some op =>
      rw [List.filterMap_cons_some honto]
      rw [honto] at hrest
      exact hrest

theorem Ready.run (hready : Ready p st) (events : List (Event p)) : Ready p (run p st events) :=
  fun s => have h := hready.run_alike events (hready s); .refl h.base h.own

/-- **Streams do not interfere.**  Whatever the other streams do, in whatever order and
with whatever faults, a stream has the writer, the history and the files that it would
have if it were alone. -/
theorem streams_isolated {t : Tree} (h : StorageProvider.Established p t)
    (events : List (Event p)) (s : StreamId) :
    Alike p s ((run p (.new t) events).at s)
      (Sessions.run p s (.new t) (events.filterMap (Event.onto s))) :=
  (ready_new h).run_alike events (ready_new h s)

/-- The crash that takes all it can, of every stream. -/
def MachineCrash.worst (p : StorageProvider) : MachineCrash p where
  left _ := File.lost
  log _ file := file.torn_lost
  index _ file := file.scrambled_lost
  checkpoint _ _ h := ⟨List.take_of_length_le (Nat.le_of_eq h.symm), rfl⟩

omit [Crc32c] [CheckpointReader] in
theorem streams_isolated_interleaved : letI := Crc32c.reference
    letI := CheckpointReader.canonical
    let p : StorageProvider := ⟨[]⟩
    let f : LogFileId := .first ⟨0, by decide⟩
    let g : LogFileId := .first ⟨1, by decide⟩
    let events : List (Event p) := [.on f.streamId (.start .calm) trivial,
      .on g.streamId (.start (.next .all .stop)) trivial,
      .on f.streamId (.writeRecord (Fills.firstRecord f)) trivial, .crash (.worst p),
      .establish .stop]
    Alike p f.streamId ((run p (.new StorageProvider.bases) events).at f.streamId)
      (Sessions.run p f.streamId (.new StorageProvider.bases)
        (events.filterMap (Event.onto f.streamId))) := by
  intro p f g events
  exact @streams_isolated Crc32c.reference CheckpointReader.canonical p _
    StorageProvider.established_bases events f.streamId

/-! ### What every run keeps -/

variable {plan : Plan} {i : InitializedStream} {w : World Tree}

/-- An initialization finds in the common tree what it would find alone. -/
theorem initialize_alone (h : Alike p s (st.at s) st') (plan : Plan) :
    ∃ r w w', (initializeStream p s).run st.tree plan = (r, w) ∧
      (initializeStream p s).run st'.tree plan = (r, w') ∧
      (∀ i, r = .ok i → recordsThrough (diskOf p w'.sys) i = recordsThrough (diskOf p w.sys) i) ∧
      SameIn (beside (p.streamDirectory s)) st.tree w.sys := by
  obtain ⟨r, t, t', rest, hrun, hrun', ht⟩ :=
    StreamInitializer.respects_initializeStream st.tree st'.tree plan h.agree
  refine ⟨r, ⟨t, rest⟩, ⟨t', rest⟩, hrun, hrun', ?_, ht.outside⟩
  rintro i rfl
  have hi : i.fileId.streamId = s := StreamInitializer.initializeStream_stream.of_ok hrun
  exact Sessions.recordsThrough_congr hi ht.inside

/-- And leaves there what it would leave alone. -/
theorem initialized_alone (h : Alike p s (st.at s) st')
    (hrun : (initializeStream p s).run st.tree plan = (.ok i, w)) :
    ∃ w', (initializeStream p s).run st'.tree plan = (.ok i, w') ∧ i.fileId.streamId = s ∧
      SameIn (below (p.streamDirectory s)) w.sys w'.sys := by
  obtain ⟨r, t, t', rest, hrun₁, hrun', ht⟩ :=
    StreamInitializer.respects_initializeStream st.tree st'.tree plan h.agree
  obtain ⟨rfl, rfl⟩ := Prod.mk.inj (hrun₁.symm.trans hrun)
  exact ⟨⟨t', rest⟩, hrun', StreamInitializer.initializeStream_stream.of_ok hrun₁, ht.inside⟩

/-- A stream that is as it would be alone is initialized as it would be alone. -/
theorem recovers_of_alike {t : Tree} (hfresh : Fresh p s t) {ops : List (Op p s)}
    (halike : Alike p s (st.at s) (Sessions.run p s (.new t) ops)) (plan : Plan) :
    (∀ i w, (initializeStream p s).run st.tree plan = (.ok i, w) →
      ((st.client s).reported <+: recordsThrough (diskOf p w.sys) i ∧
        recordsThrough (diskOf p w.sys) i <+: (st.client s).history) ∧
      ∀ j : InitializedStream, j.fileId.streamId ≠ s →
        recordsThrough (diskOf p w.sys) j = recordsThrough (diskOf p st.tree) j) ∧
    (plan.Smooth → ∃ i w writer, (initializeStream p s).run st.tree plan = (.ok i, w) ∧
      IndexedLogWriter.ofInitialized i = some writer) := by
  obtain ⟨n, h, hreported⟩ := Sessions.Holds.reached hfresh ops
  obtain ⟨r, w, w', hrun, hrun', hrecords, houtside⟩ := initialize_alone halike plan
  rw [hrun]
  refine ⟨?_, fun hplan => ?_⟩
  · rintro i _ ⟨⟩
    have hrecovers := h.initialized hrun'
    have hdurable := hreported.trans hrecovers.durable
    have hprefix := hrecovers.isPrefix
    rw [hrecords i rfl, halike.reported] at hdurable
    rw [hrecords i rfl, halike.history] at hprefix
    refine ⟨⟨hdurable, hprefix⟩, fun j hj => Sessions.recordsThrough_congr rfl ?_⟩
    exact houtside.mono fun _ hq => StorageProvider.beside_of_ne hj hq
  · obtain ⟨i, w₁, hok⟩ := h.completes hplan
    obtain ⟨rfl, rfl⟩ := Prod.mk.inj (hrun'.symm.trans hok)
    have hrecovers := h.initialized hok
    obtain ⟨writer, hwriter⟩ := hrecovers.handedOver.writer hrecovers.consistent.consecutive
      hrecovers.consistent.short
    exact ⟨i, w, writer, rfl, hwriter⟩

/-- **The service recovers every stream.**  From the construction of the provider on, in
every run, a stream is initialized with all that was reported durable and with nothing but
what was accepted, the records of the others stay where they are, and without a fault it is
initialized and has a writer.  Crashes keep entries and renames. -/
theorem service_recovers {root : Path} {t₀ : Tree} {plan₀ : Plan} {w₀ : World Tree}
    (hfresh : ∀ s, Fresh ⟨root⟩ s t₀)
    (hnew : (StorageProvider.new root).run t₀ plan₀ = (.ok p, w₀)) (events : List (Event p))
    (s : StreamId) (plan : Plan) :
    let st := run p (.new w₀.sys) events
    (∀ i w, (initializeStream p s).run st.tree plan = (.ok i, w) →
      ((st.client s).reported <+: recordsThrough (diskOf p w.sys) i ∧
        recordsThrough (diskOf p w.sys) i <+: (st.client s).history) ∧
      ∀ j : InitializedStream, j.fileId.streamId ≠ s →
        recordsThrough (diskOf p w.sys) j = recordsThrough (diskOf p st.tree) j) ∧
    (plan.Smooth → ∃ i w writer, (initializeStream p s).run st.tree plan = (.ok i, w) ∧
      IndexedLogWriter.ofInitialized i = some writer) := by
  intro st
  obtain ⟨rfl, hextends, hestablished⟩ :=
    (StorageProvider.new_triple (c := ⟨False, fun _ => True⟩)).ok_of_run rfl plan₀.within_any hnew
  have halike : Alike ⟨root⟩ s (st.at s) (Sessions.run ⟨root⟩ s (.new w₀.sys) _) :=
    (ready_new hestablished).run_alike events (ready_new hestablished s)
  exact recovers_of_alike ((hfresh s).extended hextends) halike plan

omit [Crc32c] [CheckpointReader] in
theorem service_recovers_crashed : letI := Crc32c.reference
    letI := CheckpointReader.canonical
    let p : StorageProvider := ⟨[]⟩
    let f : LogFileId := .first ⟨0, by decide⟩
    let g : LogFileId := .first ⟨1, by decide⟩
    let events : List (Event p) := [.on f.streamId (.start .calm) trivial,
      .on g.streamId (.start (.next .all .stop)) trivial,
      .on f.streamId (.writeRecord (Fills.firstRecord f)) trivial,
      .on g.streamId (.start .calm) trivial,
      .on f.streamId (.syncData .calm) trivial, .crash (.worst p), .establish .calm]
    ∃ w₀, (StorageProvider.new []).run .empty .calm = (.ok p, w₀) ∧
      ∃ i w writer, (initializeStream p f.streamId).run (run p (.new w₀.sys) events).tree .calm =
        (.ok i, w) ∧ IndexedLogWriter.ofInitialized i = some writer := by
  let _ := Crc32c.reference
  let _ := CheckpointReader.canonical
  intro p f g events
  have hempty : ¬ Blocked (StorageProvider.BaseWay ⟨[]⟩) .empty := fun ⟨_, _, h, _⟩ => h rfl
  obtain ⟨w₀, hnew⟩ := StorageProvider.new_completes hempty (show Plan.Smooth .calm from trivial)
  exact ⟨w₀, hnew, (service_recovers (fun s => Sessions.fresh_empty) hnew events f.streamId
    .calm).2 trivial⟩

end Service

end TransactionLog
