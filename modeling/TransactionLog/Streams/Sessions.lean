import TransactionLog.Streams.Crash
import TransactionLog.Streams.FreshStream

/-!
# Sessions

A session initializes a stream, makes a writer of the active pair and lets it append.
It ends when the writer is dropped, when the next session starts or in a crash, which
can come at any point: an operation that is cut off is one whose plan stops.

`Holds` is the invariant of every run of sessions, from a stream that is not there on.
-/

namespace TransactionLog

open Lib

namespace Sessions

open StreamInitializer (initializeStream Consistent Published Linked linkedPairs recordsThrough
  HandedOver Initialized countThrough consistent_blank initialized_blank)
open IndexedLogWriter (Writing Carries Ghost Tracks tracks_carries exists_writing At ofInitialized)

section Operations

variable [Crc32c]

/-- A stream's tree and the writer that is open on it.  The history are the records that
the last initialization kept and those accepted since.  Those that a checkpoint or a
writer has ever reported durable are `reported`.  The last initialization has left
`pairs` pairs with durable entries. -/
structure State where
  tree : Tree
  writer : Option IndexedLogWriter
  history : List Record
  reported : List Record
  pairs : Nat

def State.new (tree : Tree) : State := ⟨tree, none, [], [], 0⟩

inductive Op (p : StorageProvider) (s : StreamId) where
  /-- Initializes the stream and makes a writer. -/
  | start (plan : Plan)
  | writeRecord (record : Record)
  | flush (plan : Plan)
  | syncData (plan : Plan)
  | finalize
  | drop
  | crash (c : Crash p s)

variable [CheckpointReader] (p : StorageProvider) (s : StreamId)

/-- The end in the checkpoint that stands in the stream's directory. -/
def checkpointEnd (tree : Tree) : Option RecordEndLocation :=
  (tree.file? (p.checkpointFilePath s)).bind fun file =>
    (CheckpointReader.fromSlice file.content).map StreamCheckpoint.endLocation

/-- How many records the checkpoint and the writer report as durable. -/
def reports (st : State) : Nat :=
  max ((checkpointEnd p s st.tree).elim 0 countThrough)
    ((st.writer.bind IndexedLogWriter.syncedEnd).elim 0 countThrough)

def logDest (w : IndexedLogWriter) : Dest Tree := Fs.dest (p.logFilePath w.fileId)

def indexDest (w : IndexedLogWriter) : Dest Tree := Fs.dest (p.indexFilePath w.fileId)

/-- Runs an operation of the open writer, which accepts `records` if it goes through. -/
def perform {α : Type} (st : State) (records : List Record) (plan : Plan)
    (m : IndexedLogWriter → Io (IndexedLogWriter × Tree) IndexedLogWriteError α) : State :=
  match st.writer with
  | none => st
  | some writer =>
    match (m writer).run (writer, st.tree) plan with
    | (.ok _, w) =>
      { st with tree := w.sys.2, writer := some w.sys.1, history := st.history ++ records }
    | (.error _, w) => { st with tree := w.sys.2, writer := some w.sys.1 }

def act (st : State) : Op p s → State
  | .start plan =>
    match (initializeStream p s).run st.tree plan with
    | (.ok i, w) =>
      { st with
        tree := w.sys
        writer := ofInitialized i
        history := recordsThrough (diskOf p w.sys) i
        pairs := linkedPairs (diskOf p st.tree) i }
    | (.error _, w) => { st with tree := w.sys, writer := none }
  | .writeRecord record =>
    perform st [record] .calm fun _ => IndexedLogWriter.writeRecord record
  | .flush plan => perform st [] plan fun w => IndexedLogWriter.flush (logDest p w) (indexDest p w)
  | .syncData plan =>
    perform st [] plan fun w => IndexedLogWriter.syncData (logDest p w) (indexDest p w)
  | .finalize => perform st [] .calm fun _ => IndexedLogWriter.finalize
  | .drop => { st with writer := none }
  | .crash c => { st with tree := st.tree.mapFiles c.left, writer := none }

def step (st : State) (op : Op p s) : State :=
  let st' := act p s st op
  let reported := st'.history.take (reports p s st')
  { st' with
    reported := if reported.length ≤ st.reported.length then st.reported else reported }

def run : State → List (Op p s) → State
  | st, [] => st
  | st, op :: ops => run (step p s st op) ops

end Operations

variable [Crc32c] [CheckpointReader] {p : StorageProvider} {s : StreamId} {st : State} {n : Nat}
  {d : Disk} {cp : Option StreamCheckpoint} {plan : Plan} {i : InitializedStream}
  {w : World Tree} {c : Mode}

/-! ### The invariant -/

/-- The open writer goes on with the history.  The first `pairs` pairs, at least all before
its own, have durable entries. -/
def Open (s : StreamId) (pairs : Nat) (H : List Record) (n : Nat) (d : Disk)
    (writer : IndexedLogWriter) : Prop :=
  (writer.fileId.fileNumber.get ≤ pairs ∧ Linked s pairs d) ∧
    ∃ g l k L I, Writing s H n d writer g l k L I

/-- The stream has its history, the first `n` records of it durable. -/
inductive Holds (p : StorageProvider) (s : StreamId) (st : State) : Nat → Prop
  | fresh (fresh : Fresh p s st.tree) (closed : st.writer = none) (history : st.history = []) :
      Holds p s st 0
  | there {n : Nat} {d : Disk} {cp : Option StreamCheckpoint} (on : On p s d st.tree)
      (consistent : Consistent s st.history n d) (published : Published s n cp d)
      (writer : ∀ w ∈ st.writer, Open s st.pairs st.history n d w) : Holds p s st n

omit [Crc32c] in
theorem checkpointEnd_fresh {tree : Tree} (h : Fresh p s tree) : checkpointEnd p s tree = none := by
  unfold checkpointEnd
  rw [Tree.file?, Tree.node?, show tree.get (p.checkpointFilePath s) = none from
    h.empty (.checkpoint s) rfl]
  rfl

/-- The checkpoint that stands there is the one that would be read. -/
theorem checkpointEnd_on (hon : On p s d st.tree) (hp : Published s n cp d) :
    checkpointEnd p s st.tree = cp.map StreamCheckpoint.endLocation := by
  have hreads := hp.reads
  unfold checkpointEnd
  cases cp with
  | none =>
    have hnode := hon.node?_none (x := .checkpoint s) rfl hreads
    rw [show p.checkpointFilePath s = (Place.checkpoint s).path p from rfl, Tree.file?, hnode,
      Option.bind_none, Option.map_none]
  | some k =>
    obtain ⟨file, hfile, -, hread⟩ := hreads
    have hget := hon.get_some (x := .checkpoint s) rfl hfile
    rw [show p.checkpointFilePath s = (Place.checkpoint s).path p from rfl,
      Tree.file?_eq_some.mpr ⟨_, hget⟩, Option.bind_some, hread]

omit [CheckpointReader] in
/-- The writer reports no more than what is durable. -/
theorem Open.synced_le {H : List Record} {writer : IndexedLogWriter} {pairs : Nat}
    (h : Open s pairs H n d writer) : writer.syncedEnd.elim 0 countThrough ≤ n := by
  obtain ⟨-, g, l, k, L, I, hwriting⟩ := h
  have hm := hwriting.inv.marks
  have hn := hwriting.durable
  rw [hm.syncedEnd]
  cases hend : endOf (g.all.take g.synced) with
  | none => exact Nat.zero_le n
  | some e =>
    have hfills := hm.fills.of_isPrefix (List.take_prefix g.synced g.all)
    obtain ⟨-, -, hcount, -⟩ := hfills.endOf_eq_some hend
    rw [LogFileId.first_sequence] at hcount
    have hle := List.length_take_le g.synced g.all
    show countThrough e ≤ n
    unfold countThrough
    omega

theorem Holds.reports_le (h : Holds p s st n) : reports p s st ≤ n := by
  cases h with
  | fresh fresh closed =>
    unfold reports
    rw [checkpointEnd_fresh fresh, closed]
    exact Nat.le_refl 0
  | there on consistent published writer =>
    refine Nat.max_le.mpr ⟨?_, ?_⟩
    · rw [checkpointEnd_on on published]
      rename_i cp
      cases cp with
      | none => exact Nat.zero_le n
      | some k => exact published.le k rfl
    · cases hw : st.writer with
      | none => exact Nat.zero_le n
      | some w => exact (writer w hw).synced_le

theorem Holds.le (h : Holds p s st n) : n ≤ st.history.length := by
  cases h with
  | fresh => exact Nat.zero_le _
  | there _ consistent _ _ => exact consistent.le

/-! ### Initializing -/

/-- What is known of a stream that a completed initialization of the disk `d` hands over. -/
structure Recovers (p : StorageProvider) (s : StreamId) (H : List Record) (n : Nat) (d : Disk)
    (i : InitializedStream) (tree : Tree) : Prop where
  isPrefix : recordsThrough (diskOf p tree) i <+: H
  durable : H.take n <+: recordsThrough (diskOf p tree) i
  consistent : Consistent s (recordsThrough (diskOf p tree) i)
    (recordsThrough (diskOf p tree) i).length (diskOf p tree)
  published : ∃ cp, Published s (recordsThrough (diskOf p tree) i).length cp (diskOf p tree)
  handedOver : HandedOver s (recordsThrough (diskOf p tree) i) (diskOf p tree) i
  linked : Linked s (linkedPairs d i) (diskOf p tree)
  on : On p s (diskOf p tree) tree

theorem recovers_of_initialized {H : List Record} {d d' : Disk} {tree : Tree}
    (h : Initialized p s cp d i d') (hon : On p s d' tree) (hc : Consistent s H n d)
    (hp : Published s n cp d) : Recovers p s H n d i tree := by
  obtain ⟨cp', hfront, hdurable, hc', hp', hhanded⟩ := h.settles hc hp
  have hlinked := h.linked hp
  have hd := hon.2
  rw [← hd] at hfront hdurable hc' hp' hhanded hlinked hon
  exact ⟨hfront, hdurable, hc', ⟨cp', hp'⟩, hhanded, hlinked, hon⟩

/-- Either not even the directory of the stream is there, or its files are consistent. -/
theorem Holds.split (h : Holds p s st n) :
    (Fresh p s st.tree ∧ ¬ st.tree.isDir (p.streamDirectory s) = true ∧ st.history = [] ∧ n = 0) ∨
      ∃ d cp, On p s d st.tree ∧ Consistent s st.history n d ∧ Published s n cp d := by
  cases h with
  | fresh fresh closed history =>
    by_cases hbase : st.tree.isDir (p.streamDirectory s) = true
    · obtain ⟨d, hblank, hon⟩ := fresh.on hbase
      obtain ⟨hc, hp⟩ := consistent_blank hblank
      rw [history]
      exact .inr ⟨d, none, hon, hc, hp⟩
    · exact .inl ⟨fresh, hbase, history, rfl⟩
  | there on consistent published _ => exact .inr ⟨_, _, on, consistent, published⟩

omit [Crc32c] [CheckpointReader] in
theorem diskOf_fresh {t : Tree} (h : Fresh p s t) : Blank s (diskOf p t) := by
  intro x hx
  rw [diskOf, h.empty x hx]
  rfl

omit [Crc32c] [CheckpointReader] in
theorem linkedPairs_blank (h : Blank s d) : linkedPairs d ⟨.first s, none⟩ = 0 := by
  rw [linkedPairs, h (.log (.first s)) rfl]
  rfl

/-- The first pair of a stream recovers nothing. -/
theorem recovers_firstPair {tree : Tree} {d₀ : Disk} (hblank₀ : Blank s d₀) (hblank : Blank s d)
    (hon : On p s (StreamInitializer.firstPair s d) tree) :
    Recovers p s [] 0 d₀ ⟨.first s, none⟩ tree := by
  obtain ⟨hc, hp⟩ := consistent_blank hblank
  have hrecovers := recovers_of_initialized (initialized_blank (p := p) hblank) hon hc hp
  have hlinked := hrecovers.linked
  rw [linkedPairs_blank hblank, ← linkedPairs_blank hblank₀] at hlinked
  exact { hrecovers with linked := hlinked }

/-- **An initialization that completes** recovers the history. -/
theorem Holds.initialized (h : Holds p s st n)
    (hrun : (initializeStream p s).run st.tree plan = (.ok i, w)) :
    Recovers p s st.history n (diskOf p st.tree) i w.sys := by
  rcases h.split with ⟨hfresh, hbase, hhistory, rfl⟩ | ⟨d, cp, hon, hc, hp⟩
  · have hresult := (StreamInitializer.initializeStream_fresh (c := ⟨False, fun _ => True⟩) hfresh
      hbase ⟨st.tree, plan⟩ rfl plan.within_any).2
    rw [Io.run] at hrun
    rw [hrun] at hresult
    obtain ⟨rfl, d, hblank, hon⟩ := hresult
    rw [hhistory]
    exact recovers_firstPair (diskOf_fresh hfresh) hblank hon
  · have hresult := (StreamInitializer.initializeStream_triple (c := ⟨False, fun _ => True⟩)
      hp.reads ⟨st.tree, plan⟩ hon plan.within_any).2
    rw [Io.run] at hrun
    rw [hrun] at hresult
    obtain ⟨d', hinitialized, hon'⟩ := hresult
    rw [hon.2]
    exact recovers_of_initialized hinitialized hon' hc hp

/-- **One that ends early** loses nothing durable. -/
theorem Holds.interrupted (h : Holds p s st n) {e : Exit InitializationError}
    (hrun : (initializeStream p s).run st.tree plan = (.error e, w)) :
    ∃ n', n ≤ n' ∧ Holds p s { st with tree := w.sys, writer := none } n' := by
  rcases h.split with ⟨hfresh, hbase, hhistory, rfl⟩ | ⟨d, cp, hon, hc, hp⟩
  · have hresult := (StreamInitializer.initializeStream_fresh (c := ⟨False, fun _ => True⟩) hfresh
      hbase ⟨st.tree, plan⟩ rfl plan.within_any).2
    rw [Io.run] at hrun
    rw [hrun] at hresult
    obtain ⟨-, hfresh' | ⟨d, hblank, hon⟩⟩ := hresult
    · exact ⟨0, Nat.le_refl 0, .fresh hfresh' rfl hhistory⟩
    · -- the first log was made
      obtain ⟨hc, hp⟩ := consistent_blank hblank
      have hbefore : (LogFileId.first s).before = 0 := Nat.zero_mul _
      obtain ⟨hc', hp'⟩ := hc.created hp (f := .first s) rfl (hblank _ rfl) hbefore (.inl rfl)
      refine ⟨0, Nat.le_refl 0, .there hon ?_ hp' (by simp)⟩
      simp only [hhistory]
      exact hc'
  · have hresult := (StreamInitializer.initializeStream_triple (c := ⟨False, fun _ => True⟩)
      hp.reads ⟨st.tree, plan⟩ hon plan.within_any).2
    rw [Io.run] at hrun
    rw [hrun] at hresult
    obtain ⟨n', cp', d', hn, hon', hc', hp'⟩ := hresult.consistent hc hp
    exact ⟨n', hn, .there hon' hc' hp' (by simp)⟩

/-- **Without a fault it completes.** -/
theorem Holds.completes (h : Holds p s st n) (hplan : plan.Smooth) :
    ∃ i w, (initializeStream p s).run st.tree plan = (.ok i, w) := by
  rcases h.split with ⟨hfresh, hbase, -, -⟩ | ⟨d, cp, hon, hc, hp⟩
  · have hresult := (StreamInitializer.initializeStream_fresh hfresh hbase ⟨st.tree, plan⟩ rfl
      hplan).2
    rw [Io.run]
    rcases hw : initializeStream p s ⟨st.tree, plan⟩ with ⟨e | i, w⟩
    · rw [hw] at hresult
      exact absurd trivial hresult.1
    · exact ⟨i, w, rfl⟩
  · obtain ⟨i, d', w, hrun, -⟩ := hc.completes hp hon hplan
    exact ⟨i, w, hrun⟩

/-! ### Writing -/

/-- The writer has accepted more records, and no fewer are synchronized. -/
structure Grows (g : Ghost) (records : List Record) (g' : Ghost) : Prop where
  base : g'.base = g.base
  written : g'.written = g.written ++ records
  synced : g.synced ≤ g'.synced

/-- What an operation of the writer does, whatever its files keep track of. -/
def Appends {α : Type} (p : StorageProvider) (records : List Record)
    (m : IndexedLogWriter → Io (IndexedLogWriter × Tree) IndexedLogWriteError α) : Prop :=
  ∀ (writer : IndexedLogWriter) (tree : Tree) (J : Channel → Channel → Tree → Prop) (g : Ghost),
    Tracks (logDest p writer) (indexDest p writer) J → At writer.fileId J g (writer, tree) →
    Triple ⟨False, fun _ => True⟩ (fun x => x = (writer, tree)) (m writer)
      (fun _ x => ∃ g', At writer.fileId J g' x ∧ Grows g records g')
      (fun _ x => ∃ g', At writer.fileId J g' x ∧ Grows g [] g')

omit [CheckpointReader] in
theorem Grows.refl (g : Ghost) : Grows g [] g := ⟨rfl, (List.append_nil _).symm, Nat.le_refl _⟩

omit [CheckpointReader] in
theorem appends_writeRecord (record : Record) :
    Appends p [record] fun _ => IndexedLogWriter.writeRecord record := by
  intro writer tree J g _ hat
  refine (IndexedLogWriter.writeRecord_triple record (writer, tree) hat).conseq (fun _ h => h) ?_ ?_
  · intro _ x h
    exact ⟨g.append record, h.1, rfl, rfl, Nat.le_refl _⟩
  · intro _ x h
    exact ⟨g, h.1 ▸ hat, .refl g⟩

omit [CheckpointReader] in
theorem appends_flush :
    Appends p [] fun w => IndexedLogWriter.flush (logDest p w) (indexDest p w) := by
  intro writer tree J g htracks hat
  refine (IndexedLogWriter.flush_triple (f := writer.fileId) (g := g) htracks
    writer.state).conseq ?_ ?_ ?_
  · rintro _ rfl
    exact ⟨hat, rfl⟩
  · intro _ x h
    exact ⟨_, h.1, rfl, (List.append_nil _).symm, Nat.le_refl _⟩
  · intro _ x h
    exact ⟨g, h.2.1, .refl g⟩

omit [CheckpointReader] in
theorem appends_syncData :
    Appends p [] fun w => IndexedLogWriter.syncData (logDest p w) (indexDest p w) := by
  intro writer tree J g htracks hat
  have hle : g.synced ≤ g.all.length := by
    obtain ⟨l, k, hinv, -⟩ := hat
    exact Nat.le_trans hinv.marks.synced_le hinv.marks.flushed_le
  refine (IndexedLogWriter.syncData_triple (f := writer.fileId) (g := g) htracks
    writer.state).conseq ?_ ?_ ?_
  · rintro _ rfl
    exact ⟨hat, rfl⟩
  · intro _ x h
    exact ⟨_, h.1, rfl, (List.append_nil _).symm, hle⟩
  · intro _ x h
    rcases h with h | ⟨-, h⟩
    · exact ⟨g, h.2.1, .refl g⟩
    · exact ⟨_, h.2.1, rfl, (List.append_nil _).symm, Nat.le_refl _⟩

omit [CheckpointReader] in
theorem appends_finalize : Appends p [] fun _ => IndexedLogWriter.finalize := by
  intro writer tree J g _ hat
  refine (IndexedLogWriter.finalize_triple (writer, tree) hat).conseq (fun _ h => h) ?_ ?_
  · intro _ x h
    exact ⟨g, h.1, .refl g⟩
  · intro _ x h
    exact ⟨g, h.1 ▸ hat, .refl g⟩

/-- The history goes on with what the writer has accepted. -/
theorem Open.grown {H records : List Record} {writer w' : IndexedLogWriter} {tree : Tree}
    {g g' : Ghost} {l k : Channel} {L I : Stored} {pairs : Nat} (hc : Consistent s H n d)
    (hp : Published s n cp d)
    (hlinked : writer.fileId.fileNumber.get ≤ pairs ∧ Linked s pairs d)
    (hwriting : Writing s H n d writer g l k L I)
    (hat : At writer.fileId (Carries p s d writer.fileId (encodings g.base) (indexBytes g.base)
      L.linked I.linked) g' (w', tree)) (hgrows : Grows g records g') (reported : List Record) :
    ∃ n', n ≤ n' ∧ Holds p s ⟨tree, some w', H ++ records, reported, pairs⟩ n' := by
  obtain ⟨n', d', l', k', L', I', hn, hon, hc', hp', hwriting', hstill⟩ := hwriting.advance hc hp hat
    hgrows.base (by rw [hgrows.written]; exact List.prefix_append _ _) hgrows.synced
  have hhistory : IndexedLogWriter.extended H writer.fileId g' = H ++ records := by
    conv_rhs => rw [hwriting.history]
    unfold IndexedLogWriter.extended IndexedLogWriter.Ghost.all
    rw [hgrows.base, hgrows.written, List.append_assoc, List.append_assoc]
  have hfile : w'.fileId = writer.fileId := by
    obtain ⟨l, k, hinv, -⟩ := hat
    exact hinv.marks.file
  rw [hhistory] at hc' hwriting'
  refine ⟨n', hn, .there hon hc' hp' fun w hw => ?_⟩
  obtain rfl := Option.some.inj hw
  refine ⟨⟨?_, hlinked.2.mono fun g _ _ => hstill g⟩, _, _, _, _, _, hwriting'⟩
  rw [hfile]
  exact hlinked.1

/-- **An operation of the writer** keeps the invariant. -/
theorem Holds.perform {α : Type} {records : List Record}
    {m : IndexedLogWriter → Io (IndexedLogWriter × Tree) IndexedLogWriteError α}
    (h : Holds p s st n) (hm : Appends p records m) :
    ∃ n', n ≤ n' ∧ Holds p s (perform st records plan m) n' := by
  unfold Sessions.perform
  cases hwriter : st.writer with
  | none => exact ⟨n, Nat.le_refl n, h⟩
  | some writer =>
    cases h with
    | fresh _ closed => simp [hwriter] at closed
    | there hon hc hp hopen =>
      obtain ⟨hlinked, g, l, k, L, I, hwriting⟩ := hopen writer hwriter
      have hat := hwriting.at_carries hon
      have hresult := (hm writer st.tree _ g (tracks_carries hwriting.stream _ _ _ _) hat
        ⟨(writer, st.tree), plan⟩ rfl plan.within_any).2
      simp only [Io.run]
      rcases hrun : m writer ⟨(writer, st.tree), plan⟩ with ⟨e | a, w⟩ <;> rw [hrun] at hresult
      · obtain ⟨g', hat', hgrows⟩ := hresult
        have hgrown := Open.grown hc hp hlinked hwriting hat' hgrows st.reported
        rwa [List.append_nil] at hgrown
      · obtain ⟨g', hat', hgrows⟩ := hresult
        exact Open.grown hc hp hlinked hwriting hat' hgrows st.reported

/-! ### Steps and runs -/

/-- The invariant does not read what was reported. -/
theorem Holds.report {reported : List Record} (h : Holds p s st n) :
    Holds p s { st with reported := reported } n := by
  cases h with
  | fresh fresh closed history => exact .fresh fresh closed history
  | there on consistent published writer => exact .there on consistent published writer

theorem Holds.close (h : Holds p s st n) : Holds p s { st with writer := none } n := by
  cases h with
  | fresh fresh _ history => exact .fresh fresh rfl history
  | there on consistent published _ => exact .there on consistent published (by simp)

theorem Holds.crashed (h : Holds p s st n) (c : Crash p s) :
    Holds p s { st with tree := st.tree.mapFiles c.left, writer := none } n := by
  cases h with
  | fresh fresh _ history => exact .fresh (c.fresh fresh) rfl history
  | there on consistent published _ =>
    exact .there (c.on on) (consistent.crashed c) (published.crashed c) (by simp)

/-- The writer of a recovered stream goes on with what was recovered. -/
theorem Recovers.holds {H : List Record} {tree : Tree} (h : Recovers p s H n d i tree)
    (reported : List Record) :
    Holds p s ⟨tree, ofInitialized i, recordsThrough (diskOf p tree) i, reported, linkedPairs d i⟩
      (recordsThrough (diskOf p tree) i).length := by
  obtain ⟨cp, hp⟩ := h.published
  refine .there h.on h.consistent hp fun w hw => ?_
  have hwriting := exists_writing h.handedOver h.consistent hw
  have hfile : w.fileId = i.fileId := by
    obtain ⟨g, l, k, L, I, hwriting⟩ := hwriting
    unfold IndexedLogWriter.ofInitialized at hw
    obtain ⟨id, -, rfl⟩ := Option.map_eq_some_iff.mp hw
    rfl
  refine ⟨⟨?_, h.linked⟩, hwriting⟩
  rw [hfile]
  exact Nat.le_add_right _ _

omit [CheckpointReader] in
theorem perform_history {α : Type} {records : List Record}
    {m : IndexedLogWriter → Io (IndexedLogWriter × Tree) IndexedLogWriteError α} :
    st.history <+: (perform st records plan m).history := by
  unfold Sessions.perform
  cases st.writer with
  | none => exact List.prefix_refl _
  | some writer =>
    dsimp only
    rcases (m writer).run (writer, st.tree) plan with ⟨e | a, w⟩
    · exact List.prefix_refl _
    · exact List.prefix_append _ _

/-- What is durable stays so while the history only grows. -/
theorem kept {st' : State} (hhistory : st.history <+: st'.history)
    (h' : ∃ n', n ≤ n' ∧ Holds p s st' n') :
    ∃ n', Holds p s st' n' ∧ st.history.take n <+: st'.history.take n' := by
  obtain ⟨n', hn, h'⟩ := h'
  refine ⟨n', h', List.prefix_take_iff.mpr ⟨(List.take_prefix n _).trans hhistory, ?_⟩⟩
  exact Nat.le_trans (List.length_take_le n _) hn

/-- **One operation** keeps the invariant, and what is durable stays so. -/
theorem Holds.act (h : Holds p s st n) (op : Op p s) :
    ∃ n', Holds p s (act p s st op) n' ∧
      st.history.take n <+: (Sessions.act p s st op).history.take n' := by
  cases op with
  | start plan =>
    rcases hrun : (initializeStream p s).run st.tree plan with ⟨e | i, w⟩
    · simp only [Sessions.act, hrun]
      exact kept (List.prefix_refl _) (h.interrupted hrun)
    · have hrecovers := h.initialized hrun
      simp only [Sessions.act, hrun]
      refine ⟨_, hrecovers.holds st.reported, ?_⟩
      rw [List.take_length]
      exact hrecovers.durable
  | writeRecord record => exact kept perform_history (h.perform (appends_writeRecord record))
  | flush plan => exact kept perform_history (h.perform appends_flush)
  | syncData plan => exact kept perform_history (h.perform appends_syncData)
  | finalize => exact kept perform_history (h.perform appends_finalize)
  | drop => exact ⟨n, h.close, List.prefix_refl _⟩
  | crash c => exact ⟨n, h.crashed c, List.prefix_refl _⟩

theorem Holds.step (h : Holds p s st n) (hreported : st.reported <+: st.history.take n)
    (op : Op p s) :
    ∃ n', Holds p s (step p s st op) n' ∧
      (Sessions.step p s st op).reported <+: (Sessions.step p s st op).history.take n' := by
  obtain ⟨n', h', hkept⟩ := h.act op
  refine ⟨n', h'.report, ?_⟩
  simp only [Sessions.step]
  split
  · exact hreported.trans hkept
  · exact List.take_prefix_take_left h'.reports_le

theorem Holds.run : ∀ (ops : List (Op p s)) {st : State} {n : Nat}, Holds p s st n →
    st.reported <+: st.history.take n → ∃ n', Holds p s (run p s st ops) n' ∧
      (Sessions.run p s st ops).reported <+: (Sessions.run p s st ops).history.take n' := by
  intro ops
  induction ops with
  | nil => exact fun h hreported => ⟨_, h, hreported⟩
  | cons op ops ih =>
    intro st n h hreported
    obtain ⟨n', h', hreported'⟩ := h.step hreported op
    exact ih h' hreported'

/-- A stream that is not there yet has no history. -/
theorem holds_new {t : Tree} (h : Fresh p s t) : Holds p s (.new t) 0 := .fresh h rfl rfl

theorem Holds.reached {t : Tree} (h : Fresh p s t) (ops : List (Op p s)) :
    ∃ n, Holds p s (Sessions.run p s (.new t) ops) n ∧ (Sessions.run p s (.new t) ops).reported <+:
      (Sessions.run p s (.new t) ops).history.take n :=
  Holds.run ops (holds_new h) (List.prefix_refl _)

omit [Crc32c] [CheckpointReader] in
theorem fresh_empty : Fresh p s .empty where
  way _ _ := rfl
  empty _ _ := rfl

/-! ### What every run keeps -/

/-- **What was reported durable** is recovered after every run, and only what was
accepted. -/
theorem durable_across_crashes {t : Tree} (hfresh : Fresh p s t) (ops : List (Op p s))
    (hrun : (initializeStream p s).run (run p s (.new t) ops).tree plan = (.ok i, w)) :
    (run p s (.new t) ops).reported <+: recordsThrough (diskOf p w.sys) i ∧
      recordsThrough (diskOf p w.sys) i <+: (run p s (.new t) ops).history := by
  obtain ⟨n, h, hreported⟩ := Holds.reached hfresh ops
  have hrecovers := h.initialized hrun
  exact ⟨hreported.trans hrecovers.durable, hrecovers.isPrefix⟩

omit [Crc32c] [CheckpointReader] in
theorem durable_across_crashes_worst : letI := Crc32c.reference
    letI := CheckpointReader.canonical
    let p : StorageProvider := ⟨[]⟩
    let f : LogFileId := .first ⟨0, by decide⟩
    let ops : List (Op p f.streamId) := [.start .calm, .writeRecord (Fills.firstRecord f),
      .syncData .calm, .crash (.worst p f.streamId), .start (.next .all .stop)]
    let st := run p f.streamId (.new .empty) ops
    st.reported.length = 1 ∧ ∃ i w, (initializeStream p f.streamId).run st.tree .calm = (.ok i, w) ∧
      st.reported <+: recordsThrough (diskOf p w.sys) i ∧
      recordsThrough (diskOf p w.sys) i <+: st.history := by
  let _ := Crc32c.reference
  let _ := CheckpointReader.canonical
  intro p f ops st
  obtain ⟨n, h, -⟩ := Holds.reached fresh_empty ops
  obtain ⟨i, w, hrun⟩ := h.completes (show Plan.Smooth .calm from trivial)
  exact ⟨by decide +kernel, i, w, hrun, durable_across_crashes fresh_empty ops hrun⟩

/-- **Initialization can always be restarted.** -/
theorem recovery_restarts {t : Tree} (hfresh : Fresh p s t) (ops : List (Op p s))
    (hplan : plan.Smooth) :
    ∃ i w writer, (initializeStream p s).run (run p s (.new t) ops).tree plan = (.ok i, w) ∧
      ofInitialized i = some writer ∧
      HandedOver s (recordsThrough (diskOf p w.sys) i) (diskOf p w.sys) i := by
  obtain ⟨n, h, -⟩ := Holds.reached hfresh ops
  obtain ⟨i, w, hrun⟩ := h.completes hplan
  have hrecovers := h.initialized hrun
  have hconsistent := hrecovers.consistent
  obtain ⟨writer, hwriter⟩ := hrecovers.handedOver.writer hconsistent.consecutive hconsistent.short
  exact ⟨i, w, writer, hrun, hwriter, hrecovers.handedOver⟩

omit [Crc32c] [CheckpointReader] in
/-- The first start stops between the log and the index of its pair.  A later one stops where
it publishes the end of the record that was synchronized, and the machine crashes. -/
theorem recovery_restarts_struck : letI := Crc32c.reference
    letI := CheckpointReader.canonical
    let p : StorageProvider := ⟨[]⟩
    let f : LogFileId := .first ⟨0, by decide⟩
    let between : List (Op p f.streamId) := [.start (Plan.stop.after (List.replicate 9 .all))]
    let later := between ++ [.start .calm, .writeRecord (Fills.firstRecord f), .syncData .calm,
      .start (Plan.stop.after (List.replicate 40 .all)), .crash (.worst p f.streamId)]
    let st := run p f.streamId (.new .empty) between
    let st' := run p f.streamId (.new .empty) later
    ((st.tree.get (p.logFilePath f)).isSome ∧ st.tree.get (p.indexFilePath f) = none ∧
      st'.reported.length = 1 ∧ (st'.tree.get (p.pendingFilePath f.streamId)).isSome) ∧
    ∀ ops ∈ [between, later], ∃ i w writer,
      (initializeStream p f.streamId).run (run p f.streamId (.new .empty) ops).tree .calm =
        (.ok i, w) ∧
      ofInitialized i = some writer ∧
      HandedOver f.streamId (recordsThrough (diskOf p w.sys) i) (diskOf p w.sys) i := by
  intro p f between later st st'
  refine ⟨by decide +kernel, fun ops _ => ?_⟩
  exact @recovery_restarts .reference .canonical p f.streamId _ _ fresh_empty ops trivial

/-- **The entries of covered pairs are durable**: of those that a checkpoint covers, of
those before the active one and of the active pair too, unless its initialization created
it.  A crash takes no entry back. -/
theorem covered_entries_linked {t : Tree} (hfresh : Fresh p s t) (ops : List (Op p s)) :
    let st := run p s (.new t) ops
    (∀ e, checkpointEnd p s st.tree = some e →
      Linked s (e.logFileId.fileNumber.get + 1) (diskOf p st.tree)) ∧
    (∀ writer, st.writer = some writer →
      writer.fileId.fileNumber.get ≤ st.pairs ∧ Linked s st.pairs (diskOf p st.tree)) ∧
    ∀ plan i w, (initializeStream p s).run st.tree plan = (.ok i, w) →
      Linked s (linkedPairs (diskOf p st.tree) i) (diskOf p w.sys) := by
  intro st
  obtain ⟨n, h, -⟩ := Holds.reached hfresh ops
  refine ⟨?_, ?_, fun plan i w hrun => (h.initialized hrun).linked⟩
  · intro e he
    cases h with
    | fresh fresh => rw [checkpointEnd_fresh fresh] at he; cases he
    | there on consistent published writer =>
      rw [checkpointEnd_on on published] at he
      obtain ⟨k, hk, rfl⟩ := Option.map_eq_some_iff.mp he
      rw [on.2]
      exact published.linked k hk
  · intro writer hwriter
    cases h with
    | fresh fresh closed => rw [closed] at hwriter; cases hwriter
    | there on consistent published hopen =>
      rw [on.2]
      exact (hopen writer hwriter).1

omit [Crc32c] [CheckpointReader] in
theorem covered_entries_linked_established : letI := Crc32c.reference
    letI := CheckpointReader.canonical
    let p : StorageProvider := ⟨[]⟩
    let f : LogFileId := .first ⟨0, by decide⟩
    let found : List (Op p f.streamId) := [.start .calm, .drop, .start .calm]
    let st := run p f.streamId (.new (established p f.streamId)) found
    let st' := run p f.streamId (.new (established p f.streamId)) (found ++ [
      .writeRecord (Fills.firstRecord f), .syncData .calm, .crash (.worst p f.streamId),
      .start .calm])
    (st.writer.map IndexedLogWriter.fileId = some f ∧ st.pairs = 1 ∧
      Linked f.streamId 1 (diskOf p st.tree)) ∧
    (checkpointEnd p f.streamId st'.tree).map RecordEndLocation.logFileId = some f ∧
    (∀ e, checkpointEnd p f.streamId st'.tree = some e →
      Linked f.streamId (e.logFileId.fileNumber.get + 1) (diskOf p st'.tree)) ∧
    ∀ plan i w, (initializeStream p f.streamId).run st'.tree plan = (.ok i, w) →
      Linked f.streamId (linkedPairs (diskOf p st'.tree) i) (diskOf p w.sys) := by
  let _ := Crc32c.reference
  let _ := CheckpointReader.canonical
  intro p f found st st'
  have hfresh : Fresh p f.streamId (established p f.streamId) :=
    fresh_of_on (on_established p f.streamId) fun _ _ => rfl
  have hfile : st.writer.map IndexedLogWriter.fileId = some f := by decide +kernel
  have hpairs : st.pairs = 1 := by decide +kernel
  -- the empty pair of the first session was found by the second one
  obtain ⟨writer, hwriter, -⟩ := Option.map_eq_some_iff.mp hfile
  have hlinked := ((covered_entries_linked hfresh found).2.1 writer hwriter).2
  obtain ⟨hcheckpoint, -, hagain⟩ := covered_entries_linked hfresh (found ++ [
    .writeRecord (Fills.firstRecord f), .syncData .calm, .crash (.worst p f.streamId),
    .start .calm])
  exact ⟨⟨hfile, hpairs, hpairs ▸ hlinked⟩, by decide +kernel, hcheckpoint, hagain⟩

omit [Crc32c] [CheckpointReader] in
/-- The entries of a new pair, and of the directories made for it, are not synchronized:
the first record is synchronized in a pair whose entries are not durable, and where the
checkpoint that covers it stands, the directory of its pair still has no durable entry. -/
theorem new_entries_unlinked : letI := Crc32c.reference
    letI := CheckpointReader.canonical
    let p : StorageProvider := ⟨[]⟩
    let f : LogFileId := .first ⟨0, by decide⟩
    let ops : List (Op p f.streamId) :=
      [.start .calm, .writeRecord (Fills.firstRecord f), .syncData .calm]
    let st := run p f.streamId (.new (established p f.streamId)) ops
    let st' := run p f.streamId (.new (established p f.streamId)) (ops ++ [.drop, .start .calm])
    ((st.writer.bind IndexedLogWriter.syncedEnd).map RecordEndLocation.logFileId = some f ∧
      (st.tree.get (p.logFilePath f)).map Entry.linked = some false ∧
      (st.tree.get (p.indexFilePath f)).map Entry.linked = some false) ∧
    (checkpointEnd p f.streamId st'.tree).map RecordEndLocation.logFileId = some f ∧
      (st'.tree.get (p.leafDirectory f)).map Entry.linked = some false := by
  let _ := Crc32c.reference
  let _ := CheckpointReader.canonical
  decide +kernel

end Sessions

end TransactionLog
