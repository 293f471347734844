import TransactionLog.Streams.HistoryRecovery
import TransactionLog.Streams.WriterInvariant

/-!
# A writer on the files of a stream

The writer of a session sends to the two files of the pair that its initialization
handed over.  `Writing` ties it to the history: its file holds the records it
started from and those it has sent since, and those up to its synchronized mark are
the durable ones.  Every operation of the writer keeps the disk consistent with a
history that goes on with what it has accepted.
-/

namespace TransactionLog

open Lib

namespace IndexedLogWriter

open StreamInitializer (Consistent Published PairBacked HandedOver countThrough)

variable {p : StorageProvider} {s : StreamId} {d : Disk} {f : LogFileId}

/-- The disk with the files of one pair replaced. -/
def withFiles (d : Disk) (f : LogFileId) (L I : Stored) : Disk :=
  Function.update (Function.update d (.log f) (some L)) (.index f) (some I)

@[simp] theorem withFiles_log (d : Disk) (f : LogFileId) (L I : Stored) :
    withFiles d f L I (.log f) = some L := by
  rw [withFiles, Function.update_of_ne (by simp), Function.update_self]

@[simp] theorem withFiles_index (d : Disk) (f : LogFileId) (L I : Stored) :
    withFiles d f L I (.index f) = some I := Function.update_self _ _ _

theorem same_withFiles {x : Place} (hlog : x ≠ .log f) (hindex : x ≠ .index f) (L I : Stored) :
    Same d (withFiles d f L I) x := (Same.update hlog _).trans (.update hindex _)

theorem update_log_withFiles (d : Disk) (f : LogFileId) (L L' I : Stored) :
    Function.update (withFiles d f L I) (.log f) (some L') = withFiles d f L' I := by
  rw [withFiles, withFiles, Function.update_comm (by simp), Function.update_idem]

theorem update_index_withFiles (d : Disk) (f : LogFileId) (L I I' : Stored) :
    Function.update (withFiles d f L I) (.index f) (some I') = withFiles d f L I' := by
  rw [withFiles, withFiles, Function.update_idem]

theorem withFiles_self {L I : Stored} (hL : d (.log f) = some L) (hI : d (.index f) = some I) :
    withFiles d f L I = d := by
  rw [withFiles, ← hL, Function.update_eq_self, ← hI, Function.update_eq_self]

/-- What an operation on an open file does to the disk. -/
theorem setFile_fileAt {x : Place} {st : Stored} {tree : Tree} (h : On p s d tree)
    (hx : x.streamId = s) (hd : d x = some st) (g : File → File) :
    On p s (Function.update d x (some (st.map g)))
      (tree.setFile (x.path p) (g (Fs.fileAt (x.path p) tree))) := by
  have hfile : Fs.fileAt (x.path p) tree = st.file := by
    rw [Fs.fileAt, Tree.file?_eq_some.mpr ⟨_, h.get_some hx hd⟩]
    rfl
  rw [hfile]
  exact h.setFile hx hd _

/-- The two files have received what the channels have, after `log` and `index`. -/
def Carries (p : StorageProvider) (s : StreamId) (d : Disk) (f : LogFileId)
    (log index : List UInt8) (logLinked indexLinked : Bool) (l i : Channel) (tree : Tree) : Prop :=
  ∃ L I, File.Receives log l L ∧ File.Receives index i I ∧
    On p s (withFiles d f ⟨L, logLinked⟩ ⟨I, indexLinked⟩) tree

/-- A file of the pair keeps its record of what it has seen. -/
theorem tracked_of_setFile {J : Channel → Tree → Prop} {path : Path}
    (hJ : ∀ (g : File → File) (change : Channel → Channel),
      (∀ base ch file, File.Receives base ch file → File.Receives base (change ch) (g file)) →
      ∀ ch tree, J ch tree → J (change ch) (tree.setFile path (g (Fs.fileAt path tree)))) :
    Output.Tracked (Fs.dest path) J where
  accept bytes := hJ (File.dest.accept bytes) (Channel.dest.accept bytes)
    fun base ch file => (File.tracked_receives base).accept bytes ch file
  flush := hJ File.dest.flush Channel.dest.flush
    fun base ch file => (File.tracked_receives base).flush ch file
  sync := hJ File.dest.sync Channel.dest.sync
    fun base ch file => (File.tracked_receives base).sync ch file

theorem tracks_carries (hs : f.streamId = s) (log index : List UInt8) (logLinked indexLinked : Bool) :
    Tracks (Fs.dest (p.logFilePath f)) (Fs.dest (p.indexFilePath f))
      (Carries p s d f log index logLinked indexLinked) where
  log i := tracked_of_setFile fun g change hg ch tree ⟨L, I, hL, hI, hon⟩ => by
    have hset := setFile_fileAt (x := .log f) hon hs (withFiles_log _ _ _ _) g
    rw [update_log_withFiles] at hset
    exact ⟨g L, I, hg _ _ _ hL, hI, hset⟩
  index l := tracked_of_setFile fun g change hg ch tree ⟨L, I, hL, hI, hon⟩ => by
    have hset := setFile_fileAt (x := .index f) hon hs (withFiles_index _ _ _ _) g
    rw [update_index_withFiles] at hset
    exact ⟨L, g I, hL, hg _ _ _ hI, hset⟩

variable [Crc32c] {H : List Record} {n : Nat} {w w' : IndexedLogWriter} {g g' : Ghost}

/-- The history before the file, and on with what a writer of it has accepted. -/
def extended (H : List Record) (f : LogFileId) (g : Ghost) : List Record := H.take f.before ++ g.all

theorem length_extended (hle : f.before ≤ H.length) :
    (extended H f g).length = f.before + g.all.length := by
  rw [extended, List.length_append, List.length_take, Nat.min_eq_left hle]

theorem part_extended (hle : f.before ≤ H.length) (hg : Fills f g.all) :
    part f (extended H f g) = g.all := by
  have htake : (H.take f.before).length = f.before := by rw [List.length_take, Nat.min_eq_left hle]
  rw [part, extended, List.drop_append_of_le_length (Nat.le_of_eq htake.symm),
    List.drop_eq_nil_of_le (Nat.le_of_eq htake), List.nil_append, List.take_of_length_le hg.length_le]

theorem consecutive_extended (hH : Consecutive s 0 H) (hle : f.before ≤ H.length)
    (hf : f.streamId = s) (hg : Fills f g.all) : Consecutive s 0 (extended H f g) := by
  refine consecutive_append.mpr ⟨hH.of_isPrefix (List.take_prefix _ _), ?_⟩
  rw [List.length_take, Nat.min_eq_left hle, Nat.zero_add, ← hf]
  exact hg.consecutive

/-- The log has the records up to the synchronized mark, durably. -/
theorem Marks.log_kept {l i : Channel} {file : File} (h : Marks f g w l i)
    (hfile : File.Receives (encodings g.base) l file) (hpart : part f H = g.all) :
    Kept H (f.before + g.synced) f file where
  content := by rw [hfile.accepted]
  accepted := by
    rw [hfile.accepted, hfile.content, hpart, Ghost.all, encodings_append]
    exact (List.prefix_append_right_inj _).mpr h.log_accepted
  durable := by
    rw [part_take, hpart, Nat.add_sub_cancel_left]
    exact Nat.le_trans h.log_synced hfile.synced_le

/-- The index has the ends of the records up to the synchronized mark, durably. -/
theorem Marks.index_secures {l i : Channel} {file : File} (h : Marks f g w l i)
    (hfile : File.Receives (indexBytes g.base) i file) :
    File.Secures (indexBytes (g.all.take g.synced)) file := by
  have hcontent : file.content <+: indexBytes g.all := by
    rw [hfile.content, Ghost.all, indexBytes_append]
    exact (List.prefix_append_right_inj _).mpr h.index_accepted
  have hle := h.index_synced
  have hsynced := hfile.synced_le
  have hlength : (indexBytes (g.all.take g.synced)).length ≤ file.synced := by
    rw [length_indexBytes] at hsynced ⊢
    rw [List.length_take]
    omega
  exact ⟨List.prefix_of_prefix_length_le (indexBytes_mono (List.take_prefix _ _)) hcontent
    (Nat.le_trans hlength file.synced_le), hlength⟩

/-- The writer's file goes on with the history, of which `n` records are durable. -/
structure Writing (s : StreamId) (H : List Record) (n : Nat) (d : Disk) (w : IndexedLogWriter)
    (g : Ghost) (l i : Channel) (L I : Stored) : Prop where
  stream : w.fileId.streamId = s
  inv : WriterInv w.fileId g w l i
  log : d (.log w.fileId) = some L
  index : d (.index w.fileId) = some I
  log_receives : File.Receives (encodings g.base) l L.file
  index_receives : File.Receives (indexBytes g.base) i I.file
  history : H = extended H w.fileId g
  before_le : w.fileId.before ≤ H.length
  durable : n = w.fileId.before + g.synced

namespace Writing

variable {l i l' i' : Channel} {L I L' I' : Stored} {cp : Option StreamCheckpoint} {tree : Tree}

theorem part_eq (h : Writing s H n d w g l i L I) : part w.fileId H = g.all := by
  rw [h.history]
  exact part_extended h.before_le h.inv.marks.fills

/-- Where the writer's operations start. -/
theorem at_carries (h : Writing s H n d w g l i L I) (hon : On p s d tree) :
    At w.fileId (Carries p s d w.fileId (encodings g.base) (indexBytes g.base) L.linked I.linked) g
      (w, tree) := by
  refine ⟨l, i, h.inv, L.file, I.file, h.log_receives, h.index_receives, ?_⟩
  rw [withFiles_self h.log h.index]
  exact hon

/-- An endpoint among the durable records stays backed while the writer goes on. -/
theorem pairBacked {e : RecordEndLocation} (h : Writing s H n d w g l i L I)
    (hc : Consistent s H n d) (he : PairBacked e d) (hle : countThrough e ≤ n)
    (hm : Marks w.fileId g' w' l' i') (hlog : File.Receives (encodings g'.base) l' L'.file)
    (hindex : File.Receives (indexBytes g'.base) i' I'.file) (hall : g.all <+: g'.all)
    (hsynced : g.synced ≤ g'.synced) : PairBacked e (withFiles d w.fileId L' I') := by
  by_cases hf : e.logFileId = w.fileId
  · obtain ⟨base, L₀, I₀, hL₀, hI₀, hfills, hend, hbase, -⟩ := he
    rw [hf] at hL₀ hfills
    -- the endpoint's records are the first ones of the writer's file
    have hfront : base <+: g.all := by
      rw [← h.part_eq]
      exact (hfills.le_held hbase.isPrefix).trans (hc.log _ L₀ h.stream hL₀).held_isPrefix
    have hcount : base.length ≤ g.synced := by
      obtain ⟨-, -, hn, -⟩ := hfills.endOf_eq_some hend
      have hdurable := h.durable
      rw [LogFileId.first_sequence] at hn
      rw [countThrough] at hle
      omega
    have hsecure : base <+: g'.all.take g'.synced := by
      refine List.prefix_of_prefix_length_le (hfront.trans hall) (List.take_prefix _ _) ?_
      rw [List.length_take]
      exact Nat.le_min.mpr ⟨Nat.le_trans hcount hsynced, (hfront.trans hall).length_le⟩
    rw [PairBacked, hf]
    refine ⟨base, L', I', withFiles_log _ _ _ _, withFiles_index _ _ _ _, hfills, hend, ?_, ?_⟩
    · have hpart := part_extended h.before_le hm.fills
      refine (hm.log_kept hlog hpart).secures.of_isPrefix (encodings_mono ?_)
      rw [part_take, hpart, Nat.add_sub_cancel_left]
      exact hsecure
    · exact (hm.index_secures hindex).of_isPrefix (indexBytes_mono hsecure)
  · exact he.of_same (same_withFiles (by simpa using hf) (by simp) _ _)
      (same_withFiles (by simp) (by simpa using hf) _ _)

variable [CheckpointReader]

/-- **What an operation of the writer leaves**: the history goes on with the records it
has accepted, and those up to its synchronized mark are durable. -/
theorem advance (h : Writing s H n d w g l i L I) (hc : Consistent s H n d) (hp : Published s n cp d)
    (hat : At w.fileId (Carries p s d w.fileId (encodings g.base) (indexBytes g.base) L.linked
      I.linked) g' (w', tree))
    (hbase : g'.base = g.base) (hwritten : g.written <+: g'.written) (hsynced : g.synced ≤ g'.synced) :
    ∃ n' d' l' i' L' I', n ≤ n' ∧ On p s d' tree ∧
      Consistent s (extended H w.fileId g') n' d' ∧ Published s n' cp d' ∧
      Writing s (extended H w.fileId g') n' d' w' g' l' i' L' I' ∧
      ∀ f : LogFileId, StillLinked d d' (.log f) ∧ StillLinked d d' (.index f) := by
  obtain ⟨l', i', hinv, L', I', hlog, hindex, hon⟩ := hat
  simp only at hinv hon
  rw [← hbase] at hlog hindex
  have hm := hinv.marks
  have hfile : w'.fileId = w.fileId := hm.file
  have hall : g.all <+: g'.all := by
    rw [Ghost.all, Ghost.all, hbase]
    exact (List.prefix_append_right_inj _).mpr hwritten
  have hfront : H <+: extended H w.fileId g' := by
    conv_lhs => rw [h.history]
    exact (List.prefix_append_right_inj _).mpr hall
  have hlength := length_extended (g := g') h.before_le
  have hshort : (extended H w.fileId g').length < 2 ^ 64 := by
    rw [hlength, ← LogFileId.first_sequence, ← hm.expected]
    exact w'.expectedRecordId.sequenceNumber.lt
  have hpart := part_extended (g := g') h.before_le hm.fills
  have hn := h.durable
  have hle := hm.synced_le
  have hle' := hm.flushed_le
  have hfits := hm.fills.length_le
  have hsame : ∀ f, f ≠ w.fileId →
      Same d (withFiles d w.fileId ⟨L', L.linked⟩ ⟨I', I.linked⟩) (.log f) ∧
        Same d (withFiles d w.fileId ⟨L', L.linked⟩ ⟨I', I.linked⟩) (.index f) := fun f hf =>
    ⟨same_withFiles (by simpa using hf) (by simp) _ _, same_withFiles (by simp) (by simpa using hf) _ _⟩
  have hextended := (hc.extend hfront (consecutive_extended hc.consecutive h.before_le h.stream
    hm.fills) hshort).change h.stream hsame (withFiles_log _ _ _ _) (hm.log_kept hlog hpart)
    (by omega) (by omega) (by omega) (.inr (by omega))
  have hlinked : ∀ f,
      StillLinked d (withFiles d w.fileId ⟨L', L.linked⟩ ⟨I', I.linked⟩) (.log f) ∧
        StillLinked d (withFiles d w.fileId ⟨L', L.linked⟩ ⟨I', I.linked⟩) (.index f) := by
    intro f
    by_cases hfw : f = w.fileId
    · subst hfw
      refine ⟨fun file hfile => ?_, fun file hfile => ?_⟩
      · obtain rfl := Option.some.inj (h.log.symm.trans hfile)
        exact ⟨L', withFiles_log _ _ _ _⟩
      · obtain rfl := Option.some.inj (h.index.symm.trans hfile)
        exact ⟨I', withFiles_index _ _ _ _⟩
    · exact ⟨(hsame f hfw).1.stillLinked, (hsame f hfw).2.stillLinked⟩
  refine ⟨_, _, l', i', ⟨L', L.linked⟩, ⟨I', I.linked⟩, ?_, hon, hextended, hp.mono ?_
    (same_withFiles (by simp) (by simp) _ _) (fun k hk => ?_) (fun f _ => hlinked f), ?_, hlinked⟩
  · omega
  · omega
  · exact h.pairBacked hc (hp.pair k hk) (hp.le k hk) hm hlog hindex hall hsynced
  · refine ⟨by rw [hfile]; exact h.stream, by rw [hfile]; exact hinv,
      by rw [hfile]; exact withFiles_log _ _ _ _, by rw [hfile]; exact withFiles_index _ _ _ _,
      hlog, hindex, ?_, ?_, by rw [hfile]⟩
    · rw [hfile, extended, extended, List.take_append_of_le_length, List.take_take, Nat.min_self]
      rw [List.length_take, Nat.min_eq_left h.before_le]
    · rw [hfile, hlength]
      exact Nat.le_add_right _ _

end Writing

/-- **A writer made from the pair that an initialization hands over** goes on with the
recovered records. -/
theorem exists_writing {i : InitializedStream}
    (h : HandedOver s H d i) (hc : Consistent s H H.length d) (hw : ofInitialized i = some w) :
    ∃ g l k L I, Writing s H H.length d w g l k L I := by
  have hi : i = ⟨i.fileId, endOf (part i.fileId H)⟩ := by rw [← h.end_eq]
  have hinv := inv_ofInitialized (hc.fills h.stream) (hi ▸ hw)
  have hfile : w.fileId = i.fileId := hinv.marks.file
  obtain ⟨L, hL, hlog⟩ := Option.map_eq_some_iff.mp h.log
  obtain ⟨I, hI, hindex⟩ := Option.map_eq_some_iff.mp h.index
  have hcount := h.count
  rw [← hfile] at hinv hL hI hlog hindex hcount
  refine ⟨.start (part w.fileId H), .new, .new, L, I, ?_, hinv, hL, hI, ?_, ?_, ?_, ?_, hcount⟩
  · rw [hfile]
    exact h.stream
  · rw [hlog]
    exact File.receives_atEnd _
  · rw [hindex]
    exact File.receives_atEnd _
  · have hsplit := take_before_add w.fileId H (k := (part w.fileId H).length) (by
      rw [hfile]
      exact Nat.le_of_lt h.room)
    rw [← hcount, List.take_length, List.take_length] at hsplit
    rw [extended, Ghost.all, Ghost.start, List.append_nil]
    exact hsplit
  · omega

end IndexedLogWriter

end TransactionLog
