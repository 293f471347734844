import TransactionLog.Storage.Fresh
import TransactionLog.Streams.OpenPair

/-!
# Crashes

A `Crash` leaves each log of a stream as a part of what it has accepted, with at least
its durable bytes, the durable bytes of each index with anything after them, and a
durable checkpoint as it was.  It takes content only: every entry of a directory stays,
synchronized or not, and so does every rename that was done.

No crash takes a durable record, and an initialization after it completes.
-/

namespace TransactionLog

open Lib

/-- What a crash leaves of the content of each file of a stream.  Entries and renames
stay. -/
structure Crash (p : StorageProvider) (s : StreamId) where
  left : Path → File → File
  log : ∀ f : LogFileId, f.streamId = s → ∀ file, File.Torn file (left (p.logFilePath f) file)
  index : ∀ f : LogFileId, f.streamId = s → ∀ file,
    File.Scrambled file (left (p.indexFilePath f) file)
  checkpoint : ∀ file : File, file.synced = file.content.length →
    (left (p.checkpointFilePath s) file).content = file.content ∧
      (left (p.checkpointFilePath s) file).synced = file.synced

variable {p : StorageProvider} {s : StreamId} {t : Tree} {d : Disk} {f : LogFileId}

namespace Crash

/-- The crash that takes all it can. -/
def worst (p : StorageProvider) (s : StreamId) : Crash p s where
  left _ := File.lost
  log _ _ := File.torn_lost
  index _ _ := File.scrambled_lost
  checkpoint _ h := ⟨List.take_of_length_le (Nat.le_of_eq h.symm), rfl⟩

/-- The disk after a crash. -/
def disk (c : Crash p s) (d : Disk) : Disk := fun x => (d x).map (Stored.map (c.left (x.path p)))

theorem disk_eq_none (c : Crash p s) {x : Place} : c.disk d x = none ↔ d x = none := by
  rw [disk, Option.map_eq_none_iff]

theorem disk_eq_some (c : Crash p s) {x : Place} {st : Stored} (h : c.disk d x = some st) :
    ∃ st₀, d x = some st₀ ∧ st = ⟨c.left (x.path p) st₀.file, st₀.linked⟩ := by
  rw [disk, Option.map_eq_some_iff] at h
  obtain ⟨st₀, hst₀, rfl⟩ := h
  exact ⟨st₀, hst₀, rfl⟩

theorem disk_of_some (c : Crash p s) {x : Place} {st : Stored} (h : d x = some st) :
    c.disk d x = some ⟨c.left (x.path p) st.file, st.linked⟩ := by
  rw [disk, h]
  rfl

/-! ### Trees -/

theorem get_mapFiles (g : Path → File → File) (q : Path) :
    (t.mapFiles g).get q = (t.get q).map fun e => { e with node := e.node.mapFile (g q) } := rfl

theorem isRange_mapFile (e : Option Entry) (g : File → File) :
    isRange (e.map fun e => { e with node := e.node.mapFile g }) = isRange e := by
  rcases e with _ | ⟨_ | _ | _, linked⟩ <;> rfl

theorem isDir_mapFiles (g : Path → File → File) (q : Path) :
    (t.mapFiles g).isDir q = t.isDir q := by
  unfold Tree.isDir
  rw [get_mapFiles]
  rcases t.get q with _ | ⟨_ | _ | _, linked⟩ <;> rfl

theorem on (c : Crash p s) (h : On p s d t) : On p s (c.disk d) (t.mapFiles c.left) := by
  refine ⟨⟨?_, ?_, ?_⟩, ?_⟩
  · rw [isDir_mapFiles]
    exact h.1.base
  · intro depth n hdepth
    rw [get_mapFiles, isRange_mapFile]
    exact h.1.range depth n hdepth
  · intro x hx
    have hplain := h.1.plain x hx
    rw [get_mapFiles]
    rcases hget : t.get (x.path p) with _ | ⟨_ | _ | _, linked⟩
    · rfl
    · rw [hget] at hplain
      cases hplain
    · rfl
    · rw [hget] at hplain
      cases hplain
  · funext x
    rw [disk, ← h.2, diskOf, diskOf, get_mapFiles]
    rcases t.get (x.path p) with _ | ⟨_ | _ | _, linked⟩ <;> rfl

theorem fresh (c : Crash p s) (h : Fresh p s t) : Fresh p s (t.mapFiles c.left) where
  way q hq := by
    rw [get_mapFiles, isRange_mapFile]
    exact h.way q hq
  empty x hx := by
    rw [get_mapFiles, h.empty x hx]
    rfl

end Crash

namespace StreamInitializer

variable [Crc32c] {H : List Record} {n : Nat} {e : RecordEndLocation}

/-! ### What a crash leaves -/

/-- **No crash takes a durable record.** -/
theorem Consistent.crashed (h : Consistent s H n d) (c : Crash p s) : Consistent s H n (c.disk d) where
  consecutive := h.consecutive
  le := h.le
  short := h.short
  log f L hf hL := by
    obtain ⟨L₀, hL₀, rfl⟩ := c.disk_eq_some hL
    exact (h.log f L₀ hf hL₀).torn (c.log f hf L₀.file)
  there f hf hlt hnone := h.there f hf hlt (c.disk_eq_none.mp hnone)
  reached f hf hlog := h.reached f hf fun hnone => hlog (c.disk_eq_none.mpr hnone)
  index f hf hindex hnone :=
    h.index f hf (fun hno => hindex (c.disk_eq_none.mpr hno)) (c.disk_eq_none.mp hnone)

theorem PairBacked.crashed (h : PairBacked e d) (he : e.recordId.streamId = s) (c : Crash p s) :
    PairBacked e (c.disk d) := by
  obtain ⟨base, L, I, hL, hI, hfills, hend, hlog, hindex⟩ := h
  exact ⟨base, _, _, c.disk_of_some hL, c.disk_of_some hI, hfills, hend,
    hlog.torn (c.log _ he _), hindex.scrambled (c.index _ he _)⟩

variable [CheckpointReader] {cp : Option StreamCheckpoint}

theorem Published.crashed (h : Published s n cp d) (c : Crash p s) :
    Published s n cp (c.disk d) where
  reads := by
    refine reads_of_content h.reads ?_
    unfold contentAt
    cases hst : d (.checkpoint s) with
    | none => rw [c.disk_eq_none.mpr hst]
    | some st =>
      rw [c.disk_of_some hst, Option.map_some, Option.map_some]
      exact congrArg some (c.checkpoint st.file (h.whole st hst)).1
  whole st hst := by
    obtain ⟨st₀, hst₀, rfl⟩ := c.disk_eq_some hst
    obtain ⟨hcontent, hsynced⟩ := c.checkpoint st₀.file (h.whole st₀ hst₀)
    show (c.left (p.checkpointFilePath s) st₀.file).synced = _
    rw [hsynced, h.whole st₀ hst₀]
    exact congrArg List.length hcontent.symm
  stream := h.stream
  pair k hk := (h.pair k hk).crashed (h.stream k hk) c
  le := h.le
  linked k hk := by
    intro g hg hlt
    obtain ⟨log, index, hlog, hindex⟩ := h.linked k hk g hg hlt
    exact ⟨_, _, c.disk_of_some hlog, c.disk_of_some hindex⟩

/-! ### Initializing again -/

variable {tree : Tree} {plan : Plan} {i : InitializedStream} {d' : Disk}

/-- **An initialization of a consistent stream completes**, unless a fault strikes it. -/
theorem Consistent.completes (hc : Consistent s H n d) (hp : Published s n cp d)
    (hon : On p s d tree) (hplan : plan.Smooth) :
    ∃ i d' w, (initializeStream p s).run tree plan = (.ok i, w) ∧
      Initialized p s cp d i d' ∧ On p s d' w.sys := by
  have hcertifies := (hp.backed hc).certifies
  refine initializeStream_completes hp.reads hon hcertifies.sound ?_ ?_ hplan
  · -- the history would have reached the last record ID
    intro f L hf hL hexhausted
    have hle := hc.before_le hf (by simp [hL])
    have hshort := hc.short
    have hlength := hcertifies.length_heldIn hL
    unfold LogFileValidator.Exhausted at hexhausted
    rw [f.first_sequence] at hexhausted
    unfold LogFileValidator.found at hlength
    omega
  · intro f hf hbeyond _
    by_contra hindex
    have hlt := hbeyond.1 f rfl (hc.index f hf hindex)
    exact absurd hlt (Nat.lt_irrefl _)

omit [CheckpointReader] in
/-- A writer goes on from there. -/
theorem HandedOver.writer {R : List Record} (h : HandedOver s R d i) (hR : Consecutive s 0 R)
    (hshort : R.length < 2 ^ 64) : ∃ w, IndexedLogWriter.ofInitialized i = some w := by
  have hi : i = ⟨i.fileId, endOf (part i.fileId R)⟩ := by rw [← h.end_eq]
  rw [hi]
  refine IndexedLogWriter.exists_ofInitialized_of_lt (fills_part hR h.stream) ?_
  rw [LogFileId.first_sequence, ← h.count]
  exact hshort

end StreamInitializer

end TransactionLog
