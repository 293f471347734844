import TransactionLog.Record.Writer
import TransactionLog.Streams.Layout

/-!
# The paired writer

An `IndexedLogWriter` appends records to a log file and their ends to its index.
It buffers both, sends the log's batch and flushes the log before it sends the
index entries, and keeps three marks: the last record buffered, the last one
flushed to both files and the last one synchronized in both.

`WriterInv` is its invariant.  It ties the writer's fields to the records it has
accepted and to what the two destinations have seen, and it holds wherever an
operation can end: after success, after an error, and where it is abandoned at
any of its calls.
-/

namespace TransactionLog

open Lib

/-! ## The index writer -/

abbrev IndexWriter := Output

abbrev IndexWriteError := OutputError

namespace IndexWriter

variable {σ : Type}

def new : IndexWriter := Output.new

/-- Buffers one exclusive record end. -/
def write (w : IndexWriter) (endPosition : LogFilePosition) : Except IndexWriteError IndexWriter :=
  w.append (toLe indexEntryLen endPosition.get)

def flushBuffer (d : Dest σ) : Io (IndexWriter × σ) IndexWriteError Unit := Output.flushBuffer d

def flush (d : Dest σ) : Io (IndexWriter × σ) IndexWriteError Unit := Output.flush d

def syncData (d : Dest σ) : Io (IndexWriter × σ) IndexWriteError Unit := Output.syncData d

end IndexWriter

/-! ## The writer -/

inductive IndexedLogWriterState where
  | opened
  | unusable
  | finalized
  deriving DecidableEq, Repr

inductive IndexedLogWriteError where
  | unexpectedRecordId (expected actual : RecordId)
  | full
  | notFull (recordCount : Nat)
  | notSynchronized
  | finalized
  | unusable
  | log (e : RecordOutputError)
  | index (e : IndexWriteError)
  deriving DecidableEq, Repr

structure AppendOutcome where
  endLocation : RecordEndLocation
  fileFull : Bool
  deriving DecidableEq, Repr

/-- Marks of a paired writer, its two inner writers and its state.  The two
destinations are kept beside it. -/
structure IndexedLogWriter where
  fileId : LogFileId
  expectedRecordId : RecordId
  recordCount : Nat
  bufferedEnd : Option RecordEndLocation
  flushedEnd : Option RecordEndLocation
  syncedEnd : Option RecordEndLocation
  log : RecordWriter
  index : IndexWriter
  state : IndexedLogWriterState
  deriving DecidableEq, Repr

/-- The active pair that initialization hands over: the file it belongs to and
the last accepted record in it.  The handles are kept beside it. -/
structure InitializedStream where
  fileId : LogFileId
  endLocation : Option RecordEndLocation
  deriving DecidableEq, Repr

namespace IndexedLogWriter

section Operations

variable [Crc32c] {σ : Type}

def new (fileId : LogFileId) : IndexedLogWriter where
  fileId := fileId
  expectedRecordId := fileId.firstRecordId
  recordCount := 0
  bufferedEnd := none
  flushedEnd := none
  syncedEnd := none
  log := .forRecords
  index := .new
  state := .opened

/-- The source's `From<InitializedStream>`; panics where no record can follow. -/
def ofInitialized (i : InitializedStream) : Option IndexedLogWriter :=
  (i.endLocation.elim (some i.fileId.firstRecordId) fun e => e.recordId.next).map
    fun expectedRecordId => {
      fileId := i.fileId
      expectedRecordId := expectedRecordId
      recordCount := i.endLocation.elim 0 fun e => LogFileId.recordCountThrough e.recordId
      bufferedEnd := i.endLocation
      flushedEnd := i.endLocation
      syncedEnd := i.endLocation
      log := .forRecords
      index := .new
      state := .opened }

def isFull (w : IndexedLogWriter) : Bool := w.recordCount = recordsPerFile

def checkOpen (w : IndexedLogWriter) : Except IndexedLogWriteError Unit :=
  match w.state with
  | .opened => .ok ()
  | .unusable => .error .unusable
  | .finalized => .error .finalized

/-- Where the next record starts. -/
def nextStart (w : IndexedLogWriter) : Option RecordStartLocation :=
  match w.bufferedEnd with
  | some e => e.nextRecordStart
  | none => some ⟨w.fileId.firstRecordId, .start⟩

/-- Changes the writer's own fields. -/
def update (f : IndexedLogWriter → IndexedLogWriter) :
    Io (IndexedLogWriter × σ) IndexedLogWriteError Unit :=
  Io.modify fun s => (f s.1, s.2)

/-- Runs an operation of one of the inner writers, which `get` reads and `set` replaces. -/
def onInner (get : IndexedLogWriter → Output) (set : Output → IndexedLogWriter → IndexedLogWriter)
    (error : OutputError → IndexedLogWriteError) (m : Io (Output × σ) OutputError Unit) :
    Io (IndexedLogWriter × σ) IndexedLogWriteError Unit :=
  Io.mapErr error (Io.zoom (fun s => (get s.1, s.2)) (fun t s => (set t.1 s.1, t.2)) m)

def onLog (m : Io (RecordWriter × σ) RecordOutputError Unit) :
    Io (IndexedLogWriter × σ) IndexedLogWriteError Unit :=
  onInner log (fun log w => { w with log := log }) .log m

def onIndex (m : Io (IndexWriter × σ) IndexWriteError Unit) :
    Io (IndexedLogWriter × σ) IndexedLogWriteError Unit :=
  onInner index (fun index w => { w with index := index }) .index m

/-- Buffers a record and its end. -/
def writeRecord (record : Record) :
    Io (IndexedLogWriter × σ) IndexedLogWriteError AppendOutcome := do
  let s ← Io.get
  let w := s.1
  Io.ofExcept w.checkOpen
  if w.isFull then Io.throw .full
  else if record.id ≠ w.expectedRecordId then
    Io.throw (.unexpectedRecordId w.expectedRecordId record.id)
  else do
    let start ← Io.unwrap w.nextStart
    let endLocation ← Io.unwrap (start.toEnd record.length)
    let nextExpectedRecordId ← Io.unwrap w.expectedRecordId.next
    update fun w => { w with state := .unusable }
    let log ← Io.ofExcept ((w.log.writeRecord record).mapError .log)
    update fun w => { w with log := log }
    let index ← Io.ofExcept ((w.index.write endLocation.position).mapError .index)
    update fun w => { w with
      index := index
      recordCount := w.recordCount + 1
      bufferedEnd := some endLocation
      expectedRecordId := nextExpectedRecordId
      state := .opened }
    let s ← Io.get
    pure ⟨endLocation, s.1.isFull⟩

/-- The calls of `flush`, in their order. -/
def flushCalls (logDest indexDest : Dest σ) :
    Io (IndexedLogWriter × σ) IndexedLogWriteError Unit := do
  onLog (RecordWriter.flushBuffer logDest)
  onLog (RecordWriter.flush logDest)
  onIndex (IndexWriter.flushBuffer indexDest)
  onIndex (IndexWriter.flush indexDest)

/-- Sends and flushes the log's batch, then the index's. -/
def flush (logDest indexDest : Dest σ) : Io (IndexedLogWriter × σ) IndexedLogWriteError Unit := do
  let s ← Io.get
  Io.ofExcept s.1.checkOpen
  if s.1.bufferedEnd = s.1.flushedEnd then pure ()
  else do
    update fun w => { w with state := .unusable }
    flushCalls logDest indexDest
    update fun w => { w with flushedEnd := w.bufferedEnd, state := .opened }

/-- Synchronizes the log, then the index. -/
def syncCalls (logDest indexDest : Dest σ) :
    Io (IndexedLogWriter × σ) IndexedLogWriteError Unit := do
  onLog (RecordWriter.syncData logDest)
  onIndex (IndexWriter.syncData indexDest)

/-- Flushes, then synchronizes both files. -/
def syncData (logDest indexDest : Dest σ) :
    Io (IndexedLogWriter × σ) IndexedLogWriteError Unit := do
  flush logDest indexDest
  update fun w => { w with state := .unusable }
  syncCalls logDest indexDest
  update fun w => { w with syncedEnd := w.flushedEnd, state := .opened }

/-- Ends appending once the full pair is synchronized. -/
def finalize : Io (IndexedLogWriter × σ) IndexedLogWriteError RecordEndLocation := do
  let s ← Io.get
  Io.ofExcept s.1.checkOpen
  if !s.1.isFull then Io.throw (.notFull s.1.recordCount)
  else if s.1.syncedEnd ≠ s.1.bufferedEnd then Io.throw .notSynchronized
  else do
    let endLocation ← Io.unwrap s.1.bufferedEnd
    update fun w => { w with state := .finalized }
    pure endLocation

end Operations

end IndexedLogWriter

end TransactionLog
