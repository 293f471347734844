import Mathlib.Data.List.Dedup
import Mathlib.Data.List.Sort
import TransactionLog.Lib.FileTree
import TransactionLog.Storage.Checkpoint

/-!
# The storage provider

The provider names the files of a stream and makes the calls that create, open,
find and remove them.  An open file is known by its path; its handle is the cursor
that the file has.
-/

namespace TransactionLog

open Lib

/-- A failed operation and the path it was for. -/
inductive StorageError where
  | io (path : Path) (source : ErrorKind)
  | json (path : Path)
  | tooLarge (path : Path) (maxBytes : Nat)
  deriving DecidableEq, Repr

def StorageError.path : StorageError → Path
  | .io path _ => path
  | .json path => path
  | .tooLarge path _ => path

structure StorageProvider where
  rootDirectory : Path

namespace StorageProvider

/-! ## Paths -/

section Paths

variable (p : StorageProvider)

def streamDirectory (streamId : StreamId) : Path :=
  p.rootDirectory ++ [ascii "streams", digits 4 streamId.get]

/-- The first twelve of the fifteen digits, in threes. -/
def rangeNames (fileNumber : List UInt8) : List Name :=
  [0, 3, 6, 9].map fun start => (fileNumber.drop start).take 3

/-- The leaf directory of a file. -/
def leafDirectory (id : LogFileId) : Path :=
  p.streamDirectory id.streamId ++ rangeNames (digits 15 id.fileNumber.get)

def logOrIndexFilePath (id : LogFileId) (extension : Name) : Path :=
  p.leafDirectory id ++ [digits 15 id.fileNumber.get ++ (ascii "." ++ extension)]

def logFilePath (id : LogFileId) : Path := p.logOrIndexFilePath id (ascii "log")

def indexFilePath (id : LogFileId) : Path := p.logOrIndexFilePath id (ascii "idx")

def checkpointFilePath (streamId : StreamId) : Path :=
  p.streamDirectory streamId ++ [ascii "checkpoint.json"]

/-- Extends the last name of a path. -/
def withAddedExtension (path : Path) (extension : Name) : Path :=
  path.dropLast ++ [path.getLast?.getD [] ++ (ascii "." ++ extension)]

/-- Where a checkpoint is staged. -/
def pendingFilePath (streamId : StreamId) : Path :=
  withAddedExtension (p.checkpointFilePath streamId) (ascii "pending")

/-- The stored clustering configuration. -/
def clusteringConfigurationFilePath : Path := p.rootDirectory ++ [ascii "clustering.json"]

end Paths

/-! ## Finding the maximum log -/

/-- A directory still to be searched.  `rangePrefix` are the digits of its path, as
a number. -/
structure PendingDirectory where
  path : Path
  depth : Nat
  rangePrefix : Nat

/-- The directory for a name, if it can hold logs: three digits, not past the last
file number. -/
def rangeDirectory (directory : PendingDirectory) (name : Name) : Option PendingDirectory :=
  if name.length ≠ 3 ∨ ¬ name.all isDigit then none
  else
    let rangePrefix := directory.rangePrefix * 1000 + numberOf name
    let firstFile := rangePrefix * 1000 ^ (4 - directory.depth)
    if firstFile > LogFileNumber.max.get then none
    else some ⟨directory.path ++ [name], directory.depth + 1, rangePrefix⟩

/-- The range directories among the names of a directory. -/
def rangeChildren (directory : PendingDirectory) :
    List Name → Io Tree StorageError (List PendingDirectory)
  | [] => do
    Io.mapErr (.io directory.path) Fs.nextEntry
    pure []
  | name :: names => do
    Io.mapErr (.io directory.path) Fs.nextEntry
    match rangeDirectory directory name with
    | none => rangeChildren directory names
    | some child => do
      let kind ← Io.mapErr (.io child.path) (Fs.fileType child.path)
      let children ← rangeChildren directory names
      pure (if kind = .dir then child :: children else children)

/-- The child ranges in descending order.  Only the stream's own directory may be
absent. -/
def rangeDirectories (directory : PendingDirectory) :
    Io Tree StorageError (List PendingDirectory) := do
  match ← Io.attempt (Fs.readDir directory.path) with
  | .error source =>
    if directory.depth = 0 ∧ source = .notFound then pure []
    else Io.throw (.io directory.path source)
  | .ok names => do
    let children ← rangeChildren directory names
    pure (children.insertionSort fun a b => b.rangePrefix ≤ a.rangePrefix)

def stripSuffix (suffix name : Name) : Option Name :=
  if suffix.isSuffixOf name then some (name.take (name.length - suffix.length)) else none

variable (p : StorageProvider)

/-- The file whose log a name in a directory would be. -/
def candidate (streamId : StreamId) (path : Path) (name : Name) : Option LogFileId :=
  match stripSuffix (ascii ".log") name with
  | none => none
  | some number =>
    if number.length ≠ 15 ∨ ¬ number.all isDigit then none
    else match LogFileNumber.new (numberOf number) with
      | .error _ => none
      | .ok number =>
        if p.logFilePath ⟨streamId, number⟩ ≠ path ++ [name] then none
        else some ⟨streamId, number⟩

/-- The highest regular log among the names of a leaf directory and `maximum`. -/
def maximumLogAmong (streamId : StreamId) (path : Path) :
    Option LogFileId → List Name → Io Tree StorageError (Option LogFileId)
  | maximum, [] => do
    Io.mapErr (.io path) Fs.nextEntry
    pure maximum
  | maximum, name :: names => do
    Io.mapErr (.io path) Fs.nextEntry
    match p.candidate streamId path name with
    | none => maximumLogAmong streamId path maximum names
    | some id => do
      let kind ← Io.mapErr (.io (path ++ [name])) (Fs.fileType (path ++ [name]))
      let higher := maximum.all fun previous => previous.fileNumber.get < id.fileNumber.get
      maximumLogAmong streamId path (if kind = .file ∧ higher then some id else maximum) names

def maximumLogInDirectory (streamId : StreamId) (path : Path) :
    Io Tree StorageError (Option LogFileId) := do
  let names ← Io.mapErr (.io path) (Fs.readDir path)
  p.maximumLogAmong streamId path none names

/-- Takes the next directory off the stack. -/
def searchTurn (streamId : StreamId) : List PendingDirectory →
    Io Tree StorageError (List PendingDirectory ⊕ Option LogFileId)
  | [] => pure (.inr none)
  | directory :: pending =>
    if directory.depth = 4 then do
      match ← p.maximumLogInDirectory streamId directory.path with
      | some id => pure (.inr (some id))
      | none => pure (.inl pending)
    else do
      let children ← rangeDirectories directory
      pure (.inl (children ++ pending))

/-- How many directories a search can visit from `depth` levels above the leaves,
where a directory has at most `n` names. -/
def visits (n : Nat) : Nat → Nat
  | 0 => 1
  | depth + 1 => visits n depth * n + 1

/-- The highest existing log of a stream. -/
def maximumLogFile (streamId : StreamId) : Io Tree StorageError (Option LogFileId) := do
  let tree ← Io.get
  Io.iterate (p.searchTurn streamId) (visits tree.names.length 4 + 1)
    [⟨p.streamDirectory streamId, 0, 0⟩]

/-! ## Creating, opening and removing files -/

/-- Creates an empty pair and the directories it is in. -/
def createLogAndIndex (id : LogFileId) : Io Tree StorageError Unit := do
  Io.mapErr (.io (p.leafDirectory id)) (Fs.createDirAll (p.leafDirectory id))
  Io.mapErr (.io (p.logFilePath id)) (Fs.createNew (p.logFilePath id))
  Io.mapErr (.io (p.indexFilePath id)) (Fs.createNew (p.indexFilePath id))

def openLogForValidation (id : LogFileId) : Io Tree StorageError Unit :=
  Io.mapErr (.io (p.logFilePath id)) (Fs.openFile (p.logFilePath id))

/-- Synchronizes the entries of one directory. -/
def syncDirectory (path : Path) : Io Tree StorageError Unit := do
  Io.mapErr (.io path) (Fs.openDir path)
  Io.mapErr (.io path) (Fs.syncAll path)

/-- Opens an index, creating it if it is missing, and synchronizes its directory. -/
def openIndexForRepair (id : LogFileId) : Io Tree StorageError Unit := do
  Io.mapErr (.io (p.indexFilePath id)) (Fs.openOrCreate (p.indexFilePath id))
  syncDirectory (p.leafDirectory id)

/-- Removes a file that may be absent. -/
def removeIfPresent (path : Path) : Io Tree StorageError Unit := do
  match ← Io.attempt (Fs.removeFile path) with
  | .ok () => pure ()
  | .error .notFound => pure ()
  | .error source => Io.throw (.io path source)

/-- Removes pairs, each log before its index. -/
def removePairs : List LogFileId → Io Tree StorageError Unit
  | [] => pure ()
  | id :: ids => do
    removeIfPresent (p.logFilePath id)
    removeIfPresent (p.indexFilePath id)
    removePairs ids

/-- Synchronizes a directory that may be absent. -/
def syncIfPresent (path : Path) : Io Tree StorageError Unit := do
  match ← Io.attempt (syncDirectory path) with
  | .ok () => pure ()
  | .error (.io _ .notFound) => pure ()
  | .error error => Io.throw error

def syncExisting : List Path → Io Tree StorageError Unit
  | [] => pure ()
  | path :: paths => do
    syncIfPresent path
    syncExisting paths

/-- Removes the pairs from `first` through `last`. -/
def removeLogAndIndex (first last : LogFileId) : Io Tree StorageError Unit :=
  match first.iterTo last with
  | .error _ => Io.throw (.io (p.logFilePath first) .invalidInput)
  | .ok files => do
    let files ← Io.unwrap (LogFileId.visited last files)
    p.removePairs files
    syncExisting (files.map p.leafDirectory).dedup

/-! ## The checkpoint -/

def maxCheckpointBytes : Nat := 4096

/-- Reads the value of a file of at most `maxBytes` bytes, if there is one. -/
def readJson {α : Type} (fromSlice : List UInt8 → Option α) (path : Path) (maxBytes : Nat) :
    Io Tree StorageError (Option α) := do
  match ← Io.attempt (Fs.openFile path) with
  | .error .notFound => pure none
  | .error source => Io.throw (.io path source)
  | .ok () => do
    let bytes ← Io.mapErr (.io path) (Fs.onFile path (File.source.readToEnd (maxBytes + 1)))
    if bytes.length > maxBytes then Io.throw (.tooLarge path maxBytes)
    else match fromSlice bytes with
      | none => Io.throw (.json path)
      | some value => pure (some value)

/-- Reads the checkpoint of a stream, if there is one. -/
def readCheckpoint [CheckpointReader] (streamId : StreamId) :
    Io Tree StorageError (Option StreamCheckpoint) :=
  readJson CheckpointReader.fromSlice (p.checkpointFilePath streamId) maxCheckpointBytes

/-- Replaces a file as a whole, by way of a staging file that is renamed over it. -/
def writeAtomic (path : Path) (bytes : List UInt8) : Io Tree StorageError Unit := do
  let pending := withAddedExtension path (ascii "pending")
  Io.mapErr (.io pending) (Fs.openTruncated pending)
  Io.mapErr (.io pending) (Fs.onFile pending (File.dest.writeAll bytes))
  Io.mapErr (.io pending) (Fs.onFile pending File.flush)
  Io.mapErr (.io pending) (Fs.onFile pending File.syncData)
  Io.mapErr (.io path) (Fs.rename pending path)
  syncDirectory path.dropLast

def writeCheckpoint (checkpoint : StreamCheckpoint) : Io Tree StorageError Unit :=
  writeAtomic (p.checkpointFilePath checkpoint.endLocation.recordId.streamId) checkpoint.toVec

end StorageProvider

end TransactionLog
