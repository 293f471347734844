import TransactionLog.Storage.StorageProvider

/-!
# The paths of a stream

Paths of different files are different, and a file number can be read off its path:
`dirPath depth prefix` is the directory that the search for the maximum log visits,
and the directory of a file's log is the one for its leading digits.
-/

namespace TransactionLog

open Lib

namespace StorageProvider

variable (p : StorageProvider)

@[simp] theorem length_rangeNames (fileNumber : List UInt8) : (rangeNames fileNumber).length = 4 := rfl

theorem length_streamDirectory (s : StreamId) :
    (p.streamDirectory s).length = p.rootDirectory.length + 2 := by
  rw [streamDirectory, List.length_append]
  rfl

theorem length_leafDirectory (f : LogFileId) :
    (p.leafDirectory f).length = p.rootDirectory.length + 6 := by
  rw [leafDirectory, List.length_append, length_streamDirectory, length_rangeNames]

@[simp] theorem dropLast_logFilePath (f : LogFileId) :
    (p.logFilePath f).dropLast = p.leafDirectory f := List.dropLast_concat

@[simp] theorem dropLast_indexFilePath (f : LogFileId) :
    (p.indexFilePath f).dropLast = p.leafDirectory f := List.dropLast_concat

@[simp] theorem dropLast_checkpointFilePath (s : StreamId) :
    (p.checkpointFilePath s).dropLast = p.streamDirectory s := List.dropLast_concat

theorem pendingFilePath_eq (s : StreamId) :
    p.pendingFilePath s = p.streamDirectory s ++ [ascii "checkpoint.json.pending"] := by
  rw [pendingFilePath, withAddedExtension, dropLast_checkpointFilePath, checkpointFilePath,
    List.getLast?_concat]
  rfl

@[simp] theorem dropLast_pendingFilePath (s : StreamId) :
    (p.pendingFilePath s).dropLast = p.streamDirectory s := by
  rw [pendingFilePath_eq, List.dropLast_concat]

theorem length_logOrIndexFilePath (f : LogFileId) (extension : Name) :
    (p.logOrIndexFilePath f extension).length = p.rootDirectory.length + 7 := by
  rw [logOrIndexFilePath, List.length_append, length_leafDirectory]
  rfl

theorem length_checkpointFilePath (s : StreamId) :
    (p.checkpointFilePath s).length = p.rootDirectory.length + 3 := by
  rw [checkpointFilePath, List.length_append, length_streamDirectory]
  rfl

theorem length_pendingFilePath (s : StreamId) :
    (p.pendingFilePath s).length = p.rootDirectory.length + 3 := by
  rw [pendingFilePath_eq, List.length_append, length_streamDirectory]
  rfl

/-! ### Different files have different paths -/

theorem streamDirectory_injective {s s' : StreamId} (h : p.streamDirectory s = p.streamDirectory s') :
    s = s' := by
  have h := (List.append_right_inj _).mp h
  have hdigits : digits 4 s.get = digits 4 s'.get := (List.cons.inj (List.cons.inj h).2).1
  have hlt : ∀ x : StreamId, x.get < 10 ^ 4 := fun x => Nat.lt_of_lt_of_le x.lt (by decide)
  have := digits_injective (hlt s) (hlt s') hdigits
  cases s
  cases s'
  simpa using this

theorem fileNumber_lt (n : LogFileNumber) : n.get < 10 ^ 15 := Nat.lt_of_le_of_lt n.le (by decide)

theorem logOrIndexFilePath_inj {f g : LogFileId} {x y : Name}
    (h : p.logOrIndexFilePath f x = p.logOrIndexFilePath g y) : f = g ∧ x = y := by
  have hlen : (p.leafDirectory f).length = (p.leafDirectory g).length := by
    rw [length_leafDirectory, length_leafDirectory]
  obtain ⟨hleaf, hname⟩ := List.append_inj h hlen
  have hname := (List.cons.inj hname).1
  obtain ⟨hdigits, hext⟩ := List.append_inj hname (by rw [length_digits, length_digits])
  have hnumber := digits_injective (fileNumber_lt _) (fileNumber_lt _) hdigits
  have hlen' : (p.streamDirectory f.streamId).length = (p.streamDirectory g.streamId).length := by
    rw [length_streamDirectory, length_streamDirectory]
  have hstream := p.streamDirectory_injective (List.append_inj hleaf hlen').1
  exact ⟨LogFileId.ext' hstream hnumber, (List.append_right_inj _).mp hext⟩

variable {p}

@[simp] theorem logFilePath_inj {f g : LogFileId} : p.logFilePath f = p.logFilePath g ↔ f = g :=
  ⟨fun h => (p.logOrIndexFilePath_inj h).1, fun h => h ▸ rfl⟩

@[simp] theorem indexFilePath_inj {f g : LogFileId} : p.indexFilePath f = p.indexFilePath g ↔ f = g :=
  ⟨fun h => (p.logOrIndexFilePath_inj h).1, fun h => h ▸ rfl⟩

@[simp] theorem logFilePath_ne_indexFilePath (f g : LogFileId) :
    p.logFilePath f ≠ p.indexFilePath g :=
  fun h => absurd (p.logOrIndexFilePath_inj h).2 (by decide)

@[simp] theorem indexFilePath_ne_logFilePath (f g : LogFileId) :
    p.indexFilePath f ≠ p.logFilePath g := (logFilePath_ne_indexFilePath g f).symm

theorem ne_of_length {x y : Path} (h : x.length ≠ y.length) : x ≠ y := fun he => h (he ▸ rfl)

@[simp] theorem logFilePath_ne_checkpointFilePath (f : LogFileId) (s : StreamId) :
    p.logFilePath f ≠ p.checkpointFilePath s :=
  ne_of_length (by rw [logFilePath, length_logOrIndexFilePath, length_checkpointFilePath]; omega)

@[simp] theorem indexFilePath_ne_checkpointFilePath (f : LogFileId) (s : StreamId) :
    p.indexFilePath f ≠ p.checkpointFilePath s :=
  ne_of_length (by rw [indexFilePath, length_logOrIndexFilePath, length_checkpointFilePath]; omega)

@[simp] theorem logFilePath_ne_pendingFilePath (f : LogFileId) (s : StreamId) :
    p.logFilePath f ≠ p.pendingFilePath s :=
  ne_of_length (by rw [logFilePath, length_logOrIndexFilePath, length_pendingFilePath]; omega)

@[simp] theorem indexFilePath_ne_pendingFilePath (f : LogFileId) (s : StreamId) :
    p.indexFilePath f ≠ p.pendingFilePath s :=
  ne_of_length (by rw [indexFilePath, length_logOrIndexFilePath, length_pendingFilePath]; omega)

@[simp] theorem checkpointFilePath_ne_pendingFilePath (s : StreamId) :
    p.checkpointFilePath s ≠ p.pendingFilePath s := by
  rw [pendingFilePath_eq, checkpointFilePath]
  intro h
  have h := (List.append_right_inj _).mp h
  exact absurd h (by decide)

/-! ### Directories of the search -/

/-- The directory `depth` levels below the stream's, for the leading digits `n`. -/
def dirPath (p : StorageProvider) (s : StreamId) : Nat → Nat → Path
  | 0, _ => p.streamDirectory s
  | depth + 1, n => dirPath p s depth (n / 1000) ++ [digits 3 (n % 1000)]

theorem dirPath_succ (s : StreamId) (depth n : Nat) (name : Name) (hlen : name.length = 3)
    (hdigits : ∀ b ∈ name, isDigit b = true) :
    dirPath p s (depth + 1) (n * 1000 + numberOf name) = dirPath p s depth n ++ [name] := by
  have hlt := numberOf_lt name hdigits
  rw [hlen] at hlt
  have hdiv : (n * 1000 + numberOf name) / 1000 = n := by omega
  have hmod : (n * 1000 + numberOf name) % 1000 = numberOf name := by omega
  have hname := digits_numberOf name hdigits
  rw [hlen] at hname
  rw [dirPath, hdiv, hmod, hname]

theorem length_dirPath (s : StreamId) : ∀ depth n,
    (dirPath p s depth n).length = p.rootDirectory.length + 2 + depth
  | 0, n => length_streamDirectory p s
  | depth + 1, n => by
    rw [dirPath, List.length_append, length_dirPath s depth, List.length_singleton]
    omega

/-- The range directories of a number. -/
theorem rangeNames_digits {n : Nat} (hlt : n < 10 ^ 15) : rangeNames (digits 15 n) =
    [digits 3 (n / 1000 / 1000 / 1000 / 1000 % 1000), digits 3 (n / 1000 / 1000 / 1000 % 1000),
      digits 3 (n / 1000 / 1000 % 1000), digits 3 (n / 1000 % 1000)] := by
  have h12 : digits 15 n = digits 12 (n / 1000) ++ digits 3 (n % 1000) := digits_add 3 12 n
  have h9 : digits 12 (n / 1000) = digits 9 (n / 1000 / 1000) ++ digits 3 (n / 1000 % 1000) :=
    digits_add 3 9 _
  have h6 : digits 9 (n / 1000 / 1000) =
      digits 6 (n / 1000 / 1000 / 1000) ++ digits 3 (n / 1000 / 1000 % 1000) := digits_add 3 6 _
  have h3 : digits 6 (n / 1000 / 1000 / 1000) =
      digits 3 (n / 1000 / 1000 / 1000 / 1000) ++ digits 3 (n / 1000 / 1000 / 1000 % 1000) :=
    digits_add 3 3 _
  have hsmall : n / 1000 / 1000 / 1000 / 1000 % 1000 = n / 1000 / 1000 / 1000 / 1000 := by omega
  rw [h12, h9, h6, h3, hsmall]
  rfl

/-- A file stands in the directory of its leading digits. -/
theorem leafDirectory_eq (f : LogFileId) :
    p.leafDirectory f = dirPath p f.streamId 4 (f.fileNumber.get / 1000) := by
  rw [leafDirectory, rangeNames_digits (fileNumber_lt _)]
  simp only [dirPath, List.append_assoc, List.cons_append, List.nil_append]

end StorageProvider

end TransactionLog
