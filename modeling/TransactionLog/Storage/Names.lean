import TransactionLog.Lib.Numeral
import TransactionLog.Storage.Discovery

/-!
# What paths tell

The path of a log or an index tells its stream, its number and which of the two it is;
the search for the maximum log reads the number off the names again; and the order of
the paths below a stream's directory is that of the numbers.
-/

namespace TransactionLog

open Lib

namespace StorageProvider

variable {p : StorageProvider} {s : StreamId}

inductive FileKind where
  | log
  | index
  deriving DecidableEq, Repr

def FileKind.extension : FileKind → Name
  | log => ascii "log"
  | index => ascii "idx"

/-- The path of a file below its stream's directory. -/
def relativePath (fileNumber : LogFileNumber) (kind : FileKind) : Path :=
  rangeNames (digits 15 fileNumber.get) ++
    [digits 15 fileNumber.get ++ (ascii "." ++ kind.extension)]

theorem logOrIndexFilePath_eq (p : StorageProvider) (f : LogFileId) (kind : FileKind) :
    p.logOrIndexFilePath f kind.extension =
      p.streamDirectory f.streamId ++ relativePath f.fileNumber kind := by
  rw [logOrIndexFilePath, leafDirectory, relativePath, List.append_assoc]

/-- The first name is a range, of three digits. -/
theorem relativePath_eq_cons (n : LogFileNumber) (kind : FileKind) :
    ∃ first rest, relativePath n kind = first :: rest ∧ first.length = 3 := by
  rw [relativePath, rangeNames_digits (fileNumber_lt n)]
  exact ⟨_, _, rfl, length_digits 3 _⟩

/-! ### Other files -/

/-- A path that is not a log's or an index's: a checkpoint, the clustering configuration,
or where one of them is staged. -/
inductive IsMetadataPath (p : StorageProvider) : Path → Prop
  | checkpoint (s : StreamId) : IsMetadataPath p (p.checkpointFilePath s)
  | pendingCheckpoint (s : StreamId) : IsMetadataPath p (p.pendingFilePath s)
  | clustering : IsMetadataPath p p.clusteringConfigurationFilePath
  | pendingClustering :
    IsMetadataPath p (withAddedExtension p.clusteringConfigurationFilePath (ascii "pending"))

/-- It stands in a stream's directory, under a name that is no range, or in the root. -/
theorem IsMetadataPath.eq {q : Path} (h : IsMetadataPath p q) :
    (∃ s name, q = p.streamDirectory s ++ [name] ∧ name.length ≠ 3) ∨
      ∃ name, q = p.rootDirectory ++ [name] ∧ name ≠ ascii "streams" := by
  cases h with
  | checkpoint s => exact .inl ⟨s, _, rfl, by decide⟩
  | pendingCheckpoint s => exact .inl ⟨s, _, pendingFilePath_eq p s, by decide⟩
  | clustering => exact .inr ⟨_, rfl, by decide⟩
  | pendingClustering =>
    refine .inr ⟨ascii "clustering.json.pending", ?_, by decide⟩
    rw [withAddedExtension, clusteringConfigurationFilePath, List.dropLast_concat,
      List.getLast?_concat]
    rfl

theorem not_contained {q : Path} (h : IsMetadataPath p q) (f : LogFileId) (kind : FileKind) :
    ¬ p.logOrIndexFilePath f kind.extension <+: q ∧
      ¬ q <+: p.logOrIndexFilePath f kind.extension := by
  have hlen := p.length_logOrIndexFilePath f kind.extension
  rw [logOrIndexFilePath_eq] at hlen ⊢
  rcases h.eq with ⟨s, name, rfl, hname⟩ | ⟨name, rfl, hname⟩
  · constructor
    · intro hq
      have hle := hq.length_le
      rw [hlen, List.length_append, length_streamDirectory, List.length_singleton] at hle
      omega
    · rintro ⟨rest, hrest⟩
      obtain ⟨first, rest', hfirst, hlen3⟩ := relativePath_eq_cons f.fileNumber kind
      rw [List.append_assoc, hfirst] at hrest
      have hsame := (List.append_inj hrest (by
        rw [length_streamDirectory, length_streamDirectory])).2
      rw [(List.cons.inj hsame).1] at hname
      exact hname hlen3
  · constructor
    · intro hq
      have hle := hq.length_le
      rw [hlen, List.length_append, List.length_singleton] at hle
      omega
    · rintro ⟨rest, hrest⟩
      rw [streamDirectory, List.append_assoc, List.append_assoc] at hrest
      exact hname (List.cons.inj (List.append_cancel_left hrest)).1

/-! ### Reading a path back -/

/-- The file whose path has these names below the directory of a stream, read as the
search reads them. -/
def readBack (p : StorageProvider) (s : StreamId) (names : List Name) (name : Name) :
    Option LogFileId :=
  match names.foldlM rangeDirectory (⟨p.streamDirectory s, 0, 0⟩ : PendingDirectory) with
  | none => none
  | some directory => if directory.depth = 4 then p.candidate s directory.path name else none

theorem path_of_rangeDirectory {a b : PendingDirectory} {name : Name}
    (h : rangeDirectory a name = some b) : b.path = a.path ++ [name] ∧ b.depth = a.depth + 1 := by
  rw [rangeDirectory] at h
  split at h
  · cases h
  · dsimp only at h
    split at h
    · cases h
    · obtain rfl := Option.some.inj h
      exact ⟨rfl, rfl⟩

theorem path_of_foldlM (names : List Name) : ∀ {a b : PendingDirectory},
    names.foldlM rangeDirectory a = some b → b.path = a.path ++ names := by
  induction names with
  | nil =>
    intro a b h
    obtain rfl := Option.some.inj h
    exact (List.append_nil _).symm
  | cons name names ih =>
    intro a b h
    rw [List.foldlM_cons] at h
    obtain ⟨child, hchild, h⟩ := Option.bind_eq_some_iff.mp h
    rw [ih h, (path_of_rangeDirectory hchild).1, List.append_assoc]
    rfl

/-- The four ranges of a file's path lead to its directory. -/
theorem foldlM_rangeNames (p : StorageProvider) (f : LogFileId) :
    (rangeNames (digits 15 f.fileNumber.get)).foldlM rangeDirectory
        (⟨p.streamDirectory f.streamId, 0, 0⟩ : PendingDirectory) =
      some ⟨p.leafDirectory f, 4, f.fileNumber.get / 1000⟩ := by
  have hmax := f.fileNumber.le
  have hbound : LogFileNumber.max.get = 184467440737095 := rfl
  generalize hn : f.fileNumber.get = n at hmax
  have hlt : n < 10 ^ 15 := Nat.lt_of_le_of_lt hmax (by decide)
  have hstart : n / 1000 / 1000 / 1000 / 1000 / 1000 = 0 := by omega
  have h1 := rangeDirectory_digits3 (p.streamDirectory f.streamId) 0
    (n / 1000 / 1000 / 1000 / 1000) (by rw [hbound]; omega)
  have h2 := fun path => rangeDirectory_digits3 path 1 (n / 1000 / 1000 / 1000)
    (by rw [hbound]; omega)
  have h3 := fun path => rangeDirectory_digits3 path 2 (n / 1000 / 1000) (by rw [hbound]; omega)
  have h4 := fun path => rangeDirectory_digits3 path 3 (n / 1000) (by rw [hbound]; omega)
  rw [hstart] at h1
  rw [leafDirectory, hn, rangeNames_digits hlt]
  simp only [List.foldlM_cons, List.foldlM_nil, h1, h2, h3, h4, Option.bind_eq_bind,
    Option.bind_some, List.append_assoc]
  rfl

/-- The search and the construction of paths agree: the names of a log's path are read as
its file, and no other names are. -/
theorem readBack_eq_some {names : List Name} {name : Name} {f : LogFileId} :
    readBack p s names name = some f ↔
      f.streamId = s ∧ p.logFilePath f = p.streamDirectory s ++ (names ++ [name]) := by
  rw [← List.append_assoc]
  constructor
  · intro h
    rw [readBack] at h
    split at h
    · cases h
    next directory hdirectory =>
      split at h
      · rw [← path_of_foldlM names hdirectory]
        exact candidate_eq_some.mp h
      · cases h
  · rintro ⟨rfl, hpath⟩
    have hleaf := congrArg List.dropLast hpath
    rw [dropLast_logFilePath, List.dropLast_concat] at hleaf
    have hnames : rangeNames (digits 15 f.fileNumber.get) = names :=
      List.append_cancel_left hleaf
    rw [readBack, ← hnames, foldlM_rangeNames]
    dsimp only
    rw [if_pos rfl, candidate_eq_some]
    refine ⟨rfl, hpath.trans ?_⟩
    rw [leafDirectory, hnames]

/-! ### The order of paths -/

/-- The order of file names, byte by byte. -/
def nameLt : Name → Name → Prop := List.Lex byteLt

/-- The order of paths, name by name. -/
def pathLt : Path → Path → Prop := List.Lex nameLt

theorem isNumeral_rangeNames : IsNumeral nameLt (1000 ^ 4)
    (positional 1000 (fun i => [digits 3 i]) 4) :=
  (isNumeral_digits 3).singleton.positional (by decide) 4

theorem rangeNames_eq_positional {n : Nat} (hlt : n < 10 ^ 15) :
    rangeNames (digits 15 n) = positional 1000 (fun i => [digits 3 i]) 4 (n / 1000) := by
  rw [rangeNames_digits hlt]
  rfl

/-- The order of base names of one kind, or of different numbers. -/
theorem name_lex_iff {m n : Nat} (hm : m < 10 ^ 15) (hn : n < 10 ^ 15) {x y : Name}
    (h : m ≠ n ∨ x = y) : nameLt (digits 15 m ++ x) (digits 15 n ++ y) ↔ m < n := by
  have hdigits := isNumeral_digits 15
  rw [nameLt, append_lex_append_iff (hdigits.length m n), hdigits.lex_iff m n hm hn]
  refine or_iff_left ?_
  rintro ⟨heq, hlex⟩
  rcases h with hne | rfl
  · exact hne (hdigits.inj m n hm hn heq)
  · exact not_lex_self _ hlex

/-- The names of a path with a slash between them. -/
def pathText (path : Path) : Name := (ascii "/").intercalate path

theorem isNumeral_rangeText : IsNumeral byteLt (1000 ^ 4)
    (positional 1000 (fun i => digits 3 i ++ ascii "/") 4) :=
  ((isNumeral_digits 3).append_const not_lex_self _).positional (by decide) 4

theorem pathText_relativePath (n : LogFileNumber) (kind : FileKind) :
    pathText (relativePath n kind) =
      positional 1000 (fun i => digits 3 i ++ ascii "/") 4 (n.get / 1000) ++
        (digits 15 n.get ++ (ascii "." ++ kind.extension)) := by
  rw [pathText, relativePath, rangeNames_digits (fileNumber_lt n)]
  simp only [List.cons_append, List.nil_append, List.intercalate_cons_cons,
    List.intercalate_singleton, positional, List.append_assoc]

/-- The order of paths is that of the numbers, name by name and as text. -/
theorem relativePath_lt_iff {m n : LogFileNumber} {x y : FileKind} (h : m ≠ n ∨ x = y) :
    (pathLt (relativePath m x) (relativePath n y) ↔ m.get < n.get) ∧
      (nameLt (pathText (relativePath m x)) (pathText (relativePath n y)) ↔ m.get < n.get) := by
  have hm := fileNumber_lt m
  have hn := fileNumber_lt n
  have hne : m.get ≠ n.get ∨ ascii "." ++ x.extension = ascii "." ++ y.extension := by
    rcases h with h | rfl
    · exact .inl fun heq => h (LogFileNumber.ext' heq)
    · exact .inr rfl
  have hname := name_lex_iff hm hn hne
  have hm' : m.get / 1000 < 1000 ^ 4 := by omega
  have hn' : n.get / 1000 < 1000 ^ 4 := by omega
  constructor
  · rw [pathLt, relativePath, relativePath, rangeNames_eq_positional hm,
      rangeNames_eq_positional hn]
    refine isNumeral_rangeNames.quotient_lex_iff hm' hn' ?_
    rw [List.cons_lex_cons_iff, hname]
    refine or_iff_left ?_
    rintro ⟨-, h⟩
    cases h
  · rw [nameLt, pathText_relativePath, pathText_relativePath]
    exact isNumeral_rangeText.quotient_lex_iff hm' hn' hname

/-- **Paths identify files, uniquely and reversibly.**  The path of a log or an index tells
its stream, number and kind; none contains or is contained in that of a checkpoint, of the
clustering configuration or of what is staged for them, and each is below its stream's own
directory.  Its names, read as the search reads them, are those of its file and of no
other, and are ordered as the numbers. -/
theorem paths_identify_files (p : StorageProvider) :
    (∀ (f g : LogFileId) (x y : FileKind),
      p.logOrIndexFilePath f x.extension = p.logOrIndexFilePath g y.extension →
        f.streamId = g.streamId ∧ f.fileNumber = g.fileNumber ∧ x = y) ∧
    (∀ (f : LogFileId) (x : FileKind) (q : Path), IsMetadataPath p q →
      p.logOrIndexFilePath f x.extension ≠ q ∧
        ¬ p.logOrIndexFilePath f x.extension <+: q ∧
        ¬ q <+: p.logOrIndexFilePath f x.extension) ∧
    (∀ (f : LogFileId) (x : FileKind),
      p.logOrIndexFilePath f x.extension =
          p.streamDirectory f.streamId ++ relativePath f.fileNumber x ∧
        relativePath f.fileNumber x ≠ []) ∧
    (∀ (s : StreamId) (names : List Name) (name : Name) (f : LogFileId),
      readBack p s names name = some f ↔
        f.streamId = s ∧ relativePath f.fileNumber .log = names ++ [name]) ∧
    (∀ (m n : LogFileNumber) (x y : FileKind), m ≠ n ∨ x = y →
      (pathLt (relativePath m x) (relativePath n y) ↔ m.get < n.get) ∧
      (nameLt (pathText (relativePath m x)) (pathText (relativePath n y)) ↔ m.get < n.get)) := by
  refine ⟨fun f g x y h => ?_, fun f x q hq => ?_, fun f x => ?_, fun s names name f => ?_,
    fun m n x y h => relativePath_lt_iff h⟩
  · obtain ⟨rfl, hextension⟩ := p.logOrIndexFilePath_inj h
    refine ⟨rfl, rfl, ?_⟩
    cases x <;> cases y <;> first | rfl | exact absurd hextension (by decide)
  · obtain ⟨hcontains, hcontained⟩ := not_contained hq f x
    refine ⟨?_, hcontains, hcontained⟩
    rintro rfl
    exact hcontains List.prefix_rfl
  · exact ⟨logOrIndexFilePath_eq p f x, by simp [relativePath]⟩
  · rw [readBack_eq_some]
    refine and_congr_right ?_
    rintro rfl
    rw [show p.logFilePath f = p.streamDirectory f.streamId ++ relativePath f.fileNumber .log from
      logOrIndexFilePath_eq p f .log]
    exact ⟨List.append_cancel_left, congrArg _⟩

end StorageProvider

end TransactionLog
