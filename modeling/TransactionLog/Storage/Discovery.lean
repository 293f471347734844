import TransactionLog.Storage.Disk

/-!
# The search for the maximum log

The search visits the directories of a stream from the highest range down and ends
at the first leaf with a log.  `maximumLogFile_triple` says that it finds the
highest log there is.
-/

namespace TransactionLog

open Lib

namespace StorageProvider

variable {p : StorageProvider} {s : StreamId} {t : Tree} {d : Disk} {c : Mode}

/-- The highest log, if there is any. -/
def IsMaximum (d : Disk) (s : StreamId) : Option LogFileId → Prop
  | none => ∀ f : LogFileId, f.streamId = s → d (.log f) = none
  | some m => m.streamId = s ∧ d (.log m) ≠ none ∧
      ∀ f : LogFileId, f.streamId = s → d (.log f) ≠ none → f.fileNumber.get ≤ m.fileNumber.get

/-! ### Names -/

theorem stripSuffix_append (suffix name : Name) : stripSuffix suffix (name ++ suffix) = some name := by
  rw [stripSuffix, if_pos (List.isSuffixOf_iff_suffix.mpr (List.suffix_append _ _)),
    List.length_append, Nat.add_sub_cancel, List.take_left]

theorem all_isDigit_digits (w n : Nat) : (digits w n).all isDigit = true := by
  rw [List.all_eq_true]
  exact isDigit_of_mem_digits w n

/-- A name is a candidate exactly if it is the path of a log. -/
theorem candidate_eq_some {path : Path} {name : Name} {f : LogFileId} :
    p.candidate s path name = some f ↔ f.streamId = s ∧ p.logFilePath f = path ++ [name] := by
  constructor
  · intro h
    rw [candidate] at h
    split at h
    · cases h
    · split at h
      · cases h
      · split at h
        · cases h
        · split at h
          · cases h
          · rename_i hpath
            obtain rfl := Option.some.inj h
            exact ⟨rfl, not_not.mp hpath⟩
  · rintro ⟨rfl, hpath⟩
    have hpath' : p.leafDirectory f ++ [digits 15 f.fileNumber.get ++ ascii ".log"] =
        path ++ [name] := hpath
    have hname : name = digits 15 f.fileNumber.get ++ ascii ".log" := by
      have hlast := congrArg List.getLast? hpath'
      rw [List.getLast?_concat, List.getLast?_concat] at hlast
      exact (Option.some.inj hlast).symm
    have hnumber : numberOf (digits 15 f.fileNumber.get) = f.fileNumber.get :=
      numberOf_digits_of_lt (fileNumber_lt _)
    rw [candidate, hname, stripSuffix_append]
    simp only [length_digits, all_isDigit_digits, ne_eq, not_true_eq_false, or_self, if_false,
      hnumber, LogFileNumber.new_get]
    rw [← hname, if_neg (not_not.mpr hpath)]

/-! ### Directories -/

theorem dirPath_injective : ∀ {depth a b : Nat}, a < 1000 ^ depth → b < 1000 ^ depth →
    dirPath p s depth a = dirPath p s depth b → a = b := by
  intro depth
  induction depth with
  | zero =>
    intro a b ha hb _
    rw [Nat.pow_zero] at ha hb
    omega
  | succ depth ih =>
    intro a b ha hb h
    rw [Nat.pow_succ] at ha hb
    obtain ⟨hdir, hname⟩ := List.append_inj' h rfl
    have hdiv := ih (a := a / 1000) (b := b / 1000) (by omega) (by omega) hdir
    have hmod := digits_injective (w := 3) (n := a % 1000) (m := b % 1000) (by omega) (by omega)
      (List.cons.inj hname).1
    omega

/-- A directory on the stack is one of the search. -/
structure Placed (p : StorageProvider) (s : StreamId) (t : Tree) (a : PendingDirectory) : Prop where
  depth_le : a.depth ≤ 4
  prefix_lt : a.rangePrefix < 1000 ^ a.depth
  path : a.path = dirPath p s a.depth a.rangePrefix
  isDir : t.isDir a.path = true

/-- The directory covers the number of the file. -/
def Under (f : LogFileId) (a : PendingDirectory) : Prop :=
  f.fileNumber.get / 1000 ^ (5 - a.depth) = a.rangePrefix

/-- The files of `a` are above those of `b`. -/
def Above (a b : PendingDirectory) : Prop :=
  ∀ f g, Under f a → Under g b → g.fileNumber.get < f.fileNumber.get

/-- A name in a directory of the search that can hold logs. -/
theorem rangeDirectory_eq_some {a b : PendingDirectory} {name : Name} (ha : Placed p s t a)
    (h : rangeDirectory a name = some b) :
    b.path = a.path ++ [name] ∧ b.depth = a.depth + 1 ∧ b.path = dirPath p s b.depth b.rangePrefix ∧
      b.rangePrefix < 1000 ^ b.depth ∧ b.rangePrefix / 1000 = a.rangePrefix ∧
      name = digits 3 (b.rangePrefix % 1000) := by
  rw [rangeDirectory] at h
  split at h
  · cases h
  · rename_i hname
    simp only [not_or, not_not, List.all_eq_true] at hname
    simp only at h
    split at h
    · cases h
    · obtain rfl := Option.some.inj h
      have hlt := numberOf_lt name hname.2
      have hrange := ha.prefix_lt
      rw [hname.1] at hlt
      refine ⟨rfl, rfl, ?_, ?_, ?_, ?_⟩
      · simp only
        rw [dirPath_succ s a.depth _ name hname.1 hname.2, ← ha.path]
      · simp only
        rw [Nat.pow_succ]
        omega
      · simp only
        omega
      · have hdigits := digits_numberOf name hname.2
        rw [hname.1] at hdigits
        simp only
        rw [show (a.rangePrefix * 1000 + numberOf name) % 1000 = numberOf name by omega, hdigits]

/-- The range for the leading digits `m` of a file number, from the range above it. -/
theorem rangeDirectory_digits3 (path : Path) (depth m : Nat)
    (hle : m * 1000 ^ (4 - depth) ≤ LogFileNumber.max.get) :
    rangeDirectory ⟨path, depth, m / 1000⟩ (digits 3 (m % 1000)) =
      some ⟨path ++ [digits 3 (m % 1000)], depth + 1, m⟩ := by
  have hnumber : numberOf (digits 3 (m % 1000)) = m % 1000 := numberOf_digits_of_lt (by omega)
  have hrange : m / 1000 * 1000 + m % 1000 = m := Nat.div_add_mod' m 1000
  rw [rangeDirectory]
  simp only [length_digits, all_isDigit_digits, ne_eq, not_true_eq_false, or_self, if_false,
    hnumber, hrange, if_neg (Nat.not_lt.mpr hle)]

/-- The name of the range that covers a file. -/
theorem rangeDirectory_digits {a : PendingDirectory} {f : LogFileId} (hdepth : a.depth < 4)
    (h : Under f a) :
    ∃ b, rangeDirectory a (digits 3 (f.fileNumber.get / 1000 ^ (4 - a.depth) % 1000)) = some b ∧
      Under f b := by
  obtain ⟨path, depth, rangePrefix⟩ := a
  change depth < 4 at hdepth
  have hpow : 1000 ^ (5 - depth) = 1000 ^ (4 - depth) * 1000 := by
    rw [← Nat.pow_succ]
    congr 1
    omega
  rw [Under] at h
  rw [hpow, ← Nat.div_div_eq_div_mul] at h
  subst h
  refine ⟨_, rangeDirectory_digits3 path depth (f.fileNumber.get / 1000 ^ (4 - depth))
    (Nat.le_trans (Nat.div_mul_le_self _ _) f.fileNumber.le), ?_⟩
  rw [Under]
  congr 2
  simp only
  omega

/-! ### One directory -/

/-- The ranges among some names. -/
def rangesOf (t : Tree) (a : PendingDirectory) (names : List Name) : List PendingDirectory :=
  names.filterMap fun name => match rangeDirectory a name with
    | none => none
    | some b => if t.isDir b.path then some b else none

theorem nextEntry_triple : Triple c (fun t' => t' = t) Fs.nextEntry (fun _ t' => t' = t)
    (Faulted c fun t' => t' = t) := .effect fun _ h => h

theorem fileType_triple {q : Path} {node : Node} (h : t.node? q = some node) :
    Triple c (fun t' => t' = t) (Fs.fileType q) (fun r t' => r = node.fileType ∧ t' = t)
      (Faulted c fun t' => t' = t) := by
  refine .callAt ?_ fun e he => he.faulted
  rw [h]
  exact ⟨rfl, rfl⟩

theorem exists_node {q : Path} (h : t.get q ≠ none) : ∃ node, t.node? q = some node := by
  obtain ⟨e, he⟩ := Option.ne_none_iff_exists'.mp h
  exact ⟨e.node, by rw [Tree.node?, he]; rfl⟩

theorem isDir_iff_fileType {q : Path} {node : Node} (hq : q ≠ []) (h : t.node? q = some node) :
    t.isDir q = true ↔ node.fileType = .dir := by
  rw [Tree.isDir_iff]
  rw [Tree.node?, Option.map_eq_some_iff] at h
  obtain ⟨⟨node', linked⟩, he, rfl⟩ := h
  rw [he]
  cases node' <;> simp [hq, isDirEntry, Node.fileType]

theorem rangeChildren_triple {a : PendingDirectory} (ha : Placed p s t a) : ∀ names : List Name,
    (∀ name ∈ names, t.get (a.path ++ [name]) ≠ none) →
    Triple c (fun t' => t' = t) (rangeChildren a names)
      (fun r t' => r = rangesOf t a names ∧ t' = t) (Faulted c fun t' => t' = t) := by
  intro names
  induction names with
  | nil =>
    intro _
    exact .bind (.mapErr_faulted nextEntry_triple) fun _ => .pure fun _ h => ⟨rfl, h⟩
  | cons name names ih =>
    intro h
    have ih := ih fun n hn => h n (List.mem_cons_of_mem _ hn)
    refine .bind (.mapErr_faulted nextEntry_triple) fun _ => ?_
    cases hrange : rangeDirectory a name with
    | none =>
      have : rangesOf t a (name :: names) = rangesOf t a names := by
        rw [rangesOf, List.filterMap_cons_none (by rw [hrange])]
        rfl
      rw [this]
      exact ih
    | some b =>
      obtain ⟨hpath, -⟩ := rangeDirectory_eq_some ha hrange
      obtain ⟨node, hnode⟩ := exists_node (h name List.mem_cons_self)
      rw [← hpath] at hnode
      refine .bind (.mapErr_faulted (fileType_triple hnode)) fun kind => .assume fun hkind => ?_
      refine .bind ih fun children => .assume fun hchildren => .pure fun t' ht' => ⟨?_, ht'⟩
      have hdir := isDir_iff_fileType (by rw [hpath]; simp) hnode
      rw [hchildren, hkind]
      by_cases hd : t.isDir b.path = true
      · rw [if_pos (hdir.mp hd), rangesOf, rangesOf, List.filterMap_cons_some (b := b)]
        simp only [hrange, hd, if_true]
      · rw [if_neg fun hk => hd (hdir.mpr hk), rangesOf, rangesOf, List.filterMap_cons_none]
        simp only [hrange, hd]
        rfl

/-- The child ranges of a directory. -/
theorem rangeDirectories_triple {a : PendingDirectory} (ha : Placed p s t a) :
    Triple c (fun t' => t' = t) (rangeDirectories a)
      (fun r t' => r = (rangesOf t a (t.children a.path)).insertionSort
        (fun a b => b.rangePrefix ≤ a.rangePrefix) ∧ t' = t)
      (Faulted c fun t' => t' = t) := by
  refine .bind (R := fun r t' => (r = .ok (t.children a.path) ∨ ¬ c.calm ∧
    ∃ e, r = .error e ∧ e ≠ .notFound) ∧ t' = t) (.attempt (.callAt ?_ ?_)) fun r =>
    .assume fun hr => ?_
  · rw [if_pos ha.isDir]
    exact ⟨.inl rfl, rfl⟩
  · rintro (e | _ | _) ⟨hc, he | ⟨k, he⟩, h⟩ <;> cases he
    · exact ⟨.inr ⟨hc, _, rfl, k.kind_ne_notFound⟩, rfl⟩
    · exact ⟨hc, by simp, rfl⟩
  · rcases hr with rfl | ⟨hc, e, rfl, he⟩
    · refine .bind (rangeChildren_triple ha _ fun name hname => Tree.mem_children.mp hname)
        fun children => .assume fun hchildren => .pure fun t' ht' => ⟨by rw [hchildren], ht'⟩
    · simp only [he, and_false, if_false]
      exact .throw fun t' ht' => ⟨hc, by simp, ht'⟩

/-- `m` is the highest of the files in `S`. -/
def Highest (S : LogFileId → Prop) : Option LogFileId → Prop
  | none => ∀ f, ¬ S f
  | some m => S m ∧ ∀ f, S f → f.fileNumber.get ≤ m.fileNumber.get

/-- The logs among some names of a directory. -/
def LogAmong (p : StorageProvider) (s : StreamId) (d : Disk) (path : Path) (names : List Name)
    (f : LogFileId) : Prop :=
  f.streamId = s ∧ d (.log f) ≠ none ∧ ∃ name ∈ names, p.logFilePath f = path ++ [name]

/-- A log is a regular file at its path. -/
theorem diskOf_log_ne_none {f : LogFileId} :
    diskOf p t (.log f) ≠ none ↔ (t.file? (p.logFilePath f)).isSome := by
  rw [diskOf, Place.path, Tree.file?, Tree.node?]
  rcases t.get (p.logFilePath f) with _ | ⟨_ | _ | _, linked⟩ <;> simp [storedEntry]

theorem diskOf_log_iff_fileType {f : LogFileId} {node : Node}
    (hnode : t.node? (p.logFilePath f) = some node) :
    diskOf p t (.log f) ≠ none ↔ node.fileType = .file := by
  rw [diskOf_log_ne_none, Tree.file?, hnode]
  cases node <;> simp [Node.fileType]

theorem get_log_ne_none {f : LogFileId} (h : diskOf p t (.log f) ≠ none) :
    t.get (p.logFilePath f) ≠ none := by
  intro hnone
  rw [diskOf, Place.path, hnone] at h
  exact h rfl

theorem Highest.insert {S : LogFileId → Prop} {m : Option LogFileId} (h : Highest S m)
    (id : LogFileId) :
    Highest (fun f => S f ∨ f = id)
      (if (m.all fun previous => previous.fileNumber.get < id.fileNumber.get) = true then some id
      else m) := by
  cases m with
  | none =>
    refine ⟨.inr rfl, ?_⟩
    rintro f (hf | rfl)
    · exact absurd hf (h f)
    · exact Nat.le_refl _
  | some m =>
    simp only [Option.all_some, decide_eq_true_eq]
    split
    · rename_i hlt
      refine ⟨.inr rfl, ?_⟩
      rintro f (hf | rfl)
      · exact Nat.le_of_lt (Nat.lt_of_le_of_lt (h.2 f hf) hlt)
      · exact Nat.le_refl _
    · rename_i hlt
      refine ⟨.inl h.1, ?_⟩
      rintro f (hf | rfl)
      · exact h.2 f hf
      · exact Nat.le_of_not_lt hlt

theorem Highest.congr {S T : LogFileId → Prop} {m : Option LogFileId} (h : Highest S m)
    (heq : ∀ f, S f ↔ T f) : Highest T m := by
  have : S = T := funext fun f => propext (heq f)
  rwa [← this]

theorem maximumLogAmong_triple {path : Path} : ∀ (names : List Name)
    {S : LogFileId → Prop} {m : Option LogFileId}, Highest S m →
    (∀ name ∈ names, t.get (path ++ [name]) ≠ none) →
    Triple c (fun t' => t' = t) (p.maximumLogAmong s path m names)
      (fun r t' => Highest (fun f => S f ∨ LogAmong p s (diskOf p t) path names f) r ∧ t' = t)
      (Faulted c fun t' => t' = t) := by
  intro names
  induction names with
  | nil =>
    intro S m hm _
    refine .bind (.mapErr_faulted nextEntry_triple) fun _ => .pure fun _ ht => ⟨?_, ht⟩
    refine hm.congr fun f => ⟨.inl, ?_⟩
    rintro (hf | ⟨-, -, name, hname, -⟩)
    · exact hf
    · cases hname
  | cons name names ih =>
    intro S m hm hnames
    have hrest := fun n hn => hnames n (List.mem_cons_of_mem name hn)
    refine .bind (.mapErr_faulted nextEntry_triple) fun _ => ?_
    cases hcand : p.candidate s path name with
    | none =>
      refine (ih hm hrest).post fun r t' hr => ⟨hr.1.congr fun f => or_congr_right ?_, hr.2⟩
      refine ⟨fun ⟨hs, hd, n, hn, hp⟩ => ⟨hs, hd, n, List.mem_cons_of_mem _ hn, hp⟩, ?_⟩
      rintro ⟨hs, hd, n, hn, hp⟩
      rcases List.mem_cons.mp hn with rfl | hn
      · rw [candidate_eq_some.mpr ⟨hs, hp⟩] at hcand
        cases hcand
      · exact ⟨hs, hd, n, hn, hp⟩
    | some id =>
      obtain ⟨hs, hpath⟩ := candidate_eq_some.mp hcand
      obtain ⟨node, hnode⟩ := exists_node (hnames name List.mem_cons_self)
      have hregular : diskOf p t (.log id) ≠ none ↔ node.fileType = .file :=
        diskOf_log_iff_fileType (by rw [hpath]; exact hnode)
      refine .bind (.mapErr_faulted (fileType_triple hnode)) fun kind => .assume fun hkind => ?_
      subst hkind
      by_cases hfile : node.fileType = .file
      · simp only [hfile, true_and]
        refine (ih (hm.insert id) hrest).post fun r t' hr => ⟨hr.1.congr fun f => ?_, hr.2⟩
        constructor
        · rintro ((hf | rfl) | ⟨hs, hd, n, hn, hp⟩)
          · exact .inl hf
          · exact .inr ⟨hs, hregular.mpr hfile, name, List.mem_cons_self, hpath⟩
          · exact .inr ⟨hs, hd, n, List.mem_cons_of_mem _ hn, hp⟩
        · rintro (hf | ⟨hs', hd, n, hn, hp⟩)
          · exact .inl (.inl hf)
          · rcases List.mem_cons.mp hn with rfl | hn
            · exact .inl (.inr (logFilePath_inj.mp (hp.trans hpath.symm)))
            · exact .inr ⟨hs', hd, n, hn, hp⟩
      · -- a directory or a link that is named like a log
        simp only [hfile, false_and, if_false]
        refine (ih hm hrest).post fun r t' hr => ⟨hr.1.congr fun f => or_congr_right ?_, hr.2⟩
        refine ⟨fun ⟨hs, hd, n, hn, hp⟩ => ⟨hs, hd, n, List.mem_cons_of_mem _ hn, hp⟩, ?_⟩
        rintro ⟨hs', hd, n, hn, hp⟩
        rcases List.mem_cons.mp hn with rfl | hn
        · rw [logFilePath_inj.mp (hp.trans hpath.symm)] at hd
          exact absurd (hregular.mp hd) hfile
        · exact ⟨hs', hd, n, hn, hp⟩

/-- The logs of a leaf directory. -/
theorem maximumLogInDirectory_triple {a : PendingDirectory} (ha : Placed p s t a)
    (hdepth : a.depth = 4) :
    Triple c (fun t' => t' = t) (p.maximumLogInDirectory s a.path)
      (fun r t' => Highest (fun f => f.streamId = s ∧ diskOf p t (.log f) ≠ none ∧ Under f a) r ∧
        t' = t)
      (Faulted c fun t' => t' = t) := by
  refine .bind (R := fun names t' => names = t.children a.path ∧ t' = t)
    (.mapErr_faulted (.callAt ?_ fun e he => he.faulted)) fun names => .assume fun hnames => ?_
  · rw [if_pos ha.isDir]
    exact ⟨rfl, rfl⟩
  subst hnames
  refine (maximumLogAmong_triple _ (S := fun _ => False) (m := none) (fun _ => id)
    fun name hname => Tree.mem_children.mp hname).post fun r t' hr => ⟨hr.1.congr fun f => ?_, hr.2⟩
  have hunder : f.streamId = s → (Under f a ↔ p.leafDirectory f = a.path) := by
    intro hs
    have hrange := ha.prefix_lt
    have hlt := fileNumber_lt f.fileNumber
    rw [hdepth] at hrange
    rw [Under, hdepth, leafDirectory_eq, ha.path, hdepth, hs]
    constructor
    · intro hu
      rw [← hu, show 1000 ^ (5 - 4) = 1000 from rfl]
    · intro hp
      exact dirPath_injective (by omega) hrange hp
  constructor
  · rintro (hf | ⟨hs, hd, name, -, hp⟩)
    · exact hf.elim
    · refine ⟨hs, hd, (hunder hs).mpr ?_⟩
      rw [← dropLast_logFilePath, hp, List.dropLast_concat]
  · rintro ⟨hs, hd, hu⟩
    obtain ⟨name, hname⟩ := Place.exists_name (p := p) (.log f)
    have hpath : p.logFilePath f = a.path ++ [name] := by
      rw [← (hunder hs).mp hu]
      exact hname
    refine .inr ⟨hs, hd, name, Tree.mem_children.mpr ?_, hpath⟩
    rw [← hpath]
    exact get_log_ne_none hd

/-! ### The search -/

theorem mem_rangesOf {a b : PendingDirectory} {names : List Name} : b ∈ rangesOf t a names ↔
    ∃ name ∈ names, rangeDirectory a name = some b ∧ t.isDir b.path = true := by
  rw [rangesOf, List.mem_filterMap]
  refine exists_congr fun name => and_congr_right fun _ => ?_
  cases hr : rangeDirectory a name with
  | none => simp
  | some b' =>
    simp only
    by_cases hd : t.isDir b'.path = true
    · rw [if_pos hd]
      constructor
      · rintro ⟨⟩
        exact ⟨rfl, hd⟩
      · rintro ⟨h, -⟩
        exact h
    · rw [if_neg hd]
      constructor
      · rintro ⟨⟩
      · rintro ⟨⟨⟩, h⟩
        exact absurd h hd

/-- The child ranges, the highest first. -/
def sortedRanges (t : Tree) (a : PendingDirectory) : List PendingDirectory :=
  (rangesOf t a (t.children a.path)).insertionSort fun a b => b.rangePrefix ≤ a.rangePrefix

theorem mem_sortedRanges {a b : PendingDirectory} (h : b ∈ sortedRanges t a) :
    ∃ name, rangeDirectory a name = some b ∧ t.isDir b.path = true := by
  rw [sortedRanges, List.mem_insertionSort] at h
  obtain ⟨name, -, hb⟩ := mem_rangesOf.mp h
  exact ⟨name, hb⟩

theorem length_sortedRanges_le (t : Tree) (a : PendingDirectory) :
    (sortedRanges t a).length ≤ t.names.length := by
  rw [sortedRanges, List.length_insertionSort]
  exact Nat.le_trans (List.length_filterMap_le _ _) (Tree.length_children_le _ _)

theorem pairwise_sortedRanges {a : PendingDirectory} (ha : Placed p s t a) :
    (sortedRanges t a).Pairwise fun x y => y.rangePrefix < x.rangePrefix := by
  have hdistinct : (rangesOf t a (t.children a.path)).Pairwise
      fun x y => x.rangePrefix ≠ y.rangePrefix := by
    refine List.Pairwise.filterMap _ (fun n n' hne b hb b' hb' heq => hne ?_)
      (Tree.nodup_children t a.path)
    have hname : ∀ {n : Name} {b : PendingDirectory}, (match rangeDirectory a n with
        | none => none
        | some b => if t.isDir b.path then some b else none) = some b →
        n = digits 3 (b.rangePrefix % 1000) := by
      intro n b hb
      cases hr : rangeDirectory a n with
      | none => rw [hr] at hb; cases hb
      | some b' =>
        rw [hr] at hb
        simp only at hb
        split at hb
        · cases hb
          exact (rangeDirectory_eq_some ha hr).2.2.2.2.2
        · cases hb
    rw [hname hb, hname hb', heq]
  have hsorted : (sortedRanges t a).Pairwise fun x y => y.rangePrefix ≤ x.rangePrefix := by
    have : Std.Total fun x y : PendingDirectory => y.rangePrefix ≤ x.rangePrefix :=
      ⟨fun x y => Nat.le_total _ _⟩
    have : IsTrans PendingDirectory fun x y => y.rangePrefix ≤ x.rangePrefix :=
      ⟨fun x y z h1 h2 => Nat.le_trans h2 h1⟩
    exact List.pairwise_insertionSort _ _
  have hperm := (List.perm_insertionSort (fun x y : PendingDirectory => y.rangePrefix ≤ x.rangePrefix)
    (rangesOf t a (t.children a.path))).symm
  refine (hsorted.and (hperm.pairwise hdistinct fun h => h.symm)).imp fun h => ?_
  exact Nat.lt_of_le_of_ne h.1 h.2.symm

/-- The directories still to be searched. -/
structure Search (p : StorageProvider) (s : StreamId) (t : Tree) (d : Disk)
    (stack : List PendingDirectory) : Prop where
  placed : ∀ a ∈ stack, Placed p s t a
  order : stack.Pairwise Above
  covers : ∀ f : LogFileId, f.streamId = s → d (.log f) ≠ none → ∃ a ∈ stack, Under f a

theorem under_child {a b : PendingDirectory} {f : LogFileId} (hdepth : a.depth < 4)
    (hb : b.depth = a.depth + 1) (hrange : b.rangePrefix / 1000 = a.rangePrefix) (h : Under f b) :
    Under f a := by
  have hpow : 1000 ^ (5 - a.depth) = 1000 ^ (5 - b.depth) * 1000 := by
    rw [← Nat.pow_succ]
    congr 1
    omega
  rw [Under, hpow, ← Nat.div_div_eq_div_mul, h, hrange]

theorem dirPath_succ_ne_nil (depth n : Nat) : dirPath p s (depth + 1) n ≠ [] := by
  rw [dirPath]
  simp

theorem isDir_dirPath_of_succ {depth n : Nat} (h : t.isDir (dirPath p s (depth + 1) n) = true) :
    t.isDir (dirPath p s depth (n / 1000)) = true := by
  have hentry := (Tree.isDir_iff.mp h).resolve_left (dirPath_succ_ne_nil depth n)
  refine Tree.isDir_of_get (n := digits 3 (n % 1000)) fun hnone => ?_
  rw [dirPath, hnone] at hentry
  cases hentry

/-- The directories above an existing log. -/
theorem isDir_above_log {f : LogFileId} (hs : f.streamId = s) (hf : diskOf p t (.log f) ≠ none) :
    ∀ n, n ≤ 4 →
    t.isDir (dirPath p s (4 - n) (f.fileNumber.get / 1000 ^ (n + 1))) = true := by
  intro n
  induction n with
  | zero =>
    intro _
    have hleaf : t.isDir (p.leafDirectory f) = true := Tree.isDir_of_get (get_log_ne_none hf)
    rw [leafDirectory_eq, hs] at hleaf
    rwa [Nat.zero_add, Nat.pow_one]
  | succ n ih =>
    intro hn
    have := ih (Nat.le_of_succ_le hn)
    rw [show 4 - n = 4 - (n + 1) + 1 by omega] at this
    have := isDir_dirPath_of_succ this
    rwa [Nat.div_div_eq_div_mul, ← Nat.pow_succ] at this

/-- A directory is replaced by its children. -/
theorem Search.expand {a : PendingDirectory} {stack : List PendingDirectory}
    (hsearch : Search p s t (diskOf p t) (a :: stack)) (hdepth : a.depth < 4) :
    Search p s t (diskOf p t) (sortedRanges t a ++ stack) := by
  have ha := hsearch.placed a List.mem_cons_self
  obtain ⟨habove, horder⟩ := List.pairwise_cons.mp hsearch.order
  refine ⟨?_, List.pairwise_append.mpr ⟨?_, horder, ?_⟩, ?_⟩
  · intro b hb
    rcases List.mem_append.mp hb with hb | hb
    · obtain ⟨name, hr, hdir⟩ := mem_sortedRanges hb
      obtain ⟨-, hd, hpath, hlt, -⟩ := rangeDirectory_eq_some ha hr
      exact ⟨by omega, hlt, hpath, hdir⟩
    · exact hsearch.placed b (List.mem_cons_of_mem a hb)
  · refine (pairwise_sortedRanges ha).imp_of_mem fun {x y} hx hy hlt f g hf hg => ?_
    obtain ⟨_, hrx, -⟩ := mem_sortedRanges hx
    obtain ⟨_, hry, -⟩ := mem_sortedRanges hy
    have hdx := (rangeDirectory_eq_some ha hrx).2.1
    have hdy := (rangeDirectory_eq_some ha hry).2.1
    rw [Under, hdx] at hf
    rw [Under, hdy] at hg
    rw [← hf, ← hg] at hlt
    exact Nat.lt_of_div_lt_div hlt
  · intro x hx b hb f g hf hg
    obtain ⟨_, hr, -⟩ := mem_sortedRanges hx
    obtain ⟨-, hd, -, -, hrange, -⟩ := rangeDirectory_eq_some ha hr
    exact habove b hb f g (under_child hdepth hd hrange hf) hg
  · intro f hs hf
    obtain ⟨b, hb, hu⟩ := hsearch.covers f hs hf
    rcases List.mem_cons.mp hb with rfl | hb
    · obtain ⟨x, hr, hux⟩ := rangeDirectory_digits hdepth hu
      refine ⟨x, List.mem_append_left _ ?_, hux⟩
      obtain ⟨hpath, hd, hdir, -⟩ := rangeDirectory_eq_some ha hr
      have hxdir : t.isDir x.path = true := by
        have := isDir_above_log hs hf (4 - x.depth) (by omega)
        rw [Under] at hux
        rwa [show 4 - (4 - x.depth) = x.depth by omega, show 4 - x.depth + 1 = 5 - x.depth by omega,
          hux, ← hdir] at this
      have hne : t.get x.path ≠ none := by
        have hentry := (Tree.isDir_iff.mp hxdir).resolve_left (by rw [hpath]; simp)
        intro hnone
        rw [hnone] at hentry
        cases hentry
      rw [sortedRanges, List.mem_insertionSort]
      exact mem_rangesOf.mpr ⟨_, Tree.mem_children.mpr (hpath ▸ hne), hr, hxdir⟩
    · exact ⟨b, List.mem_append_right _ hb, hu⟩

/-- The search has ended. -/
theorem Search.found {a : PendingDirectory} {stack : List PendingDirectory} {m : LogFileId}
    (hsearch : Search p s t d (a :: stack))
    (hm : Highest (fun f => f.streamId = s ∧ d (.log f) ≠ none ∧ Under f a) (some m)) :
    IsMaximum d s (some m) := by
  obtain ⟨⟨hs, hd, hu⟩, hle⟩ := hm
  refine ⟨hs, hd, fun f hfs hf => ?_⟩
  obtain ⟨b, hb, hub⟩ := hsearch.covers f hfs hf
  rcases List.mem_cons.mp hb with rfl | hb
  · exact hle f ⟨hfs, hf, hub⟩
  · exact Nat.le_of_lt ((List.pairwise_cons.mp hsearch.order).1 b hb m f hu hub)

/-- A directory without logs is left behind. -/
theorem Search.pass {a : PendingDirectory} {stack : List PendingDirectory}
    (hsearch : Search p s t d (a :: stack))
    (hnone : Highest (fun f => f.streamId = s ∧ d (.log f) ≠ none ∧ Under f a) none) :
    Search p s t d stack := by
  refine ⟨fun b hb => hsearch.placed b (List.mem_cons_of_mem a hb),
    (List.pairwise_cons.mp hsearch.order).2, fun f hs hf => ?_⟩
  obtain ⟨b, hb, hu⟩ := hsearch.covers f hs hf
  rcases List.mem_cons.mp hb with rfl | hb
  · exact absurd ⟨hs, hf, hu⟩ (hnone f)
  · exact ⟨b, hb, hu⟩

/-- How many directories the stack still leads to, at most. -/
def remaining (n : Nat) (stack : List PendingDirectory) : Nat :=
  (stack.map fun a => visits n (4 - a.depth)).sum

theorem remaining_le {n v : Nat} : ∀ stack : List PendingDirectory,
    (∀ b ∈ stack, visits n (4 - b.depth) ≤ v) → remaining n stack ≤ stack.length * v := by
  intro stack
  induction stack with
  | nil => exact fun _ => Nat.zero_le _
  | cons a stack ih =>
    intro h
    have hrest := ih fun b hb => h b (List.mem_cons_of_mem a hb)
    have hfirst := h a List.mem_cons_self
    rw [List.length_cons, Nat.succ_mul, Nat.add_comm]
    exact Nat.add_le_add hfirst hrest

theorem remaining_sortedRanges_lt {a : PendingDirectory} (ha : Placed p s t a)
    (hdepth : a.depth < 4) :
    remaining t.names.length (sortedRanges t a) < visits t.names.length (4 - a.depth) := by
  have hle := remaining_le (n := t.names.length) (sortedRanges t a)
    (v := visits t.names.length (4 - (a.depth + 1))) fun b hb => by
      obtain ⟨_, hr, -⟩ := mem_sortedRanges hb
      rw [(rangeDirectory_eq_some ha hr).2.1]
  have hlen := Nat.mul_le_mul_right (visits t.names.length (4 - (a.depth + 1)))
    (length_sortedRanges_le t a)
  rw [show 4 - a.depth = 4 - (a.depth + 1) + 1 by omega, visits, Nat.mul_comm (visits _ _)]
  omega

theorem searchTurn_triple (stack : List PendingDirectory) (n : Nat) :
    Triple c (fun t' => (Search p s t (diskOf p t) stack ∧ t' = t) ∧
        (c.calm → remaining t.names.length stack = n))
      (p.searchTurn s stack)
      (fun r t' => match r with
        | .inl stack' => (Search p s t (diskOf p t) stack' ∧ t' = t) ∧
            (c.calm → remaining t.names.length stack' < n)
        | .inr m => IsMaximum (diskOf p t) s m ∧ t' = t)
      (Faulted c fun t' => t' = t) := by
  refine .ofState fun t' ⟨⟨hsearch, ht⟩, hn⟩ => ?_
  subst ht
  cases stack with
  | nil =>
    refine .pure ?_
    rintro _ rfl
    refine ⟨fun f hs => ?_, rfl⟩
    by_contra hf
    obtain ⟨a, ha, -⟩ := hsearch.covers f hs hf
    cases ha
  | cons a stack =>
    have ha := hsearch.placed a List.mem_cons_self
    have hcons : remaining t'.names.length (a :: stack) =
        visits t'.names.length (4 - a.depth) + remaining t'.names.length stack := rfl
    rw [hcons] at hn
    rw [searchTurn]
    by_cases hdepth : a.depth = 4
    · rw [if_pos hdepth]
      refine .bind (maximumLogInDirectory_triple ha hdepth) fun r => .assume fun hr => ?_
      cases r with
      | some m => exact .pure fun _ ht => ⟨hsearch.found hr, ht⟩
      | none =>
        refine .pure fun _ ht => ⟨⟨hsearch.pass hr, ht⟩, fun hc => ?_⟩
        have := hn hc
        rw [hdepth, Nat.sub_self, visits] at this
        omega
    · rw [if_neg hdepth]
      have hdepth : a.depth < 4 := Nat.lt_of_le_of_ne ha.depth_le hdepth
      refine .bind (rangeDirectories_triple ha) fun children => .assume fun hchildren =>
        .pure fun _ ht => ⟨⟨?_, ht⟩, fun hc => ?_⟩
      · rw [hchildren]
        exact hsearch.expand hdepth
      · have hlt := remaining_sortedRanges_lt ha hdepth
        have := hn hc
        rw [hchildren]
        have happend : remaining t'.names.length (sortedRanges t' a ++ stack) =
            remaining t'.names.length (sortedRanges t' a) + remaining t'.names.length stack := by
          rw [remaining, List.map_append, List.sum_append]
          rfl
        show remaining t'.names.length (sortedRanges t' a ++ stack) < n
        omega

/-- **The search finds the maximum log** in any tree with the directory of the stream. -/
theorem maximumLogFile_triple_at (hbase : t.isDir (p.streamDirectory s) = true) :
    Triple c (fun t' => t' = t) (p.maximumLogFile s)
      (fun r t' => IsMaximum (diskOf p t) s r ∧ t' = t) (Faulted c fun t' => t' = t) := by
  refine .getBind ?_
  have hroot : Search p s t (diskOf p t) [⟨p.streamDirectory s, 0, 0⟩] := by
    refine ⟨?_, List.pairwise_singleton _ _, fun f _ _ => ⟨_, List.mem_singleton.mpr rfl, ?_⟩⟩
    · intro a ha
      obtain rfl := List.mem_singleton.mp ha
      exact ⟨Nat.zero_le 4, Nat.zero_lt_one, rfl, hbase⟩
    · exact Nat.div_eq_of_lt (fileNumber_lt f.fileNumber)
  refine (Triple.iterate (I := fun stack t' => Search p s t (diskOf p t) stack ∧ t' = t)
    (v := fun stack _ => remaining t.names.length stack)
    (Q := fun m t' => IsMaximum (diskOf p t) s m ∧ t' = t) (X := Faulted c fun t' => t' = t)
    (fun stack n => (searchTurn_triple stack n).post fun r _ h => by cases r <;> exact h)
    ?_ _ _).pre ?_
  · exact fun stack t' hc ht => ⟨hc, by simp, ht.2⟩
  · rintro _ rfl
    exact ⟨⟨hroot, rfl⟩, fun _ => by simp [remaining]⟩

theorem maximumLogFile_triple :
    Triple c (On p s d) (p.maximumLogFile s) (fun r t => IsMaximum d s r ∧ On p s d t)
      (Faulted c (On p s d)) := by
  refine .ofState fun t h => (maximumLogFile_triple_at h.1.base).conseq (fun _ h => h) ?_ ?_
  · rintro m _ ⟨hm, rfl⟩
    rw [h.2] at hm
    exact ⟨hm, h⟩
  · rintro e t' ⟨hc, hp, rfl⟩
    exact ⟨hc, hp, h⟩

/-- Without the directory of the stream there is nothing to find. -/
theorem maximumLogFile_triple_missing (hnone : t.get (p.streamDirectory s) = none)
    (hclear : t.Clear (p.streamDirectory s)) :
    Triple c (fun t' => t' = t) (p.maximumLogFile s) (fun r t' => r = none ∧ t' = t)
      (Faulted c fun t' => t' = t) := by
  have hnode : t.node? (p.streamDirectory s) = none := by
    rw [Tree.node?, hnone]
    rfl
  have hbase : ¬ t.isDir (p.streamDirectory s) = true := by
    intro hdir
    rw [Tree.isDir_iff, hnone] at hdir
    rcases hdir with hnil | hentry
    · exact streamDirectory_ne_nil p s hnil
    · cases hentry
  refine .getBind ((Triple.iterate (v := fun b _ => b.length) (I := fun b t' =>
    t' = t ∧ (b = [] ∨ b = [⟨p.streamDirectory s, 0, 0⟩])) (fun b n => ?_) ?_ _ _).pre ?_)
  · refine .ofState fun t' hstate => ?_
    obtain ⟨⟨rfl, rfl | rfl⟩, hn⟩ := hstate
    · exact .pure fun _ ht => ⟨rfl, ht⟩
    rw [searchTurn, if_neg (by simp), rangeDirectories]
    refine .bind (R := fun names t'' => names = [] ∧ t'' = t') (.bind (R := fun r t'' =>
      (r = .error .notFound ∨ ¬ c.calm ∧ ∃ e, r = .error e ∧ e ≠ .notFound) ∧ t'' = t')
        (.attempt (.callAt ?_ ?_)) fun r => .assume fun hr => ?_) fun names => .assume fun hnames => ?_
    · rw [if_neg hbase, hnode]
      exact ⟨.inl (congrArg Except.error hclear.lookupError), rfl⟩
    · intro e he
      obtain ⟨hc, he, -⟩ := he
      rcases he with rfl | ⟨k, rfl⟩
      · exact ⟨hc, by simp, rfl⟩
      · exact ⟨.inr ⟨hc, _, rfl, k.kind_ne_notFound⟩, rfl⟩
    · rcases hr with rfl | ⟨hc, e, rfl, he⟩
      · simp only [true_and, if_true]
        exact .pure fun t'' ht => ⟨rfl, ht⟩
      · simp only [he, and_false, if_false]
        exact .throw fun t'' ht => ⟨hc, by simp, ht⟩
    · subst hnames
      refine .pure ?_
      rintro _ rfl
      refine ⟨⟨rfl, .inl rfl⟩, fun hc => ?_⟩
      rw [← hn hc]
      exact Nat.zero_lt_one
  · intro b t' hc ht
    exact ⟨hc, by simp, ht.1⟩
  · rintro _ rfl
    exact ⟨⟨rfl, .inr rfl⟩, fun _ => by simp [visits]⟩

/-! ### Any tree -/

/-- A regular file stands where the log of the file would be. -/
def IsLog (p : StorageProvider) (s : StreamId) (t : Tree) (f : LogFileId) : Prop :=
  f.streamId = s ∧ (t.file? (p.logFilePath f)).isSome = true

theorem IsMaximum.highest {m : Option LogFileId} (h : IsMaximum (diskOf p t) s m) :
    Highest (IsLog p s t) m := by
  cases m with
  | none =>
    rintro f ⟨hs, hfile⟩
    exact diskOf_log_ne_none.mpr hfile (h f hs)
  | some m =>
    obtain ⟨hs, hfile, hle⟩ := h
    exact ⟨⟨hs, diskOf_log_ne_none.mp hfile⟩, fun f hf => hle f hf.1 (diskOf_log_ne_none.mpr hf.2)⟩

theorem isMaximum_missing (hnone : t.get (p.streamDirectory s) = none) :
    IsMaximum (diskOf p t) s none := by
  rintro f rfl
  by_contra hf
  have hne : rangeNames (digits 15 f.fileNumber.get) ++
      [digits 15 f.fileNumber.get ++ (ascii "." ++ ascii "log")] ≠ [] := by simp
  have hget := get_log_ne_none hf
  rw [logFilePath, logOrIndexFilePath, leafDirectory, List.append_assoc] at hget
  rcases Tree.isDir_iff.mp (Tree.isDir_of_append _ hne hget) with hnil | hentry
  · exact streamDirectory_ne_nil p _ hnil
  · rw [hnone] at hentry
    cases hentry

/-- **The search finds the highest log of every tree**, whatever else stands in it, and
changes nothing.  A link is a leaf of the tree, whatever it points to; it is neither a log
nor a directory to search. -/
theorem maximumLogFile_finds (hbase : t.isDir (p.streamDirectory s) = true ∨
      t.get (p.streamDirectory s) = none ∧ t.Clear (p.streamDirectory s)) (plan : Plan) :
    (∀ r w, (p.maximumLogFile s).run t plan = (.ok r, w) →
      w.sys = t ∧ Highest (IsLog p s t) r) ∧
    (plan.Smooth → ∃ r w, (p.maximumLogFile s).run t plan = (.ok r, w)) := by
  have htriple : ∀ c, Triple c (fun t' => t' = t) (p.maximumLogFile s)
      (fun r t' => IsMaximum (diskOf p t) s r ∧ t' = t) (Faulted c fun t' => t' = t) := by
    intro c
    rcases hbase with hbase | ⟨hnone, hclear⟩
    · exact maximumLogFile_triple_at hbase
    · refine (maximumLogFile_triple_missing hnone hclear).post ?_
      rintro r t' ⟨rfl, ht⟩
      exact ⟨isMaximum_missing hnone, ht⟩
  constructor
  · intro r w hrun
    have hresult := (htriple ⟨False, fun _ => True⟩ ⟨t, plan⟩ rfl plan.within_any).2
    rw [Io.run] at hrun
    rw [hrun] at hresult
    exact ⟨hresult.2, hresult.1.highest⟩
  · intro hplan
    have hresult := (htriple ⟨True, fun _ => True⟩ ⟨t, plan⟩ rfl hplan).2
    rw [Io.run]
    rcases hrun : p.maximumLogFile s ⟨t, plan⟩ with ⟨e | r, w⟩
    · rw [hrun] at hresult
      exact absurd trivial hresult.1
    · exact ⟨r, w, rfl⟩

/-- After the only log stand a link that is named like a log and, in another leaf
directory, a directory that is. -/
theorem maximumLogFile_finds_regular :
    let p : StorageProvider := ⟨[]⟩
    let s : StreamId := ⟨7, by decide⟩
    let f : LogFileId := ⟨s, ⟨2, by decide⟩⟩
    let g : LogFileId := ⟨s, ⟨3, by decide⟩⟩
    let h : LogFileId := ⟨s, ⟨1001, by decide⟩⟩
    let dirs := Fs.ancestors (p.leafDirectory f) ++ Fs.ancestors (p.leafDirectory h)
    let t := dirs.foldl (fun (t : Tree) q => t.created q .dir) .empty
    let t := t.created (p.logFilePath f) (.file .empty)
    let t := (t.created (p.logFilePath g) .link).created (p.logFilePath h) .dir
    ((p.maximumLogFile s).run t .calm).1 = .ok (some f) ∧
      ∃ r w, (p.maximumLogFile s).run t .calm = (.ok r, w) ∧ w.sys = t ∧ Highest (IsLog p s t) r := by
  intro p s f g h dirs t₁ t₂ t
  have hbase : t.isDir (p.streamDirectory s) = true := by decide +kernel
  obtain ⟨hfinds, hcompletes⟩ := maximumLogFile_finds (.inl hbase) .calm
  obtain ⟨r, w, hrun⟩ := hcompletes trivial
  exact ⟨by decide +kernel, r, w, hrun, hfinds r w hrun⟩

end StorageProvider

end TransactionLog
