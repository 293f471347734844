import TransactionLog.Lib.IpAddr
import TransactionLog.Lib.Text

/-!
# Hostnames

`Hostname.parse` trims a configured name, checks it and stores it in lowercase.  Its
checks are those of the grammar `HostnameGrammar`, and the error of a rejected name is
that of the first rule it violates.
-/

namespace TransactionLog

open Lib IpAddr

inductive HostnameErrorKind where
  | empty
  | tooLong
  | ipLiteral
  | emptyLabel (labelIndex : Nat)
  | labelTooLong (labelIndex : Nat)
  | invalidCharacter (byteIndex : Nat)
  | invalidBoundary (labelIndex : Nat)
  deriving DecidableEq, Repr

/-- A rejected name, as it was given. -/
structure HostnameError where
  name : List Char
  kind : HostnameErrorKind
  deriving DecidableEq, Repr

/-! ### The grammar -/

/-- A name without its final dot, if it has one. -/
def withoutRootDot (name : List Char) : List Char :=
  if name.getLast? = some '.' then name.dropLast else name

/-- A letter, a digit or a hyphen. -/
def IsLabelChar (c : Char) : Prop := c.isAlphanum = true ∨ c = '-'

structure IsLabel (label : List Char) : Prop where
  nonempty : label ≠ []
  length : label.length ≤ 63
  chars : ∀ c ∈ label, IsLabelChar c
  first : ∀ c ∈ label.head?, c.isAlphanum = true
  last : ∀ c ∈ label.getLast?, c.isAlphanum = true

/-- What a name is made of, its white space taken off. -/
structure HostnameGrammar (name : List Char) : Prop where
  length : (utf8 (withoutRootDot name)).length ≤ 253
  notIp : isIpAddr (utf8 (withoutRootDot name)) = false
  labels : ∀ label ∈ (withoutRootDot name).splitOn '.', IsLabel label

/-! ### Parsing -/

/-- A checked name in lowercase. -/
structure Hostname where
  name : List Char
  grammar : HostnameGrammar name
  lowercase : asciiLower name = name

namespace Hostname

def maxNameLength : Nat := 253

def maxLabelLength : Nat := 63

def isLabelByte (b : UInt8) : Bool := isAsciiAlphanumeric b || b == 45

/-- The checks of one label. -/
def checkLabel (labelStart labelIndex : Nat) (label : List Char) :
    Except HostnameErrorKind Unit :=
  let bytes := utf8 label
  if label = [] then .error (.emptyLabel labelIndex)
  else if bytes.length > maxLabelLength then .error (.labelTooLong labelIndex)
  else match bytes.findIdx? fun b => !isLabelByte b with
    | some offset => .error (.invalidCharacter (labelStart + offset))
    | none =>
      -- both ends are there, in a label that is not empty
      if bytes.head?.any isAsciiAlphanumeric && bytes.getLast?.any isAsciiAlphanumeric then .ok ()
      else .error (.invalidBoundary labelIndex)

def checkLabels : (labelStart labelIndex : Nat) → List (List Char) → Except HostnameErrorKind Unit
  | _, _, [] => .ok ()
  | labelStart, labelIndex, label :: labels => do
    checkLabel labelStart labelIndex label
    checkLabels (labelStart + ((utf8 label).length + 1)) (labelIndex + 1) labels

/-- The checks of `parse`, in their order. -/
def check (trimmed : List Char) : Except HostnameErrorKind Unit :=
  if trimmed = [] then .error .empty
  else
    let labels := withoutRootDot trimmed
    if (utf8 labels).length > maxNameLength then .error .tooLong
    else if isIpAddr (utf8 labels) then .error .ipLiteral
    else checkLabels 0 0 (labels.splitOn '.')

/-! ### One label -/

theorem isLabelByte_lt {b : UInt8} (h : isLabelByte b = true) : b.toNat < 128 := by
  rw [isLabelByte, Bool.or_eq_true, isAsciiAlphanumeric_iff, beq_iff_eq] at h
  rcases h with h | rfl
  · omega
  · decide

theorem isLabelByte_ofNat {c : Char} (h : c.toNat < 128) :
    isLabelByte (UInt8.ofNat c.toNat) = true ↔ IsLabelChar c := by
  rw [isLabelByte, Bool.or_eq_true, isAsciiAlphanumeric_ofNat h, beq_iff_eq, IsLabelChar]
  refine or_congr_right ?_
  rw [← UInt8.toNat_inj, ← Char.toNat_inj, UInt8.toNat_ofNat']
  show c.toNat % 256 = 45 ↔ c.toNat = 45
  omega

theorem isLabelChar_lt {c : Char} (h : IsLabelChar c) : c.toNat < 128 := by
  rcases h with h | rfl
  · rw [isAlphanum_iff] at h
    omega
  · decide

theorem forall_isLabelByte {s : List Char} :
    (∀ b ∈ utf8 s, isLabelByte b = true) ↔ ∀ c ∈ s, IsLabelChar c := by
  rw [forall_mem_utf8 fun b => isLabelByte_lt]
  refine forall₂_congr fun c _ => ⟨fun h => (isLabelByte_ofNat h.1).mp h.2, fun h => ?_⟩
  have hlt := isLabelChar_lt h
  exact ⟨hlt, (isLabelByte_ofNat hlt).mpr h⟩

/-- An end of a label, as the byte that the check looks at and as a character. -/
theorem any_isAsciiAlphanumeric {o : Option Char} (hsome : o ≠ none)
    (hlt : ∀ c ∈ o, c.toNat < 128) :
    (o.map fun c => UInt8.ofNat c.toNat).any isAsciiAlphanumeric = true ↔
      ∀ c ∈ o, c.isAlphanum = true := by
  cases o with
  | none => exact absurd rfl hsome
  | some c =>
    rw [Option.map_some, Option.any_some, isAsciiAlphanumeric_ofNat (hlt c rfl)]
    simp

/-- What is wrong with a label, found in the order of the rules. -/
inductive LabelViolation (labelStart labelIndex : Nat) (label : List Char) :
    HostnameErrorKind → Prop
  | empty (h : label = []) : LabelViolation labelStart labelIndex label (.emptyLabel labelIndex)
  | tooLong (length : 63 < (utf8 label).length) :
    LabelViolation labelStart labelIndex label (.labelTooLong labelIndex)
  | character {before after : List UInt8} {b : UInt8} (length : (utf8 label).length ≤ 63)
    (bytes : utf8 label = before ++ b :: after) (allowed : ∀ x ∈ before, isLabelByte x = true)
    (disallowed : isLabelByte b = false) :
    LabelViolation labelStart labelIndex label (.invalidCharacter (labelStart + before.length))
  | boundary (nonempty : label ≠ []) (length : (utf8 label).length ≤ 63)
    (chars : ∀ c ∈ label, IsLabelChar c)
    (ends : ¬ ((∀ c ∈ label.head?, c.isAlphanum = true) ∧
      ∀ c ∈ label.getLast?, c.isAlphanum = true)) :
    LabelViolation labelStart labelIndex label (.invalidBoundary labelIndex)

variable {labelStart labelIndex : Nat} {label : List Char} {kind : HostnameErrorKind}

/-- The ends that the check looks at are those of the label. -/
theorem ends_iff (hne : label ≠ []) (hchars : ∀ c ∈ label, IsLabelChar c) :
    ((utf8 label).head?.any isAsciiAlphanumeric &&
        (utf8 label).getLast?.any isAsciiAlphanumeric) = true ↔
      (∀ c ∈ label.head?, c.isAlphanum = true) ∧ ∀ c ∈ label.getLast?, c.isAlphanum = true := by
  have hlt : ∀ c ∈ label, c.toNat < 128 := fun c hc => isLabelChar_lt (hchars c hc)
  rw [utf8_of_lt hlt, List.head?_map, List.getLast?_map, Bool.and_eq_true,
    any_isAsciiAlphanumeric (by simpa using hne) fun c hc => hlt c (List.mem_of_head? hc),
    any_isAsciiAlphanumeric (by simpa using hne) fun c hc => hlt c (List.mem_of_getLast? hc)]

/-- The last rule, for a label that meets the others. -/
theorem checkLabel_chars (hne : label ≠ []) (hlen : (utf8 label).length ≤ 63)
    (hchars : ∀ c ∈ label, IsLabelChar c) :
    checkLabel labelStart labelIndex label =
      if (utf8 label).head?.any isAsciiAlphanumeric && (utf8 label).getLast?.any isAsciiAlphanumeric
      then .ok () else .error (.invalidBoundary labelIndex) := by
  have hbytes : (utf8 label).findIdx? (fun b => !isLabelByte b) = none := by
    rw [List.findIdx?_eq_none_iff]
    intro b hb
    rw [forall_isLabelByte.mpr hchars b hb]
    rfl
  rw [checkLabel]
  simp only [if_neg hne, maxLabelLength, gt_iff_lt, if_neg (Nat.not_lt.mpr hlen), hbytes]

theorem length_utf8_of_isLabel (h : IsLabel label) : (utf8 label).length ≤ 63 := by
  rw [utf8_of_lt fun c hc => isLabelChar_lt (h.chars c hc), List.length_map]
  exact h.length

theorem checkLabel_of_isLabel (h : IsLabel label) :
    checkLabel labelStart labelIndex label = .ok () := by
  rw [checkLabel_chars h.nonempty (length_utf8_of_isLabel h) h.chars,
    if_pos ((ends_iff h.nonempty h.chars).mpr ⟨h.first, h.last⟩)]

theorem checkLabel_of_violation (h : LabelViolation labelStart labelIndex label kind) :
    checkLabel labelStart labelIndex label = .error kind := by
  cases h with
  | empty h => rw [checkLabel, if_pos h]
  | tooLong length =>
    have hne : label ≠ [] := by
      rintro rfl
      cases length
    rw [checkLabel]
    simp only [if_neg hne, maxLabelLength, gt_iff_lt, if_pos length]
  | @character before after b length bytes allowed disallowed =>
    have hne : label ≠ [] := by
      rintro rfl
      cases before <;> cases bytes
    have hoffset : (utf8 label).findIdx? (fun b => !isLabelByte b) = some before.length := by
      rw [bytes, findIdx?_append_cons (by rw [disallowed]; rfl)]
      intro x hx
      rw [allowed x hx]
      rfl
    rw [checkLabel]
    simp only [if_neg hne, maxLabelLength, gt_iff_lt, if_neg (Nat.not_lt.mpr length), hoffset]
  | boundary nonempty length chars ends =>
    rw [checkLabel_chars nonempty length chars,
      if_neg fun h => ends ((ends_iff nonempty chars).mp h)]

/-- The rules leave out no label. -/
theorem isLabel_or_violation (labelStart labelIndex : Nat) (label : List Char) :
    IsLabel label ∨ ∃ kind, LabelViolation labelStart labelIndex label kind := by
  by_cases hne : label = []
  · exact .inr ⟨_, .empty hne⟩
  by_cases hlen : (utf8 label).length ≤ 63
  · by_cases hchars : ∀ c ∈ label, IsLabelChar c
    · by_cases hends : (∀ c ∈ label.head?, c.isAlphanum = true) ∧
          ∀ c ∈ label.getLast?, c.isAlphanum = true
      · rw [utf8_of_lt fun c hc => isLabelChar_lt (hchars c hc), List.length_map] at hlen
        exact .inl ⟨hne, hlen, hchars, hends.1, hends.2⟩
      · exact .inr ⟨_, .boundary hne hlen hchars hends⟩
    · rw [← forall_isLabelByte] at hchars
      obtain ⟨before, b, after, hbytes, hdisallowed, hallowed⟩ :=
        exists_first_not hchars
      exact .inr ⟨_, .character hlen hbytes hallowed (Bool.not_eq_true _ ▸ hdisallowed)⟩
  · exact .inr ⟨_, .tooLong (Nat.not_le.mp hlen)⟩

/-! ### All labels -/

/-- Labels with a dot behind each. -/
def dotted (labels : List (List Char)) : List Char := labels.flatMap fun label => label ++ ['.']

theorem length_dotted_cons (label : List Char) (labels : List (List Char)) :
    (utf8 (dotted (label :: labels))).length =
      (utf8 label).length + 1 + (utf8 (dotted labels)).length := by
  rw [dotted, List.flatMap_cons, utf8_append, utf8_append, List.length_append, List.length_append]
  rfl

theorem checkLabels_of_isLabel (labels : List (List Char)) :
    ∀ labelStart labelIndex, (∀ label ∈ labels, IsLabel label) →
      checkLabels labelStart labelIndex labels = .ok () := by
  induction labels with
  | nil => exact fun _ _ _ => rfl
  | cons label labels ih =>
    intro labelStart labelIndex h
    rw [checkLabels, checkLabel_of_isLabel (h label List.mem_cons_self)]
    exact ih _ _ fun l hl => h l (List.mem_cons_of_mem label hl)

/-- A label is looked at when all before it are valid, with the bytes of these counted. -/
theorem checkLabels_of_violation {after : List (List Char)} (before : List (List Char)) :
    ∀ labelStart labelIndex, (∀ l ∈ before, IsLabel l) →
      LabelViolation (labelStart + (utf8 (dotted before)).length) (labelIndex + before.length)
        label kind →
      checkLabels labelStart labelIndex (before ++ label :: after) = .error kind := by
  induction before with
  | nil =>
    intro labelStart labelIndex _ h
    have hlabel : checkLabel labelStart labelIndex label = .error kind :=
      checkLabel_of_violation h
    rw [List.nil_append, checkLabels, hlabel]
    rfl
  | cons l before ih =>
    intro labelStart labelIndex hbefore h
    rw [List.cons_append, checkLabels, checkLabel_of_isLabel (hbefore l List.mem_cons_self)]
    refine ih _ _ (fun x hx => hbefore x (List.mem_cons_of_mem l hx)) ?_
    rw [length_dotted_cons, List.length_cons] at h
    rw [Nat.add_assoc labelStart, Nat.add_assoc labelIndex, Nat.add_comm 1]
    exact h

/-- The first rule that a name violates. -/
inductive FirstViolation (name : List Char) : HostnameErrorKind → Prop
  | empty (h : name = []) : FirstViolation name .empty
  | tooLong (length : 253 < (utf8 (withoutRootDot name)).length) : FirstViolation name .tooLong
  | ipLiteral (length : (utf8 (withoutRootDot name)).length ≤ 253)
    (ip : isIpAddr (utf8 (withoutRootDot name)) = true) : FirstViolation name .ipLiteral
  | label {before after : List (List Char)} {label : List Char} {kind : HostnameErrorKind}
    (nonempty : name ≠ []) (length : (utf8 (withoutRootDot name)).length ≤ 253)
    (notIp : isIpAddr (utf8 (withoutRootDot name)) = false)
    (labels : (withoutRootDot name).splitOn '.' = before ++ label :: after)
    (valid : ∀ l ∈ before, IsLabel l)
    (violation : LabelViolation (utf8 (dotted before)).length before.length label kind) :
    FirstViolation name kind

variable {name : List Char}

theorem ne_nil_of_grammar (h : HostnameGrammar name) : name ≠ [] := by
  rintro rfl
  exact (h.labels [] (List.mem_singleton_self _)).nonempty rfl

theorem check_of_grammar (h : HostnameGrammar name) : check name = .ok () := by
  rw [check, if_neg (ne_nil_of_grammar h)]
  simp only [maxNameLength, gt_iff_lt, if_neg (Nat.not_lt.mpr h.length), h.notIp,
    Bool.false_eq_true, if_false]
  exact checkLabels_of_isLabel _ 0 0 h.labels

theorem check_of_violation (h : FirstViolation name kind) : check name = .error kind := by
  cases h with
  | empty h => rw [check, if_pos h]
  | tooLong length =>
    have hne : name ≠ [] := by
      rintro rfl
      cases length
    rw [check, if_neg hne]
    simp only [maxNameLength, gt_iff_lt, if_pos length]
  | ipLiteral length ip =>
    have hne : name ≠ [] := by
      rintro rfl
      cases ip
    rw [check, if_neg hne]
    simp only [maxNameLength, gt_iff_lt, if_neg (Nat.not_lt.mpr length), ip, if_true]
  | label nonempty length notIp labels valid violation =>
    rw [check, if_neg nonempty]
    simp only [maxNameLength, gt_iff_lt, if_neg (Nat.not_lt.mpr length), notIp,
      Bool.false_eq_true, if_false]
    rw [labels]
    refine checkLabels_of_violation _ 0 0 valid ?_
    rw [Nat.zero_add, Nat.zero_add]
    exact violation

theorem grammar_or_violation (name : List Char) :
    HostnameGrammar name ∨ ∃ kind, FirstViolation name kind := by
  by_cases hne : name = []
  · exact .inr ⟨_, .empty hne⟩
  by_cases hlen : (utf8 (withoutRootDot name)).length ≤ 253
  · cases hip : isIpAddr (utf8 (withoutRootDot name)) with
    | true => exact .inr ⟨_, .ipLiteral hlen hip⟩
    | false =>
      by_cases hlabels : ∀ label ∈ (withoutRootDot name).splitOn '.', IsLabel label
      · exact .inl ⟨hlen, hip, hlabels⟩
      · obtain ⟨before, label, after, hsplit, hlabel, hbefore⟩ := exists_first_not hlabels
        obtain ⟨kind, hkind⟩ := (isLabel_or_violation (utf8 (dotted before)).length
          before.length label).resolve_left hlabel
        exact .inr ⟨kind, .label hne hlen hip hsplit hbefore hkind⟩
  · exact .inr ⟨_, .tooLong (Nat.not_le.mp hlen)⟩

theorem check_eq_ok : check name = .ok () ↔ HostnameGrammar name := by
  refine ⟨fun h => (grammar_or_violation name).resolve_right ?_, check_of_grammar⟩
  rintro ⟨kind, hkind⟩
  rw [check_of_violation hkind] at h
  cases h

theorem check_eq_error : check name = .error kind ↔ FirstViolation name kind := by
  refine ⟨fun h => ?_, check_of_violation⟩
  rcases grammar_or_violation name with hgrammar | ⟨kind', hkind⟩
  · rw [check_of_grammar hgrammar] at h
    cases h
  · rw [check_of_violation hkind] at h
    obtain rfl := Except.error.inj h
    exact hkind

/-! ### Case -/

theorem isLabelChar_toLower {c : Char} : IsLabelChar c.toLower ↔ IsLabelChar c := by
  refine or_congr isAlphanum_toLower ?_
  exact toLower_eq_iff (by decide) (by decide)

theorem isLabel_asciiLower {label : List Char} : IsLabel (asciiLower label) ↔ IsLabel label := by
  have hchars : (∀ c ∈ asciiLower label, IsLabelChar c) ↔ ∀ c ∈ label, IsLabelChar c := by
    rw [asciiLower, List.forall_mem_map]
    exact forall₂_congr fun c _ => isLabelChar_toLower
  have hend : ∀ o : Option Char, (∀ c ∈ o.map Char.toLower, c.isAlphanum = true) ↔
      ∀ c ∈ o, c.isAlphanum = true := by
    intro o
    cases o with
    | none => simp
    | some c => simp [isAlphanum_toLower]
  constructor
  · rintro ⟨hne, hlen, hc, hfirst, hlast⟩
    rw [asciiLower, List.head?_map] at hfirst
    rw [asciiLower, List.getLast?_map] at hlast
    rw [asciiLower, List.length_map] at hlen
    exact ⟨fun h => hne (congrArg asciiLower h), hlen, hchars.mp hc, (hend _).mp hfirst,
      (hend _).mp hlast⟩
  · rintro ⟨hne, hlen, hc, hfirst, hlast⟩
    refine ⟨fun h => hne (List.map_eq_nil_iff.mp h), ?_, hchars.mpr hc, ?_, ?_⟩
    · rw [asciiLower, List.length_map]
      exact hlen
    · rw [asciiLower, List.head?_map]
      exact (hend _).mpr hfirst
    · rw [asciiLower, List.getLast?_map]
      exact (hend _).mpr hlast

theorem withoutRootDot_asciiLower (name : List Char) :
    withoutRootDot (asciiLower name) = asciiLower (withoutRootDot name) := by
  have hdot : (name.getLast?.map Char.toLower = some '.') ↔ name.getLast? = some '.' := by
    cases name.getLast? with
    | none => simp
    | some c => simp [toLower_eq_iff (d := '.') (by decide) (by decide)]
  rw [withoutRootDot, withoutRootDot, asciiLower, List.getLast?_map]
  by_cases h : name.getLast? = some '.'
  · rw [if_pos h, if_pos (hdot.mpr h), ← List.map_dropLast]
    rfl
  · rw [if_neg h, if_neg fun h' => h (hdot.mp h')]
    rfl

theorem splitOn_asciiLower (s : List Char) :
    (asciiLower s).splitOn '.' = (s.splitOn '.').map asciiLower := by
  induction s with
  | nil => rfl
  | cons c s ih =>
    have hdot : (c.toLower == '.') = (c == '.') := by
      rw [Bool.eq_iff_iff, beq_iff_eq, beq_iff_eq]
      exact toLower_eq_iff (by decide) (by decide)
    rw [asciiLower, List.map_cons, List.splitOn_cons_eq_if_modifyHead,
      List.splitOn_cons_eq_if_modifyHead, hdot]
    rw [← asciiLower, ih]
    split
    · rfl
    · cases s.splitOn '.' <;> rfl

/-! ### The characters of a name -/

theorem mem_of_splitOn {P : Char → Prop} {s : List Char}
    (h : ∀ label ∈ s.splitOn '.', ∀ c ∈ label, P c) : ∀ c ∈ s, P c ∨ c = '.' := by
  induction s with
  | nil => simp
  | cons d s ih =>
    rw [List.splitOn_cons_eq_if_modifyHead] at h
    intro c hc
    split at h
    next hdot =>
      rcases List.mem_cons.mp hc with rfl | hc
      · exact .inr (beq_iff_eq.mp hdot)
      · exact ih (fun label hlabel => h label (List.mem_cons_of_mem _ hlabel)) c hc
    · rcases hsplit : s.splitOn '.' with _ | ⟨first, rest⟩
      · exact absurd hsplit (List.splitOn_ne_nil _ _)
      rw [hsplit, List.modifyHead_cons] at h
      rw [hsplit] at ih
      rcases List.mem_cons.mp hc with rfl | hc
      · exact .inl (h _ List.mem_cons_self c List.mem_cons_self)
      · refine ih (fun label hlabel d' hd' => ?_) c hc
        rcases List.mem_cons.mp hlabel with rfl | hlabel
        · exact h _ List.mem_cons_self d' (List.mem_cons_of_mem _ hd')
        · exact h label (List.mem_cons_of_mem _ hlabel) d' hd'

theorem mem_of_withoutRootDot {c : Char} (hc : c ∈ name) : c ∈ withoutRootDot name ∨ c = '.' := by
  rw [withoutRootDot]
  split
  next hdot =>
    rw [← List.dropLast_append_getLast? '.' hdot, List.mem_append, List.mem_singleton] at hc
    exact hc
  · exact .inl hc

/-- A label's character, or the dot between labels. -/
def IsNameChar (c : Char) : Prop := IsLabelChar c ∨ c = '.'

theorem isNameChar_of_labels (h : ∀ label ∈ (withoutRootDot name).splitOn '.', IsLabel label) :
    ∀ c ∈ name, IsNameChar c := by
  intro c hc
  rcases mem_of_withoutRootDot hc with hc | rfl
  · exact mem_of_splitOn (fun label hlabel => (h label hlabel).chars) c hc
  · exact .inr rfl

theorem isNameChar_lt {c : Char} (h : IsNameChar c) : c.toNat < 128 := by
  rcases h with h | rfl
  · exact isLabelChar_lt h
  · decide

/-- A name that is checked has nothing to trim. -/
theorem trim_of_isNameChar (h : ∀ c ∈ name, IsNameChar c) : trim name = name := by
  refine trim_eq_self fun c hc => ?_
  rcases h c hc with (h | rfl) | rfl
  · rw [isAlphanum_iff] at h
    simp only [isWhitespace, Bool.or_eq_false_iff, Bool.and_eq_false_iff, decide_eq_false_iff_not,
      beq_eq_false_iff_ne]
    omega
  · decide
  · decide

/-- An address made of a name's characters has no letters. -/
theorem caseless_of_isIpAddr {s : List Char} (h : ∀ c ∈ s, IsNameChar c)
    (hip : isIpAddr (utf8 s) = true) :
    ∀ c ∈ s, ¬ (97 ≤ c.toNat ∧ c.toNat ≤ 122) ∧ ¬ (65 ≤ c.toNat ∧ c.toNat ≤ 90) := by
  have hascii : ∀ c ∈ s, c.toNat < 128 := fun c hc => isNameChar_lt (h c hc)
  have hbyte : ∀ c ∈ s, (UInt8.ofNat c.toNat).toNat = c.toNat := by
    intro c hc
    have hlt := hascii c hc
    rw [UInt8.toNat_ofNat']
    omega
  have hchars := isIpAddr_chars hip
  rw [utf8_of_lt hascii] at hchars
  rcases hchars with hchars | hcolon
  · intro c hc
    have hb := hbyte c hc
    rcases hchars _ (List.mem_map_of_mem hc) with hdigit | hdot
    · rw [isDigit_iff] at hdigit
      omega
    · rw [hdot] at hb
      have hdotNat : dot.toNat = 46 := rfl
      omega
  · obtain ⟨c, hc, heq⟩ := List.mem_map.mp hcolon
    have hb := hbyte c hc
    rw [heq] at hb
    have hcolonNat : colon.toNat = 58 := rfl
    rcases h c hc with (h | rfl) | rfl
    · rw [isAlphanum_iff] at h
      omega
    · cases hb
    · cases hb

/-- So no other text is that address up to case. -/
theorem eq_of_isIpAddr {s s' : List Char} (h : ∀ c ∈ s, IsNameChar c)
    (hip : isIpAddr (utf8 s) = true) (hcase : asciiLower s' = asciiLower s) : s' = s := by
  have hcaseless := caseless_of_isIpAddr h hip
  have hs : asciiLower s = s := by
    refine (List.map_congr_left fun c hc => ?_).trans (List.map_id s)
    exact (toLower_eq_iff (hcaseless c hc).1 (hcaseless c hc).2).mpr rfl
  rw [hs] at hcase
  rw [← hcase]
  refine (List.map_id s').symm.trans (List.map_congr_left fun c hc => ?_)
  have hmem : c.toLower ∈ s := by
    rw [← hcase]
    exact List.mem_map_of_mem hc
  exact (toLower_eq_iff (hcaseless _ hmem).1 (hcaseless _ hmem).2).mp rfl

/-- The grammar does not look at case. -/
theorem grammar_of_asciiLower_eq {name name' : List Char}
    (hcase : asciiLower name' = asciiLower name) (h : HostnameGrammar name) :
    HostnameGrammar name' := by
  have hroot : asciiLower (withoutRootDot name') = asciiLower (withoutRootDot name) := by
    rw [← withoutRootDot_asciiLower, hcase, withoutRootDot_asciiLower]
  have hlabels : ∀ label ∈ (withoutRootDot name').splitOn '.', IsLabel label := by
    intro label hlabel
    have hmem := List.mem_map_of_mem (f := asciiLower) hlabel
    rw [← splitOn_asciiLower, hroot, splitOn_asciiLower] at hmem
    obtain ⟨label', hlabel', heq⟩ := List.mem_map.mp hmem
    rw [← isLabel_asciiLower, ← heq, isLabel_asciiLower]
    exact h.labels label' hlabel'
  refine ⟨?_, ?_, hlabels⟩
  · rw [← length_utf8_asciiLower, hroot, length_utf8_asciiLower]
    exact h.length
  · by_contra hip
    rw [Bool.not_eq_false] at hip
    have hchars := mem_of_splitOn fun label hlabel => (hlabels label hlabel).chars
    have hsame := eq_of_isIpAddr hchars hip hroot.symm
    rw [← hsame, h.notIp] at hip
    cases hip

/-! ### The whole of it -/

/-- The text that is stored: the input itself where nothing was trimmed. -/
def owned (name : List Char) : List Char :=
  if (utf8 (trim name)).length = (utf8 name).length then name else trim name

theorem owned_eq (name : List Char) : owned name = trim name := by
  rw [owned]
  split
  next h => exact (trim_eq_of_length h).symm
  · rfl

def ofChecked (name : List Char) (h : check (trim name) = .ok ()) : Hostname where
  name := asciiLower (owned name)
  grammar := by
    rw [owned_eq]
    exact grammar_of_asciiLower_eq (asciiLower_asciiLower _) (check_eq_ok.mp h)
  lowercase := asciiLower_asciiLower _

theorem name_ofChecked (name : List Char) (h : check (trim name) = .ok ()) :
    (ofChecked name h).name = asciiLower (owned name) := rfl

/-- Parses a name without resolving it. -/
def parse (name : List Char) : Except HostnameError Hostname :=
  match h : check (trim name) with
  | .error kind => .error ⟨name, kind⟩
  | .ok () => .ok (ofChecked name h)

@[ext] theorem ext {h h' : Hostname} (heq : h.name = h'.name) : h = h' := by
  cases h
  cases h'
  cases heq
  rfl

theorem parse_of_error {s : List Char} {kind : HostnameErrorKind}
    (h : check (trim s) = .error kind) : parse s = .error ⟨s, kind⟩ := by
  rw [parse]
  split
  next kind' h' =>
    rw [h] at h'
    rw [Except.error.inj h']
  next h' =>
    rw [h] at h'
    cases h'

theorem parse_of_ok {s : List Char} (h : check (trim s) = .ok ()) :
    parse s = .ok (ofChecked s h) := by
  rw [parse]
  split
  next kind' h' =>
    rw [h] at h'
    cases h'
  · rfl

theorem parse_eq_ok {s : List Char} {hostname : Hostname} :
    parse s = .ok hostname ↔
      HostnameGrammar (trim s) ∧ hostname.name = asciiLower (trim s) := by
  constructor
  · intro h
    rcases hcheck : check (trim s) with kind | _
    · rw [parse_of_error hcheck] at h
      cases h
    · rw [parse_of_ok hcheck] at h
      obtain rfl := Except.ok.inj h
      exact ⟨check_eq_ok.mp hcheck, congrArg asciiLower (owned_eq s)⟩
  · rintro ⟨hgrammar, hname⟩
    rw [parse_of_ok (check_eq_ok.mpr hgrammar)]
    refine congrArg Except.ok (Hostname.ext ?_)
    rw [hname]
    exact congrArg asciiLower (owned_eq s)

theorem parse_eq_error {s : List Char} {error : HostnameError} :
    parse s = .error error ↔ error.name = s ∧ FirstViolation (trim s) error.kind := by
  rw [← check_eq_error]
  constructor
  · intro h
    rcases hcheck : check (trim s) with kind | _
    · rw [parse_of_error hcheck] at h
      obtain rfl := Except.error.inj h
      exact ⟨rfl, rfl⟩
    · rw [parse_of_ok hcheck] at h
      cases h
  · rintro ⟨rfl, hcheck⟩
    exact parse_of_error hcheck

/-- A stored name is parsed as it is. -/
theorem parse_name (hostname : Hostname) : parse hostname.name = .ok hostname := by
  have htrim := trim_of_isNameChar (isNameChar_of_labels hostname.grammar.labels)
  rw [parse_eq_ok, htrim]
  exact ⟨hostname.grammar, hostname.lowercase.symm⟩

theorem eq_dotted_append {s label : List Char} {before after : List (List Char)}
    (h : s.splitOn '.' = before ++ label :: after) : ∃ rest, s = dotted before ++ (label ++ rest) := by
  have hs : ['.'].intercalate (s.splitOn '.') = s := List.intercalate_splitOn '.'
  rw [h] at hs
  rw [← hs]
  clear h hs
  induction before with
  | nil =>
    cases after with
    | nil => exact ⟨[], by simp [dotted]⟩
    | cons l after => exact ⟨'.' :: ['.'].intercalate (l :: after), by simp [dotted]⟩
  | cons l before ih =>
    obtain ⟨rest, hrest⟩ := ih
    refine ⟨rest, ?_⟩
    rw [List.cons_append, List.intercalate_cons_of_ne_nil (by simp), hrest]
    simp [dotted]

theorem exists_withoutRootDot_append (name : List Char) :
    ∃ rest, withoutRootDot name ++ rest = name := by
  rw [withoutRootDot]
  split
  next hdot => exact ⟨['.'], List.dropLast_append_getLast? '.' hdot⟩
  · exact ⟨[], List.append_nil name⟩

/-- The byte that the error points at, in the trimmed name. -/
theorem byte_of_invalidCharacter {byteIndex : Nat}
    (h : FirstViolation name (.invalidCharacter byteIndex)) :
    ∃ b, (utf8 name)[byteIndex]? = some b ∧ isLabelByte b = false := by
  rcases h with _ | _ | _ | ⟨-, -, -, labels, -, violation⟩
  cases violation with
  | @character first last b length bytes allowed disallowed =>
    obtain ⟨rest, hrest⟩ := eq_dotted_append labels
    obtain ⟨dots, hdots⟩ := exists_withoutRootDot_append name
    refine ⟨b, ?_, disallowed⟩
    rw [← hdots, hrest, List.append_assoc, List.append_assoc, utf8_append, utf8_append, bytes,
      List.append_assoc, List.getElem?_append_right (Nat.le_add_right _ _),
      Nat.add_sub_cancel_left, List.getElem?_append_right (Nat.le_refl _), Nat.sub_self]
    rfl

/-- **Parsing accepts the names of the grammar and no others, and normalizes once.**  An
accepted name is stored trimmed and in lowercase with its final dot, is parsed as itself
from then on, and comes from the texts that agree with it up to white space and case.  A
rejected name is returned with the first rule it violates; an invalid character is given
by its place among the bytes of the trimmed name. -/
theorem parse_accepts_exactly_grammar (s : List Char) :
    ((∃ hostname, parse s = .ok hostname) ↔ HostnameGrammar (trim s)) ∧
    (∀ hostname, parse s = .ok hostname →
      hostname.name = asciiLower (trim s) ∧ parse hostname.name = .ok hostname ∧
      ∀ s', parse s' = .ok hostname ↔ asciiLower (trim s') = asciiLower (trim s)) ∧
    (∀ error, parse s = .error error ↔ error.name = s ∧ FirstViolation (trim s) error.kind) ∧
    ∀ byteIndex, parse s = .error ⟨s, .invalidCharacter byteIndex⟩ →
      ∃ b, (utf8 (trim s))[byteIndex]? = some b ∧ isLabelByte b = false := by
  refine ⟨⟨?_, fun h => ?_⟩, fun hostname h => ?_, fun error => parse_eq_error, fun i h => ?_⟩
  · rintro ⟨hostname, h⟩
    exact (parse_eq_ok.mp h).1
  · exact ⟨_, parse_of_ok (check_eq_ok.mpr h)⟩
  · obtain ⟨hgrammar, hname⟩ := parse_eq_ok.mp h
    refine ⟨hname, parse_name hostname, fun s' => ?_⟩
    rw [parse_eq_ok, hname]
    constructor
    · exact fun h' => h'.2.symm
    · exact fun hcase => ⟨grammar_of_asciiLower_eq hcase hgrammar, hcase.symm⟩
  · exact byte_of_invalidCharacter (parse_eq_error.mp h).2

end Hostname

end TransactionLog
