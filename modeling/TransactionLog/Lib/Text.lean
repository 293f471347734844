import Mathlib.Algebra.Order.Ring.Nat
import Mathlib.Data.List.DropRight

/-!
# Text

A text is the list of its characters, `utf8` its bytes.  `trim` takes white space off
both ends, and case is that of ASCII letters.
-/

namespace Lib

/-- The bytes of a text. -/
def utf8 (s : List Char) : List UInt8 := s.flatMap String.utf8EncodeChar

/-- Unicode's `White_Space`. -/
def isWhitespace (c : Char) : Bool :=
  let n := c.toNat
  (9 ≤ n && n ≤ 13) || n == 0x20 || n == 0x85 || n == 0xA0 || n == 0x1680 ||
    (0x2000 ≤ n && n ≤ 0x200A) || n == 0x2028 || n == 0x2029 || n == 0x202F || n == 0x205F ||
    n == 0x3000

def trim (s : List Char) : List Char := (s.dropWhile isWhitespace).rdropWhile isWhitespace

def asciiLower (s : List Char) : List Char := s.map Char.toLower

def isAsciiAlphanumeric (b : UInt8) : Bool :=
  (65 ≤ b.toNat && b.toNat ≤ 90) || (97 ≤ b.toNat && b.toNat ≤ 122) ||
    (48 ≤ b.toNat && b.toNat ≤ 57)

/-! ### Bytes -/

@[simp] theorem utf8_nil : utf8 [] = [] := rfl

theorem utf8_cons (c : Char) (s : List Char) : utf8 (c :: s) = String.utf8EncodeChar c ++ utf8 s :=
  rfl

theorem utf8_append (s t : List Char) : utf8 (s ++ t) = utf8 s ++ utf8 t := List.flatMap_append

theorem utf8EncodeChar_of_lt {c : Char} (h : c.toNat < 128) :
    String.utf8EncodeChar c = [UInt8.ofNat c.toNat] := by
  have hle : c.val.toNat ≤ 0x7f := Nat.le_of_lt_succ h
  rw [String.utf8EncodeChar]
  simp only [if_pos hle]
  rfl

/-- The first byte of a character outside ASCII is not an ASCII byte. -/
theorem utf8EncodeChar_of_le {c : Char} (h : 128 ≤ c.toNat) :
    ∃ b bs, String.utf8EncodeChar c = b :: bs ∧ 128 ≤ b.toNat := by
  have hgt : ¬ c.val.toNat ≤ 0x7f := Nat.not_le.mpr h
  rw [String.utf8EncodeChar]
  simp only [if_neg hgt]
  split
  · refine ⟨_, _, rfl, ?_⟩
    rw [UInt8.toNat_ofNat']
    omega
  · split
    · refine ⟨_, _, rfl, ?_⟩
      rw [UInt8.toNat_ofNat']
      omega
    · refine ⟨_, _, rfl, ?_⟩
      rw [UInt8.toNat_ofNat']
      omega

theorem utf8_eq_nil {s : List Char} : utf8 s = [] ↔ s = [] := by
  constructor
  · intro h
    cases s with
    | nil => rfl
    | cons c s =>
      rw [utf8_cons, List.append_eq_nil_iff] at h
      exact absurd h.1 String.utf8EncodeChar_ne_nil
  · rintro rfl
    rfl

/-- A text of ASCII characters has one byte for each. -/
theorem utf8_of_lt {s : List Char} (h : ∀ c ∈ s, c.toNat < 128) :
    utf8 s = s.map fun c => UInt8.ofNat c.toNat := by
  induction s with
  | nil => rfl
  | cons c s ih =>
    rw [utf8_cons, utf8EncodeChar_of_lt (h c List.mem_cons_self),
      ih fun d hd => h d (List.mem_cons_of_mem c hd)]
    rfl

/-- Bytes that are all of an ASCII kind are those of characters of the kind. -/
theorem forall_mem_utf8 {P : UInt8 → Prop} (hP : ∀ b, P b → b.toNat < 128) {s : List Char} :
    (∀ b ∈ utf8 s, P b) ↔ ∀ c ∈ s, c.toNat < 128 ∧ P (UInt8.ofNat c.toNat) := by
  constructor
  · intro h c hc
    have hbytes : ∀ b ∈ String.utf8EncodeChar c, P b :=
      fun b hb => h b (List.mem_flatMap.mpr ⟨c, hc, hb⟩)
    by_cases hlt : c.toNat < 128
    · rw [utf8EncodeChar_of_lt hlt] at hbytes
      exact ⟨hlt, hbytes _ (List.mem_singleton_self _)⟩
    · obtain ⟨b, bs, heq, hb⟩ := utf8EncodeChar_of_le (Nat.not_lt.mp hlt)
      rw [heq] at hbytes
      exact absurd (hP b (hbytes b List.mem_cons_self)) (Nat.not_lt.mpr hb)
  · intro h b hb
    rw [utf8_of_lt fun c hc => (h c hc).1] at hb
    obtain ⟨c, hc, rfl⟩ := List.mem_map.mp hb
    exact (h c hc).2

/-- The first element without a property, where not all have it. -/
theorem exists_first_not {α : Type} {P : α → Prop} {xs : List α} (h : ¬ ∀ x ∈ xs, P x) :
    ∃ before a after, xs = before ++ a :: after ∧ ¬ P a ∧ ∀ x ∈ before, P x := by
  induction xs with
  | nil => exact absurd (fun x hx => absurd hx List.not_mem_nil) h
  | cons x xs ih =>
    by_cases hx : P x
    · obtain ⟨before, a, after, rfl, ha, hbefore⟩ := ih fun hxs => h fun y hy => by
        rcases List.mem_cons.mp hy with rfl | hy
        · exact hx
        · exact hxs y hy
      refine ⟨x :: before, a, after, rfl, ha, fun y hy => ?_⟩
      rcases List.mem_cons.mp hy with rfl | hy
      · exact hx
      · exact hbefore y hy
    · exact ⟨[], x, xs, rfl, hx, by simp⟩

theorem findIdx?_append_cons {α : Type} {p : α → Bool} {before after : List α} {a : α}
    (ha : p a = true) (hbefore : ∀ x ∈ before, p x = false) :
    (before ++ a :: after).findIdx? p = some before.length := by
  rw [List.findIdx?_append, List.findIdx?_eq_none_iff.mpr hbefore, List.findIdx?_cons, if_pos ha,
    Option.map_some, Nat.zero_add]
  rfl

/-! ### Trimming -/

theorem trim_infix (s : List Char) : trim s <:+: s := by
  have hend := List.rdropWhile_prefix isWhitespace (s.dropWhile isWhitespace)
  exact hend.isInfix.trans (List.dropWhile_suffix _).isInfix

/-- A text as long as its trimmed form has nothing to trim. -/
theorem trim_eq_of_length {s : List Char} (h : (utf8 (trim s)).length = (utf8 s).length) :
    trim s = s := by
  obtain ⟨a, b, hs⟩ := trim_infix s
  have hlen := congrArg (fun s => (utf8 s).length) hs
  simp only [utf8_append, List.length_append] at hlen
  have ha : a = [] := utf8_eq_nil.mp (List.length_eq_zero_iff.mp (by omega))
  have hb : b = [] := utf8_eq_nil.mp (List.length_eq_zero_iff.mp (by omega))
  rw [ha, hb, List.nil_append, List.append_nil] at hs
  exact hs

theorem trim_eq_self {s : List Char} (h : ∀ c ∈ s, isWhitespace c = false) : trim s = s := by
  have hdrop : s.dropWhile isWhitespace = s := by
    cases s with
    | nil => rfl
    | cons c s => rw [List.dropWhile_cons_of_neg (by rw [h c List.mem_cons_self]; simp)]
  rw [trim, hdrop, List.rdropWhile_eq_self_iff]
  intro hne
  rw [h _ (List.getLast_mem hne)]
  simp

/-! ### Characters -/

theorem isAlphanum_iff {c : Char} : c.isAlphanum = true ↔
    65 ≤ c.toNat ∧ c.toNat ≤ 90 ∨ 97 ≤ c.toNat ∧ c.toNat ≤ 122 ∨
      48 ≤ c.toNat ∧ c.toNat ≤ 57 := by
  have hclasses : c.isAlphanum = (decide ('A'.val ≤ c.val ∧ c.val ≤ 'Z'.val) ||
      (decide ('a'.val ≤ c.val) && decide (c.val ≤ 'z'.val)) ||
      (decide ('0'.val ≤ c.val) && decide (c.val ≤ '9'.val))) := rfl
  rw [hclasses]
  simp only [Bool.or_eq_true, Bool.and_eq_true, decide_eq_true_eq, UInt32.le_iff_toNat_le, or_assoc]
  rfl

theorem isAsciiAlphanumeric_iff {b : UInt8} : isAsciiAlphanumeric b = true ↔
    65 ≤ b.toNat ∧ b.toNat ≤ 90 ∨ 97 ≤ b.toNat ∧ b.toNat ≤ 122 ∨
      48 ≤ b.toNat ∧ b.toNat ≤ 57 := by
  simp only [isAsciiAlphanumeric, Bool.or_eq_true, Bool.and_eq_true, decide_eq_true_eq, or_assoc]

theorem isAsciiAlphanumeric_ofNat {c : Char} (h : c.toNat < 128) :
    isAsciiAlphanumeric (UInt8.ofNat c.toNat) = c.isAlphanum := by
  have hmod : (UInt8.ofNat c.toNat).toNat = c.toNat := by
    rw [UInt8.toNat_ofNat']
    omega
  rw [Bool.eq_iff_iff, isAsciiAlphanumeric_iff, isAlphanum_iff, hmod]

theorem toNat_toLower (c : Char) :
    c.toLower.toNat = if 65 ≤ c.toNat ∧ c.toNat ≤ 90 then c.toNat + 32 else c.toNat := by
  have hupper : (c.val ≥ 'A'.val ∧ c.val ≤ 'Z'.val) ↔ 65 ≤ c.toNat ∧ c.toNat ≤ 90 := by
    simp only [ge_iff_le, UInt32.le_iff_toNat_le]
    rfl
  by_cases h : c.val ≥ 'A'.val ∧ c.val ≤ 'Z'.val
  · have hn := hupper.mp h
    have hval : c.toLower.val = c.val + ('a'.val - 'A'.val) := congrArg Char.val (dif_pos h)
    have hstep : ('a'.val - 'A'.val).toNat = 32 := rfl
    have hlt : c.val.toNat ≤ 90 := hn.2
    rw [if_pos hn]
    show c.toLower.val.toNat = c.val.toNat + 32
    rw [hval, UInt32.toNat_add, hstep]
    exact Nat.mod_eq_of_lt (by omega)
  · have hsame : c.toLower = c := dif_neg h
    rw [hsame, if_neg fun hn => h (hupper.mpr hn)]

theorem toLower_eq_iff {c d : Char} (hd : ¬ (97 ≤ d.toNat ∧ d.toNat ≤ 122))
    (hd' : ¬ (65 ≤ d.toNat ∧ d.toNat ≤ 90)) : c.toLower = d ↔ c = d := by
  rw [← Char.toNat_inj, ← Char.toNat_inj, toNat_toLower]
  split
  · omega
  · rfl

theorem isAlphanum_toLower {c : Char} : c.toLower.isAlphanum = true ↔ c.isAlphanum = true := by
  rw [isAlphanum_iff, isAlphanum_iff, toNat_toLower]
  split
  · omega
  · rfl

/-- Case does not change the number of bytes. -/
theorem length_utf8_asciiLower (s : List Char) :
    (utf8 (asciiLower s)).length = (utf8 s).length := by
  induction s with
  | nil => rfl
  | cons c s ih =>
    have hchar : (String.utf8EncodeChar c.toLower).length = (String.utf8EncodeChar c).length := by
      by_cases h : 65 ≤ c.toNat ∧ c.toNat ≤ 90
      · rw [utf8EncodeChar_of_lt, utf8EncodeChar_of_lt (c := c) (by omega)]
        · rfl
        · rw [toNat_toLower, if_pos h]
          omega
      · have hsame : c.toLower = c := by
          rw [← Char.toNat_inj, toNat_toLower, if_neg h]
        rw [hsame]
    rw [asciiLower, List.map_cons, utf8_cons, utf8_cons, List.length_append, List.length_append,
      hchar, ← asciiLower, ih]

@[simp] theorem asciiLower_asciiLower (s : List Char) : asciiLower (asciiLower s) = asciiLower s := by
  rw [asciiLower, asciiLower, List.map_map]
  refine List.map_congr_left fun c _ => ?_
  rw [Function.comp, ← Char.toNat_inj, toNat_toLower c.toLower, if_neg]
  rw [toNat_toLower]
  split
  · omega
  · assumption

end Lib
