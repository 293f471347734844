import Mathlib.Algebra.Order.Ring.Nat
import Mathlib.Data.List.Induction
import Mathlib.Data.List.Infix

/-!
# Decimal text

`digits w n` are the last `w` decimal digits of `n` as ASCII text, `decimal n` is
`n` without leading zeros, and `numberOf` reads either back.  `parseDecimal` takes
a number off the front of a text.
-/

namespace Lib

/-- ASCII text. -/
def ascii (s : String) : List UInt8 := s.toList.map fun c => UInt8.ofNat c.toNat

def isDigit (b : UInt8) : Bool := 48 ≤ b.toNat && b.toNat ≤ 57

def digit (n : Nat) : UInt8 := UInt8.ofNat (48 + n % 10)

def digits : Nat → Nat → List UInt8
  | 0, _ => []
  | w + 1, n => digits w (n / 10) ++ [digit n]

def numberOf (text : List UInt8) : Nat := text.foldl (fun n b => 10 * n + (b.toNat - 48)) 0

theorem toNat_digit (n : Nat) : (digit n).toNat = 48 + n % 10 := by
  rw [digit, UInt8.toNat_ofNat']
  omega

theorem isDigit_digit (n : Nat) : isDigit (digit n) = true := by
  rw [isDigit, toNat_digit, Bool.and_eq_true, decide_eq_true_eq, decide_eq_true_eq]
  omega

theorem isDigit_iff {b : UInt8} : isDigit b = true ↔ 48 ≤ b.toNat ∧ b.toNat ≤ 57 := by
  rw [isDigit, Bool.and_eq_true, decide_eq_true_eq, decide_eq_true_eq]

theorem digit_of_isDigit {b : UInt8} (h : isDigit b = true) (n : Nat) :
    digit (10 * n + (b.toNat - 48)) = b := by
  rw [isDigit_iff] at h
  apply UInt8.toNat_inj.mp
  rw [toNat_digit]
  omega

@[simp] theorem length_digits : ∀ w n, (digits w n).length = w
  | 0, _ => rfl
  | w + 1, n => by rw [digits, List.length_append, length_digits w, List.length_singleton]

theorem isDigit_of_mem_digits : ∀ w n, ∀ b ∈ digits w n, isDigit b = true
  | 0, _ => by simp [digits]
  | w + 1, n => by
    intro b hb
    rcases List.mem_append.mp hb with hb | hb
    · exact isDigit_of_mem_digits w _ b hb
    · obtain rfl := List.mem_singleton.mp hb
      exact isDigit_digit n

theorem numberOf_append_singleton (text : List UInt8) (b : UInt8) :
    numberOf (text ++ [b]) = 10 * numberOf text + (b.toNat - 48) := by
  rw [numberOf, List.foldl_append]
  rfl

theorem numberOf_digits : ∀ w n, numberOf (digits w n) = n % 10 ^ w
  | 0, n => by rw [Nat.pow_zero, Nat.mod_one]; rfl
  | w + 1, n => by
    rw [digits, numberOf_append_singleton, numberOf_digits w, toNat_digit, Nat.pow_succ', Nat.mod_mul]
    omega

theorem numberOf_digits_of_lt {w n : Nat} (h : n < 10 ^ w) : numberOf (digits w n) = n := by
  rw [numberOf_digits, Nat.mod_eq_of_lt h]

/-- Text made of digits is the digits of its number. -/
theorem digits_numberOf (text : List UInt8) : (∀ b ∈ text, isDigit b = true) →
    digits text.length (numberOf text) = text := by
  induction text using List.reverseRecOn with
  | nil => exact fun _ => rfl
  | append_singleton text b ih =>
    intro h
    have hb : isDigit b = true := h b (by simp)
    have hlt := isDigit_iff.mp hb
    have hdiv : (10 * numberOf text + (b.toNat - 48)) / 10 = numberOf text := by omega
    rw [List.length_append, List.length_singleton, digits, numberOf_append_singleton, hdiv,
      digit_of_isDigit hb, ih fun b' hb' => h b' (List.mem_append_left _ hb')]

theorem numberOf_lt (text : List UInt8) (h : ∀ b ∈ text, isDigit b = true) :
    numberOf text < 10 ^ text.length := by
  have := numberOf_digits text.length (numberOf text)
  rw [digits_numberOf text h] at this
  rw [this]
  exact Nat.mod_lt _ (Nat.pow_pos (by decide))

theorem digits_injective {w n m : Nat} (hn : n < 10 ^ w) (hm : m < 10 ^ w)
    (h : digits w n = digits w m) : n = m := by
  rw [← numberOf_digits_of_lt hn, h, numberOf_digits_of_lt hm]

/-- The digits of a number in two groups. -/
theorem digits_add : ∀ v w n, digits (w + v) n = digits w (n / 10 ^ v) ++ digits v (n % 10 ^ v)
  | 0, w, n => by rw [Nat.pow_zero, Nat.div_one, digits, List.append_nil]; rfl
  | v + 1, w, n => by
    have hdigit : digit (n % 10 ^ (v + 1)) = digit n := by
      apply UInt8.toNat_inj.mp
      rw [toNat_digit, toNat_digit, Nat.pow_succ', Nat.mod_mul_right_mod]
    have hdiv : n / 10 / 10 ^ v = n / 10 ^ (v + 1) := by rw [Nat.div_div_eq_div_mul, Nat.pow_succ']
    have hmod : n / 10 % 10 ^ v = n % 10 ^ (v + 1) / 10 := by
      rw [Nat.pow_succ', Nat.mod_mul_right_div_self]
    rw [← Nat.add_assoc, digits, digits_add v w, digits, hdigit, hdiv, hmod, List.append_assoc]

/-! ### Numbers without leading zeros -/

def decimalFrom : Nat → Nat → List UInt8
  | 0, _ => []
  | fuel + 1, n => if n < 10 then [digit n] else decimalFrom fuel (n / 10) ++ [digit n]

def decimal (n : Nat) : List UInt8 := decimalFrom (n + 1) n

theorem decimalFrom_eq : ∀ fuel n, n < fuel →
    ∃ w, 0 < w ∧ n < 10 ^ w ∧ (w = 1 ∨ 10 ^ (w - 1) ≤ n) ∧ decimalFrom fuel n = digits w n := by
  intro fuel
  induction fuel with
  | zero => exact fun n h => absurd h (Nat.not_lt_zero n)
  | succ fuel ih =>
    intro n hn
    rw [decimalFrom]
    by_cases hsmall : n < 10
    · rw [if_pos hsmall]
      exact ⟨1, Nat.one_pos, by simpa using hsmall, .inl rfl, rfl⟩
    · rw [if_neg hsmall]
      obtain ⟨w, hpos, hlt, hge, heq⟩ := ih (n / 10) (by omega)
      refine ⟨w + 1, Nat.succ_pos w, ?_, .inr ?_, by rw [heq, digits]⟩
      · rw [Nat.pow_succ]
        omega
      · rw [Nat.add_sub_cancel]
        rcases hge with rfl | hge
        · rw [Nat.pow_one]
          omega
        · have hw : w - 1 + 1 = w := Nat.sub_add_cancel hpos
          rw [← hw, Nat.pow_succ]
          omega

theorem decimal_eq (n : Nat) :
    ∃ w, 0 < w ∧ n < 10 ^ w ∧ (w = 1 ∨ 10 ^ (w - 1) ≤ n) ∧ decimal n = digits w n :=
  decimalFrom_eq (n + 1) n (Nat.lt_succ_self n)

theorem numberOf_decimal (n : Nat) : numberOf (decimal n) = n := by
  obtain ⟨w, -, hlt, -, heq⟩ := decimal_eq n
  rw [heq, numberOf_digits_of_lt hlt]

theorem isDigit_of_mem_decimal (n : Nat) : ∀ b ∈ decimal n, isDigit b = true := by
  obtain ⟨w, -, -, -, heq⟩ := decimal_eq n
  rw [heq]
  exact isDigit_of_mem_digits w n

theorem decimal_ne_nil (n : Nat) : decimal n ≠ [] := by
  obtain ⟨w, hpos, -, -, heq⟩ := decimal_eq n
  rw [heq]
  exact List.ne_nil_of_length_pos (by rw [length_digits]; exact hpos)

theorem length_decimal_le {n w : Nat} (hw : 0 < w) (h : n < 10 ^ w) : (decimal n).length ≤ w := by
  obtain ⟨v, -, -, hge, heq⟩ := decimal_eq n
  rw [heq, length_digits]
  rcases hge with rfl | hge
  · exact hw
  · by_contra hlt
    have := Nat.pow_le_pow_right (n := 10) (by decide) (show w ≤ v - 1 by omega)
    omega

/-- A number at the front of a text, and what follows it. -/
def parseDecimal (text : List UInt8) : Option (Nat × List UInt8) :=
  if text.takeWhile isDigit = [] then none
  else some (numberOf (text.takeWhile isDigit), text.dropWhile isDigit)

theorem parseDecimal_decimal (n : Nat) {b : UInt8} (hb : isDigit b = false) (rest : List UInt8) :
    parseDecimal (decimal n ++ b :: rest) = some (n, b :: rest) := by
  have hall := isDigit_of_mem_decimal n
  have htake : (decimal n ++ b :: rest).takeWhile isDigit = decimal n := by
    rw [List.takeWhile_append_of_pos hall, List.takeWhile_cons_of_neg (by simp [hb]),
      List.append_nil]
  have hdrop : (decimal n ++ b :: rest).dropWhile isDigit = b :: rest := by
    rw [List.dropWhile_append_of_pos hall, List.dropWhile_cons_of_neg (by simp [hb])]
  rw [parseDecimal, htake, hdrop, if_neg (decimal_ne_nil n), numberOf_decimal]

/-- What follows a given beginning. -/
def stripLiteral (literal text : List UInt8) : Option (List UInt8) :=
  if literal.isPrefixOf text then some (text.drop literal.length) else none

theorem stripLiteral_append (literal text : List UInt8) :
    stripLiteral literal (literal ++ text) = some text := by
  rw [stripLiteral, if_pos (List.isPrefixOf_iff_prefix.mpr (List.prefix_append _ _)),
    List.drop_left]

end Lib
