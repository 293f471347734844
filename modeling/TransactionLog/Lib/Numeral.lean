import TransactionLog.Lib.Decimal

/-!
# Numerals of fixed width

`IsNumeral` says that the texts of the numbers below a bound are all of one length and
stand in lexicographic order as the numbers do.  Writing a number in a base, digit by
digit, keeps this (`IsNumeral.positional`), whatever the texts of the digits are.
-/

namespace Lib

section Numeral

variable {α : Type} {r : α → α → Prop}

/-- The order of texts of one length is decided by their beginnings first. -/
theorem append_lex_append_iff {a b c d : List α} (h : a.length = b.length) :
    List.Lex r (a ++ c) (b ++ d) ↔ List.Lex r a b ∨ a = b ∧ List.Lex r c d := by
  induction a generalizing b with
  | nil =>
    obtain rfl := List.length_eq_zero_iff.mp h.symm
    simp
  | cons x a ih =>
    cases b with
    | nil => cases h
    | cons y b =>
      rw [List.cons_append, List.cons_append, List.cons_lex_cons_iff, List.cons_lex_cons_iff,
        ih (Nat.succ.inj h), List.cons.injEq]
      tauto

/-- The texts of the numbers below `bound`. -/
structure IsNumeral (r : α → α → Prop) (bound : Nat) (text : Nat → List α) : Prop where
  length : ∀ m n, (text m).length = (text n).length
  inj : ∀ m n, m < bound → n < bound → text m = text n → m = n
  lex_iff : ∀ m n, m < bound → n < bound → (List.Lex r (text m) (text n) ↔ m < n)

/-- A number in a base: the texts of its last digits, the highest first. -/
def positional (base : Nat) (text : Nat → List α) : Nat → Nat → List α
  | 0, _ => []
  | width + 1, n => positional base text width (n / base) ++ text (n % base)

variable {base bound : Nat} {text : Nat → List α}

theorem length_positional (h : ∀ m n, (text m).length = (text n).length) (width : Nat) :
    ∀ m n, (positional base text width m).length = (positional base text width n).length := by
  induction width with
  | zero => exact fun _ _ => rfl
  | succ width ih =>
    intro m n
    rw [positional, positional, List.length_append, List.length_append, ih (m / base) (n / base),
      h (m % base) (n % base)]

/-- Numbers are compared by their quotients first. -/
theorem div_mod_lt_iff {b m n : Nat} : m / b < n / b ∨ m / b = n / b ∧ m % b < n % b ↔ m < n := by
  have hm := Nat.div_add_mod m b
  have hn := Nat.div_add_mod n b
  constructor
  · rintro (h | ⟨h, h'⟩)
    · by_contra hle
      exact absurd (Nat.div_le_div_right (c := b) (Nat.not_lt.mp hle)) (Nat.not_le.mpr h)
    · rw [h] at hm
      omega
  · intro h
    rcases Nat.lt_or_eq_of_le (Nat.div_le_div_right (c := b) (Nat.le_of_lt h)) with hlt | heq
    · exact .inl hlt
    · rw [heq] at hm
      exact .inr ⟨heq, by omega⟩

/-- By induction on the width, from the last digit: the digits before it are compared
first. -/
theorem IsNumeral.positional (h : IsNumeral r base text) (hbase : 0 < base) (width : Nat) :
    IsNumeral r (base ^ width) (positional base text width) := by
  induction width with
  | zero =>
    refine ⟨fun _ _ => rfl, fun m n hm hn _ => ?_, fun m n hm hn => ?_⟩
    · rw [Nat.pow_zero] at hm hn
      omega
    · rw [Nat.pow_zero] at hm hn
      rw [Lib.positional, Lib.positional]
      refine iff_of_false ?_ (by omega)
      intro h
      cases h
  | succ width ih =>
    have hdiv : ∀ {n}, n < base ^ (width + 1) → n / base < base ^ width := by
      intro n hn
      rw [Nat.pow_succ] at hn
      exact Nat.div_lt_of_lt_mul (Nat.mul_comm _ _ ▸ hn)
    have hmod : ∀ n, n % base < base := fun n => Nat.mod_lt n hbase
    refine ⟨length_positional h.length _, fun m n hm hn heq => ?_, fun m n hm hn => ?_⟩
    · obtain ⟨hhigh, hlow⟩ := List.append_inj heq (ih.length _ _)
      have hhigh := ih.inj _ _ (hdiv hm) (hdiv hn) hhigh
      have hlow := h.inj _ _ (hmod m) (hmod n) hlow
      rw [← Nat.div_add_mod m base, ← Nat.div_add_mod n base, hhigh, hlow]
    · rw [Lib.positional, Lib.positional, append_lex_append_iff (ih.length _ _),
        ih.lex_iff _ _ (hdiv hm) (hdiv hn), h.lex_iff _ _ (hmod m) (hmod n)]
      have hhigh : Lib.positional base text width (m / base) =
          Lib.positional base text width (n / base) ↔ m / base = n / base :=
        ⟨ih.inj _ _ (hdiv hm) (hdiv hn), congrArg _⟩
      rw [hhigh]
      exact div_mod_lt_iff

/-- A numeral of a number's quotient, with texts behind it that are ordered as the numbers
are. -/
theorem IsNumeral.quotient_lex_iff (h : IsNumeral r bound text) {b m n : Nat} {c d : List α}
    (hm : m / b < bound) (hn : n / b < bound) (hlow : List.Lex r c d ↔ m < n) :
    List.Lex r (text (m / b) ++ c) (text (n / b) ++ d) ↔ m < n := by
  have hhigh : text (m / b) = text (n / b) ↔ m / b = n / b := ⟨h.inj _ _ hm hn, congrArg text⟩
  rw [append_lex_append_iff (h.length _ _), h.lex_iff _ _ hm hn, hhigh, hlow]
  constructor
  · rintro (hlt | ⟨-, hlt⟩)
    · exact div_mod_lt_iff.mp (.inl hlt)
    · exact hlt
  · intro hlt
    rcases div_mod_lt_iff (b := b).mpr hlt with hdiv | ⟨hdiv, -⟩
    · exact .inl hdiv
    · exact .inr ⟨hdiv, hlt⟩

theorem IsNumeral.congr {text' : Nat → List α} (h : IsNumeral r bound text)
    (heq : ∀ n, text' n = text n) : IsNumeral r bound text' := by
  rw [funext heq]
  exact h

/-- Each text as one element of a longer one. -/
theorem IsNumeral.singleton (h : IsNumeral r bound text) :
    IsNumeral (List.Lex r) bound fun n => [text n] := by
  refine ⟨fun _ _ => rfl, fun m n hm hn heq => h.inj m n hm hn (List.cons.inj heq).1, ?_⟩
  intro m n hm hn
  rw [List.cons_lex_cons_iff, h.lex_iff m n hm hn]
  refine or_iff_left ?_
  rintro ⟨-, h⟩
  cases h

/-- Each text with the same one behind it. -/
theorem IsNumeral.append_const (h : IsNumeral r bound text) (hirrefl : ∀ s, ¬ List.Lex r s s)
    (suffix : List α) : IsNumeral r bound fun n => text n ++ suffix := by
  refine ⟨fun m n => ?_, fun m n hm hn heq => ?_, fun m n hm hn => ?_⟩
  · rw [List.length_append, List.length_append, h.length m n]
  · exact h.inj m n hm hn (List.append_cancel_right heq)
  · rw [append_lex_append_iff (h.length m n), h.lex_iff m n hm hn]
    exact or_iff_left fun h => hirrefl _ h.2

end Numeral

/-! ### Decimal digits -/

def byteLt (a b : UInt8) : Prop := a.toNat < b.toNat

theorem not_lex_self : ∀ s : List UInt8, ¬ List.Lex byteLt s s := by
  intro s
  induction s with
  | nil =>
    intro h
    cases h
  | cons b s ih =>
    rw [List.cons_lex_cons_iff]
    rintro (h | ⟨-, h⟩)
    · exact Nat.lt_irrefl _ h
    · exact ih h

theorem isNumeral_digit : IsNumeral byteLt 10 fun n => [digit n] := by
  refine ⟨fun _ _ => rfl, fun m n hm hn heq => ?_, fun m n hm hn => ?_⟩
  · have h := congrArg UInt8.toNat (List.cons.inj heq).1
    rw [toNat_digit, toNat_digit] at h
    omega
  · rw [List.cons_lex_cons_iff, byteLt, toNat_digit, toNat_digit]
    constructor
    · rintro (h | ⟨-, h⟩)
      · omega
      · cases h
    · intro h
      exact .inl (by omega)

theorem digits_eq_positional : ∀ width n, digits width n = positional 10 (fun n => [digit n]) width n
  | 0, _ => rfl
  | width + 1, n => by
    have hdigit : digit n = digit (n % 10) := by
      rw [digit, digit, Nat.mod_mod]
    rw [digits, positional, digits_eq_positional width, hdigit]

theorem isNumeral_digits (width : Nat) : IsNumeral byteLt (10 ^ width) (digits width) :=
  (isNumeral_digit.positional (by decide) width).congr (digits_eq_positional width)

end Lib
