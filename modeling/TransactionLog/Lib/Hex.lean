import TransactionLog.Lib.Decimal

/-!
# Hexadecimal text

`hex bytes` writes each byte as two lowercase digits, and `parseHex` reads such text
back.  `untilQuote` takes the text before a quotation mark off the front of another.
-/

namespace Lib

def hexDigit (n : Nat) : UInt8 := if n < 10 then UInt8.ofNat (48 + n) else UInt8.ofNat (87 + n)

def hexValue (b : UInt8) : Option Nat :=
  if 48 ≤ b.toNat ∧ b.toNat ≤ 57 then some (b.toNat - 48)
  else if 97 ≤ b.toNat ∧ b.toNat ≤ 102 then some (b.toNat - 87)
  else none

def hex (bytes : List UInt8) : List UInt8 :=
  bytes.flatMap fun b => [hexDigit (b.toNat / 16), hexDigit (b.toNat % 16)]

def parseHex : List UInt8 → Option (List UInt8)
  | [] => some []
  | [_] => none
  | high :: low :: text => do
    let h ← hexValue high
    let l ← hexValue low
    let bytes ← parseHex text
    return UInt8.ofNat (16 * h + l) :: bytes

theorem hexValue_hexDigit : ∀ n < 16, hexValue (hexDigit n) = some n := by decide

theorem hexDigit_plain : ∀ n < 16, 32 ≤ (hexDigit n).toNat ∧ (hexDigit n).toNat ≠ 34 ∧
    (hexDigit n).toNat ≠ 45 ∧ (hexDigit n).toNat ≠ 92 := by decide

theorem hex_cons (b : UInt8) (bytes : List UInt8) :
    hex (b :: bytes) = hexDigit (b.toNat / 16) :: hexDigit (b.toNat % 16) :: hex bytes := rfl

theorem hex_append (bytes bytes' : List UInt8) : hex (bytes ++ bytes') = hex bytes ++ hex bytes' :=
  List.flatMap_append

@[simp] theorem length_hex (bytes : List UInt8) : (hex bytes).length = 2 * bytes.length := by
  induction bytes with
  | nil => rfl
  | cons b bytes ih =>
    rw [hex_cons, List.length_cons, List.length_cons, ih, List.length_cons]
    omega

theorem parseHex_hex (bytes : List UInt8) : parseHex (hex bytes) = some bytes := by
  induction bytes with
  | nil => rfl
  | cons b bytes ih =>
    have hb := b.toNat_lt
    have hhigh := hexValue_hexDigit (b.toNat / 16) (by omega)
    have hlow := hexValue_hexDigit (b.toNat % 16) (by omega)
    have hsum : 16 * (b.toNat / 16) + b.toNat % 16 = b.toNat := Nat.div_add_mod _ _
    rw [hex_cons, parseHex, hhigh, hlow, ih]
    simp only [Option.bind_eq_bind, Option.bind_some, hsum, UInt8.ofNat_toNat]
    rfl

/-- No digit is a quotation mark, a hyphen or a character that a string escapes. -/
theorem hex_plain {bytes : List UInt8} : ∀ b ∈ hex bytes,
    32 ≤ b.toNat ∧ b.toNat ≠ 34 ∧ b.toNat ≠ 45 ∧ b.toNat ≠ 92 := by
  induction bytes with
  | nil => exact fun b hb => absurd hb List.not_mem_nil
  | cons x bytes ih =>
    have hx := x.toNat_lt
    intro b hb
    rw [hex_cons] at hb
    rcases List.mem_cons.mp hb with rfl | hb
    · exact hexDigit_plain _ (by omega)
    rcases List.mem_cons.mp hb with rfl | hb
    · exact hexDigit_plain _ (by omega)
    · exact ih b hb

/-- The text before the first quotation mark, and the text from it on. -/
def untilQuote (text : List UInt8) : List UInt8 × List UInt8 :=
  (text.takeWhile (· != 34), text.dropWhile (· != 34))

theorem untilQuote_append {text : List UInt8} (h : ∀ b ∈ text, b.toNat ≠ 34) (rest : List UInt8) :
    untilQuote (text ++ 34 :: rest) = (text, 34 :: rest) := by
  have hall : ∀ b ∈ text, (b != 34) = true := by
    intro b hb
    rw [bne_iff_ne]
    rintro rfl
    exact h 34 hb rfl
  rw [untilQuote, List.takeWhile_append_of_pos hall, List.dropWhile_append_of_pos hall,
    List.takeWhile_cons_of_neg (by decide), List.dropWhile_cons_of_neg (by decide),
    List.append_nil]

end Lib
