import Mathlib.Logic.Function.Iterate
import TransactionLog.Lib.Bytes

/-!
# Cyclic redundancy checks

A register of `w` bits takes bytes in, lowest bit first: each bit shifts it to the
right by one, and adds the polynomial `poly` if a one was shifted out (the
reflected form, in which the top bit of `poly` is the constant coefficient).

`shift` is linear over exclusive or, and injective where the top bit of `poly` is
set.  So `run_burst` holds: two byte sequences that differ only within `w` bits
leave different registers.  `run_trailer` says which trailer makes the register
the same one for every content.
-/

namespace Lib.Crc

variable {w : Nat} (poly : BitVec w)

def shift (r : BitVec w) : BitVec w := if r.getLsbD 0 then r >>> 1 ^^^ poly else r >>> 1

/-- Takes in one byte. -/
def feed (r : BitVec w) (b : UInt8) : BitVec w := (shift poly)^[8] (r ^^^ b.toBitVec.setWidth w)

def run (r : BitVec w) (bytes : List UInt8) : BitVec w := bytes.foldl (feed poly) r

@[simp] theorem run_nil (r : BitVec w) : run poly r [] = r := rfl

@[simp] theorem run_cons (r : BitVec w) (b : UInt8) (bytes : List UInt8) :
    run poly r (b :: bytes) = run poly (feed poly r b) bytes := rfl

theorem run_append (r : BitVec w) (xs ys : List UInt8) :
    run poly r (xs ++ ys) = run poly (run poly r xs) ys := List.foldl_append

/-! ### The shift is linear -/

theorem xor_xor_xor_cancel (a b p : BitVec w) : a ^^^ p ^^^ (b ^^^ p) = a ^^^ b := by
  rw [BitVec.xor_assoc, ← BitVec.xor_assoc p, BitVec.xor_comm p b, BitVec.xor_assoc b,
    BitVec.xor_self, BitVec.xor_zero]

theorem shift_xor (a b : BitVec w) : shift poly (a ^^^ b) = shift poly a ^^^ shift poly b := by
  unfold shift
  rw [BitVec.getLsbD_xor, BitVec.ushiftRight_xor_distrib]
  cases a.getLsbD 0 <;> cases b.getLsbD 0
  · rfl
  · exact BitVec.xor_assoc _ _ _
  · show a >>> 1 ^^^ b >>> 1 ^^^ poly = a >>> 1 ^^^ poly ^^^ b >>> 1
    rw [BitVec.xor_assoc, BitVec.xor_comm (b >>> 1), ← BitVec.xor_assoc]
  · exact (xor_xor_xor_cancel _ _ _).symm

theorem shift_iterate_xor (n : Nat) (a b : BitVec w) :
    (shift poly)^[n] (a ^^^ b) = (shift poly)^[n] a ^^^ (shift poly)^[n] b := by
  induction n generalizing a b with
  | zero => rfl
  | succ n ih =>
    simp only [Function.iterate_succ_apply]
    rw [shift_xor, ih]

variable {poly}

/-- Nothing is lost: only the empty register is shifted to the empty register. -/
theorem shift_eq_zero (hpoly : poly.msb = true) {r : BitVec w} (h : shift poly r = 0#w) :
    r = 0#w := by
  unfold shift at h
  cases hlow : r.getLsbD 0 with
  | true =>
    -- the top bit comes from the polynomial alone
    rw [hlow, if_pos rfl, BitVec.xor_eq_zero_iff] at h
    have hmsb := congrArg BitVec.msb h
    rw [hpoly, BitVec.msb_ushiftRight] at hmsb
    cases hmsb
  | false =>
    rw [hlow, if_neg (by simp)] at h
    apply BitVec.eq_of_getLsbD_eq
    intro i _
    rw [BitVec.getLsbD_zero]
    cases i with
    | zero => exact hlow
    | succ i =>
      have hbit := congrArg (fun x : BitVec w => x.getLsbD i) h
      simp only [BitVec.getLsbD_ushiftRight, BitVec.getLsbD_zero] at hbit
      rwa [Nat.add_comm] at hbit

theorem shift_injective (hpoly : poly.msb = true) : Function.Injective (shift poly) := by
  intro a b h
  rw [← BitVec.xor_eq_zero_iff]
  apply shift_eq_zero hpoly
  rw [shift_xor, h, BitVec.xor_self]

theorem feed_injective (hpoly : poly.msb = true) (b : UInt8) :
    Function.Injective fun r => feed poly r b := by
  intro r r' h
  exact (BitVec.xor_left_inj _).mp ((shift_injective hpoly).iterate 8 h)

theorem run_injective (hpoly : poly.msb = true) (bytes : List UInt8) :
    Function.Injective fun r => run poly r bytes := by
  induction bytes with
  | nil => exact fun _ _ h => h
  | cons b bytes ih =>
    intro r r' h
    exact feed_injective hpoly b (ih h)

/-! ### A window no longer than the register -/

theorem shift_ofNat_two_mul {n : Nat} (h : 2 * n < 2 ^ w) :
    shift poly (BitVec.ofNat w (2 * n)) = BitVec.ofNat w n := by
  have hlow : (BitVec.ofNat w (2 * n)).getLsbD 0 = false := by
    rw [BitVec.getLsbD_ofNat, Nat.testBit_zero]
    simp
  rw [shift, hlow, if_neg (by simp)]
  apply BitVec.eq_of_toNat_eq
  rw [BitVec.toNat_ushiftRight, BitVec.toNat_ofNat, BitVec.toNat_ofNat, Nat.mod_eq_of_lt h,
    Nat.mod_eq_of_lt (by omega), Nat.shiftRight_eq_div_pow]
  omega

theorem shift_iterate_ofNat (k : Nat) {n : Nat} (h : 2 ^ k * n < 2 ^ w) :
    (shift poly)^[k] (BitVec.ofNat w (2 ^ k * n)) = BitVec.ofNat w n := by
  induction k with
  | zero => rw [Function.iterate_zero_apply, Nat.pow_zero, Nat.one_mul]
  | succ k ih =>
    have hk : 2 ^ (k + 1) * n = 2 * (2 ^ k * n) := by
      rw [Nat.pow_succ, Nat.mul_comm _ 2, Nat.mul_assoc]
    rw [hk] at h ⊢
    rw [Function.iterate_succ_apply, shift_ofNat_two_mul h]
    exact ih (by omega)

/-- A byte and what stands above it do not overlap. -/
theorem ofNat_byte_add (b : UInt8) (n : Nat) :
    BitVec.ofNat w (b.toNat + 256 * n) = b.toBitVec.setWidth w ^^^ BitVec.ofNat w (256 * n) := by
  have hb : b.toNat < 2 ^ 8 := b.toNat_lt
  have hxor : b.toNat + 2 ^ 8 * n = b.toNat ^^^ 2 ^ 8 * n := by
    apply Nat.eq_of_testBit_eq
    intro i
    rw [Nat.add_comm, Nat.testBit_two_pow_mul_add _ hb, Nat.testBit_xor, Nat.testBit_two_pow_mul]
    by_cases hi : i < 8
    · simp [hi, Nat.not_le.mpr hi]
    · have hge : b.toNat.testBit i = false :=
        Nat.testBit_lt_two_pow (Nat.lt_of_lt_of_le hb (Nat.pow_le_pow_right (by omega) (by omega)))
      simp [hi, hge, Nat.le_of_not_lt hi]
  rw [← BitVec.ofNat_toNat, ← BitVec.ofNat_xor]
  exact congrArg (BitVec.ofNat w) hxor

/-- **Bytes that fit into the register** could as well have been added at once. -/
theorem run_eq_shift (r : BitVec w) (bytes : List UInt8) (h : 8 * bytes.length ≤ w) :
    run poly r bytes = (shift poly)^[8 * bytes.length] (r ^^^ BitVec.ofNat w (ofLe bytes)) := by
  induction bytes generalizing r with
  | nil => simp [ofLe]
  | cons b bytes ih =>
    rw [List.length_cons] at h
    have hfits : 256 * ofLe bytes < 2 ^ w := by
      have hlt := ofLe_lt bytes
      have hpow : 256 * 256 ^ bytes.length ≤ 2 ^ w := by
        rw [← Nat.pow_succ', show 256 = 2 ^ 8 from rfl, ← Nat.pow_mul]
        exact Nat.pow_le_pow_right (by omega) h
      omega
    have hshift : (shift poly)^[8] (BitVec.ofNat w (256 * ofLe bytes)) =
        BitVec.ofNat w (ofLe bytes) := shift_iterate_ofNat 8 hfits
    rw [run_cons, ih _ (by omega), feed, ofLe, ofNat_byte_add, ← hshift, ← shift_iterate_xor,
      ← Function.iterate_add_apply, BitVec.xor_assoc, List.length_cons, Nat.mul_succ]

theorem ofLe_injective {u v : List UInt8} (hlen : u.length = v.length) (h : ofLe u = ofLe v) :
    u = v := by
  rw [← toLe_ofLe u, ← toLe_ofLe v, hlen, h]

theorem ofLe_lt_two_pow {bytes : List UInt8} (h : 8 * bytes.length ≤ w) : ofLe bytes < 2 ^ w := by
  have hlt := ofLe_lt bytes
  rw [show 256 = 2 ^ 8 from rfl, ← Nat.pow_mul] at hlt
  exact Nat.lt_of_lt_of_le hlt (Nat.pow_le_pow_right (by omega) h)

/-- **Burst detection**: sequences that differ within a window no longer than the
register leave different registers. -/
theorem run_burst (hpoly : poly.msb = true) (r : BitVec w) (front rest : List UInt8)
    {u v : List UInt8} (hlen : u.length = v.length) (hfits : 8 * u.length ≤ w)
    (h : run poly r (front ++ u ++ rest) = run poly r (front ++ v ++ rest)) : u = v := by
  rw [run_append, run_append, run_append, run_append] at h
  have hwindow : run poly (run poly r front) u = run poly (run poly r front) v :=
    run_injective hpoly rest h
  have hfits' : 8 * v.length ≤ w := by omega
  rw [run_eq_shift _ u hfits, run_eq_shift _ v hfits', hlen] at hwindow
  have hsum := (BitVec.xor_right_inj _).mp ((shift_injective hpoly).iterate _ hwindow)
  apply ofLe_injective hlen
  have hnat := congrArg BitVec.toNat hsum
  rwa [BitVec.toNat_ofNat, BitVec.toNat_ofNat, Nat.mod_eq_of_lt (ofLe_lt_two_pow hfits),
    Nat.mod_eq_of_lt (ofLe_lt_two_pow hfits')] at hnat

/-- The complement of the register as a trailer leaves a register that does not
depend on the content. -/
theorem run_trailer {trailer : List UInt8} (r : BitVec w) (content : List UInt8)
    (hlen : 8 * trailer.length ≤ w)
    (h : BitVec.ofNat w (ofLe trailer) = ~~~ run poly r content) :
    run poly r (content ++ trailer) = (shift poly)^[8 * trailer.length] (BitVec.allOnes w) := by
  rw [run_append, run_eq_shift _ trailer hlen, h, ← BitVec.not_xor_right, BitVec.xor_self,
    BitVec.not_zero]

end Lib.Crc
