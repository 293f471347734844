import Mathlib.Algebra.Order.Ring.Nat
import Mathlib.Data.List.Infix

/-!
# Little-endian integers

`toLe w n` writes the low `w` bytes of `n`, least significant first, and `ofLe`
reads any number of bytes back.  `ofLe_toLe` and `toLe_ofLe` say that the two
invert each other, up to the width.
-/

namespace Lib

def toLe : Nat → Nat → List UInt8
  | 0, _ => []
  | w + 1, n => UInt8.ofNat n :: toLe w (n / 256)

def ofLe : List UInt8 → Nat
  | [] => 0
  | b :: bs => b.toNat + 256 * ofLe bs

@[simp] theorem length_toLe : ∀ w n, (toLe w n).length = w
  | 0, _ => rfl
  | w + 1, n => by rw [toLe, List.length_cons, length_toLe w]

theorem ofLe_lt : ∀ bs : List UInt8, ofLe bs < 256 ^ bs.length
  | [] => by simp [ofLe]
  | b :: bs => by
    have hb := b.toNat_lt
    have ih := ofLe_lt bs
    rw [ofLe, List.length_cons, Nat.pow_succ]
    omega

theorem ofLe_toLe : ∀ w n, ofLe (toLe w n) = n % 256 ^ w
  | 0, n => by simp [toLe, ofLe, Nat.mod_one]
  | w + 1, n => by
    have hb : (UInt8.ofNat n).toNat = n % 256 := UInt8.toNat_ofNat'
    rw [toLe, ofLe, ofLe_toLe w, hb, Nat.pow_succ', Nat.mod_mul]

theorem ofLe_toLe_of_lt {w n : Nat} (h : n < 256 ^ w) : ofLe (toLe w n) = n := by
  rw [ofLe_toLe, Nat.mod_eq_of_lt h]

theorem toLe_ofLe : ∀ bs : List UInt8, toLe bs.length (ofLe bs) = bs
  | [] => rfl
  | b :: bs => by
    have hb := b.toNat_lt
    have hdiv : (b.toNat + 256 * ofLe bs) / 256 = ofLe bs := by omega
    have hmod : UInt8.ofNat (b.toNat + 256 * ofLe bs) = b := by
      apply UInt8.toNat_inj.mp
      rw [UInt8.toNat_ofNat']
      omega
    rw [List.length_cons, ofLe, toLe, hdiv, hmod, toLe_ofLe bs]

end Lib
