import Legv8.Proofs.Alu.Adder
import Mathlib.Data.Nat.ModEq

/-! # The multiplier's value

A pair of words stands for one number below 2^128. Adding and doubling pairs add and double these numbers
modulo 2^128, so what is left to multiply by the bits above a position completes the product of the bits
below it. The whole product is below 2^128, and nothing of it is lost. -/
namespace Legv8.Alu

namespace Wide

/-- The number that a pair of words stands for. -/
def toNat (x : Wide) : Nat := 2 ^ 64 * x.high.toNat + x.low.toNat

/-- The carry that the high words lose counts 2^128. -/
theorem toNat_add (x y : Wide) : (x.add y).toNat ≡ x.toNat + y.toNat [MOD 2 ^ 128] := by
  have low := rippleAdd_value x.low y.low false
  have high := rippleAdd_value x.high y.high (rippleAdd x.low y.low false).2
  have exact : x.toNat + y.toNat =
      (x.add y).toNat + 2 ^ 128 * (rippleAdd x.high y.high (rippleAdd x.low y.low false).2).2.toNat := by
    simp only [Bool.toNat_false, Nat.add_zero] at low
    unfold toNat add
    dsimp only
    omega
  rw [exact]
  exact (Nat.add_mul_mod_self_left _ _ _).symm

theorem toNat_doubledHigh (x : Wide) :
    x.double.high.toNat = 2 * (x.high.toNat % 2 ^ 63) + x.low.toNat / 2 ^ 63 := by
  have bound := x.low.toNat_lt
  have shifted : (x.high <<< 1).toNat = (x.high.toNat % 2 ^ 63) <<< 1 := by
    rw [UInt64.toNat_shiftLeft, show (1 : UInt64).toNat % 64 = 1 from rfl, Nat.shiftLeft_eq,
      Nat.shiftLeft_eq]
    omega
  have carried : (x.low >>> 63).toNat = x.low.toNat / 2 ^ 63 := by
    rw [UInt64.toNat_shiftRight, show (63 : UInt64).toNat % 64 = 63 from rfl, Nat.shiftRight_eq_div_pow]
  unfold double
  rw [UInt64.toNat_or, shifted, carried, ← Nat.shiftLeft_add_eq_or_of_lt (by omega), Nat.shiftLeft_eq,
    Nat.mul_comm, pow_one]

theorem toNat_doubledLow (x : Wide) : x.double.low.toNat = 2 * (x.low.toNat % 2 ^ 63) := by
  change (x.low <<< 1).toNat = _
  rw [UInt64.toNat_shiftLeft, show (1 : UInt64).toNat % 64 = 1 from rfl, Nat.shiftLeft_eq]
  omega

/-- The top bit, which is lost, counts 2^128 when it is doubled. -/
theorem toNat_double (x : Wide) : x.double.toNat ≡ 2 * x.toNat [MOD 2 ^ 128] := by
  have exact : 2 * x.toNat = x.double.toNat + 2 ^ 128 * (x.high.toNat / 2 ^ 63) := by
    rw [toNat, toNat, toNat_doubledHigh, toNat_doubledLow]
    omega
  rw [exact]
  exact (Nat.add_mul_mod_self_left _ _ _).symm

theorem toNat_lt (x : Wide) : x.toNat < 2 ^ 128 := by
  have high := x.high.toNat_lt
  have low := x.low.toNat_lt
  unfold toNat
  omega

end Wide

/-- What is left to multiply above position `k` completes the product below it. -/
theorem multiplyFrom_value (b : UInt64) {n k : Nat} (h : k + n = 64) (x product : Wide) :
    (multiplyFrom b n k.toUInt64 x product).toNat ≡
      product.toNat + x.toNat * (b.toNat / 2 ^ k) [MOD 2 ^ 128] := by
  induction n generalizing k x product with
  | zero =>
    obtain rfl : k = 64 := h
    rw [Nat.div_eq_of_lt b.toNat_lt, multiplyFrom, Nat.mul_zero, Nat.add_zero]
  | succ n ih =>
    have inside : k < 64 := by omega
    have next : k.toUInt64 + 1 = (k + 1).toUInt64 := by simp
    have split : b.toNat / 2 ^ k = 2 * (b.toNat / 2 ^ (k + 1)) + b.toNat / 2 ^ k % 2 := by
      rw [Nat.pow_succ, ← Nat.div_div_eq_div_mul]
      omega
    -- the bit at the position decides whether the multiplicand is added
    have added : (if bit b k.toUInt64 = 1 then product.add x else product).toNat ≡
        product.toNat + x.toNat * (b.toNat / 2 ^ k % 2) [MOD 2 ^ 128] := by
      rw [← bit_toNat b inside]
      rcases eq_zero_or_one (bit_le_one b k.toUInt64) with zero | one
      · rw [zero, if_neg (by decide), UInt64.toNat_zero, Nat.mul_zero, Nat.add_zero]
      · rw [one, if_pos rfl, UInt64.toNat_one, Nat.mul_one]
        exact Wide.toNat_add product x
    rw [multiplyFrom, next]
    refine (ih (by omega) x.double _).trans ?_
    calc (if bit b k.toUInt64 = 1 then product.add x else product).toNat +
          x.double.toNat * (b.toNat / 2 ^ (k + 1))
        ≡ product.toNat + x.toNat * (b.toNat / 2 ^ k % 2) + 2 * x.toNat * (b.toNat / 2 ^ (k + 1))
          [MOD 2 ^ 128] := added.add ((Wide.toNat_double x).mul_right _)
      _ = product.toNat + x.toNat * (b.toNat / 2 ^ k) := by
        rw [split, Nat.mul_add_mod_self_left, Nat.mod_mod]
        ring

theorem toNat_product (a b : UInt64) : (product a b).toNat = a.toNat * b.toNat := by
  have value := multiplyFrom_value b (show 0 + 64 = 64 from rfl) ⟨0, a⟩ ⟨0, 0⟩
  have fits : a.toNat * b.toNat < 2 ^ 64 * 2 ^ 64 := Nat.mul_lt_mul'' a.toNat_lt b.toNat_lt
  simp only [Wide.toNat, UInt64.toNat_zero, Nat.mul_zero, Nat.zero_add, pow_zero, Nat.div_one] at value
  exact value.eq_of_lt_of_lt (product a b).toNat_lt fits

/-- The multiplier returns all 128 bits of the product. -/
theorem product_is_exact (a b : UInt64) :
    (product a b).high.toNat = a.toNat * b.toNat / 2 ^ 64 ∧
      (product a b).low.toNat = a.toNat * b.toNat % 2 ^ 64 := by
  have low := (product a b).low.toNat_lt
  rw [← toNat_product, Wide.toNat]
  exact ⟨by omega, by omega⟩

end Legv8.Alu
