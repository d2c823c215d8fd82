import Legv8.Alu
import Mathlib.Tactic.Ring

/-! # The adder's value

Sixty-four full adders add. Below the position that the carry has come to, the sum and the carry stand for
the low parts of the operands; every full adder moves one bit of each operand down to them. -/
namespace Legv8.Alu

/-- A position is its own shift distance. -/
theorem toNat_position {k : Nat} (h : k < 64) : k.toUInt64.toNat % 64 = k := by
  rw [Nat.toUInt64, UInt64.toNat_ofNat']
  omega

theorem bit_toNat (a : UInt64) {k : Nat} (h : k < 64) :
    (bit a k.toUInt64).toNat = a.toNat / 2 ^ k % 2 := by
  rw [bit, UInt64.toNat_and, UInt64.toNat_shiftRight, toNat_position h, Nat.shiftRight_eq_div_pow]
  exact Nat.and_one_is_mod _

/-- A bit above a sum is added to it. -/
theorem toNat_setBit {sum s : UInt64} {k : Nat} (h : k < 64) (hsum : sum.toNat < 2 ^ k) (hs : s ≤ 1) :
    (sum ||| s <<< k.toUInt64).toNat = sum.toNat + 2 ^ k * s.toNat := by
  have small : s.toNat <<< k < 2 ^ 64 := by
    have bound : s.toNat ≤ 1 := UInt64.le_iff_toNat_le.mp hs
    have power : 2 ^ k ≤ 2 ^ 63 := Nat.pow_le_pow_right (by decide) (Nat.le_of_lt_succ h)
    rw [Nat.shiftLeft_eq]
    have := Nat.mul_le_mul_right (2 ^ k) bound
    omega
  rw [UInt64.toNat_or, UInt64.toNat_shiftLeft, toNat_position h, Nat.mod_eq_of_lt small, Nat.or_comm,
    ← Nat.shiftLeft_add_eq_or_of_lt hsum, Nat.shiftLeft_eq, Nat.add_comm, Nat.mul_comm]

theorem fullAdder_le_one {a b c : UInt64} (ha : a ≤ 1) (hb : b ≤ 1) (hc : c ≤ 1) :
    (fullAdder a b c).1 ≤ 1 ∧ (fullAdder a b c).2 ≤ 1 := by
  rcases eq_zero_or_one ha with rfl | rfl <;> rcases eq_zero_or_one hb with rfl | rfl <;>
    rcases eq_zero_or_one hc with rfl | rfl <;> exact ⟨by decide, by decide⟩

/-- What is left to add above position `k` completes the sum below it. -/
theorem rippleFrom_value (a b : UInt64) {n k : Nat} {sum carry : UInt64} (h : k + n = 64)
    (hsum : sum.toNat < 2 ^ k) (hcarry : carry ≤ 1) :
    (rippleFrom a b n k.toUInt64 sum carry).1.toNat +
        2 ^ 64 * (rippleFrom a b n k.toUInt64 sum carry).2.toNat =
      sum.toNat + 2 ^ k * (a.toNat / 2 ^ k + b.toNat / 2 ^ k + carry.toNat) := by
  induction n generalizing k sum carry with
  | zero =>
    obtain rfl : k = 64 := h
    have above : ∀ x : UInt64, x.toNat / 2 ^ 64 = 0 := fun x => Nat.div_eq_of_lt x.toNat_lt
    rw [above, above, rippleFrom]
    rcases eq_zero_or_one hcarry with rfl | rfl <;> rfl
  | succ n ih =>
    have inside : k < 64 := by omega
    have next : k.toUInt64 + 1 = (k + 1).toUInt64 := by simp
    obtain ⟨hs, hc⟩ := fullAdder_le_one (bit_le_one a k.toUInt64) (bit_le_one b k.toUInt64) hcarry
    have value := fullAdder_toNat (bit_le_one a k.toUInt64) (bit_le_one b k.toUInt64) hcarry
    rw [bit_toNat a inside, bit_toNat b inside] at value
    rw [rippleFrom, next]
    generalize fullAdder (bit a k.toUInt64) (bit b k.toUInt64) carry = digit at hs hc value
    obtain ⟨s, c⟩ := digit
    dsimp only at hs hc value ⊢
    have grown := toNat_setBit inside hsum hs
    have bound : (sum ||| s <<< k.toUInt64).toNat < 2 ^ (k + 1) := by
      have digit : s.toNat ≤ 1 := UInt64.le_iff_toNat_le.mp hs
      have := Nat.mul_le_mul_left (2 ^ k) digit
      rw [grown, Nat.pow_succ]
      omega
    rw [ih (by omega) bound hc, grown]
    -- the bits that the full adder consumes are what the quotients lose
    have split : ∀ x : Nat, x / 2 ^ k = 2 * (x / 2 ^ (k + 1)) + x / 2 ^ k % 2 := fun x => by
      rw [Nat.pow_succ, ← Nat.div_div_eq_div_mul]
      omega
    rw [split a.toNat, split b.toNat, Nat.pow_succ, Nat.add_assoc, Nat.add_left_cancel_iff]
    generalize a.toNat / 2 ^ k % 2 = x at value ⊢
    generalize b.toNat / 2 ^ k % 2 = y at value ⊢
    rw [show 2 * (a.toNat / (2 ^ k * 2)) + x + (2 * (b.toNat / (2 ^ k * 2)) + y) + carry.toNat =
      s.toNat + 2 * (a.toNat / (2 ^ k * 2) + b.toNat / (2 ^ k * 2) + c.toNat) by omega]
    ring

/-- Sum and carry together are the sum of the operands. -/
theorem rippleAdd_value (a b : UInt64) (carry : Bool) :
    (rippleAdd a b carry).1.toNat + 2 ^ 64 * (rippleAdd a b carry).2.toNat =
      a.toNat + b.toNat + carry.toNat := by
  have bound : carry.toUInt64 ≤ 1 := by cases carry <;> decide
  have value := rippleFrom_value a b (show 0 + 64 = 64 from rfl)
    (show (0 : UInt64).toNat < 2 ^ 0 by decide) bound
  simp only [pow_zero, Nat.div_one, UInt64.toNat_zero, Nat.zero_add, Nat.one_mul] at value
  have digit : carry.toUInt64.toNat = carry.toNat := by cases carry <;> rfl
  rw [digit] at value
  exact value

/-- The adder adds modulo 2^64. -/
theorem add_eq (alu : Alu) (a b : UInt64) : (alu.add a b).1 = a + b := by
  have value := rippleAdd_value a b false
  have low := (rippleAdd a b false).1.toNat_lt
  rw [← UInt64.toNat_inj, UInt64.toNat_add]
  change (rippleAdd a b false).1.toNat = _
  simp only [Bool.toNat_false, Nat.add_zero] at value
  omega

end Legv8.Alu
