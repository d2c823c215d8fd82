import Legv8.Isa.Instruction
import Mathlib.Algebra.Group.Nat.Defs

/-! # Fields as numbers

A field is a run of bits, and so a quotient and a remainder of the word. The immediates of the D, CB and B
formats are numbers in two's complement. -/
namespace Legv8

namespace Word

/-- The number that the `width` bits from bit `low` upwards spell. -/
def field (w : Word) (low width : Nat) : Nat := w.toNat / 2 ^ low % 2 ^ width

/-- The number that these bits spell in two's complement. -/
def signedField (w : Word) (low width : Nat) : Int := Int.bmod (w.field low width) (2 ^ width)

theorem field_lt (w : Word) (low width : Nat) : w.field low width < 2 ^ width :=
  Nat.mod_lt _ (Nat.two_pow_pos width)

theorem toNat_slice (w : Word) {low width : UInt32} (hl : low.toNat < 32) (hw : width.toNat < 32) :
    (w.slice low width).toNat = w.field low.toNat width.toNat := by
  have one : ((1 : UInt32) <<< width).toNat = 2 ^ width.toNat := by
    rw [UInt32.toNat_shiftLeft, Nat.mod_eq_of_lt hw, UInt32.toNat_one, Nat.one_shiftLeft,
      Nat.mod_eq_of_lt (Nat.pow_lt_pow_right (by decide) hw)]
  have le : (1 : UInt32) ≤ 1 <<< width := by
    rw [UInt32.le_iff_toNat_le, one]
    exact Nat.one_le_two_pow
  have mask : ((1 : UInt32) <<< width - 1).toNat = 2 ^ width.toNat - 1 := by
    rw [UInt32.toNat_sub_of_le _ _ le, one]
    rfl
  rw [slice, UInt32.toNat_and, mask, Nat.and_two_pow_sub_one_eq_mod, UInt32.toNat_shiftRight,
    Nat.mod_eq_of_lt hl, Nat.shiftRight_eq_div_pow]
  rfl

theorem rd_eq (w : Word) : w.rd = w.field 0 5 := w.toNat_slice (by decide) (by decide)

theorem rn_eq (w : Word) : w.rn = w.field 5 5 := w.toNat_slice (by decide) (by decide)

theorem rm_eq (w : Word) : w.rm = w.field 16 5 := w.toNat_slice (by decide) (by decide)

theorem opcodeField_eq (w : Word) : w.opcodeField = .ofNat (w.field 21 11) := by
  have value : w.opcodeField.toNat = w.field 21 11 := w.toNat_slice (by decide) (by decide)
  rw [← value, UInt32.ofNat_toNat]

theorem hw_eq (w : Word) : w.hw = w.field 21 2 := w.toNat_slice (by decide) (by decide)

end Word

/-! ## Numbers modulo 2^64 -/

/-- The number modulo 2^64, as bits. -/
theorem toBitVec_ofInt (z : Int) : (UInt64.ofInt z).toBitVec = BitVec.ofInt 64 z := by
  refine BitVec.eq_of_toNat_eq ?_
  rw [BitVec.toNat_ofInt]
  change (UInt64.ofNat (z % 2 ^ 64).toNat).toNat = _
  rw [UInt64.toNat_ofNat']
  omega

theorem ofInt_natCast (n : Nat) : UInt64.ofInt n = UInt64.ofNat n :=
  UInt64.toBitVec_inj.mp ((toBitVec_ofInt n).trans (BitVec.ofInt_natCast 64 n))

theorem ofInt_toNat (x : UInt64) : UInt64.ofInt x.toNat = x :=
  (ofInt_natCast x.toNat).trans x.ofNat_toNat

theorem add_ofInt (x : UInt64) (z : Int) : x + .ofInt z = .ofInt (x.toNat + z) := by
  rw [UInt64.ofInt_add, ofInt_toNat]

/-- A value of `n` bits is extended to the number that it spells in two's complement. -/
theorem signExtend_eq {value : UInt64} {n : Nat} (hn : 0 < n) (le : n ≤ 64)
    (small : value.toNat < 2 ^ n) :
    signExtend value n.toUInt64 = UInt64.ofInt (Int.bmod value.toNat (2 ^ n)) := by
  have distances : ∀ n ≤ 64, 0 < n → (64 - n.toUInt64).toNat % 64 = 64 - n ∧
      ((64 - n.toUInt64).toInt64.toBitVec.smod 64).toNat = 64 - n := by decide
  obtain ⟨left, right⟩ := distances n le hn
  have top : 2 ^ 64 = 2 ^ (64 - n) * 2 ^ n := by rw [← Nat.pow_add, Nat.sub_add_cancel le]
  have shifted : (value <<< (64 - n.toUInt64)).toBitVec.toInt =
      ((2 ^ (64 - n) : Nat) : Int) * Int.bmod value.toNat (2 ^ n) := by
    have whole : (value <<< (64 - n.toUInt64)).toBitVec.toNat = 2 ^ (64 - n) * value.toNat := by
      have bound := Nat.mul_lt_mul_of_pos_left small (Nat.two_pow_pos (64 - n))
      rw [← top] at bound
      exact (UInt64.toNat_shiftLeft _ _).trans
        (by rw [left, Nat.shiftLeft_eq, Nat.mul_comm, Nat.mod_eq_of_lt bound])
    rw [BitVec.toInt_eq_toNat_bmod, whole, top, Int.natCast_mul]
    exact Int.mod_bmod_mul_of_pos _ _ (Nat.two_pow_pos _) (Nat.pow_dvd_pow 2 hn)
  have positive : 0 < ((2 ^ (64 - n) : Nat) : Int) := Int.natCast_pos.mpr (Nat.two_pow_pos _)
  have inRange : Int.bmod (Int.bmod value.toNat (2 ^ n)) (2 ^ 64) = Int.bmod value.toNat (2 ^ n) := by
    have lower := Int.le_bmod (x := value.toNat) (Nat.two_pow_pos n)
    have upper := Int.bmod_lt (x := value.toNat) (Nat.two_pow_pos n)
    have wide : 2 ^ n ≤ 2 ^ 64 := Nat.pow_le_pow_right (by decide) le
    exact Int.bmod_eq_of_le (by omega) (by omega)
  refine UInt64.toBitVec_inj.mp (BitVec.eq_of_toInt_eq ?_)
  rw [toBitVec_ofInt, BitVec.toInt_ofInt, inRange]
  change ((value <<< (64 - n.toUInt64)).toBitVec.sshiftRight
    ((64 - n.toUInt64).toInt64.toBitVec.smod 64).toNat).toInt = _
  rw [BitVec.toInt_sshiftRight, shifted, right, Int.shiftRight_eq_div_pow]
  exact Int.mul_ediv_cancel_left _ (Int.ne_of_gt positive)

/-! ## Immediates -/

namespace Word

/-- The immediate of a word as a number: unsigned for IM and I, in two's complement for D, CB and B. -/
def number (w : Word) : Format → Int
  | .im => w.field 5 16
  | .i => w.field 10 12
  | .d => w.signedField 12 9
  | .cb => w.signedField 5 19
  | .b => w.signedField 0 26
  | .r | .system => 0

theorem immediate_unsigned (w : Word) {low width : UInt32} (hl : low.toNat < 32) (hw : width.toNat < 32) :
    (w.slice low width).toUInt64 = UInt64.ofInt (w.field low.toNat width.toNat : Int) := by
  rw [← toNat_slice w hl hw, ← UInt32.toNat_toUInt64, ofInt_toNat]

theorem immediate_signed (w : Word) {low width : UInt32} (hl : low.toNat < 32) (hw : width.toNat < 32)
    (wide : 0 < width.toNat) :
    signExtend (w.slice low width).toUInt64 width.toNat.toUInt64 =
      UInt64.ofInt (w.signedField low.toNat width.toNat) := by
  have value : (w.slice low width).toUInt64.toNat = w.field low.toNat width.toNat := by
    rw [UInt32.toNat_toUInt64, toNat_slice w hl hw]
  rw [signExtend_eq wide (by omega) (by rw [value]; exact w.field_lt _ _), value]
  rfl

/-- An immediate is its number modulo 2^64. -/
theorem immediate_eq (w : Word) (format : Format) : w.immediate format = .ofInt (w.number format) := by
  cases format with
  | im => exact w.immediate_unsigned (by decide) (by decide)
  | i => exact w.immediate_unsigned (by decide) (by decide)
  | d => exact w.immediate_signed (by decide) (by decide) (by decide)
  | cb => exact w.immediate_signed (by decide) (by decide) (by decide)
  | b => exact w.immediate_signed (by decide) (by decide) (by decide)
  | r => rfl
  | system => rfl

end Word

end Legv8
