import Legv8.Datapath.Execution
import Legv8.Proofs.Alu.Product
import Legv8.Proofs.Isa.Fields

/-! # What the unit computes

The value and the flags of additions and subtractions, the low half of a product and the two shifts that the
moves make of it, all as arithmetic on the numbers that the operands stand for. -/
namespace Legv8.Alu

/-! ## Flags -/

/-- The flags of a sum of two 64-bit words: its sign, whether it is zero modulo 2^64, whether it reaches
2^64, and whether the sum of the signed operands has no 64-bit form. -/
def Flags.ofSum (a b : UInt64) : Flags where
  negative := decide (2 ^ 63 ≤ (a.toNat + b.toNat) % 2 ^ 64)
  zero := decide ((a.toNat + b.toNat) % 2 ^ 64 = 0)
  carry := decide (2 ^ 64 ≤ a.toNat + b.toNat)
  overflow :=
    decide (a.toInt64.toInt + b.toInt64.toInt < -2 ^ 63 ∨ 2 ^ 63 ≤ a.toInt64.toInt + b.toInt64.toInt)

theorem topBit_eq (a : UInt64) : a >>> 63 = if 2 ^ 63 ≤ a.toNat then 1 else 0 := by
  have bound := a.toNat_lt
  rw [← UInt64.toNat_inj, UInt64.toNat_shiftRight, show (63 : UInt64).toNat % 64 = 63 from rfl,
    Nat.shiftRight_eq_div_pow]
  split
  · rw [UInt64.toNat_one]
    omega
  · rw [UInt64.toNat_zero]
    omega

theorem topBit_beq (a b : UInt64) :
    (a >>> 63 == b >>> 63) = decide (2 ^ 63 ≤ a.toNat ↔ 2 ^ 63 ≤ b.toNat) := by
  rw [topBit_eq, topBit_eq]
  split <;> split <;> simp only [*] <;> rfl

/-- The top bit of a word is its sign. -/
theorem toInt_eq (a : UInt64) :
    a.toInt64.toInt = (if 2 ^ 63 ≤ a.toNat then (a.toNat - 2 ^ 64 : Int) else (a.toNat : Int)) := by
  have bound := a.toNat_lt
  change a.toBitVec.toInt = _
  rw [BitVec.toInt_eq_toNat_cond]
  change (if 2 * a.toNat < 2 ^ 64 then (a.toNat : Int) else (a.toNat : Int) - (2 ^ 64 : Nat)) = _
  split <;> split <;> omega

/-- The gates' flags are those of the sum. -/
theorem ofAdd_eq {a b : UInt64} {carry : Bool}
    (value : (a + b).toNat + 2 ^ 64 * carry.toNat = a.toNat + b.toNat) :
    Flags.ofAdd a b (a + b) carry = .ofSum a b := by
  have sum : (a + b).toNat = (a.toNat + b.toNat) % 2 ^ 64 := UInt64.toNat_add a b
  have ha := a.toNat_lt
  have hb := b.toNat_lt
  simp only [Flags.ofAdd, Flags.ofSum, Flags.mk.injEq]
  refine ⟨?_, ?_, ?_, ?_⟩
  · rw [topBit_eq, sum]
    split
    · next reaches => rw [decide_eq_true reaches, beq_self_eq_true]
    · next below => rw [decide_eq_false below]; rfl
  · rw [← sum, Bool.eq_iff_iff, beq_iff_eq, decide_eq_true_iff, ← UInt64.toNat_inj, UInt64.toNat_zero]
  · rw [Bool.eq_iff_iff, decide_eq_true_iff]
    cases carry
    · rw [Bool.toNat_false] at value
      exact ⟨nofun, fun reaches => by omega⟩
    · rw [Bool.toNat_true] at value
      exact ⟨fun _ => by omega, fun _ => rfl⟩
  · rw [bne, topBit_beq, topBit_beq, toInt_eq, toInt_eq, sum, Bool.eq_iff_iff, Bool.and_eq_true,
      Bool.not_eq_true', decide_eq_true_iff, decide_eq_false_iff_not, decide_eq_true_iff]
    split <;> split <;> omega

/-- The unit adds modulo 2^64, with the flags of the sum. -/
theorem add_value (alu : Alu) (a b : UInt64) : alu.add a b = (a + b, ⟨.ofSum a b⟩) := by
  have value := rippleAdd_value a b false
  have sum := add_eq alu a b
  change (rippleAdd a b false).1 = a + b at sum
  rw [sum] at value
  unfold add
  rw [show rippleAdd a b false = (a + b, (rippleAdd a b false).2) from Prod.ext sum rfl]
  dsimp only
  rw [ofAdd_eq value]

theorem twosComplement_eq (a : UInt64) : twosComplement a = -a := by
  have sum := add_eq new (~~~a) 1
  rw [← UInt64.neg_eq_not_add] at sum
  exact sum

/-- The adder returns every bit of the sum with the carry in, the carry out being the last one; negation is
that of numbers modulo 2^64; and an addition leaves the flags of its sum, whatever they were before. -/
theorem adder_is_exact (alu : Alu) (a b : UInt64) (carry : Bool) :
    (rippleAdd a b carry).1.toNat = (a.toNat + b.toNat + carry.toNat) % 2 ^ 64 ∧
      (rippleAdd a b carry).2 = decide (2 ^ 64 ≤ a.toNat + b.toNat + carry.toNat) ∧
      (twosComplement a).toNat = (2 ^ 64 - a.toNat) % 2 ^ 64 ∧
      (alu.add a b).1.toNat = (a.toNat + b.toNat) % 2 ^ 64 ∧ (alu.add a b).2.flags = .ofSum a b := by
  have value := rippleAdd_value a b carry
  have low := (rippleAdd a b carry).1.toNat_lt
  refine ⟨?_, ?_, ?_, ?_, ?_⟩
  · omega
  · rw [Bool.eq_iff_iff, decide_eq_true_iff, ← Bool.toNat_eq_one]
    have digit := (rippleAdd a b carry).2.toNat_lt
    omega
  · rw [twosComplement_eq]
    exact UInt64.toNat_neg a
  · rw [add_value]
    exact UInt64.toNat_add a b
  · rw [add_value]

/-- The unit subtracts modulo 2^64, with the flags of the addition that it makes of it. -/
theorem sub_value (alu : Alu) (a b : UInt64) :
    alu.sub a b = (a - b, ⟨.ofSum a (.ofNat (2 ^ 64 - b.toNat))⟩) := by
  have negated : UInt64.ofNat (2 ^ 64 - b.toNat) = -b := by
    rw [← UInt64.toNat_inj, UInt64.toNat_ofNat', UInt64.toNat_neg]
    rfl
  unfold sub negate
  rw [negated, twosComplement_eq, UInt64.sub_eq_add_neg]
  exact add_value alu.clearFlags a (-b)

/-! ## Products and shifts -/

theorem shiftLeft_eq_mul (x : UInt64) {k : Nat} (h : k < 64) :
    x <<< k.toUInt64 = x * UInt64.ofNat (2 ^ k) := by
  rw [← UInt64.toNat_inj, UInt64.toNat_shiftLeft, toNat_position h, Nat.shiftLeft_eq, UInt64.toNat_mul,
    UInt64.toNat_ofNat', Nat.mul_mod_mod]

theorem low_product (a b : UInt64) : (product a b).low = a * b := by
  have low := (product a b).low.toNat_lt
  rw [← UInt64.toNat_inj, UInt64.toNat_mul, ← toNat_product, Wide.toNat]
  omega

/-! ## Moves -/

/-- A halfword put into a number at bit `s`, in place of the one that is there. -/
def insertHalfword (old s halfword : Nat) : Nat :=
  old / 2 ^ (s + 16) * 2 ^ (s + 16) + halfword * 2 ^ s + old % 2 ^ s

theorem testBit_insertHalfword {halfword : Nat} (small : halfword < 2 ^ 16) (old s i : Nat) :
    (insertHalfword old s halfword).testBit i =
      if s ≤ i ∧ i < s + 16 then halfword.testBit (i - s) else old.testBit i := by
  have shape : insertHalfword old s halfword =
      2 ^ s * (2 ^ 16 * (old / 2 ^ (s + 16)) + halfword) + old % 2 ^ s := by
    rw [insertHalfword, Nat.pow_add]
    ring
  rw [shape, Nat.testBit_two_pow_mul_add _ (Nat.mod_lt _ (Nat.two_pow_pos s)), Nat.testBit_mod_two_pow,
    Nat.testBit_two_pow_mul_add _ small, Nat.testBit_div_two_pow]
  rcases Nat.lt_or_ge i s with below | above
  · rw [if_pos below, if_neg (by omega), decide_eq_true below, Bool.true_and]
  · rw [if_neg (by omega)]
    rcases Nat.lt_or_ge i (s + 16) with inside | beyond
    · rw [if_pos (by omega), if_pos ⟨above, inside⟩]
    · rw [if_neg (by omega), if_neg (by omega), show i - s - 16 + (s + 16) = i by omega]

theorem testBit_shiftLeft (x : UInt64) {s i : Nat} (hs : s < 64) (hi : i < 64) :
    (x <<< s.toUInt64).toNat.testBit i = (decide (s ≤ i) && x.toNat.testBit (i - s)) := by
  rw [UInt64.toNat_shiftLeft, toNat_position hs, Nat.testBit_mod_two_pow, decide_eq_true hi, Bool.true_and,
    Nat.testBit_shiftLeft]

theorem testBit_not (x : UInt64) {i : Nat} (hi : i < 64) : (~~~x).toNat.testBit i = !x.toNat.testBit i := by
  change (~~~x.toBitVec).getLsbD i = _
  rw [BitVec.getLsbD_not, decide_eq_true hi, Bool.true_and]
  rfl

/-- A cleared halfword with another one moved to its place. -/
theorem replaceHalfword_eq (old : UInt64) {s halfword : Nat} (small : halfword < 2 ^ 16) (hs : s + 16 ≤ 64) :
    (old &&& ~~~(0xFFFF <<< s.toUInt64)) ||| (UInt64.ofNat halfword <<< s.toUInt64) =
      UInt64.ofNat (insertHalfword old.toNat s halfword) := by
  have narrow : (UInt64.ofNat halfword).toNat = halfword := by
    rw [UInt64.toNat_ofNat']
    omega
  refine UInt64.toNat_inj.mp (Nat.eq_of_testBit_eq fun i => ?_)
  rw [UInt64.toNat_ofNat', Nat.testBit_mod_two_pow]
  rcases Nat.lt_or_ge i 64 with hi | hi
  · have mask : (0xFFFF : UInt64).toNat.testBit (i - s) = decide (i - s < 16) :=
      Nat.testBit_two_pow_sub_one 16 _
    rw [UInt64.toNat_or, Nat.testBit_or, UInt64.toNat_and, Nat.testBit_and, testBit_not _ hi,
      testBit_shiftLeft _ (by omega) hi, testBit_shiftLeft _ (by omega) hi, mask, narrow,
      testBit_insertHalfword small, decide_eq_true hi, Bool.true_and]
    rcases Nat.lt_or_ge i s with below | above
    · rw [if_neg (by omega), decide_eq_false (by omega)]
      simp
    · rcases Nat.lt_or_ge i (s + 16) with inside | beyond
      · rw [if_pos ⟨above, inside⟩, decide_eq_true above, decide_eq_true (by omega)]
        simp
      · have past : halfword.testBit (i - s) = false :=
          Nat.testBit_lt_two_pow (Nat.lt_of_lt_of_le small (Nat.pow_le_pow_right (by decide) (by omega)))
        rw [if_neg (by omega), decide_eq_true above, decide_eq_false (by omega), past]
        simp
  · have top : 2 ^ 64 ≤ 2 ^ i := Nat.pow_le_pow_right (by decide) hi
    rw [decide_eq_false (by omega), Bool.false_and]
    exact Nat.testBit_lt_two_pow (Nat.lt_of_lt_of_le (UInt64.toNat_lt _) top)

/-- A halfword selector stands for that many halfwords. -/
theorem halfwordShift_eq (alu : Alu) (w : Word) : alu.halfwordShift w = (16 * w.field 21 2).toUInt64 := by
  have scaled : (16 * w.field 21 2).toUInt64 = (w.field 21 2).toUInt64 * 16 := by
    rw [Nat.mul_comm]
    exact UInt64.ofNat_mul _ _
  rw [scaled, ← w.hw_eq]
  exact low_product _ _

theorem position_le (w : Word) : 16 * w.field 21 2 + 16 ≤ 64 := by
  have selector := w.field_lt 21 2
  omega

theorem movz_eq (alu : Alu) (w : Word) : w.immediate .im <<< alu.halfwordShift w =
    .ofNat (w.field 5 16 * 2 ^ (16 * w.field 21 2)) := by
  have inside := position_le w
  rw [halfwordShift_eq, shiftLeft_eq_mul _ (by omega), Word.immediate_eq, UInt64.ofNat_mul]
  congr 1
  exact ofInt_natCast _

theorem movk_eq (alu : Alu) (w : Word) (old : UInt64) :
    (old &&& ~~~(0xFFFF <<< alu.halfwordShift w)) ||| (w.immediate .im <<< alu.halfwordShift w) =
      .ofNat (insertHalfword old.toNat (16 * w.field 21 2) (w.field 5 16)) := by
  rw [halfwordShift_eq, ← replaceHalfword_eq old (w.field_lt 5 16) (position_le w), Word.immediate_eq]
  congr 2
  exact ofInt_natCast _

end Legv8.Alu
