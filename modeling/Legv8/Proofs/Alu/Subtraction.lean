import Legv8.Proofs.Alu.Arithmetic

/-! # The flags of a subtraction

The unit subtracts by adding an operand that was negated before, and its flags are those of this addition.
They are the flags of the difference except where a number is its own negation modulo 2^64: nothing is
carried out of the addition of a negated zero, and the most negative number still has its sign behind the
negation. -/
namespace Legv8.Alu

/-- The flags of the difference of two 64-bit words: its sign modulo 2^64, whether the words are equal,
whether nothing is borrowed, and whether the difference of the signed words has no 64-bit form. -/
def Flags.ofDifference (a b : UInt64) : Flags where
  negative := decide (2 ^ 63 ≤ (a - b).toNat)
  zero := decide (a = b)
  carry := decide (b ≤ a)
  overflow :=
    decide (a.toInt64.toInt - b.toInt64.toInt < -2 ^ 63 ∨ 2 ^ 63 ≤ a.toInt64.toInt - b.toInt64.toInt)

theorem toNat_negated (b : UInt64) :
    (UInt64.ofNat (2 ^ 64 - b.toNat)).toNat = if b.toNat = 0 then 0 else 2 ^ 64 - b.toNat := by
  have bound := b.toNat_lt
  rw [UInt64.toNat_ofNat']
  split <;> omega

/-- The sum with a negated operand and the difference, flag by flag. -/
theorem ofSum_negated (a b : UInt64) :
    Flags.ofSum a (.ofNat (2 ^ 64 - b.toNat)) =
      { Flags.ofDifference a b with
        carry := decide (b ≠ 0 ∧ b ≤ a)
        overflow := (Flags.ofDifference a b).overflow != decide (b.toNat = 2 ^ 63) } := by
  have ha := a.toNat_lt
  have hb := b.toNat_lt
  have negated := toNat_negated b
  have difference : (a - b).toNat = (2 ^ 64 - b.toNat + a.toNat) % 2 ^ 64 := UInt64.toNat_sub a b
  simp only [Flags.ofSum, Flags.ofDifference, Flags.mk.injEq, ne_eq, ← UInt64.toNat_inj,
    UInt64.le_iff_toNat_le, UInt64.toNat_zero, decide_eq_decide, toInt_eq, difference, negated]
  refine ⟨?_, ?_, ?_, ?_⟩
  · split <;> omega
  · split <;> omega
  · split <;> omega
  · rw [Bool.eq_iff_iff, decide_eq_true_iff, bne_iff_ne, ne_eq, decide_eq_decide]
    split <;> split <;> split <;> omega

/-- The unit subtracts modulo 2^64 and leaves the flags of the difference, whatever they were before, with
two exceptions: the carry stays clear for a subtracted zero, and the overflow is the opposite for the most
negative number. -/
theorem sub_leaves_flags (alu : Alu) (a b : UInt64) :
    alu.sub a b =
      (a - b,
        ⟨{ Flags.ofDifference a b with
          carry := decide (b ≠ 0 ∧ b ≤ a)
          overflow := (Flags.ofDifference a b).overflow != decide (b.toNat = 2 ^ 63) }⟩) := by
  rw [sub_value, ofSum_negated]

/-- Zero less zero borrows nothing and leaves the carry clear; zero less the most negative number has no
64-bit form and leaves the overflow clear. -/
theorem sub_misses_difference :
    (new.sub 0 0).2.flags = ⟨false, true, false, false⟩ ∧
      Flags.ofDifference 0 0 = ⟨false, true, true, false⟩ ∧
      (new.sub 0 0x8000000000000000).2.flags = ⟨true, false, false, false⟩ ∧
      Flags.ofDifference 0 0x8000000000000000 = ⟨true, false, false, true⟩ := by
  decide +kernel

end Legv8.Alu
