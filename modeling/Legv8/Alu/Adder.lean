/-!
# The ripple-carry adder

Addition from gates: half adders make a full adder, and 64 full adders pass their carry from the least
significant bit upwards. No operand is added by machine arithmetic here. A gate works on words, which it
takes bit by bit; a single bit is a word that is 0 or 1.
-/
namespace Legv8.Alu

/-- Sum and carry at every position of two words. -/
@[inline] def halfAdder (a b : UInt64) : UInt64 × UInt64 := (a ^^^ b, a &&& b)

/-- Sum and carry at every position of three words, from two half adders. -/
@[inline] def fullAdder (a b carry : UInt64) : UInt64 × UInt64 :=
  let (half, carry₁) := halfAdder a b
  let (sum, carry₂) := halfAdder half carry
  (sum, carry₁ ||| carry₂)

/-- The bit of `a` at a position below 64. -/
@[inline] def bit (a position : UInt64) : UInt64 := (a >>> position) &&& 1

/-- Adds the `n` bits from `position` upwards, given the sum of the bits below and the carry out of
them. -/
def rippleFrom (a b : UInt64) : (n : Nat) → (position sum carry : UInt64) → UInt64 × Bool
  | 0, _, sum, carry => (sum, carry == 1)
  | n + 1, position, sum, carry =>
    let (s, c) := fullAdder (bit a position) (bit b position) carry
    rippleFrom a b n (position + 1) (sum ||| (s <<< position)) c

/-- Sum and carry out of 64 bits. -/
def rippleAdd (a b : UInt64) (carry : Bool) : UInt64 × Bool := rippleFrom a b 64 0 0 carry.toUInt64

/-- Negation: the complement plus one, through the adder. -/
def twosComplement (a : UInt64) : UInt64 := (rippleAdd (~~~a) 1 false).1

theorem eq_zero_or_one {a : UInt64} (h : a ≤ 1) : a = 0 ∨ a = 1 := by
  have := UInt64.le_iff_toNat_le.mp h
  simp only [← UInt64.toNat_inj]
  simp at this ⊢
  omega

theorem bit_le_one (a position : UInt64) : bit a position ≤ 1 := by
  rw [UInt64.le_iff_toNat_le]
  simp only [bit, UInt64.toNat_and]
  exact Nat.and_le_right

theorem fullAdder_toNat {a b c : UInt64} (ha : a ≤ 1) (hb : b ≤ 1) (hc : c ≤ 1) :
    (fullAdder a b c).1.toNat + 2 * (fullAdder a b c).2.toNat = a.toNat + b.toNat + c.toNat := by
  rcases eq_zero_or_one ha with rfl | rfl <;> rcases eq_zero_or_one hb with rfl | rfl <;>
    rcases eq_zero_or_one hc with rfl | rfl <;> rfl

end Legv8.Alu
