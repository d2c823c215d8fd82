import Legv8.Memory.Bus
import Mathlib.Algebra.Group.Nat.Defs

/-! # What a transfer touches

A transfer is made for consecutive bytes, modulo 2^64. The missing ones among them are those outside
memory. A write changes the bytes that it is made for and no other, and never the size of memory. -/
namespace Legv8

namespace Memory

theorem offset_zero (addr : UInt64) : addr + (0 : Nat).toUInt64 = addr := UInt64.add_zero addr

theorem offset_add (addr : UInt64) (n k : Nat) : addr + n.toUInt64 + k.toUInt64 = addr + (n + k).toUInt64 := by
  rw [UInt64.add_assoc]
  congr 1
  simp

theorem offset_succ (addr : UInt64) (k : Nat) : addr + 1 + k.toUInt64 = addr + (k + 1).toUInt64 := by
  rw [Nat.add_comm]
  exact offset_add addr 1 k

/-- The addresses of `count` consecutive bytes. -/
def span (addr : UInt64) : (count : Nat) → List UInt64
  | 0 => []
  | n + 1 => addr :: span (addr + 1) n

theorem length_span (addr : UInt64) (n : Nat) : (span addr n).length = n := by
  induction n generalizing addr with
  | zero => rfl
  | succ n ih => rw [span, List.length_cons, ih]

theorem getElem?_span (addr : UInt64) {n k : Nat} (hk : k < n) :
    (span addr n)[k]? = some (addr + k.toUInt64) := by
  induction n generalizing addr k with
  | zero => exact absurd hk (Nat.not_lt_zero k)
  | succ n ih =>
    cases k with
    | zero => exact congrArg some (offset_zero addr).symm
    | succ k => rw [span, List.getElem?_cons_succ, ih (addr + 1) (Nat.lt_of_succ_lt_succ hk), offset_succ]

theorem mem_span {addr x : UInt64} {n : Nat} : x ∈ span addr n ↔ ∃ k < n, x = addr + k.toUInt64 := by
  constructor
  · intro hx
    obtain ⟨k, there⟩ := List.mem_iff_getElem?.mp hx
    have hk : k < n := length_span addr n ▸ (List.getElem?_eq_some_iff.mp there).1
    exact ⟨k, hk, Option.some.inj (there.symm.trans (getElem?_span addr hk))⟩
  · rintro ⟨k, hk, rfl⟩
    exact List.mem_of_getElem? (getElem?_span addr hk)

theorem span_add (addr : UInt64) (n m : Nat) :
    span addr (n + m) = span addr n ++ span (addr + n.toUInt64) m := by
  induction n generalizing addr with
  | zero => rw [Nat.zero_add, span, List.nil_append, offset_zero]
  | succ n ih => rw [Nat.add_right_comm, span, span, ih, offset_succ, List.cons_append]

/-! ## Missing bytes -/

theorem missing_eq_filter (mem : Memory) (addr : UInt64) (n : Nat) :
    mem.missing addr n = (span addr n).filter fun x => (mem.byte? x).isNone := by
  induction n generalizing addr with
  | zero => rfl
  | succ n ih =>
    have outside : (mem.byte? addr).isNone = !mem.contains addr := by
      rw [Bool.eq_iff_iff, Option.isNone_iff_eq_none, byte?_eq_none_iff, Bool.not_eq_true']
    rw [missing, span, List.filter_cons, outside, ih]
    cases mem.contains addr <;> rfl

theorem offset_of_mem_missing {mem : Memory} {addr x : UInt64} {n : Nat} (hx : x ∈ mem.missing addr n) :
    ∃ k < n, x = addr + k.toUInt64 := by
  rw [missing_eq_filter] at hx
  exact mem_span.mp (List.mem_filter.mp hx).1

theorem missing_add (mem : Memory) (addr : UInt64) (n m : Nat) :
    mem.missing addr (n + m) = mem.missing addr n ++ mem.missing (addr + n.toUInt64) m := by
  simp only [missing_eq_filter, span_add, List.filter_append]

theorem missing_eq_nil_iff {mem : Memory} {addr : UInt64} {n : Nat} :
    mem.missing addr n = [] ↔ ∀ k < n, mem.contains (addr + k.toUInt64) = true := by
  simp only [missing_eq_filter, List.filter_eq_nil_iff, Option.isNone_iff_eq_none, byte?_eq_none_iff,
    Bool.not_eq_false]
  constructor
  · exact fun inside k hk => inside _ (mem_span.mpr ⟨k, hk, rfl⟩)
  · intro inside x hx
    obtain ⟨k, hk, rfl⟩ := mem_span.mp hx
    exact inside k hk

theorem head?_missing (mem : Memory) (addr : UInt64) (n : Nat) :
    (mem.missing addr n).head? = (span addr n).find? fun x => (mem.byte? x).isNone := by
  rw [missing_eq_filter, List.head?_filter]

/-! ## Writes -/

theorem byte?_write_of_ne {mem : Memory} {addr other : UInt64} {value : UInt8} (h : addr ≠ other) :
    (mem.write addr value).byte? other = mem.byte? other := by
  rw [byte?_write, if_neg fun hc => h hc.1]

theorem byte?_writeList_of_notMem {mem : Memory} {addr other : UInt64} {bytes : List UInt8}
    (h : other ∉ span addr bytes.length) : (mem.writeList addr bytes).byte? other = mem.byte? other := by
  induction bytes generalizing mem addr with
  | nil => rfl
  | cons b rest ih =>
    simp only [List.length_cons, span, List.mem_cons, not_or] at h
    rw [writeList, ih h.2, byte?_write_of_ne (Ne.symm h.1)]

/-- A write of consecutive bytes replaces each of them that is inside memory. -/
theorem byte?_writeList (mem : Memory) (addr x : UInt64) {bytes : List UInt8} (fits : bytes.length ≤ 2 ^ 64) :
    (mem.writeList addr bytes).byte? x =
      (mem.byte? x).map fun old => bytes[(x - addr).toNat]?.getD old := by
  induction bytes generalizing mem addr with
  | nil => simp [writeList]
  | cons b rest ih =>
    rw [List.length_cons] at fits
    rw [writeList, ih _ _ (Nat.le_of_succ_le fits)]
    by_cases here : addr = x
    · subst here
      have last : (addr - (addr + 1)).toNat = 2 ^ 64 - 1 := by
        rw [show addr - (addr + 1) = -1 by grind]
        rfl
      have behind : rest[(addr - (addr + 1)).toNat]? = none := List.getElem?_eq_none (by omega)
      rw [byte?_write, behind, UInt64.sub_self, UInt64.toNat_zero, List.getElem?_cons_zero]
      cases inside : mem.contains addr with
      | false =>
        rw [(mem.byte?_eq_none_iff addr).mpr inside, if_neg (by simp)]
        rfl
      | true =>
        have held : mem.byte? addr ≠ none := fun outside => by
          rw [byte?_eq_none_iff, inside] at outside
          cases outside
        obtain ⟨old, held⟩ := Option.ne_none_iff_exists'.mp held
        rw [if_pos ⟨rfl, rfl⟩, held]
        rfl
    · have next : (x - addr).toNat = (x - (addr + 1)).toNat + 1 := by
        have apart : (x - addr).toNat ≠ 0 := fun zero => by
          have same : x - addr = 0 := UInt64.toNat_inj.mp zero
          exact here (by grind)
        have positive : (1 : UInt64) ≤ x - addr := UInt64.le_iff_toNat_le.mpr (Nat.pos_of_ne_zero apart)
        rw [show x - (addr + 1) = x - addr - 1 by grind, UInt64.toNat_sub_of_le _ _ positive,
          UInt64.toNat_one, Nat.sub_add_cancel (Nat.pos_of_ne_zero apart)]
      rw [byte?_write_of_ne here, next, List.getElem?_cons_succ]

theorem size_writeList (mem : Memory) (addr : UInt64) (bytes : List UInt8) :
    (mem.writeList addr bytes).size = mem.size := by
  induction bytes generalizing mem addr with
  | nil => rfl
  | cons b rest ih => rw [writeList, ih, size_write]

end Memory

namespace Bus

theorem length_lowBytes (data : UInt64) (n : Nat) : (lowBytes data n).length = n := by
  induction n with
  | zero => rfl
  | succ n ih => rw [lowBytes, List.length_cons, ih]

theorem byte?_write_of_notMem (bus : Bus) {mem : Memory} {width : Nat} {other : UInt64}
    (h : other ∉ Memory.span bus.address (width / 8)) :
    (bus.write mem width).byte? other = mem.byte? other := by
  apply Memory.byte?_writeList_of_notMem
  rwa [length_lowBytes]

end Bus

end Legv8
