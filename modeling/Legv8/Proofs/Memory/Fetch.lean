import Legv8.Datapath.Fetch
import Legv8.Proofs.Memory.BigEndian

/-! # What a fetch looks at

A fetch looks at the four bytes of its word only: the lower half of the doubleword that the bus moves
leaves no trace in the entry, neither in the word nor in the fault. This holds at every address, wrapping
ones included. -/
namespace Legv8.Memory

variable {mem : Memory} {pc : UInt64}

/-- The entry that a fetch at `pc` comes to, whatever the bus held before. -/
def entryAt (mem : Memory) (pc : UInt64) : Fetched := (Bus.new.fetch mem pc).1

theorem fetch_fst (bus : Bus) (mem : Memory) (pc : UInt64) : (bus.fetch mem pc).1 = mem.entryAt pc :=
  rfl

theorem nextPc_entryAt (mem : Memory) (pc : UInt64) : (mem.entryAt pc).nextPc = pc + 4 := rfl

theorem word_entryAt (mem : Memory) (pc : UInt64) :
    (mem.entryAt pc).word = (bigEndian (mem.peek pc Word.size)).toUInt32 := by
  have upper := Bus.upper_read { Bus.new with address := pc } mem (n := Word.size) (by decide) (by decide)
  rw [← upper]
  rfl

theorem offset_near (pc : UInt64) {i : Nat} (hi : i < Bus.readBytes) :
    decide (pc + i.toUInt64 - pc < 4) = decide (i < Word.size) := by
  unfold Bus.readBytes at hi
  have offset : (pc + i.toUInt64 - pc).toNat = i := by
    rw [UInt64.add_comm, UInt64.add_sub_cancel, Nat.toUInt64, UInt64.toNat_ofNat']
    omega
  rw [decide_eq_decide, UInt64.lt_iff_toNat_lt, offset]
  rfl

/-- The fault of a fetch is the first byte of its word that is missing. -/
theorem fault_entryAt (mem : Memory) (pc : UInt64) :
    (mem.entryAt pc).fault = (mem.missing pc Word.size).head? := by
  change (Bus.read { Bus.new with address := pc } mem).2.filter (fun addr => addr - pc < 4) = _
  rw [Bus.missing_read, show Bus.readBytes = Word.size + 4 from rfl, missing_add, List.head?_append]
  -- a byte missing in the upper half is kept, one missing in the lower half only is dropped
  cases upper : (mem.missing pc Word.size).head? with
  | some x =>
    obtain ⟨i, hi, rfl⟩ := offset_of_mem_missing (List.mem_of_head? upper)
    have near := offset_near pc (Nat.lt_of_lt_of_le hi (by decide))
    exact Option.filter_some_pos (near.trans (decide_eq_true hi))
  | none =>
    rw [Option.none_or]
    cases lower : (mem.missing (pc + Word.size.toUInt64) 4).head? with
    | none => rfl
    | some x =>
      obtain ⟨i, hi, rfl⟩ := offset_of_mem_missing (List.mem_of_head? lower)
      have far := offset_near pc (Nat.add_lt_add_left hi Word.size)
      rw [offset_add]
      exact Option.filter_some_neg (far.trans (decide_eq_false (Nat.not_lt.mpr (Nat.le_add_right _ _))))

/-- The word and the fault of a fetch are those of its four bytes. -/
theorem entryAt_peek (mem : Memory) (pc : UInt64) :
    mem.entryAt pc =
      { word := (bigEndian (mem.peek pc Word.size)).toUInt32
        nextPc := pc + 4
        fault := (mem.missing pc Word.size).head? } := by
  rw [← word_entryAt, ← fault_entryAt]
  rfl

/-- A fetch without a fault has its whole word in memory. -/
theorem contains_word_of_entryAt (inside : (mem.entryAt pc).fault = none) {k : Nat} (hk : k < Word.size) :
    mem.contains (pc + k.toUInt64) = true := by
  rw [fault_entryAt, List.head?_eq_none_iff, missing_eq_nil_iff] at inside
  exact inside k hk

theorem contains_of_entryAt (inside : (mem.entryAt pc).fault = none) : mem.contains pc = true := by
  have first := contains_word_of_entryAt inside (k := 0) (by decide)
  rwa [offset_zero] at first

/-- A fetch at a multiple of four does not wrap. -/
theorem fits_of_entryAt {i : Nat} (at_ : pc.toNat = Word.size * i) (inside : (mem.entryAt pc).fault = none) :
    Word.size * (i + 1) ≤ mem.size := by
  have last := contains_word_of_entryAt inside (k := 3) (by decide)
  have bound := pc.toNat_lt
  have place : (pc + (3 : Nat).toUInt64).toNat = (pc.toNat + 3) % 2 ^ 64 := UInt64.toNat_add _ _
  have early : (pc + (3 : Nat).toUInt64).toNat < mem.size := of_decide_eq_true last
  unfold Word.size at *
  omega

theorem entryAt_congr {other : Memory} (h : ∀ a ∈ span pc Word.size, mem.byte? a = other.byte? a) :
    mem.entryAt pc = other.entryAt pc := by
  have bytes : mem.peek pc Word.size = other.peek pc Word.size := by
    rw [peek_eq_map, peek_eq_map]
    exact List.map_congr_left fun a ha => by rw [h a ha]
  have missing : mem.missing pc Word.size = other.missing pc Word.size := by
    rw [missing_eq_filter, missing_eq_filter]
    exact List.filter_congr fun a ha => by rw [h a ha]
  rw [entryAt_peek, entryAt_peek, bytes, missing]

end Legv8.Memory
