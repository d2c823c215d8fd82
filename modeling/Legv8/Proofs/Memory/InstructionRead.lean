import Legv8.Config
import Legv8.Pipeline.Stages
import Legv8.Proofs.Memory.Fetch

/-! # Instruction reads

A fetch moves eight bytes and keeps four. What it comes to is a plain read of those four: the lower half of
the transfer can neither change the word nor add a fault or hide one, also where the eight bytes run over
the end of memory or wrap around at 2^64. A configuration is therefore accepted exactly if the first fetch
of its machine is without a fault. -/
namespace Legv8

namespace Memory

/-- A plain read of an instruction: its four bytes, each zero where it is outside memory, and the first of
their addresses that is. -/
def instructionAt (mem : Memory) (pc : UInt64) : Fetched :=
  let byte (addr : UInt64) : UInt8 := (mem.byte? addr).getD 0
  { word := .ofBytes (byte pc) (byte (pc + 1)) (byte (pc + 2)) (byte (pc + 3))
    nextPc := pc + 4
    fault := [pc, pc + 1, pc + 2, pc + 3].find? fun addr => (mem.byte? addr).isNone }

theorem span_word (pc : UInt64) : span pc Word.size = [pc, pc + 1, pc + 2, pc + 3] := by
  simp only [Word.size, span, UInt64.add_assoc]
  rfl

theorem entryAt_eq_instructionAt (mem : Memory) (pc : UInt64) : mem.entryAt pc = mem.instructionAt pc := by
  have spelled : ∀ a b c d : UInt8, (bigEndian [a, b, c, d]).toUInt32 = Word.ofBytes a b c d := by
    intro a b c d
    rw [← Word.toNat_ofBytes]
    exact UInt32.ofNat_toNat
  rw [entryAt_peek, peek_eq_map, head?_missing, span_word, instructionAt]
  simp only [List.map_cons, List.map_nil, spelled]

/-- A fetch is without a fault exactly if its word ends within memory, where that has no 2^64 bytes. -/
theorem fault_entryAt_eq_none_iff {mem : Memory} (small : mem.size < 2 ^ 64) (pc : UInt64) :
    (mem.entryAt pc).fault = none ↔ pc.toNat + Word.size ≤ mem.size := by
  have place : ∀ k < Word.size, (pc + k.toUInt64).toNat = (pc.toNat + k) % 2 ^ 64 := by
    intro k hk
    rw [UInt64.toNat_add, Nat.toUInt64, UInt64.toNat_ofNat', Nat.add_mod_mod]
  have bound := pc.toNat_lt
  have four : Word.size = 4 := rfl
  rw [fault_entryAt, List.head?_eq_none_iff, missing_eq_nil_iff]
  constructor
  · intro inside
    have reached : ∀ k < Word.size, (pc.toNat + k) % 2 ^ 64 < mem.size := fun k hk => by
      rw [← place k hk]
      exact of_decide_eq_true (inside k hk)
    have last := reached 3 (by decide)
    -- a word that wraps around has the last of all addresses among its bytes
    by_cases wraps : 2 ^ 64 ≤ pc.toNat + 3
    · have edge := reached (2 ^ 64 - 1 - pc.toNat) (by unfold Word.size; omega)
      omega
    · unfold Word.size
      omega
  · intro fits k hk
    refine decide_eq_true ?_
    rw [place k hk, Nat.mod_eq_of_lt (by omega)]
    exact Nat.lt_of_lt_of_le (Nat.add_lt_add_left hk pc.toNat) fits

end Memory

theorem Config.validate_eq_ok_iff (c : Config) :
    c.validate = .ok () ↔ c.memorySize ≠ 0 ∧ c.startPc.toNat + Word.size ≤ c.memorySize.toNat := by
  unfold validate
  split
  · next empty => simp [empty]
  · next filled =>
    split
    · next outside => simp [Nat.not_le.mpr outside]
    · next inside => simp [filled, Nat.le_of_not_lt inside]

/-- A fetch is a plain read of the four bytes at its address modulo 2^64, in a memory of any size, and asks
for no stop: the pipeline puts what it comes to into the latch and moves on, and that is all. A
configuration is accepted exactly if its memory is not empty and a fetch at its start address, from whatever
that memory holds, is without a fault. -/
theorem fetch_is_plain_read :
    (∀ (bus : Bus) (mem : Memory) (pc : UInt64), (bus.fetch mem pc).1 = mem.instructionAt pc) ∧
      (∀ p : Pipeline, p.completeFetch.1.core.stop = p.core.stop) ∧
      (∀ p : Pipeline, p.fetch.pending = true → p.latches.ifId = none →
        p.completeFetch.1.core = { p.core with pc := p.core.pc + 4 } ∧
          p.completeFetch.1.latches.ifId = some (p.core.memory.instructionAt p.core.pc)) ∧
      (∀ (c : Config) (bus : Bus) (mem : Memory), mem.size = c.memorySize.toNat →
        (c.validate = .ok () ↔ c.memorySize ≠ 0 ∧ (bus.fetch mem c.startPc).1.fault = none)) := by
  have read : ∀ (bus : Bus) (mem : Memory) (pc : UInt64), (bus.fetch mem pc).1 = mem.instructionAt pc :=
    fun bus mem pc => (Memory.fetch_fst bus mem pc).trans (mem.entryAt_eq_instructionAt pc)
  refine ⟨read, fun p => ?_, fun p pending free => ?_, fun c bus mem size => ?_⟩
  · unfold Pipeline.completeFetch Pipeline.fetchStep
    split
    · rfl
    · rfl
    · rfl
  · have step : p.fetchStep =
        .fetched (p.core.memory.instructionAt p.core.pc) (p.fetch.bus.fetch p.core.memory p.core.pc).2 := by
      unfold Pipeline.fetchStep
      rw [pending, free, ← read p.fetch.bus]
      rfl
    unfold Pipeline.completeFetch
    rw [step]
    exact ⟨rfl, rfl⟩
  · have small : mem.size < 2 ^ 64 := size ▸ c.memorySize.toNat_lt
    rw [c.validate_eq_ok_iff, Memory.fetch_fst, Memory.fault_entryAt_eq_none_iff small, size]

/-- Two bytes before the end of a memory of eight, and two before 2^64, where the bytes at 0 and 1 are in
range again. The last whole word is fetched without a fault, and a machine may start there. -/
theorem fetch_near_end :
    let mem : Memory := .ofWords [0x11223344, 0x55667788]
    let p : Pipeline := (Pipeline.new (.new mem 4 false)).launchFetch
    let c : Config := { Config.default with memorySize := 8, startPc := 4 }
    (Bus.new.fetch mem 6).1 = { word := 0x77880000, nextPc := 10, fault := some 8 } ∧
      (Bus.new.fetch mem 0xFFFFFFFFFFFFFFFE).1 =
        { word := 0x00001122, nextPc := 2, fault := some 0xFFFFFFFFFFFFFFFE } ∧
      p.completeFetch.1.core.stop = none ∧
      p.fetch.pending = true ∧ p.latches.ifId = none ∧ p.completeFetch.1.core = { p.core with pc := 8 } ∧
      p.completeFetch.1.latches.ifId = some { word := 0x55667788, nextPc := 8, fault := none } ∧
      mem.size = c.memorySize.toNat ∧ c.validate = .ok () := by
  intro mem p c
  obtain ⟨read, quiet, published, accepted⟩ := fetch_is_plain_read
  have size : mem.size = c.memorySize.toNat := by decide +kernel
  have whole : (Bus.new.fetch mem c.startPc).1.fault = none := by
    rw [read]
    decide +kernel
  obtain ⟨core, entry⟩ := published p rfl rfl
  exact ⟨(read .new mem 6).trans (by decide +kernel), (read .new mem _).trans (by decide +kernel), quiet p, rfl,
    rfl, core, entry.trans (by decide +kernel), size, (accepted c .new mem size).mpr ⟨by decide, whole⟩⟩

end Legv8
