import Legv8.Proofs.Memory.Fetch

/-! # Programs in memory

A program stands at address 0, word by word, with zeros behind it up to the end of memory. A fetch at the
address of a word reads that word, and a zero behind the program. What memory held before a load does not
matter. -/
namespace Legv8

namespace Memory

theorem ofProgram_eq_ok {size : Nat} {words : List Word} {mem : Memory}
    (h : ofProgram size words = .ok mem) : Word.size * words.length ≤ size ∧
      mem = ⟨pad (Word.image words).toByteArray (size - Word.size * words.length)⟩ := by
  unfold ofProgram at h
  dsimp only at h
  split at h
  · cases h
  · next fits => exact ⟨Nat.le_of_not_lt fits, (Except.ok.inj h).symm⟩

theorem length_image (words : List Word) : (Word.image words).length = Word.size * words.length := by
  induction words with
  | nil => rfl
  | cons w rest ih =>
    rw [Word.image, List.flatMap_cons, List.length_append, List.length_cons, Nat.mul_succ, Nat.add_comm]
    exact congrArg (· + Word.size) ih

/-- Bytes that fit replace as many of those behind the index. -/
theorem store_append (front old bytes : List UInt8) (fits : bytes.length ≤ old.length) :
    store (front ++ old).toByteArray front.length bytes =
      (front ++ bytes ++ old.drop bytes.length).toByteArray := by
  induction bytes generalizing front old with
  | nil => rw [store, List.append_nil, List.length_nil, List.drop_zero]
  | cons b rest ih =>
    cases old with
    | nil => exact absurd fits (Nat.not_succ_le_zero _)
    | cons o old =>
      have room : front.length < (front ++ o :: old).toByteArray.size := by simp
      have written : (front ++ o :: old).toByteArray.set front.length b room =
          (front ++ [b] ++ old).toByteArray := by
        refine ByteArray.ext ?_
        simp only [ByteArray.data_set, List.data_toByteArray, List.set_toArray, List.append_assoc]
        rw [List.set_append_right _ _ (Nat.le_refl _), Nat.sub_self, List.set_cons_zero]
        rfl
      have stored := ih (front ++ [b]) old (Nat.le_of_succ_le_succ fits)
      rw [List.length_append, List.length_singleton] at stored
      rw [store, dif_pos room, written, stored, List.append_assoc front [b]]
      rfl

/-- A load makes the memory anew: what it held before does not matter. A load that fails leaves it as it
was. -/
theorem loadProgram_eq (mem : Memory) (words : List Word) :
    mem.loadProgram words = match ofProgram mem.size words with
      | .ok loaded => (loaded, none)
      | .error err => (mem, some err) := by
  unfold loadProgram ofProgram
  dsimp only
  split
  · rfl
  · next fits =>
    rw [← length_image] at fits ⊢
    have zeros : mem.reset.bytes = (List.replicate mem.size 0).toByteArray := by
      refine ByteArray.ext ?_
      simp [reset, new, data_pad]
    have stored := store_append [] (List.replicate mem.size 0) (Word.image words)
      (by rw [List.length_replicate]; exact Nat.le_of_not_lt fits)
    rw [List.nil_append, List.nil_append, List.length_nil, List.drop_replicate] at stored
    rw [zeros, stored]
    refine congrArg (fun bytes => (Memory.mk bytes, none)) (ByteArray.ext ?_)
    simp [data_pad]

theorem load_eq_ofProgram (mem : Memory) (words : List Word) :
    mem.load words = ofProgram mem.size words := by
  rw [load, loadProgram_eq]
  cases ofProgram mem.size words <;> rfl

/-- A byte of a program is a byte of the word around it. -/
theorem getElem?_image (words : List Word) (i : Nat) {k : Nat} (hk : k < Word.size) :
    (Word.image words)[Word.size * i + k]? = words[i]?.bind fun w => w.bytes[k]? := by
  induction words generalizing i with
  | nil => rfl
  | cons w rest ih =>
    rw [Word.image, List.flatMap_cons]
    cases i with
    | zero => rw [Nat.mul_zero, Nat.zero_add, List.getElem?_append_left hk]; rfl
    | succ i =>
      have behind : Word.size * (i + 1) + k - w.bytes.length = Word.size * i + k := by
        rw [Nat.mul_succ, Nat.add_right_comm]
        exact Nat.add_sub_cancel _ _
      have past : w.bytes.length ≤ Word.size * (i + 1) + k := by
        rw [Nat.mul_succ, Nat.add_right_comm]
        exact Nat.le_add_left _ _
      rw [List.getElem?_append_right past, behind, List.getElem?_cons_succ]
      exact ih i

section Program

variable {size : Nat} {words : List Word} {mem : Memory} (program : ofProgram size words = .ok mem)
include program

theorem size_ofProgram : mem.size = size := by
  obtain ⟨fits, rfl⟩ := ofProgram_eq_ok program
  simp only [Memory.size, ← ByteArray.size_data, data_pad, List.data_toByteArray, Array.size_append,
    List.size_toArray, Array.size_replicate, length_image]
  omega

/-- Behind the bytes of the program there are zeros. -/
theorem byte?_ofProgram (addr : UInt64) : mem.byte? addr =
    if addr.toNat < size then some ((Word.image words)[addr.toNat]?.getD 0) else none := by
  obtain ⟨fits, rfl⟩ := ofProgram_eq_ok program
  rw [byte?_eq_getElem?, data_pad, List.data_toByteArray]
  rw [← length_image] at fits ⊢
  generalize Word.image words = image at fits ⊢
  rcases Nat.lt_or_ge addr.toNat image.length with early | late
  · rw [Array.getElem?_append_left early, List.getElem?_toArray, List.getElem?_eq_getElem early,
      if_pos (Nat.lt_of_lt_of_le early fits), Option.getD_some]
  · rw [Array.getElem?_append_right late, Array.getElem?_replicate, List.getElem?_eq_none late,
      List.size_toArray, Option.getD_none]
    congr 1
    exact propext (by omega)

section Word

variable {i : Nat} {addr : UInt64} (at_ : addr.toNat = Word.size * i)
  (inside : Word.size * (i + 1) ≤ size)
include at_ inside

theorem byte?_ofProgram_word {k : Nat} (hk : k < Word.size) :
    mem.byte? (addr + k.toUInt64) = some ((words.getD i 0).bytes[k]?.getD 0) := by
  have place : (addr + k.toUInt64).toNat = Word.size * i + k := by
    have bound := addr.toNat_lt
    rw [UInt64.toNat_add, Nat.toUInt64, UInt64.toNat_ofNat']
    unfold Word.size at *
    omega
  have fits : Word.size * i + k < size := by
    unfold Word.size at *
    omega
  have zeros : ∀ k < Word.size, (0 : Word).bytes[k]?.getD 0 = 0 := by decide
  rw [byte?_ofProgram program, place, if_pos fits, getElem?_image words i hk, List.getD_eq_getElem?_getD]
  cases words[i]? with
  | none => exact congrArg some (zeros k hk).symm
  | some w => rfl

theorem peek_ofProgram : mem.peek addr Word.size = (words.getD i 0).bytes := by
  refine List.ext_getElem? fun k => ?_
  rcases Nat.lt_or_ge k Word.size with hk | past
  · have held : k < (words.getD i 0).bytes.length := hk
    rw [getElem?_peek mem addr hk, byte?_ofProgram_word program at_ inside hk, Option.getD_some,
      List.getElem?_eq_getElem held, Option.getD_some]
  · rw [List.getElem?_eq_none (by rw [length_peek]; exact past), List.getElem?_eq_none past]

/-- A fetch reads the word of the program at its address, or a zero behind the program. -/
theorem entryAt_ofProgram :
    mem.entryAt addr = { word := words.getD i 0, nextPc := addr + 4, fault := none } := by
  have whole : mem.missing addr Word.size = [] := by
    refine missing_eq_nil_iff.mpr fun k hk => ?_
    rw [← Bool.not_eq_false, ← byte?_eq_none_iff, byte?_ofProgram_word program at_ inside hk]
    exact Option.some_ne_none _
  have read := peek_ofProgram program at_ inside
  rw [entryAt_peek, read, whole, Word.bigEndian_bytes, Nat.toUInt32,
    UInt32.ofNat_toNat]
  rfl

end Word

end Program

end Memory

end Legv8
