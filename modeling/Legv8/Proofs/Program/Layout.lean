import Legv8.Program.Binary
import Legv8.Proofs.Simulator.Loading

/-! # One layout

Binary programs, memory and fetch agree on where a word of a program stands and in which order its bytes
come. A program of whole words has one byte image; reading the image gives the program back, memory holds
the image from address 0 upwards with zeros behind it, and a fetch at the place of a word reads that word,
the last one of a memory without room behind it included. -/
namespace Legv8

/-! ## Binary programs -/

theorem Word.ofBytes_bytes (w : Word) :
    ofBytes (w >>> 24).toUInt8 (w >>> 16).toUInt8 (w >>> 8).toUInt8 w.toUInt8 = w :=
  UInt32.toNat_inj.mp ((toNat_ofBytes _ _ _ _).trans w.bigEndian_bytes)

namespace Program.Binary

theorem wordsOf_image (words read : List Word) : wordsOf (Word.image words) read = read.reverse ++ words := by
  induction words generalizing read with
  | nil => exact (List.append_nil _).symm
  | cons w rest ih =>
    have step : wordsOf (Word.image (w :: rest)) read = wordsOf (Word.image rest) (w :: read) := by
      rw [Word.image, List.flatMap_cons, Word.bytes, List.cons_append, List.cons_append, List.cons_append,
        List.cons_append, wordsOf, Word.ofBytes_bytes]
      rfl
    rw [step, ih, List.reverse_cons, List.append_assoc, List.singleton_append]

/-- Whole words are read without a loss: put together again they are the bytes. -/
theorem image_wordsOf (bytes : List UInt8) (read : List Word) (whole : bytes.length % Word.size = 0) :
    Word.image (wordsOf bytes read) = Word.image read.reverse ++ bytes := by
  fun_induction wordsOf bytes read with
  | case1 a b c d rest read ih =>
    have shorter : rest.length % Word.size = 0 := by
      simp only [List.length_cons, Word.size] at whole ⊢
      omega
    rw [ih shorter, List.reverse_cons, Word.image, List.flatMap_append, List.flatMap_singleton,
      Word.bytes_ofBytes, List.append_assoc]
    rfl
  | case2 bytes read few =>
    rcases bytes with _ | ⟨a, _ | ⟨b, _ | ⟨c, _ | ⟨d, rest⟩⟩⟩⟩
    · exact (List.append_nil _).symm
    -- one, two or three bytes are no whole word, and four or more have been read
    · cases whole
    · cases whole
    · cases whole
    · exact (few a b c d rest rfl).elim

theorem parse_image (words : List Word) : parse (Word.image words) = .ok words := by
  have whole : (Word.image words).length % Word.size = 0 := by
    rw [Memory.length_image, Nat.mul_mod_right]
  rw [parse, if_pos whole, wordsOf_image]
  rfl

theorem image_of_parse {bytes : List UInt8} (whole : bytes.length % Word.size = 0) :
    ∃ words, parse bytes = .ok words ∧ Word.image words = bytes :=
  ⟨wordsOf bytes [], if_pos whole, image_wordsOf bytes [] whole⟩

end Program.Binary

/-! ## Programs in memory -/

namespace Memory

/-- A memory of `size` bytes holds a program: its bytes are those of the words and zeros behind them, a
fetch at the place of a word reads the word, and one behind the program reads a zero as long as the word
there is in memory. No such fetch has a fault. -/
structure Holds (mem : Memory) (size : Nat) (words : List Word) : Prop where
  bytes : mem.bytes.data.toList = Word.image words ++ List.replicate (size - Word.size * words.length) 0
  word : ∀ (bus : Bus) (pc : UInt64) (i : Nat) (h : i < words.length), pc.toNat = Word.size * i →
    (bus.fetch mem pc).1 = { word := words[i], nextPc := pc + 4, fault := none }
  zero : ∀ (bus : Bus) (pc : UInt64), pc.toNat % Word.size = 0 → Word.size * words.length ≤ pc.toNat →
    pc.toNat + Word.size ≤ size → (bus.fetch mem pc).1 = { word := 0, nextPc := pc + 4, fault := none }

/-- The least memory that holds a program is the one made from its words. -/
theorem ofProgram_eq_ofWords (words : List Word) :
    ofProgram (Word.size * words.length) words = .ok (ofWords words) := by
  unfold ofProgram
  dsimp only
  rw [if_neg (Nat.lt_irrefl _), Nat.sub_self]
  rfl

theorem holds_ofProgram {size : Nat} {words : List Word} {mem : Memory}
    (program : ofProgram size words = .ok mem) : mem.Holds size words where
  bytes := by
    obtain ⟨fits, rfl⟩ := ofProgram_eq_ok program
    rw [data_pad, List.data_toByteArray, Array.toList_append, Array.toList_replicate]
  word bus pc i h at_ := by
    have fits := (ofProgram_eq_ok program).1
    have inside : Word.size * (i + 1) ≤ size := Nat.le_trans (Nat.mul_le_mul_left _ h) fits
    rw [fetch_fst, entryAt_ofProgram program at_ inside, List.getD_eq_getElem?_getD,
      List.getElem?_eq_getElem h, Option.getD_some]
  zero bus pc aligned behind inside := by
    obtain ⟨i, at_⟩ := Nat.dvd_of_mod_eq_zero aligned
    have fits : Word.size * (i + 1) ≤ size := by rwa [Nat.mul_succ, ← at_]
    have past : words.length ≤ i := by
      rw [at_] at behind
      exact Nat.le_of_mul_le_mul_left behind (by decide)
    rw [fetch_fst, entryAt_ofProgram program at_ fits, List.getD_eq_getElem?_getD,
      List.getElem?_eq_none past, Option.getD_none]

end Memory

/-- Binary programs, memory and fetch agree on the layout of a program.

The bytes of the words, most significant first, are read back as the words. A binary program is refused,
with its length, exactly if that is no multiple of four; otherwise what is read has the same bytes.

A memory made for a program and a memory of that size that it is loaded into are the same, whatever the
latter held; the least such memory is the one made from the words alone. Both succeed exactly if the words
fit, and then hold the program. A program that does not fit is refused with its length and the size of
memory, and the memory and the machine that were to load it stay as they are. -/
theorem program_layouts_agree (words : List Word) :
    Program.Binary.parse (Word.image words) = .ok words ∧
      (∀ bytes : List UInt8, bytes.length % Word.size ≠ 0 →
        Program.Binary.parse bytes = .error (.truncated bytes.length)) ∧
      (∀ bytes : List UInt8, bytes.length % Word.size = 0 →
        ∃ read, Program.Binary.parse bytes = .ok read ∧ Word.image read = bytes) ∧
      (∀ mem : Memory, mem.load words = Memory.ofProgram mem.size words) ∧
      Memory.ofProgram (Word.size * words.length) words = .ok (.ofWords words) ∧
      (∀ size, Word.size * words.length ≤ size →
        ∃ mem, Memory.ofProgram size words = .ok mem ∧ mem.Holds size words) ∧
      (∀ size, size < Word.size * words.length →
        Memory.ofProgram size words = .error (.tooLarge words.length size)) ∧
      (∀ mem : Memory, mem.size < Word.size * words.length →
        mem.loadProgram words = (mem, some (.tooLarge words.length mem.size))) ∧
      (∀ sim : Simulator, sim.pipeline.core.memory.size < Word.size * words.length →
        (sim.serve (.load words)).1 = sim) := by
  refine ⟨Program.Binary.parse_image words, fun bytes cut => if_neg cut,
    fun bytes whole => Program.Binary.image_of_parse whole, fun mem => mem.load_eq_ofProgram words,
    Memory.ofProgram_eq_ofWords words, fun size fits => ?_, fun size large => if_pos large,
    fun mem large => if_pos large, fun sim large => ?_⟩
  · have program : Memory.ofProgram size words = .ok _ := if_neg (Nat.not_lt.mpr fits)
    exact ⟨_, program, Memory.holds_ofProgram program⟩
  · have refused : sim.pipeline.core.memory.loadProgram words = (_, some _) := if_pos large
    change (sim.loadProgram words).1 = sim
    unfold Simulator.loadProgram Pipeline.loadProgram
    rw [refused]

/-- A program of two words, in a memory without room behind it and in one with room for a word and a half,
and the same program cut within its second word. -/
theorem layouts_agree_twoWords :
    let words : List Word := [0x8B020020, 0xD28000A1]
    ∃ tight roomy : Memory, Memory.ofProgram 8 words = .ok tight ∧ Memory.ofProgram 14 words = .ok roomy ∧
      Program.Binary.parse [0x8B, 0x02, 0x00, 0x20, 0xD2, 0x80] = .error (.truncated 6) ∧
      Program.Binary.parse [0x8B, 0x02, 0x00, 0x20, 0xD2, 0x80, 0x00, 0xA1] = .ok words ∧
      (Bus.new.fetch tight 4).1 = { word := 0xD28000A1, nextPc := 8, fault := none } ∧
      roomy.bytes.data.toList = [0x8B, 0x02, 0x00, 0x20, 0xD2, 0x80, 0x00, 0xA1, 0, 0, 0, 0, 0, 0] ∧
      (Bus.new.fetch roomy 8).1 = { word := 0, nextPc := 12, fault := none } ∧
      roomy.load [1, 2, 3, 4] = .error (.tooLarge 4 14) ∧
      ∃ sim : Simulator, sim.pipeline.core.memory = roomy ∧ (sim.serve (.load [1, 2, 3, 4])).1 = sim := by
  intro words
  obtain ⟨read, cut, _, _, _, made, _⟩ := program_layouts_agree words
  obtain ⟨_, _, _, loads, _, _, large, _, stays⟩ := program_layouts_agree [1, 2, 3, 4]
  obtain ⟨tight, exact_, held⟩ := made 8 (by decide)
  obtain ⟨roomy, room, holds⟩ := made 14 (by decide)
  have size : roomy.size = 14 := Memory.size_ofProgram room
  exact ⟨tight, roomy, exact_, room, cut _ (by decide), read, held.word .new 4 1 (by decide) rfl,
    holds.bytes, holds.zero .new 8 rfl (by decide) (by decide),
    (loads roomy).trans (size ▸ large 14 (by decide)),
    { pipeline := .new (.ofConfig .default roomy), clock := .new 0, config := .default }, rfl,
    stays _ (Nat.lt_of_le_of_lt (Nat.le_of_eq size) (by decide))⟩

end Legv8
