import Legv8.Error

/-!
# Main memory

A fixed number of bytes, addressed by 64-bit words. An access outside changes nothing and reads as
nothing; whoever made it reports the address.
-/
namespace Legv8

structure Memory where
  /-- The bytes from address 0 upwards. -/
  bytes : ByteArray

namespace Memory

instance : DecidableEq Memory
  | ⟨⟨a⟩⟩, ⟨⟨b⟩⟩ => decidable_of_decidable_of_iff (show a = b ↔ _ by simp)

/-- Puts `n` zero bytes behind others. -/
def pad (bytes : ByteArray) : (n : Nat) → ByteArray
  | 0 => bytes
  | n + 1 => pad (bytes.push 0) n

/-- `size` zero bytes. -/
def new (size : Nat) : Memory := ⟨pad .empty size⟩

def size (mem : Memory) : Nat := mem.bytes.size

def contains (mem : Memory) (addr : UInt64) : Bool := decide (addr.toNat < mem.bytes.size)

/-- The byte at an address, if that lies in memory. -/
@[inline] def byte? (mem : Memory) (addr : UInt64) : Option UInt8 :=
  if h : addr.toNat < mem.bytes.size then some (mem.bytes.get addr.toNat h) else none

/-- Sets the byte at an address; outside memory nothing happens. -/
@[inline] def write (mem : Memory) (addr : UInt64) (value : UInt8) : Memory :=
  if h : addr.toNat < mem.bytes.size then ⟨mem.bytes.set addr.toNat value h⟩ else mem

/-- Sets consecutive bytes from an address upwards, modulo 2^64. -/
def writeList (mem : Memory) (addr : UInt64) : List UInt8 → Memory
  | [] => mem
  | b :: rest => (mem.write addr b).writeList (addr + 1) rest

/-- The addresses outside memory among `count` consecutive ones, in ascending order modulo 2^64. -/
def missing (mem : Memory) (addr : UInt64) : (count : Nat) → List UInt64
  | 0 => []
  | n + 1 =>
    if mem.contains addr then mem.missing (addr + 1) n else addr :: mem.missing (addr + 1) n

/-- The least memory that holds a program. -/
def ofWords (words : List Word) : Memory := ⟨(Word.image words).toByteArray⟩

/-- A program at address 0, followed by zeros up to `size` bytes. -/
def ofProgram (size : Nat) (words : List Word) : Except ProgramError Memory :=
  let length := Word.size * words.length
  if size < length then .error (.tooLarge words.length size)
  else .ok ⟨pad (Word.image words).toByteArray (size - length)⟩

def reset (mem : Memory) : Memory := new mem.size

/-- Stores bytes from an index upwards, one after the other. -/
def store (bytes : ByteArray) (start : Nat) : List UInt8 → ByteArray
  | [] => bytes
  | b :: rest =>
    store (if h : start < bytes.size then bytes.set start b h else bytes) (start + 1) rest

/-- Clears memory and stores a program at address 0, if it fits. What memory is then stands beside the
error. -/
def loadProgram (mem : Memory) (words : List Word) : Memory × Option ProgramError :=
  if mem.size < Word.size * words.length then (mem, some (.tooLarge words.length mem.size))
  else (⟨store mem.reset.bytes 0 (Word.image words)⟩, none)

def load (mem : Memory) (words : List Word) : Except ProgramError Memory :=
  exceptOf (mem.loadProgram words)

/-- `length` bytes from `start`, clipped to memory. -/
def dump (mem : Memory) (start length : Nat) : List UInt8 :=
  let stop := min (start + length) mem.size
  (mem.bytes.extract (min start stop) stop).data.toList

theorem data_pad (bytes : ByteArray) (n : Nat) :
    (pad bytes n).data = bytes.data ++ Array.replicate n 0 := by
  induction n generalizing bytes with
  | zero => simp [pad]
  | succ n ih => simp [pad, ih, ByteArray.data_push, Array.replicate_succ']

theorem byte?_eq_getElem? (mem : Memory) (addr : UInt64) :
    mem.byte? addr = mem.bytes.data[addr.toNat]? := by
  rw [getElem?_def]
  rfl

theorem size_new (n : Nat) : (new n).size = n := by
  simp [new, size, ← ByteArray.size_data, data_pad]

theorem size_write (mem : Memory) (addr : UInt64) (value : UInt8) :
    (mem.write addr value).size = mem.size := by
  unfold write
  split
  · simp [size, ← ByteArray.size_data, ByteArray.data_set]
  · rfl

theorem byte?_new (n : Nat) (addr : UInt64) :
    (new n).byte? addr = if addr.toNat < n then some 0 else none := by
  simp [byte?_eq_getElem?, new, data_pad, Array.getElem?_replicate]

theorem byte?_write (mem : Memory) (addr other : UInt64) (value : UInt8) :
    (mem.write addr value).byte? other =
      if addr = other ∧ mem.contains addr then some value else mem.byte? other := by
  unfold write
  split
  · next h =>
    have hs : addr.toNat < mem.bytes.data.size := h
    simp only [byte?_eq_getElem?, ByteArray.data_set, contains, h, decide_true, and_true]
    rw [Array.getElem?_set hs]
    simp only [UInt64.toNat_inj]
  · next h => simp [contains, h]

theorem byte?_eq_none_iff (mem : Memory) (addr : UInt64) :
    mem.byte? addr = none ↔ mem.contains addr = false := by
  simp only [byte?_eq_getElem?, contains, decide_eq_false_iff_not, Array.getElem?_eq_none_iff,
    ByteArray.size_data, Nat.not_lt]

end Memory

end Legv8
