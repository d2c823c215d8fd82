import Legv8.Memory

/-!
# Memory buses

A unit reaches memory through a bus with two staging registers: the address register names the first
byte of a transfer, the data register holds what was read or is to be written. Transfers are big-endian.
A read always moves eight bytes; narrow loads are views of the top of the data register.
-/
namespace Legv8

structure Bus where
  /-- The address of the first byte of the next transfer. -/
  address : UInt64
  data : UInt64
  deriving DecidableEq

namespace Bus

def new : Bus := ⟨0, 0⟩

/-- Clears both staging registers. -/
def reset (bus : Bus) : Bus := { bus with address := 0, data := 0 }

/-- The bytes that one read moves. -/
def readBytes : Nat := 8

/-- Reads `n` bytes from `addr` upwards below the bytes already in `data`. A byte outside memory reads
as zero, and the first such address is kept in `missing`. -/
def gather (mem : Memory) :
    (n : Nat) → (addr data : UInt64) → (missing : Option UInt64) → UInt64 × Option UInt64
  | 0, _, data, missing => (data, missing)
  | n + 1, addr, data, missing =>
    match mem.byte? addr with
    | some b => gather mem n (addr + 1) ((data <<< 8) ||| b.toUInt64) missing
    | none => gather mem n (addr + 1) (data <<< 8) (match missing with
      | some first => some first
      | none => some addr)

/-- Reads eight bytes at the bus's address. The second result is the first address outside memory. -/
@[inline] def read (bus : Bus) (mem : Memory) : Bus × Option UInt64 :=
  let (data, missing) := gather mem readBytes bus.address 0 none
  ({ bus with data }, missing)

/-- The low `n` bytes of a doubleword, most significant first. -/
def lowBytes (data : UInt64) : (n : Nat) → List UInt8
  | 0 => []
  | n + 1 => (data >>> (8 * n).toUInt64).toUInt8 :: lowBytes data n

/-- Writes the low `width / 8` bytes of the data register at the bus's address. Bytes outside memory are
lost. -/
@[inline] def write (bus : Bus) (mem : Memory) (width : Nat) : Memory :=
  mem.writeList bus.address (lowBytes bus.data (width / 8))

/-- The addresses outside memory that a write of `width / 8` bytes meets. -/
@[inline] def lost (bus : Bus) (mem : Memory) (width : Nat) : List UInt64 :=
  mem.missing bus.address (width / 8)

/-- The top `width` bits of the data register, for widths from 1 upwards. -/
@[inline] def upper (bus : Bus) (width : Nat) : UInt64 :=
  if 64 ≤ width then bus.data else bus.data >>> (64 - width).toUInt64

end Bus

end Legv8
