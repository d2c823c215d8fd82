import Legv8.Proofs.Datapath
import Legv8.Proofs.Isa.Fields

/-! # Memory as a map of bytes

Behind any accesses a byte is what the last store over it put there. A load spells the bytes that are
current when it is made, and the first byte that any of the accesses misses is the one that is reported.
Widths and addresses do not matter, nor whether accesses overlap or wrap around at 2^64; but a load
touches eight bytes whatever its width, so that near the end of memory it stops the machine with a value
that is right. -/
namespace Legv8

/-! ## One access -/

namespace Operation

/-- What a load makes of the number that it reads: `ldursw` takes it in two's complement. -/
def extend (op : Operation) (number : Nat) : UInt64 :=
  if op = .ldursw then .ofInt (Int.bmod number (2 ^ 32)) else .ofNat number

theorem isLoad_of_isStore {op : Operation} (h : op.isStore = true) : op.isLoad = false := by
  cases op <;> first | rfl | cases h

/-- Every width is a number of bytes that a doubleword holds. -/
theorem bytes_of_accessWidth? {op : Operation} {width : Nat} (h : op.accessWidth? = some width) :
    ∃ n, width = 8 * n ∧ 0 < n ∧ n ≤ Bus.readBytes ∧ (op = .ldursw → n = 4) := by
  cases op <;> cases h
  case ldur | stur => exact ⟨8, rfl, by decide⟩
  case ldursw | sturw => exact ⟨4, rfl, by decide⟩
  case ldurh | sturh => exact ⟨2, rfl, by decide⟩
  case ldurb | sturb => exact ⟨1, rfl, by decide⟩

end Operation

namespace Executed

/-- The addresses that an access touches, one after the other: eight for a load of any width. -/
def touched (x : Executed) : List UInt64 :=
  match Operation.ofWord? x.word with
  | some op => if op.isLoad then Memory.span x.address Bus.readBytes else x.storedBytes
  | none => []

/-- What a store puts at an address, if it goes there: the digits of its value in base 256, the most
significant one at the lowest address modulo 2^64. -/
def placed? (x : Executed) (addr : UInt64) : Option UInt8 :=
  let n := x.storedBytes.length
  let k := (addr - x.address).toNat
  if k < n then some (.ofNat (x.value.toNat / 256 ^ (n - 1 - k))) else none

theorem touched_eq {x : Executed} {op : Operation} (hop : Operation.ofWord? x.word = some op) :
    x.touched =
      if op.isLoad then Memory.span x.address Bus.readBytes
      else if op.isStore then Memory.span x.address (op.accessWidth?.getD 0 / 8) else [] := by
  unfold touched storedBytes
  simp only [hop]

theorem length_storedBytes_le (x : Executed) : x.storedBytes.length ≤ 8 := by
  unfold storedBytes
  cases Operation.ofWord? x.word with
  | none => exact Nat.zero_le 8
  | some op => cases op <;> simp [Operation.isStore, Operation.accessWidth?, Memory.length_span]

/-- A load takes the number that its bytes spell from the eight that it reads. -/
theorem loaded_read {op : Operation} {n : Nat} (positive : 0 < n) (narrow : n ≤ Bus.readBytes)
    (half : op = .ldursw → n = 4) (address data : UInt64) (mem : Memory) :
    loaded op (Bus.read ⟨address, data⟩ mem).1 (8 * n) = op.extend (bigEndian (mem.peek address n)) := by
  have value := Bus.upper_read ⟨address, data⟩ mem narrow positive
  have bound := bigEndian_lt (mem.peek address n)
  rw [Memory.length_peek, show 256 = 2 ^ 8 from rfl, ← Nat.pow_mul] at bound
  rw [← value] at bound ⊢
  unfold loaded Operation.extend
  by_cases extends_ : op = .ldursw
  · obtain rfl := half extends_
    rw [if_pos extends_, if_pos extends_]
    exact signExtend_eq (by decide) (by decide) bound
  · rw [if_neg extends_, if_neg extends_, UInt64.ofNat_toNat]

section Access

variable (x : Executed) (bus : Bus) (mem : Memory)

/-- An access changes the bytes that it places, where they are inside memory. -/
theorem byte?_access_placed (addr : UInt64) :
    ((x.access bus mem).memory mem).byte? addr =
      (mem.byte? addr).map fun old => (x.placed? addr).getD old := by
  have untouched : x.storedBytes = [] →
      mem.byte? addr = (mem.byte? addr).map fun old => (x.placed? addr).getD old := by
    intro none_
    simp only [placed?, none_, List.length_nil, Nat.not_lt_zero, if_false, Option.getD_none, Option.map_id']
  rcases x.access_cases with ⟨none_, h⟩ | ⟨none_, op, width, h⟩ | ⟨width, all, h⟩
  · rw [h]
    exact untouched none_
  · rw [h]
    exact untouched none_
  · have narrow := x.length_storedBytes_le
    rw [all, Memory.length_span] at narrow
    rw [h]
    refine (Bus.byte?_write x.address x.value mem narrow addr).trans
      (congrArg (Option.map · (mem.byte? addr)) (funext fun old => ?_))
    simp only [placed?, all, Memory.length_span]
    split <;> rfl

/-- An access reports the first byte that it touches outside memory. -/
theorem missing_access :
    (x.access bus mem).missing.head? = x.touched.find? fun a => (mem.byte? a).isNone := by
  cases hop : Operation.ofWord? x.word with
  | none =>
    unfold access touched
    rw [hop]
    rfl
  | some op =>
    rw [touched_eq hop]
    have moves := op.isSome_accessWidth?
    cases width : op.accessWidth? with
    | none =>
      rw [width] at moves
      obtain ⟨loads, stores⟩ := Bool.or_eq_false_iff.mp moves.symm
      rw [access_of_width hop width, loads, stores, if_neg Bool.false_ne_true, if_neg Bool.false_ne_true]
      rfl
    | some n =>
      cases loads : op.isLoad with
      | true =>
        rw [access_of_load hop width loads, if_pos rfl, ← mem.head?_missing]
        exact Option.head?_toList.trans (Bus.missing_read _ mem)
      | false =>
        rw [width, loads, Option.isSome_some, Bool.false_or] at moves
        rw [access_of_store hop width loads, ← moves, if_neg Bool.false_ne_true, if_pos rfl,
          ← mem.head?_missing]
        rfl

/-- No access changes which addresses are inside memory. -/
theorem isNone_byte?_access (addr : UInt64) :
    (((x.access bus mem).memory mem).byte? addr).isNone = (mem.byte? addr).isNone := by
  rw [byte?_access_placed, Option.isNone_map]

end Access

end Executed

/-! ## Accesses in a row -/

theorem Core.memory_settle (core : Core) (access : Access) :
    (core.settle access).memory = access.memory core.memory := by
  rw [settle_or]

/-- The accesses of some executed instructions, one after the other: the core and the bus behind them, and
what each hands on to the commit. -/
def Core.accesses (core : Core) (bus : Bus) : List Executed → Core × Bus × List Accessed
  | [] => (core, bus, [])
  | x :: rest =>
    let access := x.access bus core.memory
    let (last, lastBus, outs) := (core.settle access).accesses access.bus rest
    (last, lastBus, access.out :: outs)

/-- What the last store over an address put there. -/
def lastPlaced? (xs : List Executed) (addr : UInt64) : Option UInt8 :=
  xs.reverse.findSome? fun x => x.placed? addr

theorem lastPlaced?_cons (x : Executed) (rest : List Executed) (addr : UInt64) :
    lastPlaced? (x :: rest) addr = (lastPlaced? rest addr).or (x.placed? addr) := by
  rw [lastPlaced?, List.reverse_cons, List.findSome?_append, List.findSome?_singleton]
  rfl

/-- The byte at an address inside memory behind some accesses: what the last store over it put there, or
what was there at first. -/
def Memory.byteAfter (mem : Memory) (xs : List Executed) (addr : UInt64) : Option UInt8 :=
  (mem.byte? addr).map fun first => (lastPlaced? xs addr).getD first

theorem byteAfter_nil (mem : Memory) (addr : UInt64) : mem.byteAfter [] addr = mem.byte? addr := Option.map_id'

theorem byteAfter_access (x : Executed) (bus : Bus) (mem : Memory) (xs : List Executed) (addr : UInt64) :
    ((x.access bus mem).memory mem).byteAfter xs addr = mem.byteAfter (x :: xs) addr := by
  rw [Memory.byteAfter, Memory.byteAfter, x.byte?_access_placed, Option.map_map]
  refine congrArg (Option.map · (mem.byte? addr)) (funext fun first => ?_)
  rw [lastPlaced?_cons, Function.comp_apply, Option.getD_or]

section Accesses

variable (core : Core) (bus : Bus) (xs : List Executed)

theorem byte?_accesses (addr : UInt64) :
    (core.accesses bus xs).1.memory.byte? addr = core.memory.byteAfter xs addr := by
  induction xs generalizing core bus with
  | nil => exact (byteAfter_nil core.memory addr).symm
  | cons x rest ih =>
    rw [← byteAfter_access x bus core.memory rest addr]
    refine (ih _ _).trans ?_
    rw [Core.memory_settle]

theorem size_accesses : (core.accesses bus xs).1.memory.size = core.memory.size := by
  induction xs generalizing core bus with
  | nil => rfl
  | cons x rest ih =>
    refine (ih _ _).trans ?_
    rw [Core.memory_settle, x.size_access bus core.memory]

/-- The first missing byte of all accesses is reported, unless a stop was asked for before. -/
theorem stop_accesses :
    (core.accesses bus xs).1.stop = core.stop.or
      (((xs.flatMap Executed.touched).find? fun a => (core.memory.byte? a).isNone).map .memoryFault) := by
  induction xs generalizing core bus with
  | nil => exact Option.or_none.symm
  | cons x rest ih =>
    refine (ih _ _).trans ?_
    rw [Core.settle_or]
    simp only [Executed.isNone_byte?_access, Executed.missing_access, List.flatMap_cons, List.find?_append,
      Option.or_assoc, Option.map_or]

/-- A load hands on what the bytes that are current at its address spell. -/
theorem value_accesses {i : Nat} {x : Executed} {op : Operation} {width : Nat} (here : xs[i]? = some x)
    (hop : Operation.ofWord? x.word = some op) (loads : op.isLoad = true)
    (transfers : op.accessWidth? = some width) :
    (core.accesses bus xs).2.2[i]?.map (·.value) =
      some (op.extend (bigEndian ((Memory.span x.address (width / 8)).map fun a =>
        (core.memory.byteAfter (xs.take i) a).getD 0))) := by
  induction xs generalizing core bus i with
  | nil => cases here
  | cons y rest ih =>
    cases i with
    | zero =>
      obtain rfl : y = x := Option.some.inj here
      obtain ⟨n, rfl, positive, narrow, half⟩ := Operation.bytes_of_accessWidth? transfers
      simp only [List.take_zero, byteAfter_nil, Nat.mul_div_cancel_left n (show 0 < 8 by decide),
        ← Memory.peek_eq_map]
      rw [← Executed.loaded_read positive narrow half y.address bus.data]
      refine congrArg some ?_
      change (y.access bus core.memory).out.value = _
      rw [Executed.access_of_load hop transfers loads]
      rfl
    | succ i =>
      have later := ih (core.settle (y.access bus core.memory)) (y.access bus core.memory).bus here
      simp only [Core.memory_settle, byteAfter_access] at later
      exact later

/-- Memory is a map of bytes under any accesses: behind them every byte inside memory is what the last
store over it put there, or what it was at first; memory keeps its size; every load has handed on the
number that the bytes current at its time spell, each zero where it is outside memory; and the stop that is
asked for is the fault at the first touched byte outside memory, unless one was asked for before. -/
theorem accesses_are_bytewise :
    (∀ addr, (core.accesses bus xs).1.memory.byte? addr = core.memory.byteAfter xs addr) ∧
      (core.accesses bus xs).1.memory.size = core.memory.size ∧
      (∀ i x op width, xs[i]? = some x → Operation.ofWord? x.word = some op → op.isLoad = true →
        op.accessWidth? = some width →
        (core.accesses bus xs).2.2[i]?.map (·.value) =
          some (op.extend (bigEndian ((Memory.span x.address (width / 8)).map fun a =>
            (core.memory.byteAfter (xs.take i) a).getD 0)))) ∧
      (core.accesses bus xs).1.stop = core.stop.or
        (((xs.flatMap Executed.touched).find? fun a => (core.memory.byte? a).isNone).map .memoryFault) :=
  ⟨byte?_accesses core bus xs, size_accesses core bus xs,
    fun _ _ _ _ here hop loads transfers => value_accesses core bus xs here hop loads transfers,
    stop_accesses core bus xs⟩

end Accesses

/-- In a memory of ten bytes, the low byte of a halfword stored at the last address falls on the first byte
of a doubleword, which a load then reads; the high byte of the halfword is the first that is missing. -/
theorem accesses_wrapping_around :
    let core := Core.new (.new 10) 0 false
    let xs : List Executed :=
      [{ word := 0xF8000041, nextPc := 4, value := 0x1122334455667788, address := 0 },
        { word := 0x78000041, nextPc := 8, value := 0xAABB, address := 0xFFFFFFFFFFFFFFFF },
        { word := 0xF8400043, nextPc := 12, value := 0, address := 0 }]
    (core.accesses .new xs).1.memory.byte? 0 = some 0xBB ∧ (core.accesses .new xs).1.memory.size = 10 ∧
      xs[2]?.map (·.word) = some 0xF8400043 ∧ Operation.ofWord? 0xF8400043 = some .ldur ∧
      (core.accesses .new xs).2.2[2]?.map (·.value) = some 0xBB22334455667788 ∧
      (core.accesses .new xs).1.stop = some (.memoryFault 0xFFFFFFFFFFFFFFFF) := by
  intro core xs
  obtain ⟨bytes, size, loads, stop⟩ := accesses_are_bytewise core .new xs
  have ldur : Operation.ofWord? 0xF8400043 = some .ldur := by decide +kernel
  refine ⟨(bytes 0).trans (by decide +kernel), size.trans (by decide +kernel), rfl, ldur,
    (loads 2 _ .ldur 64 rfl ldur rfl rfl).trans (by decide +kernel), stop.trans (by decide +kernel)⟩

/-! ## A store and a load of the same width -/

section Stored

variable {x : Executed} {store : Operation} {width : Nat}
  (storeWord : Operation.ofWord? x.word = some store) (stores : store.isStore = true)
  (storeWidth : store.accessWidth? = some width) {mem : Memory}
  (inside : ∀ k < width / 8, mem.contains (x.address + k.toUInt64) = true)
include storeWord stores storeWidth inside

/-- A store that is made inside memory misses nothing. -/
theorem find?_touched_of_store : (x.touched.find? fun a => (mem.byte? a).isNone) = none := by
  rw [Executed.touched_eq storeWord, Operation.isLoad_of_isStore stores, stores, storeWidth,
    if_neg Bool.false_ne_true, if_pos rfl, Option.getD_some, ← Memory.head?_missing,
    Memory.missing_eq_nil_iff.mpr inside]
  rfl

/-- The bytes of a store are the low bytes of its value. -/
theorem bytesAfter_store :
    ((Memory.span x.address (width / 8)).map fun a => (mem.byteAfter [x] a).getD 0) =
      Bus.lowBytes x.value (width / 8) := by
  have narrow : width / 8 ≤ 8 := by
    obtain ⟨n, rfl, _, small, _⟩ := Operation.bytes_of_accessWidth? storeWidth
    rw [Nat.mul_div_cancel_left n (by decide)]
    exact small
  have stored : ∀ a, mem.byteAfter [x] a = (Bus.write ⟨x.address, x.value⟩ mem width).byte? a := by
    intro a
    have moves := Operation.isLoad_of_isStore stores
    rw [← byteAfter_access x .new mem [] a, byteAfter_nil, x.access_of_store storeWord storeWidth moves]
    rfl
  simp only [stored, ← Memory.peek_eq_map]
  exact Bus.peek_write x.address x.value mem narrow inside

end Stored

/-- Behind a store all of whose bytes are inside memory, and which asks for no stop, a load of the same
width at the same address hands on the low bits of the value that was stored, extended as the load demands.
It asks for no stop either where all of the eight bytes that it touches are inside memory; otherwise it asks
for the fault at the first that is not. -/
theorem load_returns_stored (core : Core) (bus : Bus) {x y : Executed} {store load : Operation} {width : Nat}
    (storeWord : Operation.ofWord? x.word = some store) (loadWord : Operation.ofWord? y.word = some load)
    (stores : store.isStore = true) (loads : load.isLoad = true)
    (storeWidth : store.accessWidth? = some width) (loadWidth : load.accessWidth? = some width)
    (same : y.address = x.address)
    (inside : ∀ k < width / 8, core.memory.contains (x.address + k.toUInt64) = true) :
    (core.accesses bus [x]).1.stop = core.stop ∧
      (core.accesses bus [x, y]).2.2[1]?.map (·.value) = some (load.extend (x.value.toNat % 2 ^ width)) ∧
      (core.accesses bus [x, y]).1.stop = core.stop.or
        (((Memory.span x.address 8).find? fun a => (core.memory.byte? a).isNone).map .memoryFault) := by
  have whole := find?_touched_of_store storeWord stores storeWidth inside
  refine ⟨?_, ?_, ?_⟩
  · rw [stop_accesses, List.flatMap_singleton, whole]
    exact Option.or_none
  · have value := value_accesses core bus [x, y] (i := 1) rfl loadWord loads loadWidth
    rw [same] at value
    have bytes := bytesAfter_store storeWord stores storeWidth inside
    obtain ⟨n, rfl, _, narrow, _⟩ := Operation.bytes_of_accessWidth? loadWidth
    have count : 8 * n / 8 = n := Nat.mul_div_cancel_left n (by decide)
    rw [count] at bytes value
    refine value.trans ?_
    rw [List.take_succ_cons, List.take_zero, bytes, Bus.bigEndian_lowBytes x.value narrow,
      show 256 = 2 ^ 8 from rfl, ← Nat.pow_mul]
  · rw [stop_accesses, List.flatMap_cons, List.flatMap_singleton, List.find?_append, whole, Option.none_or,
      Executed.touched_eq loadWord, loads, if_pos rfl, same]
    rfl

/-- The last four bytes of a memory hold a negative word, which is loaded back, and the load stops the
machine at the byte behind them. -/
theorem load_returns_stored_at_end :
    let core := Core.new (.new 8) 0 false
    let x : Executed := { word := 0xB8000041, nextPc := 4, value := 0x99FFFFFFFE, address := 4 }
    let y : Executed := { word := 0xB8800043, nextPc := 8, value := 0, address := 4 }
    Operation.ofWord? x.word = some .sturw ∧ Operation.ofWord? y.word = some .ldursw ∧
      (∀ k < 32 / 8, core.memory.contains (x.address + k.toUInt64) = true) ∧
      (core.accesses .new [x]).1.stop = none ∧
      (core.accesses .new [x, y]).2.2[1]?.map (·.value) = some 0xFFFFFFFFFFFFFFFE ∧
      (core.accesses .new [x, y]).1.stop = some (.memoryFault 8) := by
  intro core x y
  have storeWord : Operation.ofWord? x.word = some .sturw := by decide +kernel
  have loadWord : Operation.ofWord? y.word = some .ldursw := by decide +kernel
  have inside : ∀ k < 32 / 8, core.memory.contains (x.address + k.toUInt64) = true := by decide +kernel
  obtain ⟨asked, value, stop⟩ :=
    load_returns_stored core .new storeWord loadWord rfl rfl rfl rfl rfl inside
  exact ⟨storeWord, loadWord, inside, asked, value.trans (by decide +kernel), stop.trans (by decide +kernel)⟩

/-- A byte stored at the last address is loaded back, but the load touches the seven bytes behind it too
and stops the machine. -/
theorem load_of_last_byte_stops :
    let core := Core.new (.new 8) 0 false
    let x : Executed := { word := 0x38000041, nextPc := 4, value := 0x12, address := 7 }
    let y : Executed := { word := 0x38400043, nextPc := 8, value := 0, address := 7 }
    Operation.ofWord? x.word = some .sturb ∧ Operation.ofWord? y.word = some .ldurb ∧
      (∀ k < 8 / 8, core.memory.contains (x.address + k.toUInt64) = true) ∧
      (core.accesses .new [x]).1.stop = none ∧
      (core.accesses .new [x, y]).2.2[1]?.map (·.value) = some 0x12 ∧
      (core.accesses .new [x, y]).1.stop = some (.memoryFault 8) := by
  decide +kernel

end Legv8
