import Legv8.Proofs.Memory.Footprint

/-! # Big-endian transfers

What a transfer moves is a number in base 256, with its first digit at the lowest address. A read is the
number that the bytes spell, each zero where it is outside memory, and reports the first missing one; the
bytes that a write leaves are the digits of its number. -/
namespace Legv8

/-- The number that bytes spell, most significant first. -/
def bigEndian : List UInt8 → Nat
  | [] => 0
  | b :: rest => b.toNat * 256 ^ rest.length + bigEndian rest

theorem bigEndian_lt (bytes : List UInt8) : bigEndian bytes < 256 ^ bytes.length := by
  induction bytes with
  | nil => exact Nat.zero_lt_one
  | cons b rest ih =>
    rw [bigEndian, List.length_cons, Nat.pow_succ]
    have digit : b.toNat + 1 ≤ 256 := b.toNat_lt
    have scaled := Nat.mul_le_mul_right (256 ^ rest.length) digit
    rw [Nat.add_mul, Nat.one_mul] at scaled
    omega

theorem bigEndian_append (high low : List UInt8) :
    bigEndian (high ++ low) = bigEndian high * 256 ^ low.length + bigEndian low := by
  induction high with
  | nil => rw [List.nil_append, bigEndian, Nat.zero_mul, Nat.zero_add]
  | cons b rest ih =>
    rw [List.cons_append, bigEndian, bigEndian, ih, List.length_append, Nat.pow_add, Nat.add_mul,
      Nat.mul_assoc, Nat.add_assoc]

/-- As many bytes that spell the same number are the same bytes. -/
theorem bigEndian_injective {xs ys : List UInt8} (length : xs.length = ys.length)
    (h : bigEndian xs = bigEndian ys) : xs = ys := by
  induction xs generalizing ys with
  | nil => exact (List.eq_nil_of_length_eq_zero length.symm).symm
  | cons x xs ih =>
    cases ys with
    | nil => cases length
    | cons y ys =>
      have same : xs.length = ys.length := Nat.succ.inj length
      have quotient : ∀ (digit : UInt8) {zs : List UInt8}, zs.length = ys.length →
          (digit.toNat * 256 ^ ys.length + bigEndian zs) / 256 ^ ys.length = digit.toNat := by
        intro digit zs hz
        have below := bigEndian_lt zs
        rw [hz] at below
        rw [Nat.mul_comm, Nat.mul_add_div (Nat.pow_pos (by decide)), Nat.div_eq_of_lt below, Nat.add_zero]
      rw [bigEndian, bigEndian, same] at h
      have first : x = y := by
        rw [← UInt8.toNat_inj, ← quotient x same, h, quotient y rfl]
      subst first
      rw [ih same (Nat.add_left_cancel h)]

/-- The bytes of a word spell it. -/
theorem Word.bigEndian_bytes (w : Word) : bigEndian w.bytes = w.toNat := by
  have bound : w.toNat < 4294967296 := w.toNat_lt
  have shift : ∀ k : UInt32, (w >>> k).toUInt8.toNat = w.toNat >>> (k.toNat % 32) % 256 := fun k => by
    rw [UInt32.toNat_toUInt8, UInt32.toNat_shiftRight]
  have low : w.toUInt8.toNat = w.toNat % 256 := UInt32.toNat_toUInt8 w
  simp only [bytes, bigEndian, shift, low, List.length_cons, List.length_nil, Nat.shiftRight_eq_div_pow,
    show (24 : UInt32).toNat % 32 = 24 from rfl, show (16 : UInt32).toNat % 32 = 16 from rfl,
    show (8 : UInt32).toNat % 32 = 8 from rfl]
  omega

/-- The word that four bytes make is what they spell. -/
theorem Word.toNat_ofBytes (a b c d : UInt8) : (ofBytes a b c d).toNat = bigEndian [a, b, c, d] := by
  have hb := b.toNat_lt
  have hc := c.toNat_lt
  have hd := d.toNat_lt
  have shifted : ∀ (x : UInt8) (k : UInt32) (n : Nat), k.toNat = n → n ≤ 24 →
      (x.toUInt32 <<< k).toNat = x.toNat <<< n := by
    rintro x k n rfl small
    have bound : x.toNat * 2 ^ k.toNat < 2 ^ 8 * 2 ^ 24 :=
      Nat.mul_lt_mul_of_lt_of_le x.toNat_lt (Nat.pow_le_pow_right (by decide) small) (by decide)
    rw [UInt32.toNat_shiftLeft, UInt8.toNat_toUInt32, Nat.mod_eq_of_lt (show k.toNat < 32 by omega),
      Nat.shiftLeft_eq, Nat.mod_eq_of_lt (show _ < 2 ^ 32 from bound)]
  -- every byte fits below the shifts of those in front of it, so that the fields add up
  have low : c.toNat <<< 8 ||| d.toNat = c.toNat <<< 8 + d.toNat :=
    (Nat.shiftLeft_add_eq_or_of_lt hd _).symm
  have middle : b.toNat <<< 16 ||| (c.toNat <<< 8 + d.toNat) = b.toNat <<< 16 + (c.toNat <<< 8 + d.toNat) :=
    (Nat.shiftLeft_add_eq_or_of_lt (by rw [Nat.shiftLeft_eq]; omega) _).symm
  have high : a.toNat <<< 24 ||| (b.toNat <<< 16 + (c.toNat <<< 8 + d.toNat)) =
      a.toNat <<< 24 + (b.toNat <<< 16 + (c.toNat <<< 8 + d.toNat)) :=
    (Nat.shiftLeft_add_eq_or_of_lt (by simp only [Nat.shiftLeft_eq]; omega) _).symm
  rw [ofBytes, UInt32.toNat_or, UInt32.toNat_or, UInt32.toNat_or, shifted a 24 24 rfl (by decide),
    shifted b 16 16 rfl (by decide), shifted c 8 8 rfl (by decide), UInt8.toNat_toUInt32, Nat.or_assoc,
    Nat.or_assoc, low, middle, high]
  simp only [bigEndian, Nat.shiftLeft_eq, List.length_cons, List.length_nil]
  omega

/-- Taking a word apart undoes putting it together. -/
theorem Word.bytes_ofBytes (a b c d : UInt8) : (ofBytes a b c d).bytes = [a, b, c, d] :=
  bigEndian_injective rfl ((bigEndian_bytes _).trans (toNat_ofBytes a b c d))

namespace Memory

/-- The `n` bytes from `addr` upwards, with a zero for each that is outside memory. -/
def peek (mem : Memory) (addr : UInt64) : (n : Nat) → List UInt8
  | 0 => []
  | n + 1 => (mem.byte? addr).getD 0 :: mem.peek (addr + 1) n

theorem peek_eq_map (mem : Memory) (addr : UInt64) (n : Nat) :
    mem.peek addr n = (span addr n).map fun x => (mem.byte? x).getD 0 := by
  induction n generalizing addr with
  | zero => rfl
  | succ n ih => rw [peek, span, List.map_cons, ih]

theorem length_peek (mem : Memory) (addr : UInt64) (n : Nat) : (mem.peek addr n).length = n := by
  rw [peek_eq_map, List.length_map, length_span]

theorem getElem?_peek (mem : Memory) (addr : UInt64) {n k : Nat} (hk : k < n) :
    (mem.peek addr n)[k]? = some ((mem.byte? (addr + k.toUInt64)).getD 0) := by
  rw [peek_eq_map, List.getElem?_map, getElem?_span addr hk]
  rfl

theorem peek_add (mem : Memory) (addr : UInt64) (n m : Nat) :
    mem.peek addr (n + m) = mem.peek addr n ++ mem.peek (addr + n.toUInt64) m := by
  simp only [peek_eq_map, span_add, List.map_append]

end Memory

namespace Bus

/-- One more byte is one more digit, and a digit beyond the eighth is lost. -/
theorem toNat_appendByte (data : UInt64) (b : UInt8) :
    ((data <<< 8) ||| b.toUInt64).toNat = (data.toNat * 256 + b.toNat) % 2 ^ 64 := by
  have shifted : (data <<< 8).toNat = data.toNat % 2 ^ 56 * 256 := by
    rw [UInt64.toNat_shiftLeft, show (8 : UInt64).toNat % 64 = 8 from rfl, Nat.shiftLeft_eq]
    omega
  have digit := b.toNat_lt
  rw [UInt64.toNat_or, shifted, UInt8.toNat_toUInt64, show 256 = 2 ^ 8 from rfl, ← Nat.shiftLeft_eq,
    ← Nat.shiftLeft_add_eq_or_of_lt (by omega), Nat.shiftLeft_eq]
  omega

/-- A read appends the bytes from its address upwards to the data register, and reports the first of them
that is missing unless one was known before. -/
theorem gather_eq (mem : Memory) (n : Nat) (addr data : UInt64) (missing : Option UInt64) :
    (gather mem n addr data missing).1.toNat =
        (data.toNat * 256 ^ n + bigEndian (mem.peek addr n)) % 2 ^ 64 ∧
      (gather mem n addr data missing).2 = missing.or (mem.missing addr n).head? := by
  induction n generalizing addr data missing with
  | zero =>
    refine ⟨?_, (Option.or_none).symm⟩
    rw [Memory.peek, bigEndian, gather, Nat.pow_zero, Nat.mul_one, Nat.add_zero]
    exact (Nat.mod_eq_of_lt data.toNat_lt).symm
  | succ n ih =>
    -- a missing byte is gathered as a zero
    have appended : ∀ (b : UInt8) (known : Option UInt64),
        (gather mem n (addr + 1) ((data <<< 8) ||| b.toUInt64) known).1.toNat =
          (data.toNat * 256 ^ (n + 1) + (b.toNat * 256 ^ n + bigEndian (mem.peek (addr + 1) n))) %
            2 ^ 64 := by
      intro b known
      rw [(ih _ _ _).1, toNat_appendByte, Nat.add_mod, Nat.mod_mul_mod, ← Nat.add_mod, Nat.add_mul,
        Nat.add_assoc, Nat.mul_assoc, ← Nat.pow_succ']
    rw [Memory.peek, bigEndian, Memory.length_peek]
    have outside := mem.byte?_eq_none_iff addr
    cases hb : mem.byte? addr with
    | some b =>
      have inside : mem.contains addr = true := by
        rw [← Bool.not_eq_false, ← outside, hb]
        exact Option.some_ne_none b
      simp only [gather, hb, Memory.missing, inside, if_true]
      exact ⟨appended b missing, (ih _ _ _).2⟩
    | none =>
      simp only [gather, hb, Memory.missing, outside.mp hb, Bool.false_eq_true, if_false, List.head?_cons,
        Option.getD_none]
      refine ⟨?_, ?_⟩
      · rw [← appended 0, show (0 : UInt8).toUInt64 = 0 from rfl, UInt64.or_zero]
      · rw [(ih _ _ _).2]
        cases missing <;> rfl

theorem missing_read (bus : Bus) (mem : Memory) :
    (bus.read mem).2 = (mem.missing bus.address readBytes).head? :=
  (gather_eq mem readBytes bus.address 0 none).2.trans Option.none_or

/-- The top of what a read moves is what its first bytes spell. -/
theorem upper_read (bus : Bus) (mem : Memory) {n : Nat} (hn : n ≤ readBytes) (positive : 0 < n) :
    ((bus.read mem).1.upper (8 * n)).toNat = bigEndian (mem.peek bus.address n) := by
  obtain ⟨m, split⟩ := Nat.exists_eq_add_of_le hn
  obtain ⟨data, _⟩ := gather_eq mem readBytes bus.address 0 none
  have bound := bigEndian_lt (mem.peek bus.address readBytes)
  rw [Memory.length_peek, show 256 ^ readBytes = 2 ^ 64 from rfl] at bound
  rw [UInt64.toNat_zero, Nat.zero_mul, Nat.zero_add, Nat.mod_eq_of_lt bound, split, Memory.peek_add,
    bigEndian_append, Memory.length_peek, ← split] at data
  have rest := bigEndian_lt (mem.peek (bus.address + n.toUInt64) m)
  rw [Memory.length_peek] at rest
  have top : (bus.read mem).1.data.toNat / 256 ^ m = bigEndian (mem.peek bus.address n) := by
    change (gather mem readBytes bus.address 0 none).1.toNat / _ = _
    rw [data, Nat.mul_comm, Nat.mul_add_div (Nat.pow_pos (by decide)), Nat.div_eq_of_lt rest, Nat.add_zero]
  unfold readBytes at split
  unfold upper
  split
  · next whole =>
    obtain rfl : m = 0 := by omega
    rw [pow_zero, Nat.div_one] at top
    exact top
  · next narrow =>
    have distance : (64 - 8 * n).toUInt64.toNat % 64 = 8 * m := by
      rw [Nat.toUInt64, UInt64.toNat_ofNat']
      omega
    rw [UInt64.toNat_shiftRight, distance, Nat.shiftRight_eq_div_pow, Nat.pow_mul]
    exact top

theorem toNat_digit (data : UInt64) {n : Nat} (hn : n < 8) :
    (data >>> (8 * n).toUInt64).toUInt8.toNat = data.toNat / 256 ^ n % 256 := by
  have distance : (8 * n).toUInt64.toNat % 64 = 8 * n := by
    rw [Nat.toUInt64, UInt64.toNat_ofNat']
    omega
  rw [UInt64.toNat_toUInt8, UInt64.toNat_shiftRight, distance, Nat.shiftRight_eq_div_pow, Nat.pow_mul]

/-- The low bytes of a doubleword are digits of it. -/
theorem getElem?_lowBytes (data : UInt64) {n k : Nat} (hn : n ≤ 8) (hk : k < n) :
    (lowBytes data n)[k]? = some (UInt8.ofNat (data.toNat / 256 ^ (n - 1 - k))) := by
  induction n generalizing k with
  | zero => exact absurd hk (Nat.not_lt_zero k)
  | succ n ih =>
    rw [lowBytes]
    cases k with
    | zero =>
      rw [List.getElem?_cons_zero, Nat.add_sub_cancel, Nat.sub_zero, Option.some.injEq, ← UInt8.toNat_inj,
        toNat_digit data hn, UInt8.toNat_ofNat']
    | succ k =>
      rw [List.getElem?_cons_succ, ih (by omega) (by omega), show n + 1 - 1 - (k + 1) = n - 1 - k by omega]

/-- The low bytes of a doubleword spell what is left of it modulo a power of 256. -/
theorem bigEndian_lowBytes (data : UInt64) {n : Nat} (hn : n ≤ 8) :
    bigEndian (lowBytes data n) = data.toNat % 256 ^ n := by
  induction n with
  | zero => rw [lowBytes, bigEndian, Nat.pow_zero, Nat.mod_one]
  | succ n ih =>
    have split : data.toNat % 256 ^ (n + 1) =
        data.toNat % 256 ^ n + 256 ^ n * (data.toNat / 256 ^ n % 256) := Nat.mod_pow_succ
    rw [lowBytes, bigEndian, length_lowBytes, toNat_digit data hn, ih (Nat.le_of_succ_le hn), split,
      Nat.mul_comm, Nat.add_comm]

/-- A write puts the digits of the low bytes over those that are inside memory. -/
theorem byte?_write (address value : UInt64) (mem : Memory) {width : Nat} (narrow : width / 8 ≤ 8)
    (x : UInt64) :
    (Bus.write ⟨address, value⟩ mem width).byte? x = (mem.byte? x).map fun old =>
      let k := (x - address).toNat
      if k < width / 8 then .ofNat (value.toNat / 256 ^ (width / 8 - 1 - k)) else old := by
  have fits : (lowBytes value (width / 8)).length ≤ 2 ^ 64 := by
    rw [length_lowBytes]
    omega
  rw [write, Memory.byte?_writeList _ _ _ fits]
  congr 1
  funext old
  dsimp only
  split
  · next inside => rw [getElem?_lowBytes value narrow inside, Option.getD_some]
  · next past =>
    rw [List.getElem?_eq_none (by rw [length_lowBytes]; exact Nat.le_of_not_lt past), Option.getD_none]

/-- What was written is read back where all of it is inside memory. -/
theorem peek_write (address value : UInt64) (mem : Memory) {width : Nat} (narrow : width / 8 ≤ 8)
    (inside : ∀ k < width / 8, mem.contains (address + k.toUInt64) = true) :
    (Bus.write ⟨address, value⟩ mem width).peek address (width / 8) = lowBytes value (width / 8) := by
  refine List.ext_getElem? fun k => ?_
  rcases Nat.lt_or_ge k (width / 8) with hk | past
  · have place : (address + k.toUInt64 - address).toNat = k := by
      rw [UInt64.add_comm, UInt64.add_sub_cancel, Nat.toUInt64, UInt64.toNat_ofNat']
      omega
    have held : mem.byte? (address + k.toUInt64) ≠ none := by
      rw [ne_eq, Memory.byte?_eq_none_iff, inside k hk]
      exact nofun
    obtain ⟨old, held⟩ := Option.ne_none_iff_exists'.mp held
    rw [Memory.getElem?_peek _ _ hk, byte?_write _ _ _ narrow, held, getElem?_lowBytes value narrow hk]
    simp only [place, hk, if_true, Option.map_some, Option.getD_some]
  · rw [List.getElem?_eq_none (by rw [Memory.length_peek]; exact past),
      List.getElem?_eq_none (by rw [length_lowBytes]; exact past)]

end Bus

end Legv8
