import RustyDb.Basic

/-!
# Bit streams

`BitWriter`, `BitStream` and `BitReader` of `gorilla/bitstream.rs`, with the error
type of `gorilla/error.rs`.  Both sides sit on `bitstream_io` in its little-endian
order: `write(n, v)` emits the low `n` bits of `v` least significant first, and a
byte of the buffer holds the first of its eight bits in its lowest position.

The writer's `n` counts the bits written; `close` pads to a byte boundary with zero
bits that `n` does not count.  The reader's cursor `c` counts the bits read:
`read_bit` guards with `c <= n` and `read(m)` with `c + m <= n`.  A read that
`bitstream_io` cannot serve from the buffer fails and, in this model, consumes
nothing.
-/

namespace RustyDb.Gorilla

inductive Error where
  | bitStreamIOError (kind : IoError)
  | bitReaderError (msg : String)
  | appendOrderError
  | appendDurationError
  | badDimensionError
  deriving DecidableEq, Repr

/-- A `u64`, and the IEEE-754 bit pattern of an `f64`: the codec only ever moves an
`f64` through `to_le_bytes` and `from_le_bytes`, so its bits are all it sees. -/
abbrev U64 := BitVec 64

/-! ## Bits, least significant first -/

def bitsLE : Nat → Nat → List Bool
  | 0, _ => []
  | n + 1, v => (v % 2 == 1) :: bitsLE n (v / 2)

def ofBitsLE : List Bool → Nat
  | [] => 0
  | b :: bs => b.toNat + 2 * ofBitsLE bs

@[simp] theorem length_bitsLE (n v : Nat) : (bitsLE n v).length = n := by
  induction n generalizing v with
  | zero => rfl
  | succ n ih => simp [bitsLE, ih]

theorem ofBitsLE_bitsLE (n v : Nat) : ofBitsLE (bitsLE n v) = v % 2 ^ n := by
  induction n generalizing v with
  | zero => simp [bitsLE, ofBitsLE, Nat.mod_one]
  | succ n ih =>
      simp only [bitsLE, ofBitsLE, ih, pow_succ', Nat.mod_mul]
      rcases Nat.mod_two_eq_zero_or_one v with h | h <;> simp [h]

theorem ofBitsLE_lt (bs : List Bool) : ofBitsLE bs < 2 ^ bs.length := by
  induction bs with
  | nil => simp [ofBitsLE]
  | cons b bs ih =>
      have := Bool.toNat_le b
      simp only [ofBitsLE, List.length_cons, pow_succ']
      omega

theorem bitsLE_ofBitsLE (bs : List Bool) : bitsLE bs.length (ofBitsLE bs) = bs := by
  induction bs with
  | nil => rfl
  | cons b bs ih =>
      have hdiv : (b.toNat + 2 * ofBitsLE bs) / 2 = ofBitsLE bs := by
        cases b <;> simp [Bool.toNat]; omega
      cases b <;> simp_all [bitsLE, ofBitsLE, Bool.toNat, Nat.add_mod]

theorem bitsLE_mod (n v : Nat) : bitsLE n (v % 2 ^ n) = bitsLE n v := by
  induction n generalizing v with
  | zero => rfl
  | succ n ih =>
      have h2 : v % 2 ^ (n + 1) % 2 = v % 2 := by
        rw [pow_succ', Nat.mod_mul_right_mod]
      have hdiv : v % 2 ^ (n + 1) / 2 = v / 2 % 2 ^ n := by
        rw [pow_succ', Nat.mod_mul_right_div_self]
      simp only [bitsLE, h2, hdiv, ih]

@[simp] theorem bitsLE_zero_value (n : Nat) : bitsLE n 0 = List.replicate n false := by
  induction n with
  | zero => rfl
  | succ n ih => simp [bitsLE, ih, List.replicate_succ]

/-! ## Bytes of a byte-aligned bit list -/

def packBytes : Nat → List Bool → Bytes
  | 0, _ => []
  | k + 1, bits => Fin.ofNat' 256 (ofBitsLE (bits.take 8)) :: packBytes k (bits.drop 8)

def unpackBytes (bytes : Bytes) : List Bool := bytes.flatMap fun b => bitsLE 8 b.val

@[simp] theorem length_packBytes (k : Nat) (bits : List Bool) : (packBytes k bits).length = k := by
  induction k generalizing bits with
  | zero => rfl
  | succ k ih => simp [packBytes, ih]

theorem unpackBytes_packBytes (k : Nat) (bits : List Bool) (h : bits.length = 8 * k) :
    unpackBytes (packBytes k bits) = bits := by
  induction k generalizing bits with
  | zero => simp_all [packBytes, unpackBytes]
  | succ k ih =>
      have htake : (bits.take 8).length = 8 := by simp; omega
      have hbyte : (Fin.ofNat' 256 (ofBitsLE (bits.take 8))).val = ofBitsLE (bits.take 8) := by
        have := ofBitsLE_lt (bits.take 8)
        rw [htake] at this
        simp only [Fin.val_ofNat']
        exact Nat.mod_eq_of_lt this
      have hrest := ih (bits.drop 8) (by simp; omega)
      have hbits := bitsLE_ofBitsLE (bits.take 8)
      rw [htake] at hbits
      simp only [unpackBytes, packBytes, List.flatMap_cons] at hrest ⊢
      rw [hrest, hbyte, hbits, List.take_append_drop]

/-! ## Writer -/

structure BitStream where
  n : Nat
  bitstream : Bytes
  deriving DecidableEq, Repr

namespace BitStream

/-- `to_string`: `n` as a little-endian `u32`, then the buffer, taken as a `String`
unchecked, so not always UTF-8. -/
def toString (s : BitStream) : Bytes := u32Bytes s.n ++ s.bitstream

/-- `BitStream::new(block)`: `split_at(4)` panics on fewer than four bytes. -/
def new (block : Bytes) : Except (Fault Error) BitStream :=
  if 4 ≤ block.length then .ok ⟨ofLeBytes (block.take 4), block.drop 4⟩ else .error .panic

theorem new_toString (s : BitStream) : new s.toString = .ok ⟨s.n % 2 ^ 32, s.bitstream⟩ := by
  simp [new, toString, List.take_append_eq_append_take, List.drop_append_eq_append_drop, u32Bytes,
    ofLeBytes_leBytes]

end BitStream

structure BitWriter where
  n : Nat
  bits : List Bool
  length_bits : bits.length = n

namespace BitWriter

def new : BitWriter := ⟨0, [], rfl⟩

def writeBit (bit : Bool) : EStateM (Fault Error) BitWriter Unit :=
  modify fun w => ⟨w.n + 1, w.bits ++ [bit], by simp [w.length_bits]⟩

def mask (nbits : Nat) : U64 := if nbits < 64 then ((1 : U64) <<< nbits) - 1 else BitVec.allOnes 64

/-- `write(nbits, val)`; `bitstream_io` refuses to write more bits than a `u64` holds. -/
def write (nbits : Nat) (val : U64) : EStateM (Fault Error) BitWriter Unit := fun w =>
  if nbits ≤ 64 then
    .ok () ⟨w.n + nbits, w.bits ++ bitsLE nbits (val &&& mask nbits).toNat,
      by simp [w.length_bits]⟩
  else .error (.error (.bitStreamIOError .invalidInput)) w

def length (w : BitWriter) : Nat := w.n

def fillBits (n : Nat) : Nat := if n % 8 = 0 then 0 else (1 + n / 8) * 8 - n

def close (w : BitWriter) : BitStream :=
  ⟨w.n, packBytes ((w.n + fillBits w.n) / 8) (w.bits ++ bitsLE (fillBits w.n) 0)⟩

theorem toNat_and_mask (val : U64) {nbits : Nat} (h : nbits ≤ 64) :
    (val &&& mask nbits).toNat = val.toNat % 2 ^ nbits := by
  unfold mask
  split
  · have hpow : 1 ≤ 2 ^ nbits := Nat.one_le_two_pow
    have hlt : 2 ^ nbits < 2 ^ 64 := Nat.pow_lt_pow_right (by omega) ‹_›
    have hsub : (2 ^ 64 - 1 + 2 ^ nbits) % 2 ^ 64 = 2 ^ nbits - 1 := by
      generalize 2 ^ nbits = p at *
      omega
    have h1 : (1 : U64).toNat = 1 := rfl
    rw [BitVec.toNat_and, BitVec.toNat_sub, BitVec.toNat_shiftLeft, h1, Nat.shiftLeft_eq,
      Nat.one_mul, Nat.mod_eq_of_lt hlt, hsub, Nat.and_pow_two_sub_one_eq_mod]
  · have : nbits = 64 := by omega
    subst this
    simpa using Nat.and_pow_two_sub_one_eq_mod val.toNat 64

@[simp] theorem writeBit_run (w : BitWriter) (bit : Bool) :
    writeBit bit w = .ok () ⟨w.n + 1, w.bits ++ [bit], by simp [w.length_bits]⟩ := rfl

theorem write_run {nbits : Nat} (h : nbits ≤ 64) (w : BitWriter) (val : U64) :
    write nbits val w = .ok () ⟨w.n + nbits, w.bits ++ bitsLE nbits val.toNat,
      by simp [w.length_bits]⟩ := by
  simp only [write, if_pos h, toNat_and_mask val h, bitsLE_mod]

theorem add_fillBits (n : Nat) : (n + fillBits n) % 8 = 0 := by
  unfold fillBits
  split <;> omega

end BitWriter

/-! ## Reader -/

structure BitReader where
  n : Nat
  c : Nat
  rest : List Bool
  deriving DecidableEq, Repr

namespace BitReader

def new (stream : BitStream) : BitReader := ⟨stream.n, 0, unpackBytes stream.bitstream⟩

def length (r : BitReader) : Nat := r.n

def cursor (r : BitReader) : Nat := r.c

def exceeds : Error := .bitReaderError "Exceeds bitstream contents"

def readBit : EStateM (Fault Error) BitReader Bool := fun r =>
  if r.c ≤ r.n then
    match r.rest with
    | [] => .error (.error (.bitStreamIOError .unexpectedEof)) r
    | b :: rest => .ok b { r with c := r.c + 1, rest }
  else .error (.error exceeds) r

/-- `read(m)`; `bitstream_io` refuses more than 64 bits into a `u64`, and fails at the end of
the buffer. -/
def read (m : Nat) : EStateM (Fault Error) BitReader U64 := fun r =>
  if r.c + m ≤ r.n then
    if m ≤ 64 then
      if m ≤ r.rest.length then
        .ok (BitVec.ofNat 64 (ofBitsLE (r.rest.take m)))
            { r with c := r.c + m, rest := r.rest.drop m }
      else .error (.error (.bitStreamIOError .unexpectedEof)) r
    else .error (.error (.bitStreamIOError .invalidInput)) r
  else .error (.error exceeds) r

end BitReader

end RustyDb.Gorilla
