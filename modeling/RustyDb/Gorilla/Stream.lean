import RustyDb.Gorilla.Codes

/-!
# Write sequences, `close`, and the reader's cursor

`bitstream.rs` on its own, without the codec.  Any sequence of `write_bit` and
`write` calls from a fresh writer, closed and read by the matching sequence of
`read_bit` and `read` calls, gives back each bit and each value masked to its width;
the stream `close` returns has the bits written as its length, in as many bytes as
hold them (`writeAll_close_readAll`).

The two reads guard the cursor differently.  `read(m)` checks `c + m <= n`, so a
read that returns never moves the cursor past the length (`read_cursor_le`).
`read_bit` checks `c <= n`, which lets one bit past the end through: on a stream
whose length is not a multiple of eight that bit is the first padding bit `close`
added, read as `false`, and the cursor ends one past the length.
-/

namespace RustyDb.Gorilla

inductive BitOp where
  | writeBit (b : Bool)
  | write (k : Fin 65) (v : U64)
  deriving DecidableEq, Repr

namespace BitOp

def run : BitOp → EStateM (Fault Error) BitWriter Unit
  | .writeBit b => BitWriter.writeBit b
  | .write k v => BitWriter.write k v

def width : BitOp → Nat
  | .writeBit _ => 1
  | .write k _ => k

def bits : BitOp → List Bool
  | .writeBit b => [b]
  | .write k v => bitsLE k v.toNat

def read : BitOp → EStateM (Fault Error) BitReader (Bool ⊕ U64)
  | .writeBit _ => Sum.inl <$> BitReader.readBit
  | .write k _ => Sum.inr <$> BitReader.read k

def expected : BitOp → Bool ⊕ U64
  | .writeBit b => .inl b
  | .write k v => .inr (v &&& BitWriter.mask k)

@[simp] theorem length_bits (op : BitOp) : op.bits.length = op.width := by
  cases op <;> simp [bits, width]

theorem run_push (op : BitOp) (w : BitWriter) : op.run w = .ok () (w.push op.bits) := by
  cases op with
  | writeBit b => exact BitWriter.writeBit_push w b
  | write k v => exact BitWriter.write_push (Nat.lt_succ_iff.mp k.isLt) w v

theorem and_mask_eq (v : U64) {k : Nat} (hk : k ≤ 64) :
    v &&& BitWriter.mask k = BitVec.ofNat 64 (v.toNat % 2 ^ k) := by
  have hlt : v.toNat % 2 ^ k < 2 ^ 64 :=
    lt_of_lt_of_le (Nat.mod_lt _ (Nat.two_pow_pos k)) (Nat.pow_le_pow_right (by omega) hk)
  apply BitVec.eq_of_toNat_eq
  rw [BitWriter.toNat_and_mask v hk, BitVec.toNat_ofNat, Nat.mod_eq_of_lt hlt]

theorem read_over (op : BitOp) (done todo pad : List Bool) :
    op.read (BitReader.over done (op.bits ++ todo) pad) =
      .ok op.expected (BitReader.over (done ++ op.bits) todo pad) := by
  cases op with
  | writeBit b =>
      show EStateM.map _ _ _ = _
      simp only [EStateM.map, bits, List.singleton_append, BitReader.readBit_over, expected]
  | write k v =>
      have hk := Nat.lt_succ_iff.mp k.isLt
      show EStateM.map _ _ _ = _
      simp only [EStateM.map, bits, BitReader.read_bitsLE_over hk, expected, and_mask_eq v hk]

theorem forM_run_push (ops : List BitOp) (w : BitWriter) :
    ops.forM run w = .ok () (w.push (ops.flatMap bits)) := by
  induction ops generalizing w with
  | nil => simp only [List.flatMap_nil, BitWriter.push_nil]; rfl
  | cons op ops ih =>
      simp only [List.forM_cons', bind_apply, run_push, ih, List.flatMap_cons, BitWriter.push_push]

theorem mapM_read_over (ops : List BitOp) (done todo pad : List Bool) :
    ops.mapM read (BitReader.over done (ops.flatMap bits ++ todo) pad) =
      .ok (ops.map expected) (BitReader.over (done ++ ops.flatMap bits) todo pad) := by
  induction ops generalizing done with
  | nil => simp only [List.flatMap_nil, List.nil_append, List.append_nil]; rfl
  | cons op ops ih =>
      simp only [List.mapM_cons, bind_apply, List.flatMap_cons, List.append_assoc, read_over, ih,
        pure_apply, List.map_cons]

theorem length_flatMap_bits (ops : List BitOp) :
    (ops.flatMap bits).length = (ops.map width).sum := by
  induction ops with
  | nil => rfl
  | cons op ops ih => simp only [List.flatMap_cons, List.length_append, length_bits, ih,
      List.map_cons, List.sum_cons]

end BitOp

theorem BitWriter.length_close (w : BitWriter) : w.close.bitstream.length = (w.n + 7) / 8 := by
  simp only [BitWriter.close, length_packBytes, BitWriter.fillBits]
  split <;> omega

/-- Any sequence of writes from a fresh writer, closed, reads back through the matching
reads: the stream has the bits written as its length and `⌈length / 8⌉` bytes, and every
read returns the bit, or the value masked to the width, that its write was given. -/
theorem writeAll_close_readAll (ops : List BitOp) :
    ∃ w, ops.forM BitOp.run BitWriter.new = .ok () w ∧
      w.close.n = (ops.map BitOp.width).sum ∧
      w.close.bitstream.length = ((ops.map BitOp.width).sum + 7) / 8 ∧
      ops.mapM BitOp.read (BitReader.new w.close) =
        .ok (ops.map BitOp.expected)
          (BitReader.over (ops.flatMap BitOp.bits) [] (bitsLE (BitWriter.fillBits w.n) 0)) := by
  have hn : (BitWriter.new.push (ops.flatMap BitOp.bits)).n = (ops.map BitOp.width).sum := by
    simp only [BitWriter.push_n, BitOp.length_flatMap_bits, BitWriter.new, Nat.zero_add]
  refine ⟨_, BitOp.forM_run_push ops _, hn, by rw [BitWriter.length_close, hn], ?_⟩
  rw [BitReader.new_close, BitWriter.new_push_bits]
  simpa only [List.append_nil, List.nil_append] using BitOp.mapM_read_over ops [] []
    (bitsLE (BitWriter.fillBits (BitWriter.new.push (ops.flatMap BitOp.bits)).n) 0)

namespace BitReader

theorem read_cursor_le {m : Nat} {r r' : BitReader} {v : U64} (h : read m r = .ok v r') :
    r'.cursor ≤ r'.length := by
  unfold read at h
  split at h
  · split at h
    · split at h
      · cases h; simp only [cursor, length]; omega
      · cases h
    · cases h
  · cases h

theorem mapM_readBit_over (done todo rest pad : List Bool) :
    (todo.mapM fun _ => readBit) (over done (todo ++ rest) pad) =
      .ok todo (over (done ++ todo) rest pad) := by
  induction todo generalizing done with
  | nil => simp only [List.nil_append, List.append_nil]; rfl
  | cons b todo ih =>
      simp only [List.mapM_cons, bind_apply, List.cons_append, readBit_over, ih, pure_apply,
        List.append_assoc, List.singleton_append, List.nil_append]

end BitReader

/-- On a stream whose length `n` is not a multiple of eight, the `read_bit` after the `n`
written bits returns the first padding bit, `false`, and leaves the cursor at `n + 1`,
past the length. -/
theorem readBit_past_end (w : BitWriter) (h : w.n % 8 ≠ 0) :
    ∃ r, ((w.bits.mapM fun _ => BitReader.readBit) >>= fun _ => BitReader.readBit)
        (BitReader.new w.close) = .ok false r ∧
      r.length = w.close.n ∧ r.cursor = r.length + 1 := by
  have hfill : BitWriter.fillBits w.n = (BitWriter.fillBits w.n - 1) + 1 := by
    unfold BitWriter.fillBits; split <;> omega
  have hrun := BitReader.mapM_readBit_over [] w.bits [] (bitsLE (BitWriter.fillBits w.n) 0)
  rw [List.append_nil, List.nil_append, ← BitReader.new_close] at hrun
  rw [bind_apply, hrun, bitsLE_zero_value, hfill, List.replicate_succ]
  refine ⟨⟨w.n, w.n + 1, List.replicate (BitWriter.fillBits w.n - 1) false⟩, ?_, rfl, rfl⟩
  simp only [BitReader.readBit, BitReader.over, List.length_nil, Nat.add_zero, le_refl, if_true,
    List.nil_append, w.length_bits]

theorem readBit_past_end_one_bit :
    (⟨1, [true], rfl⟩ : BitWriter).n % 8 ≠ 0 ∧
      ∃ r, (([true].mapM fun _ => BitReader.readBit) >>= fun _ => BitReader.readBit)
          (BitReader.new (⟨1, [true], rfl⟩ : BitWriter).close) = .ok false r ∧
        r.length = 1 ∧ r.cursor = 2 :=
  ⟨by decide, by
    obtain ⟨r, hr, hn, hc⟩ := readBit_past_end ⟨1, [true], rfl⟩ (by decide)
    exact ⟨r, hr, hn, hc.trans (congrArg (· + 1) hn)⟩⟩

end RustyDb.Gorilla
