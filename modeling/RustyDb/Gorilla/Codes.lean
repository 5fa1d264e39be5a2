import RustyDb.Gorilla.Reader

/-!
# The bits each step writes and reads

Every writer step appends a bit string to the body, and every reader step consumes
one from the front of what is left.  This file names those strings (`dodCode` for a
timestamp, `xorCode` for a value), proves that the writer steps append exactly them,
and that the reader steps, run on a stream that continues with them, consume them and
return what they decode to.  Runs of whole blocks are then composed from these
lemmas, one sample at a time, without evaluating the model.

A reader over a closed writer is `BitReader.over done todo pad`: it has read `done`,
the written bits `todo` are still ahead, then the padding `close` added.
-/

namespace RustyDb.Gorilla

namespace BitWriter

def push (w : BitWriter) (bs : List Bool) : BitWriter :=
  ⟨w.n + bs.length, w.bits ++ bs, by simp [w.length_bits]⟩

@[simp] theorem push_bits (w : BitWriter) (bs : List Bool) : (w.push bs).bits = w.bits ++ bs := rfl

@[simp] theorem push_n (w : BitWriter) (bs : List Bool) : (w.push bs).n = w.n + bs.length := rfl

theorem ext_bits {w w' : BitWriter} (h : w.bits = w'.bits) : w = w' := by
  obtain ⟨n, bits, hn⟩ := w
  obtain ⟨n', bits', hn'⟩ := w'
  simp only at h
  subst h hn hn'
  rfl

@[simp] theorem push_push (w : BitWriter) (a b : List Bool) : (w.push a).push b = w.push (a ++ b) :=
  ext_bits (by simp)

@[simp] theorem push_nil (w : BitWriter) : w.push [] = w := ext_bits (by simp)

theorem writeBit_push (w : BitWriter) (b : Bool) : writeBit b w = .ok () (w.push [b]) := rfl

theorem write_push {k : Nat} (h : k ≤ 64) (w : BitWriter) (v : U64) :
    write k v w = .ok () (w.push (bitsLE k v.toNat)) := by
  rw [write_run h]
  exact congrArg _ (ext_bits rfl)

@[simp] theorem new_push_bits (bs : List Bool) : (new.push bs).bits = bs := by
  simp [new]

end BitWriter

namespace BitReader

def over (done todo pad : List Bool) : BitReader :=
  ⟨done.length + todo.length, done.length, todo ++ pad⟩

theorem readBit_over (done todo pad : List Bool) (b : Bool) :
    readBit (over done (b :: todo) pad) = .ok b (over (done ++ [b]) todo pad) := by
  simp only [readBit, over, List.cons_append, List.length_append, List.length_cons,
    List.length_singleton, List.length_nil]
  rw [if_pos (by omega)]
  simp only [EStateM.Result.ok.injEq, BitReader.mk.injEq, true_and, and_true]
  omega

theorem read_over {bs : List Bool} (done todo pad : List Bool) (h : bs.length ≤ 64) :
    read bs.length (over done (bs ++ todo) pad) =
      .ok (BitVec.ofNat 64 (ofBitsLE bs)) (over (done ++ bs) todo pad) := by
  simp only [read, over, List.append_assoc, List.take_left, List.drop_left, List.length_append]
  rw [if_pos (by omega), if_pos h, if_pos (by omega)]
  simp only [EStateM.Result.ok.injEq, BitReader.mk.injEq, true_and, and_true]
  omega

theorem read_bitsLE_over {k : Nat} (hk : k ≤ 64) (done todo pad : List Bool) (v : Nat) :
    read k (over done (bitsLE k v ++ todo) pad) =
      .ok (BitVec.ofNat 64 (v % 2 ^ k)) (over (done ++ bitsLE k v) todo pad) := by
  have := read_over done todo pad (show (bitsLE k v).length ≤ 64 by simpa using hk)
  rwa [length_bitsLE, ofBitsLE_bitsLE] at this

theorem read_bitsLE_over_end {k : Nat} (hk : k ≤ 64) (done pad : List Bool) (v : Nat) :
    read k (over done (bitsLE k v) pad) =
      .ok (BitVec.ofNat 64 (v % 2 ^ k)) (over (done ++ bitsLE k v) [] pad) := by
  simpa using read_bitsLE_over hk done [] pad v

theorem new_close (w : BitWriter) :
    new w.close = over [] w.bits (bitsLE (BitWriter.fillBits w.n) 0) := by
  have hlen : (w.bits ++ bitsLE (BitWriter.fillBits w.n) 0).length =
      8 * ((w.n + BitWriter.fillBits w.n) / 8) := by
    have := BitWriter.add_fillBits w.n
    simp only [List.length_append, length_bitsLE, w.length_bits]
    omega
  simp only [new, BitWriter.close, unpackBytes_packBytes _ _ hlen, over, List.length_nil,
    Nat.zero_add, w.length_bits]

end BitReader

/-! ## Counting zeros -/

theorem leadingZeros_go_le (x : U64) (k : Nat) : leadingZeros.go x k ≤ k := by
  induction k with
  | zero => rfl
  | succ k ih => unfold leadingZeros.go; split <;> omega

theorem trailingZeros_go_le (x : U64) (k : Nat) : trailingZeros.go x k ≤ k := by
  induction k with
  | zero => rfl
  | succ k ih => unfold trailingZeros.go; split <;> omega

theorem leadingZeros_go_le_of_getLsbD {x : U64} {i : Nat} (hi : x.getLsbD i) :
    ∀ k, i < k → leadingZeros.go x k + i + 1 ≤ k := by
  intro k
  induction k with
  | zero => intro h; omega
  | succ k ih =>
      intro hik
      unfold leadingZeros.go
      split
      · omega
      · have : i ≠ k := by rintro rfl; simp_all
        have := ih (by omega)
        omega

theorem trailingZeros_go_le_of_getLsbD {x : U64} {i : Nat} (hi : x.getLsbD i) :
    ∀ k, 64 ≤ i + k → trailingZeros.go x k + 64 ≤ i + k := by
  intro k
  induction k with
  | zero => intro h; exact Nat.le_trans (Nat.add_le_add_right (Nat.zero_le _) 64) h
  | succ k ih =>
      intro hik
      unfold trailingZeros.go
      split
      · omega
      · have : i ≠ 63 - k := by rintro rfl; simp_all
        have := ih (by omega)
        omega

theorem leadingZeros_le (x : U64) : leadingZeros x ≤ 64 := leadingZeros_go_le x 64

theorem trailingZeros_le (x : U64) : trailingZeros x ≤ 64 := trailingZeros_go_le x 64

@[simp] theorem leadingZeros_zero : leadingZeros 0 = 64 := by decide

@[simp] theorem trailingZeros_zero : trailingZeros 0 = 64 := by decide

theorem leadingZeros_add_trailingZeros {x : U64} (hx : x ≠ 0) :
    leadingZeros x + trailingZeros x ≤ 63 := by
  obtain ⟨i, hi⟩ : ∃ i, x.getLsbD i = true := by
    by_contra h
    push_neg at h
    exact hx (BitVec.eq_of_getLsbD_eq fun i => by simp [h])
  have hi64 : i < 64 := by
    by_contra h
    simp [BitVec.getLsbD_ge x i (by omega)] at hi
  have h1 := leadingZeros_go_le_of_getLsbD hi 64 hi64
  have h2 := trailingZeros_go_le_of_getLsbD hi 64 (by omega)
  unfold leadingZeros trailingZeros
  omega

theorem getLsbD_of_le_sub_leadingZeros {x : U64} {i : Nat} (hi : 64 - leadingZeros x ≤ i) :
    x.getLsbD i = false := by
  by_contra h
  rw [Bool.not_eq_false] at h
  by_cases hi64 : i < 64
  · have := leadingZeros_go_le_of_getLsbD h 64 hi64
    unfold leadingZeros at hi
    omega
  · simp [BitVec.getLsbD_ge x i (by omega)] at h

theorem getLsbD_of_lt_trailingZeros {x : U64} {i : Nat} (hi : i < trailingZeros x) :
    x.getLsbD i = false := by
  by_contra h
  rw [Bool.not_eq_false] at h
  have := trailingZeros_go_le_of_getLsbD h 64 (by omega)
  unfold trailingZeros at hi
  omega

theorem toNat_shiftRight_lt_of_leadingZeros {x : U64} {L T : Nat} (hL : L ≤ leadingZeros x)
    (hLT : L + T ≤ 64) : (x >>> T).toNat < 2 ^ (64 - L - T) := by
  have hx : x.toNat < 2 ^ (64 - L) :=
    Nat.lt_pow_two_of_testBit _ fun i hi => getLsbD_of_le_sub_leadingZeros (by omega)
  rw [BitVec.toNat_ushiftRight, Nat.shiftRight_eq_div_pow,
    Nat.div_lt_iff_lt_mul (Nat.two_pow_pos T), ← Nat.pow_add, show 64 - L - T + T = 64 - L by omega]
  exact hx

theorem shiftRight_shiftLeft_of_le_trailingZeros {x : U64} {T : Nat} (hT : T ≤ trailingZeros x) :
    x >>> T <<< T = x := by
  ext i
  simp only [BitVec.getLsbD_shiftLeft, BitVec.getLsbD_ushiftRight]
  by_cases h : (i : Nat) < T
  · simp [h, getLsbD_of_lt_trailingZeros (show (i : Nat) < trailingZeros x by omega)]
  · simp [h, show T + (i - T) = i by omega]

/-! ## Checked `u8` and `u64` arithmetic -/

theorem u8Sub_of_le {σ : Type} {a b : Nat} (h : b ≤ a) :
    (u8Sub a b : EStateM (Fault Error) σ Nat) = pure (a - b) := if_pos h

theorem shr_of_lt {σ : Type} {s : Nat} (h : s < 64) (x : U64) :
    (shr x s : EStateM (Fault Error) σ U64) = pure (x >>> s) := if_pos h

theorem shl_of_lt {σ : Type} {s : Nat} (h : s < 64) (x : U64) :
    (shl x s : EStateM (Fault Error) σ U64) = pure (x <<< s) := if_pos h

/-! ## Timestamps -/

def dodCode (dod : Int) : List Bool :=
  if dod = 0 then [false]
  else if -63 ≤ dod ∧ dod ≤ 64 then [true, false] ++ bitsLE 7 (BitVec.ofInt 64 dod).toNat
  else if -255 ≤ dod ∧ dod ≤ 256 then [true, true, false] ++ bitsLE 9 (BitVec.ofInt 64 dod).toNat
  else if -2047 ≤ dod ∧ dod ≤ 2048 then
    [true, true, true, false] ++ bitsLE 12 (BitVec.ofInt 64 dod).toNat
  else [true, true, true, true] ++ bitsLE 32 (BitVec.ofInt 64 dod).toNat

theorem appendDod_push (dod : Int) (w : BitWriter) :
    appendDod dod w = .ok () (w.push (dodCode dod)) := by
  unfold appendDod dodCode
  split_ifs <;> simp only [bind_apply, BitWriter.writeBit_push,
    BitWriter.write_push (by decide : 7 ≤ 64), BitWriter.write_push (by decide : 9 ≤ 64),
    BitWriter.write_push (by decide : 12 ≤ 64), BitWriter.write_push (by decide : 32 ≤ 64),
    BitWriter.push_push, List.singleton_append, List.cons_append, List.nil_append,
    List.append_assoc]

@[simp] theorem dodCode_zero : dodCode 0 = [false] := rfl

theorem toInt_or_shiftLeft_allOnes {x : U64} {k : Nat} (hk : 0 < k) (hk' : k < 64)
    (hx : x.toNat < 2 ^ k) :
    (x ||| BitVec.allOnes 64 <<< k).toInt = x.toNat - (2 ^ k : Nat) := by
  have hand : x &&& BitVec.allOnes 64 <<< k = 0#64 := by
    apply BitVec.eq_of_getLsbD_eq
    intro i
    simp only [BitVec.getLsbD_and, BitVec.getLsbD_shiftLeft, BitVec.getLsbD_allOnes,
      BitVec.getLsbD_zero]
    by_cases hi : (i : Nat) < k
    · simp [hi]
    · have : x.getLsbD i = false :=
        Nat.testBit_lt_two_pow (Nat.lt_of_lt_of_le hx (Nat.pow_le_pow_right (by omega) (by omega)))
      simp [this]
  have hpow : 2 ^ k ≤ 2 ^ 63 := Nat.pow_le_pow_right (by omega) (by omega)
  have hone : 1 ≤ 2 ^ k := Nat.one_le_two_pow
  rw [← BitVec.add_eq_or_of_and_eq_zero _ _ hand, BitVec.toInt_eq_toNat_cond,
    BitVec.toNat_add, BitVec.toNat_shiftLeft, BitVec.toNat_allOnes, Nat.shiftLeft_eq]
  generalize 2 ^ k = p at *
  norm_num at *
  split <;> omega

theorem toDod_bitsLE {k max : Nat} {dod : Int} (hk : 0 < k) (hk' : k < 64) (hmax : max < 2 ^ k)
    (hlo : (max : Int) - (2 ^ k : Nat) < dod) (hhi : dod ≤ max) :
    toDod (BitVec.ofNat 64 ((BitVec.ofInt 64 dod).toNat % 2 ^ k)) k max = dod := by
  have hk64 : 2 ^ k < 2 ^ 64 := Nat.pow_lt_pow_right (by omega) hk'
  have hk63 : 2 ^ k ≤ 2 ^ 63 := Nat.pow_le_pow_right (by omega) (by omega)
  have hdvd : ((2 ^ k : Nat) : Int) ∣ ((2 ^ 64 : Nat) : Int) :=
    Int.natCast_dvd_natCast.mpr (Nat.pow_dvd_pow 2 (by omega))
  have hm : (((BitVec.ofInt 64 dod).toNat % 2 ^ k : Nat) : Int) = dod % ((2 ^ k : Nat) : Int) := by
    rw [BitVec.toNat_ofInt, Int.ofNat_emod,
      Int.toNat_of_nonneg (Int.emod_nonneg _ (by norm_num)), Int.emod_emod_of_dvd dod hdvd]
  have hmlt : (BitVec.ofInt 64 dod).toNat % 2 ^ k < 2 ^ k := Nat.mod_lt _ (by omega)
  generalize (BitVec.ofInt 64 dod).toNat % 2 ^ k = m at hm hmlt
  unfold toDod
  rw [BitVec.toNat_ofNat, Nat.mod_eq_of_lt (by omega)]
  rcases Int.lt_or_le dod 0 with hneg | hnonneg
  · have hmod : dod % ((2 ^ k : Nat) : Int) = dod + (2 ^ k : Nat) := by
      rw [← Int.add_emod_self, Int.emod_eq_of_lt (by omega) (by omega)]
    rw [if_pos (by omega), toInt_or_shiftLeft_allOnes hk hk' (by
      rw [BitVec.toNat_ofNat, Nat.mod_eq_of_lt (by omega)]; exact hmlt),
      BitVec.toNat_ofNat, Nat.mod_eq_of_lt (by omega)]
    omega
  · have hmod : dod % ((2 ^ k : Nat) : Int) = dod := Int.emod_eq_of_lt hnonneg (by omega)
    rw [if_neg (by omega), BitVec.toInt_eq_toNat_cond, BitVec.toNat_ofNat,
      Nat.mod_eq_of_lt (by omega), if_pos (by omega)]
    omega

namespace BitReader

theorem nextTime_zero (P D : Int) (done todo pad : List Bool) :
    nextTime P D (over done (false :: todo) pad) =
      .ok (P + D, P, D) (over (done ++ [false]) todo pad) := by
  simp only [nextTime, bind_apply, unwrap_apply, readBit_over]
  rfl

theorem nextTime_dodCode {dod : Int} (h0 : dod ≠ 0) (hlo : -2 ^ 31 ≤ dod) (hhi : dod < 2 ^ 31)
    (P D : Int) (done todo pad : List Bool) :
    nextTime P D (over done (dodCode dod ++ todo) pad) =
      .ok (P + (dod + D), P + (dod + D), dod + D) (over (done ++ dodCode dod) todo pad) := by
  unfold dodCode
  rw [if_neg h0]
  split_ifs with h2 h3 h4 <;>
  simp only [List.cons_append, List.singleton_append, List.nil_append, List.append_assoc, nextTime,
      dodWidth, bind_apply, unwrap_apply, readBit_over, read_bitsLE_over (by decide : 7 ≤ 64),
      read_bitsLE_over (by decide : 9 ≤ 64), read_bitsLE_over (by decide : 12 ≤ 64),
      read_bitsLE_over (by decide : 32 ≤ 64),
      Bool.not_true, Bool.not_false, Bool.false_eq_true, ↓reduceIte, pure_apply] <;>
  rw [toDod_bitsLE (by decide) (by decide) (by decide) (by omega) (by omega)]

end BitReader

/-! ## Values -/

/-- A window the writer can compute with: `64 - leading - trailing` does not overflow
and `>> trailing` does not shift the word out. -/
structure Zeros.Valid (z : Zeros) : Prop where
  add_le : z.leading + z.trailing ≤ 64
  trailing_lt : z.trailing < 64

theorem Zeros.valid_initial : Zeros.initial.Valid := ⟨by decide, by decide⟩

def xorCode (value prev : U64) (z : Zeros) : List Bool :=
  let xored := value ^^^ prev
  let lz := leadingZeros xored
  let tz := trailingZeros xored
  if xored = 0 then [false]
  else if insideBlock xored z then
    [true, false] ++ bitsLE (64 - z.leading - z.trailing) (xored >>> z.trailing).toNat
  else
    [true, true] ++ bitsLE 5 lz ++ bitsLE 6 (64 - lz - tz) ++
        bitsLE (64 - lz - tz) (xored >>> tz).toNat

def xorWindow (value prev : U64) (z : Zeros) : Zeros :=
  let xored := value ^^^ prev
  if xored ≠ 0 ∧ ¬insideBlock xored z then ⟨leadingZeros xored, trailingZeros xored⟩ else z

theorem xorWindow_valid (value prev : U64) {z : Zeros} (hz : z.Valid) :
    (xorWindow value prev z).Valid := by
  unfold xorWindow
  dsimp only
  split
  · next h =>
      have := leadingZeros_add_trailingZeros h.1
      exact ⟨by simp only; omega, by simp only; omega⟩
  · exact hz

@[simp] theorem xorWindow_self (v : U64) (z : Zeros) : xorWindow v v z = z := by
  simp [xorWindow]

@[simp] theorem xorCode_self (v : U64) (z : Zeros) : xorCode v v z = [false] := by
  simp [xorCode]

/-- The XORs the reader decodes back: zero, or with fewer than `32` leading zeros (five
bits hold `leading`) and fewer than `64` significant bits (six bits hold `nbits`). -/
def xorFits (x : U64) : Bool :=
  decide (x = 0) || decide (leadingZeros x < 32) && decide (0 < leadingZeros x + trailingZeros x)

theorem appendXor_push (value prev : U64) {z : Zeros} (hz : z.Valid) (w : BitWriter) :
    appendXor value prev z w = .ok (xorWindow value prev z) (w.push (xorCode value prev z)) := by
  obtain ⟨hz1, hz2⟩ := hz
  unfold appendXor xorCode xorWindow
  generalize value ^^^ prev = x
  by_cases h0 : x = 0
  · subst h0
    have hin : insideBlock 0 z := by
      simp only [insideBlock, leadingZeros_zero, trailingZeros_zero]; omega
    simp only [hin, decide_True, ↓reduceIte,
      u8Sub_of_le (show z.leading ≤ 64 by omega),
      u8Sub_of_le (show z.trailing ≤ 64 - z.leading by omega), shr_of_lt hz2, bind_apply,
      pure_apply, BitWriter.writeBit_push, ne_eq, not_true_eq_false, false_and]
  · by_cases hin : insideBlock x z
    · simp only [hin, h0, decide_True, ↓reduceIte,
        u8Sub_of_le (show z.leading ≤ 64 by omega),
        u8Sub_of_le (show z.trailing ≤ 64 - z.leading by omega), shr_of_lt hz2, bind_apply,
        pure_apply, BitWriter.writeBit_push, ne_eq, not_true_eq_false, false_and,
        BitWriter.write_push (show 64 - z.leading - z.trailing ≤ 64 by omega), not_false_eq_true,
        and_false, BitWriter.push_push, List.singleton_append, List.cons_append, List.nil_append,
        List.append_assoc]
    · have := leadingZeros_add_trailingZeros h0
      have hl : (BitVec.ofNat 64 (leadingZeros x)).toNat = leadingZeros x := by
        rw [BitVec.toNat_ofNat, Nat.mod_eq_of_lt (by omega)]
      have hn : (BitVec.ofNat 64 (64 - leadingZeros x - trailingZeros x)).toNat =
          64 - leadingZeros x - trailingZeros x := by
        rw [BitVec.toNat_ofNat, Nat.mod_eq_of_lt (by omega)]
      simp only [hin, h0, hl, hn, Bool.false_eq_true, decide_False, ↓reduceIte,
        u8Sub_of_le (show leadingZeros x ≤ 64 by omega),
        u8Sub_of_le (show trailingZeros x ≤ 64 - leadingZeros x by omega),
        shr_of_lt (show trailingZeros x < 64 by omega), bind_apply, pure_apply,
        BitWriter.writeBit_push, ne_eq, not_false_eq_true, true_and,
        BitWriter.write_push (show 64 - leadingZeros x - trailingZeros x ≤ 64 by omega),
        BitWriter.write_push (show 5 ≤ 64 by decide), BitWriter.write_push (show 6 ≤ 64 by decide),
        BitWriter.push_push, List.singleton_append, List.cons_append, List.append_assoc, and_self,
        List.nil_append]

namespace BitReader

theorem nextXor_zero (prev : U64) (z : Zeros) (done todo pad : List Bool) :
    nextXor prev z (over done (false :: todo) pad) =
      .ok (prev, z) (over (done ++ [false]) todo pad) := by
  simp only [nextXor, bind_apply, unwrap_apply, readBit_over]
  rfl

theorem nextXor_inside (prev : U64) {z : Zeros} (hz : z.Valid) (m : Nat)
    (done todo pad : List Bool) :
    nextXor prev z
      (over done (true :: false :: (bitsLE (64 - z.leading - z.trailing) m ++ todo)) pad) =
      .ok (prev ^^^ (BitVec.ofNat 64 (m % 2 ^ (64 - z.leading - z.trailing)) <<< z.trailing), z)
        (over (done ++ true :: false :: bitsLE (64 - z.leading - z.trailing) m) todo pad) := by
  obtain ⟨hz1, hz2⟩ := hz
  simp only [nextXor, bind_apply, unwrap_apply, readBit_over, Bool.not_true, Bool.not_false,
    Bool.false_eq_true, ↓reduceIte, pure_apply,
    u8Sub_of_le (show z.leading ≤ 64 by omega),
      u8Sub_of_le (show z.trailing ≤ 64 - z.leading by omega),
    read_bitsLE_over (show 64 - z.leading - z.trailing ≤ 64 by omega), shl_of_lt hz2,
    List.append_assoc, List.singleton_append, List.cons_append, List.nil_append]

theorem nextXor_full (prev : U64) (z : Zeros) {a b : Nat} (ha : a < 32) (hb : b < 64)
    (hab : a + b ≤ 64) (hpos : 0 < a + b) (m : Nat) (done todo pad : List Bool) :
    nextXor prev z
      (over done (true :: true :: (bitsLE 5 a ++ bitsLE 6 b ++ bitsLE b m ++ todo)) pad) =
      .ok (prev ^^^ (BitVec.ofNat 64 (m % 2 ^ b) <<< (64 - a - b)), ⟨a, 64 - a - b⟩)
        (over (done ++ true :: true :: (bitsLE 5 a ++ bitsLE 6 b ++ bitsLE b m)) todo pad) := by
  have h5 : (BitVec.ofNat 64 (a % 2 ^ 5)).toNat = a := by
    rw [BitVec.toNat_ofNat, Nat.mod_eq_of_lt (by omega), Nat.mod_eq_of_lt (by omega)]
  have h6 : (BitVec.ofNat 64 (b % 2 ^ 6)).toNat = b := by
    rw [BitVec.toNat_ofNat, Nat.mod_eq_of_lt (by omega), Nat.mod_eq_of_lt (by omega)]
  simp only [nextXor, bind_apply, unwrap_apply, readBit_over, Bool.not_true, Bool.false_eq_true,
    ↓reduceIte, pure_apply, List.append_assoc, read_bitsLE_over (show 5 ≤ 64 by decide),
    read_bitsLE_over (show 6 ≤ 64 by decide), h5, h6, u8Sub_of_le (show a ≤ 64 by omega),
    u8Sub_of_le (show b ≤ 64 - a by omega),
    read_bitsLE_over (show b ≤ 64 by omega), shl_of_lt (show 64 - a - b < 64 by omega),
    List.singleton_append, List.cons_append, List.nil_append]

theorem nextXor_xorCode (v p : U64) {z : Zeros} (hz : z.Valid) (hfit : xorFits (v ^^^ p))
    (done todo pad : List Bool) :
    nextXor p z (over done (xorCode v p z ++ todo) pad) =
      .ok (v, xorWindow v p z) (over (done ++ xorCode v p z) todo pad) := by
  have hv : p ^^^ (v ^^^ p) = v := by
    rw [BitVec.xor_comm v p, ← BitVec.xor_assoc, BitVec.xor_self, BitVec.zero_xor]
  unfold xorCode xorWindow
  generalize v ^^^ p = x at hv hfit
  by_cases h0 : x = 0
  · subst h0
    simp only [↓reduceIte, List.singleton_append, nextXor_zero, ne_eq, not_true_eq_false,
      false_and]
    simp at hv
    rw [hv]
  · by_cases hin : insideBlock x z
    · simp only [h0, hin, ↓reduceIte, ne_eq, not_false_eq_true, not_true_eq_false, and_false,
        List.cons_append, List.nil_append, List.singleton_append, List.append_assoc]
      rw [nextXor_inside p hz,
        Nat.mod_eq_of_lt (toNat_shiftRight_lt_of_leadingZeros hin.1 hz.add_le), BitVec.ofNat_toNat,
        BitVec.setWidth_eq, shiftRight_shiftLeft_of_le_trailingZeros hin.2, hv]
    · have hlt := leadingZeros_add_trailingZeros h0
      simp only [xorFits, h0, decide_False, Bool.false_or, Bool.and_eq_true,
        decide_eq_true_eq] at hfit
      simp only [h0, hin, ↓reduceIte, ne_eq, not_false_eq_true, and_self, List.append_assoc,
        List.cons_append, List.nil_append, List.singleton_append]
      have hf := nextXor_full p z (show leadingZeros x < 32 by omega)
        (show 64 - leadingZeros x - trailingZeros x < 64 by omega) (by omega) (by omega)
        (x >>> trailingZeros x).toNat done todo pad
      simp only [List.append_assoc] at hf
      rw [hf, Nat.mod_eq_of_lt (toNat_shiftRight_lt_of_leadingZeros le_rfl (by omega)),
        show 64 - leadingZeros x - (64 - leadingZeros x - trailingZeros x) = trailingZeros x by
          omega,
        BitVec.ofNat_toNat, BitVec.setWidth_eq, shiftRight_shiftLeft_of_le_trailingZeros le_rfl, hv]

end BitReader

end RustyDb.Gorilla
