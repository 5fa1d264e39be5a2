import RustyDb.Gorilla.Codes

/-!
# Writer and reader methods, one call at a time

What a call of a codec method does to its structure, stated through the codes of
`Codes`: a writer method appends a code to `body` and moves the predictor fields, a
reader method consumes a code from `reader`.  Proofs about runs rewrite with these
and never unfold a method.

The lemmas about a whole structure given field by field (`..._mk`) are the forms
`simp` can use on a run: every variable of the right side is fixed by the left side.
-/

namespace RustyDb.Gorilla

theorem validateTimestamp_ok {prevTs t : Int} (h0 : prevTs ≤ t) (h1 : t - prevTs ≤ 16384) :
    validateTimestamp prevTs t = .ok (t - prevTs).toNat := by
  simp only [validateTimestamp, if_neg (show ¬t - prevTs < 0 by omega),
    if_neg (show ¬t - prevTs > 16384 by omega)]

theorem headerBody_eq (header : GorillaDateTime) :
    headerBody header = BitWriter.new.push (bitsLE 64 (BitVec.ofInt 64 header).toNat) := by
  unfold headerBody
  rw [BitWriter.write_push (le_refl 64)]

theorem toInt_ofInt_64 {h : Int} (h1 : -2 ^ 63 ≤ h) (h2 : h < 2 ^ 63) :
    (BitVec.ofInt 64 h).toInt = h := by
  rw [BitVec.toInt_ofInt, Int.bmod_def]
  split <;> omega

theorem ofNat_toNat_mod (v : U64) : BitVec.ofNat 64 (v.toNat % 2 ^ 64) = v := by
  rw [Nat.mod_eq_of_lt v.isLt, BitVec.ofNat_toNat, BitVec.setWidth_eq]

theorem readHeader_over (done todo pad : List Bool) (v : Nat) :
    readHeader (BitReader.over done (bitsLE 64 v ++ todo) pad) =
      .ok (BitVec.ofNat 64 (v % 2 ^ 64)).toInt (BitReader.over (done ++ bitsLE 64 v) todo pad) := by
  simp only [readHeader, bind_apply, unwrap_apply, BitReader.read_bitsLE_over (le_refl 64),
    pure_apply]

theorem readFirstTime_over (h : GorillaDateTime) (done todo pad : List Bool) (v : Nat) :
    readFirstTime h (BitReader.over done (bitsLE 14 v ++ todo) pad) =
      .ok (h + (BitVec.ofNat 64 (v % 2 ^ 14)).toInt)
        (BitReader.over (done ++ bitsLE 14 v) todo pad) := by
  simp only [readFirstTime, bind_apply, unwrap_apply,
    BitReader.read_bitsLE_over (show 14 ≤ 64 by decide), pure_apply]

/-! ## `GorillaWriterMV` -/

namespace GorillaWriterMV

variable {w : GorillaWriterMV}

theorem appendTime_ok {t : GorillaDateTime} {d : Nat}
    (hd : Gorilla.validateTimestamp w.prevTs t = .ok d) :
    appendTime t w =
      .ok () { w with prevDelta := d, prevTs := t,
                      body := w.body.push (dodCode (d - w.prevDelta)) } := by
  simp only [appendTime, bind_apply, get_apply, validateTimestamp, hd, liftExcept, set_apply,
    onBody, zoom_apply, appendDod_push]

theorem appendTime_error {t : GorillaDateTime} {e : Error}
    (hd : Gorilla.validateTimestamp w.prevTs t = .error e) :
    appendTime t w = .error (.error e) w := by
  simp only [appendTime, bind_apply, get_apply, validateTimestamp, hd, liftExcept]

theorem appendValues_one {p v : U64} {z : Zeros} (hz : z.Valid) (h1 : w.dim = 1)
    (hp : w.prevValue = [p])
    (hzs : w.prevZeros = [z]) :
    appendValues [v] w =
      .ok () { w with prevValue := [v], prevZeros := [xorWindow v p z],
                      body := w.body.push (xorCode v p z) } := by
  obtain ⟨dim, header, prevTs, prevDelta, prevValue, prevZeros, body⟩ := w
  simp only at h1 hp hzs
  subst h1 hp hzs
  simp only [appendValues, bind_apply, get_apply, validateValues, liftExcept, List.length_singleton,
    ne_eq, not_true_eq_false, ↓reduceIte]
  show (appendLane [v] 0 >>= fun _ => pure ()) _ = _
  simp only [bind_apply, appendLane, List.getElem?_cons_zero, appendXor_push v p hz,
    List.set_cons_zero, pure_apply]

theorem appendEntry_one {t : GorillaDateTime} {d : Nat} {p v : U64} {z : Zeros} (hz : z.Valid)
    (h1 : w.dim = 1) (hp : w.prevValue = [p]) (hzs : w.prevZeros = [z])
    (hd : Gorilla.validateTimestamp w.prevTs t = .ok d) :
    appendEntry ⟨t, [v]⟩ w =
      .ok () { w with prevDelta := d, prevTs := t, prevValue := [v], prevZeros := [xorWindow v p z],
                      body := w.body.push (dodCode (d - w.prevDelta) ++ xorCode v p z) } := by
  have hv := appendValues_one (v := v)
    (w := { w with prevDelta := d, prevTs := t, body := w.body.push (dodCode (d - w.prevDelta)) })
        hz h1 hp hzs
  simp only [h1, BitWriter.push_push] at hv
  simp only [appendEntry, bind_apply, get_apply, validateValues, liftExcept, List.length_singleton,
    h1, ne_eq, not_true_eq_false, ↓reduceIte, appendTime_ok hd, hv]

theorem appendEntry_mk {header prevTs t : Int} {prevDelta : Nat} {p v : U64} {z : Zeros}
    {body : BitWriter}
    (hz : z.Valid) (h0 : prevTs ≤ t) (h1 : t - prevTs ≤ 16384) :
    appendEntry ⟨t, [v]⟩ ⟨1, header, prevTs, prevDelta, [p], [z], body⟩ =
      .ok () ⟨1, header, t, (t - prevTs).toNat, [v], [xorWindow v p z],
        body.push (dodCode ((t - prevTs).toNat - prevDelta) ++ xorCode v p z)⟩ :=
  appendEntry_one hz rfl rfl rfl (validateTimestamp_ok h0 h1)

theorem appendFirst_mk {header prevTs t : Int} {prevDelta : Nat} {p : List U64} {v : U64}
    {zs : List Zeros} {body : BitWriter} (h0 : prevTs ≤ t) (h1 : t - prevTs ≤ 16384) :
    appendFirst ⟨t, [v]⟩ ⟨1, header, prevTs, prevDelta, p, zs, body⟩ =
      .ok () ⟨1, header, t, (t - prevTs).toNat, [v], zs,
        body.push (bitsLE 14 (BitVec.ofNat 64 (t - prevTs).toNat).toNat ++ bitsLE 64 v.toNat)⟩ := by
  simp only [appendFirst, bind_apply, get_apply, validateTimestamp, validateTimestamp_ok h0 h1,
    liftExcept, onBody, zoom_apply, BitWriter.write_push (show 14 ≤ 64 by decide), List.range,
    List.range.loop, List.forM, List.getElem?_cons_zero, BitWriter.write_push (le_refl 64),
    modify_apply, pure_apply, BitWriter.push_push]

end GorillaWriterMV

/-! ## `GorillaWriter` -/

theorem GorillaWriter.appendFirst_mk {header prevTs t : Int} {prevDelta : Nat} {p v : U64}
    {z : Zeros} {body : BitWriter} (h0 : prevTs ≤ t) (h1 : t - prevTs ≤ 16384) :
    GorillaWriter.appendFirst ⟨t, v⟩ ⟨header, prevTs, prevDelta, p, z, body⟩ =
      .ok () ⟨header, t, (t - prevTs).toNat, v, z,
        body.push (bitsLE 14 (BitVec.ofNat 64 (t - prevTs).toNat).toNat ++ bitsLE 64 v.toNat)⟩ := by
  simp only [GorillaWriter.appendFirst, bind_apply, get_apply, GorillaWriter.validateTimestamp,
    validateTimestamp_ok h0 h1, liftExcept, GorillaWriter.onBody, zoom_apply,
    BitWriter.write_push (show 14 ≤ 64 by decide), BitWriter.write_push (le_refl 64), modify_apply,
    BitWriter.push_push]

/-! ## `GorillaReaderMV` -/

namespace GorillaReaderMV

variable {r : GorillaReaderMV}

theorem getNextTime_ok {t p : GorillaDateTime} {d : Int} {b : BitReader}
    (h : nextTime r.prevEntry.time r.prevDiff r.reader = .ok (t, p, d) b) :
    getNextTime r =
      .ok t { r with prevEntry := { r.prevEntry with time := p }, prevDiff := d, reader := b } := by
  simp only [getNextTime, bind_apply, get_apply, onReader, zoom_apply, h, modify_apply, pure_apply]

theorem getNextValues_one {p v : U64} {z z' : Zeros} {b : BitReader} (h1 : r.dim = 1)
    (hp : r.prevEntry.values = [p]) (hzs : r.prevZeros = [z])
    (h : nextXor p z r.reader = .ok (v, z') b) :
    getNextValues r =
      .ok [v] { r with reader := b, prevZeros := [z'],
                       prevEntry := { r.prevEntry with values := [v] } } := by
  obtain ⟨dim, entry, prevEntry, prevDiff, prevZeros, reader⟩ := r
  simp only at h1 hp hzs h
  subst h1 hzs
  simp only [getNextValues, bind_apply, get_apply]
  show (nextLane [0] 0 >>= fun vs => nextLanes [] vs) _ = _
  simp only [bind_apply, nextLane, hp, List.getElem?_cons_zero, h, List.set_cons_zero, nextLanes,
    pure_apply]

theorem getNextTime_zero (dim : Nat) (entry prevEntry : MVEntry) (D : Int) (zs : List Zeros)
    (done todo pad : List Bool) :
    getNextTime ⟨dim, entry, prevEntry, D, zs, BitReader.over done (false :: todo) pad⟩ =
      .ok (prevEntry.time + D)
        ⟨dim, entry, prevEntry, D, zs, BitReader.over (done ++ [false]) todo pad⟩ :=
  getNextTime_ok (BitReader.nextTime_zero _ _ _ _ _)

theorem getNextTime_dodCode {dod : Int} (h0 : dod ≠ 0) (hlo : -2 ^ 31 ≤ dod) (hhi : dod < 2 ^ 31)
    (dim : Nat) (entry prevEntry : MVEntry) (D : Int) (zs : List Zeros)
    (done todo pad : List Bool) :
    getNextTime ⟨dim, entry, prevEntry, D, zs, BitReader.over done (dodCode dod ++ todo) pad⟩ =
      .ok (prevEntry.time + (dod + D))
        ⟨dim, entry, { prevEntry with time := prevEntry.time + (dod + D) }, dod + D, zs,
          BitReader.over (done ++ dodCode dod) todo pad⟩ :=
  getNextTime_ok (BitReader.nextTime_dodCode h0 hlo hhi _ _ _ _ _)

theorem getNextValues_zero (entry : MVEntry) (t : GorillaDateTime) (p : U64) (D : Int) (z : Zeros)
    (done todo pad : List Bool) :
    getNextValues ⟨1, entry, ⟨t, [p]⟩, D, [z], BitReader.over done (false :: todo) pad⟩ =
      .ok [p] ⟨1, entry, ⟨t, [p]⟩, D, [z], BitReader.over (done ++ [false]) todo pad⟩ :=
  getNextValues_one rfl rfl rfl (BitReader.nextXor_zero _ _ _ _ _)

end GorillaReaderMV

/-! ## `from_writer`

`from_writer` reads the header, the 14-bit first delta and the first values off the
closed body.  Each reader is given by the run of those reads (`fromWriter_ok`), and on a
body of one sample by its result (`fromWriter_push`). -/

theorem GorillaReaderMV.fromWriter_ok {w : GorillaWriterMV} {header time : GorillaDateTime}
    {values : List U64} {r : BitReader}
    (h : (do
        let header ← readHeader
        let time ← readFirstTime header
        let values ← GorillaReaderMV.readValues w.dim
        pure (header, ({ time, values } : MVEntry)))
        (BitReader.over [] w.body.bits (bitsLE (BitWriter.fillBits w.body.n) 0)) =
      .ok (header, ⟨time, values⟩) r) :
    GorillaReaderMV.fromWriter w = .ok ⟨w.dim, ⟨time, values⟩, ⟨header, List.replicate w.dim 0⟩, 0,
      List.replicate w.dim .initial, r⟩ := by
  simp only [GorillaReaderMV.fromWriter, GorillaWriterMV.close, BitReader.new_close, h]

theorem GorillaReader.fromWriter_ok {w : GorillaWriter} {header time : GorillaDateTime}
    {value : U64}
    {r : BitReader}
    (h : (do
        let header ← readHeader
        let time ← readFirstTime header
        let value ← unwrap (BitReader.read 64)
        pure (header, ({ time, value } : Entry)))
        (BitReader.over [] w.body.bits (bitsLE (BitWriter.fillBits w.body.n) 0)) =
      .ok (header, ⟨time, value⟩) r) :
    GorillaReader.fromWriter w = .ok ⟨⟨time, value⟩, ⟨header, 0⟩, 0, .initial, r⟩ := by
  simp only [GorillaReader.fromWriter, GorillaWriter.close, BitReader.new_close, h]

section OneSample

variable (H δ : Nat) (v : U64) (pad : List Bool)

theorem GorillaReaderMV.start_one :
    (do
        let header ← readHeader
        let time ← readFirstTime header
        let values ← GorillaReaderMV.readValues 1
        pure (header, ({ time, values } : MVEntry)))
        (BitReader.over [] (bitsLE 64 H ++ (bitsLE 14 δ ++ bitsLE 64 v.toNat)) pad) =
      .ok ((BitVec.ofNat 64 (H % 2 ^ 64)).toInt,
          ⟨(BitVec.ofNat 64 (H % 2 ^ 64)).toInt + (BitVec.ofNat 64 (δ % 2 ^ 14)).toInt, [v]⟩)
        (BitReader.over (bitsLE 64 H ++ (bitsLE 14 δ ++ bitsLE 64 v.toNat)) [] pad) := by
  simp only [bind_apply, readHeader_over, readFirstTime_over, GorillaReaderMV.readValues,
    unwrap_apply, BitReader.read_bitsLE_over_end (le_refl 64), pure_apply, List.nil_append,
    ofNat_toNat_mod, List.append_assoc]

theorem GorillaReader.start_one :
    (do
        let header ← readHeader
        let time ← readFirstTime header
        let value ← unwrap (BitReader.read 64)
        pure (header, ({ time, value } : Entry)))
        (BitReader.over [] (bitsLE 64 H ++ (bitsLE 14 δ ++ bitsLE 64 v.toNat)) pad) =
      .ok ((BitVec.ofNat 64 (H % 2 ^ 64)).toInt,
          ⟨(BitVec.ofNat 64 (H % 2 ^ 64)).toInt + (BitVec.ofNat 64 (δ % 2 ^ 14)).toInt, v⟩)
        (BitReader.over (bitsLE 64 H ++ (bitsLE 14 δ ++ bitsLE 64 v.toNat)) [] pad) := by
  simp only [bind_apply, readHeader_over, readFirstTime_over, unwrap_apply,
    BitReader.read_bitsLE_over_end (le_refl 64), pure_apply, List.nil_append, ofNat_toNat_mod,
    List.append_assoc]

variable {header prevTs : GorillaDateTime} {prevDelta : Nat}

theorem GorillaReaderMV.fromWriter_push {p : List U64} {zs : List Zeros} :
    GorillaReaderMV.fromWriter
        ⟨1, header, prevTs, prevDelta, p, zs,
          BitWriter.new.push (bitsLE 64 H ++ (bitsLE 14 δ ++ bitsLE 64 v.toNat))⟩ =
      .ok ⟨1, ⟨(BitVec.ofNat 64 (H % 2 ^ 64)).toInt + (BitVec.ofNat 64 (δ % 2 ^ 14)).toInt, [v]⟩,
        ⟨(BitVec.ofNat 64 (H % 2 ^ 64)).toInt, [0]⟩, 0, [.initial],
        BitReader.over (bitsLE 64 H ++ (bitsLE 14 δ ++ bitsLE 64 v.toNat)) []
          (bitsLE
            (BitWriter.fillBits
              (BitWriter.new.push (bitsLE 64 H ++ (bitsLE 14 δ ++ bitsLE 64 v.toNat))).n) 0)⟩ :=
  GorillaReaderMV.fromWriter_ok (GorillaReaderMV.start_one H δ v _)

theorem GorillaReader.fromWriter_push {p : U64} {z : Zeros} :
    GorillaReader.fromWriter
        ⟨header, prevTs, prevDelta, p, z,
          BitWriter.new.push (bitsLE 64 H ++ (bitsLE 14 δ ++ bitsLE 64 v.toNat))⟩ =
      .ok ⟨⟨(BitVec.ofNat 64 (H % 2 ^ 64)).toInt + (BitVec.ofNat 64 (δ % 2 ^ 14)).toInt, v⟩,
        ⟨(BitVec.ofNat 64 (H % 2 ^ 64)).toInt, 0⟩, 0, .initial,
        BitReader.over (bitsLE 64 H ++ (bitsLE 14 δ ++ bitsLE 64 v.toNat)) []
          (bitsLE
            (BitWriter.fillBits
              (BitWriter.new.push (bitsLE 64 H ++ (bitsLE 14 δ ++ bitsLE 64 v.toNat))).n) 0)⟩ :=
  GorillaReader.fromWriter_ok (GorillaReader.start_one H δ v _)

end OneSample

end RustyDb.Gorilla
