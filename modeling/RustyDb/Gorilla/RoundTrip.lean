import RustyDb.Gorilla.Api

/-!
# The block round trip

What `compress_values` writes and `retrieve_values` reads back, sample after sample and
dimension after dimension.  `seriesCode` is the body a series is written as: for each sample
the delta-of-delta code of its time, then the XOR code of each value against the previous
one under that dimension's window.  The writer's loop writes exactly these bits
(`forM_appendEntry_seriesCode`) and the reader's loop reads the series back from them
(`mapM_retrieveEntry_seriesCode`), as long as the series is `decodable`: the reader stalls
on a repeated non-zero delta, and the five bits of `leading` and the six of `nbits` lose
an XOR with `32` or more leading zeros, or with `64` significant bits.
(`Api` shows the stall on an evenly spaced series.)  The same holds of the reader tests'
path, `append_first` and `append_entry`s read back by `from_writer`, `next` and
`get_next_entry`s, when the first sample is less than `16384` seconds after the header.
-/

namespace RustyDb.Gorilla

/-! ## Lanes -/

def lanesCode : List U64 → List U64 → List Zeros → List Bool
  | v :: vs, p :: ps, z :: zs => xorCode v p z ++ lanesCode vs ps zs
  | _, _, _ => []

def lanesWindow : List U64 → List U64 → List Zeros → List Zeros
  | v :: vs, p :: ps, z :: zs => xorWindow v p z :: lanesWindow vs ps zs
  | _, _, _ => []

theorem length_lanesWindow {V P : List U64} {Z : List Zeros} (hP : P.length = V.length)
    (hZ : Z.length = V.length) : (lanesWindow V P Z).length = V.length := by
  induction V generalizing P Z with
  | nil => cases P <;> cases Z <;> rfl
  | cons v V ih =>
      obtain ⟨p, P, rfl⟩ := List.exists_cons_of_length_eq_add_one hP
      obtain ⟨z, Z, rfl⟩ := List.exists_cons_of_length_eq_add_one hZ
      simp only [lanesWindow, List.length_cons, ih (by simpa using hP) (by simpa using hZ)]

theorem lanesWindow_valid {V P : List U64} {Z : List Zeros} (hzv : ∀ z ∈ Z, z.Valid) :
    ∀ z ∈ lanesWindow V P Z, z.Valid := by
  induction V generalizing P Z with
  | nil => simp [lanesWindow]
  | cons v V ih =>
      cases P with
      | nil => simp [lanesWindow]
      | cons p P =>
          cases Z with
          | nil => simp [lanesWindow]
          | cons z Z =>
              simp only [lanesWindow, List.mem_cons, forall_eq_or_imp]
              exact ⟨xorWindow_valid v p (hzv z (.head _)),
                ih fun z' hz' => hzv z' (.tail _ hz')⟩

namespace GorillaWriterMV

theorem forM_appendLane {values A P V : List U64} {Zw Z : List Zeros} {s : Nat}
    (hvals : ∃ V₀, values = V₀ ++ V ∧ V₀.length = s) (hA : A.length = s)
    (hZw : Zw.length = s) (hP : P.length = V.length) (hZ : Z.length = V.length)
    (hzv : ∀ z ∈ Z, z.Valid) (w : GorillaWriterMV) (hw₁ : w.prevValue = A ++ P)
    (hw₂ : w.prevZeros = Zw ++ Z) :
    (List.range' s V.length).forM (appendLane values) w =
      .ok () { w with body := w.body.push (lanesCode V P Z), prevValue := A ++ V,
                      prevZeros := Zw ++ lanesWindow V P Z } := by
  induction V generalizing s A P Zw Z w with
  | nil =>
      obtain ⟨⟩ := List.length_eq_zero.mp hP
      obtain ⟨⟩ := List.length_eq_zero.mp hZ
      cases w
      simp_all [lanesCode, lanesWindow]
  | cons v V ih =>
      obtain ⟨V₀, rfl, hV₀⟩ := hvals
      obtain ⟨p, P, rfl⟩ := List.exists_cons_of_length_eq_add_one hP
      obtain ⟨z, Z, rfl⟩ := List.exists_cons_of_length_eq_add_one hZ
      have hstep : appendLane (V₀ ++ v :: V) s w =
          .ok () { w with body := w.body.push (xorCode v p z), prevValue := (A ++ [v]) ++ P,
                          prevZeros := (Zw ++ [xorWindow v p z]) ++ Z } := by
        simp only [appendLane, hw₁, hw₂, List.getElem?_append_right (hV₀.le),
          List.getElem?_append_right (hA.le), List.getElem?_append_right (hZw.le),
          hV₀, hA, hZw, Nat.sub_self, List.getElem?_cons_zero,
          appendXor_push v p (hzv z (.head _)), List.set_append_right _ _ (hA.le),
          List.set_append_right _ _ (hZw.le), List.set_cons_zero, List.append_assoc,
          List.singleton_append]
      have hrest := ih ⟨V₀ ++ [v], by simp, by simp [hV₀]⟩
        (show (A ++ [v]).length = s + 1 by simp [hA])
        (show (Zw ++ [xorWindow v p z]).length = s + 1 by simp [hZw]) (by simpa using hP)
        (by simpa using hZ) (fun z' hz' => hzv z' (.tail _ hz'))
        { w with body := w.body.push (xorCode v p z), prevValue := (A ++ [v]) ++ P,
                 prevZeros := (Zw ++ [xorWindow v p z]) ++ Z } rfl rfl
      rw [List.length_cons, List.range'_succ, List.forM_cons', bind_apply, hstep]
      simp only [lanesCode, lanesWindow, List.append_assoc, List.singleton_append,
        BitWriter.push_push] at hrest ⊢
      exact hrest

variable {D : Nat} {header prevTs : GorillaDateTime} {prevDelta : Nat} {prev : List U64}
  {zs : List Zeros} {body : BitWriter}

theorem appendValues_lanes {values : List U64} (hv : values.length = D) (hp : prev.length = D)
    (hz : zs.length = D) (hzv : ∀ z ∈ zs, z.Valid) :
    appendValues values ⟨D, header, prevTs, prevDelta, prev, zs, body⟩ =
      .ok () ⟨D, header, prevTs, prevDelta, values, lanesWindow values prev zs,
        body.push (lanesCode values prev zs)⟩ := by
  simp only [appendValues, bind_apply, get_apply, validateValues, hv, ne_eq, not_true_eq_false,
    ↓reduceIte, liftExcept, List.range_eq_range']
  rw [← hv]
  exact forM_appendLane ⟨[], rfl, rfl⟩ (show ([] : List U64).length = 0 from rfl)
    (show ([] : List Zeros).length = 0 from rfl) (hp.trans hv.symm) (hz.trans hv.symm) hzv _ rfl
    rfl

theorem appendEntry_lanes {e : MVEntry} (hv : e.values.length = D) (hp : prev.length = D)
    (hz : zs.length = D) (hzv : ∀ z ∈ zs, z.Valid) {δ : Nat}
    (hd : Gorilla.validateTimestamp prevTs e.time = .ok δ) :
    appendEntry e ⟨D, header, prevTs, prevDelta, prev, zs, body⟩ =
      .ok () ⟨D, header, e.time, δ, e.values, lanesWindow e.values prev zs,
        body.push (dodCode (δ - prevDelta) ++ lanesCode e.values prev zs)⟩ := by
  simp only [appendEntry, bind_apply, get_apply, validateValues, hv, ne_eq, not_true_eq_false,
    ↓reduceIte, liftExcept, appendTime_ok (w := ⟨D, header, prevTs, prevDelta, prev, zs, body⟩) hd,
    appendValues_lanes hv hp hz hzv, BitWriter.push_push]

end GorillaWriterMV

def lanesFit : List U64 → List U64 → Bool
  | v :: vs, p :: ps => xorFits (v ^^^ p) && lanesFit vs ps
  | _, _ => true

namespace GorillaReaderMV

open BitReader

theorem nextLanes_lanesCode {A Q P V : List U64} {Zw Z : List Zeros} {s : Nat}
    (hA : A.length = s) (hZw : Zw.length = s) (hQ : Q.length = V.length)
    (hP : P.length = V.length) (hZ : Z.length = V.length) (hzv : ∀ z ∈ Z, z.Valid)
    (hfit : lanesFit V P)
    (D : Nat) (entry : MVEntry) (t : GorillaDateTime) (Dd : Int) (done todo pad : List Bool) :
    nextLanes (List.range' s V.length) (A ++ Q)
        ⟨D, entry, ⟨t, A ++ P⟩, Dd, Zw ++ Z, over done (lanesCode V P Z ++ todo) pad⟩ =
      .ok (A ++ V) ⟨D, entry, ⟨t, A ++ V⟩, Dd, Zw ++ lanesWindow V P Z,
        over (done ++ lanesCode V P Z) todo pad⟩ := by
  induction V generalizing s A Q P Zw Z done with
  | nil =>
      obtain ⟨⟩ := List.length_eq_zero.mp hQ
      obtain ⟨⟩ := List.length_eq_zero.mp hP
      obtain ⟨⟩ := List.length_eq_zero.mp hZ
      simp [lanesCode, lanesWindow, nextLanes]
  | cons v V ih =>
      obtain ⟨q, Q, rfl⟩ := List.exists_cons_of_length_eq_add_one hQ
      obtain ⟨p, P, rfl⟩ := List.exists_cons_of_length_eq_add_one hP
      obtain ⟨z, Z, rfl⟩ := List.exists_cons_of_length_eq_add_one hZ
      simp only [lanesFit, Bool.and_eq_true] at hfit
      have hstep : nextLane (A ++ q :: Q) s
          ⟨D, entry, ⟨t, A ++ p :: P⟩, Dd, Zw ++ z :: Z,
            over done (xorCode v p z ++ (lanesCode V P Z ++ todo)) pad⟩ =
          .ok ((A ++ [v]) ++ Q)
            ⟨D, entry, ⟨t, (A ++ [v]) ++ P⟩, Dd, (Zw ++ [xorWindow v p z]) ++ Z,
            over (done ++ xorCode v p z) (lanesCode V P Z ++ todo) pad⟩ := by
        simp only [nextLane, List.getElem?_append_right hA.le, List.getElem?_append_right hZw.le,
          hA, hZw, Nat.sub_self, List.getElem?_cons_zero,
          nextXor_xorCode v p (hzv z (.head _)) hfit.1,
          List.set_append_right _ _ hA.le, List.set_append_right _ _ hZw.le, List.set_cons_zero,
          List.append_assoc, List.singleton_append]
      have hrest := ih (show (A ++ [v]).length = s + 1 by simp [hA])
        (show (Zw ++ [xorWindow v p z]).length = s + 1 by simp [hZw]) (by simpa using hQ)
        (by simpa using hP) (by simpa using hZ) (fun z' hz' => hzv z' (.tail _ hz')) hfit.2
        (done ++ xorCode v p z)
      rw [List.length_cons, List.range'_succ, nextLanes, bind_apply]
      simp only [lanesCode, lanesWindow, List.append_assoc, List.singleton_append]
        at hrest hstep ⊢
      rw [hstep]
      exact hrest

variable {D : Nat} {entry : MVEntry} {t : GorillaDateTime} {Dd : Int} {prev : List U64}
  {zs : List Zeros}

theorem getNextValues_lanes {V : List U64} (hv : V.length = D) (hp : prev.length = D)
    (hz : zs.length = D) (hzv : ∀ z ∈ zs, z.Valid) (hfit : lanesFit V prev)
    (done todo pad : List Bool) :
    getNextValues ⟨D, entry, ⟨t, prev⟩, Dd, zs, over done (lanesCode V prev zs ++ todo) pad⟩ =
      .ok V ⟨D, entry, ⟨t, V⟩, Dd, lanesWindow V prev zs,
        over (done ++ lanesCode V prev zs) todo pad⟩ := by
  simp only [getNextValues, bind_apply, get_apply, List.range_eq_range']
  rw [← hv]
  exact nextLanes_lanesCode (show ([] : List U64).length = 0 from rfl)
    (show ([] : List Zeros).length = 0 from rfl) (List.length_replicate _ _) (hp.trans hv.symm)
    (hz.trans hv.symm) hzv hfit _ entry t Dd done todo pad

end GorillaReaderMV

/-! ## Series -/

def seriesCode : GorillaDateTime → Nat → List U64 → List Zeros → List MVEntry → List Bool
  | _, _, _, _, [] => []
  | P, Dl, prev, zs, e :: S =>
      dodCode ((e.time - P).toNat - Dl) ++ lanesCode e.values prev zs ++
        seriesCode e.time (e.time - P).toNat e.values (lanesWindow e.values prev zs) S

/-- The series of `dim` values a sample that `retrieve_values` reads back from what
`compress_values` wrote: each sample at most 16384 seconds after the one before, no
non-zero delta repeated (its delta of delta `0` would stall `get_next_time`), and every
XOR one the reader decodes. -/
def decodable (dim : Nat) : GorillaDateTime → Nat → List U64 → List MVEntry → Bool
  | _, _, _, [] => true
  | P, Dl, prev, e :: S =>
      decide (0 ≤ e.time - P ∧ e.time - P ≤ 16384) &&
        decide (e.time - P ≠ Dl ∨ e.time = P) && decide (e.values.length = dim) &&
        lanesFit e.values prev &&
        decodable dim e.time (e.time - P).toNat e.values S

theorem forM_appendEntry_seriesCode (S : List MVEntry) (header : GorillaDateTime) {D : Nat}
    {prevTs : GorillaDateTime} {prevDelta : Nat} {prev : List U64} {zs : List Zeros}
    (hp : prev.length = D) (hz : zs.length = D) (hzv : ∀ z ∈ zs, z.Valid) 
    (hS : decodable D prevTs prevDelta prev S) (body : BitWriter) :
    ∃ w', S.forM GorillaWriterMV.appendEntry ⟨D, header, prevTs, prevDelta, prev, zs, body⟩ =
        .ok () w' ∧ w'.dim = D ∧ w'.body = body.push (seriesCode prevTs prevDelta prev zs S) := by
  induction S generalizing prevTs prevDelta prev zs body with
  | nil => exact ⟨_, rfl, rfl, by simp [seriesCode]⟩
  | cons e S ih =>
      simp only [decodable, Bool.and_eq_true, decide_eq_true_eq] at hS
      obtain ⟨⟨⟨⟨⟨h0, h1⟩, -⟩, hv⟩, -⟩, hS⟩ := hS
      have hlen : (lanesWindow e.values prev zs).length = D :=
        (length_lanesWindow (hp.trans hv.symm) (hz.trans hv.symm)).trans hv
      obtain ⟨w', hw', hD, hb⟩ := ih hv hlen (lanesWindow_valid hzv) hS
        (body.push (dodCode ((e.time - prevTs).toNat - prevDelta) ++ lanesCode e.values prev zs))
      refine ⟨w', ?_, hD, by rw [hb, BitWriter.push_push, seriesCode, List.append_assoc]⟩
      rw [List.forM_cons', bind_apply, GorillaWriterMV.appendEntry_lanes hv hp hz hzv
        (validateTimestamp_ok (Int.sub_nonneg.mp h0) h1)]
      exact hw'

open BitReader in
theorem retrieveEntry_sampleCode {e : MVEntry} {D : Nat} {entry : MVEntry} {P : GorillaDateTime}
    {Dl : Nat} {prev : List U64} {zs : List Zeros} (h0 : 0 ≤ e.time - P) (h1 : e.time - P ≤ 16384)
    (hstall : e.time - P ≠ Dl ∨ e.time = P) (hDl : Dl ≤ 16384) (hv : e.values.length = D)
    (hp : prev.length = D) (hz : zs.length = D) (hzv : ∀ z ∈ zs, z.Valid)
    (hfit : lanesFit e.values prev)
    (done todo pad : List Bool) :
    retrieveEntry ⟨D, entry, ⟨P, prev⟩, Dl, zs,
        over done (dodCode ((e.time - P).toNat - Dl) ++ (lanesCode e.values prev zs ++ todo)) pad⟩ =
      .ok e ⟨D, entry, ⟨e.time, e.values⟩, (e.time - P).toNat, lanesWindow e.values prev zs,
        over (done ++ dodCode ((e.time - P).toNat - Dl) ++ lanesCode e.values prev zs) todo
          pad⟩ := by
  obtain ⟨t, vals⟩ := e
  dsimp only at *
  have hδ : ((t - P).toNat : Int) = t - P := Int.toNat_of_nonneg h0
  by_cases hdod : ((t - P).toNat : Int) - Dl = 0
  · have htP : t = P := by
      rcases hstall with h | h
      · unfold GorillaDateTime at *; omega
      · exact h
    subst htP
    have hDl : Dl = 0 := by unfold GorillaDateTime at *; omega
    subst hDl
    simp only [hdod, dodCode_zero, Int.sub_self, Int.toNat_zero, Nat.cast_zero, retrieveEntry,
      bind_apply, List.singleton_append, GorillaReaderMV.getNextTime_zero, Int.add_zero,
      GorillaReaderMV.getNextValues_lanes hv hp hz hzv hfit, pure_apply]
  · have hsum : ((t - P).toNat : Int) - Dl + Dl = (t - P).toNat := by omega
    have ht : P + ((t - P).toNat : Int) = t := by unfold GorillaDateTime at *; omega
    simp only [retrieveEntry, bind_apply, GorillaReaderMV.getNextTime_dodCode hdod
      (show -2 ^ 31 ≤ ((t - P).toNat : Int) - Dl by unfold GorillaDateTime at *; omega)
      (show ((t - P).toNat : Int) - Dl < 2 ^ 31 by unfold GorillaDateTime at *; omega), hsum, ht,
      GorillaReaderMV.getNextValues_lanes hv hp hz hzv hfit, pure_apply]

theorem mapM_retrieveEntry_seriesCode (S : List MVEntry) (entry : MVEntry) {D : Nat}
    {P : GorillaDateTime} {Dl : Nat} {prev : List U64} {zs : List Zeros} (hDl : Dl ≤ 16384)
    (hp : prev.length = D) (hz : zs.length = D) (hzv : ∀ z ∈ zs, z.Valid)
    (hS : decodable D P Dl prev S) (done todo pad : List Bool) :
    ∃ r', (List.replicate S.length ()).mapM (fun _ => retrieveEntry)
        ⟨D, entry, ⟨P, prev⟩, Dl, zs,
          BitReader.over done (seriesCode P Dl prev zs S ++ todo) pad⟩ =
      .ok S r' := by
  induction S generalizing P Dl prev zs done with
  | nil => exact ⟨_, rfl⟩
  | cons e S ih =>
      simp only [decodable, Bool.and_eq_true, decide_eq_true_eq] at hS
      obtain ⟨⟨⟨⟨⟨h0, h1⟩, hstall⟩, hv⟩, hfit⟩, hS⟩ := hS
      have hlen : (lanesWindow e.values prev zs).length = D :=
        (length_lanesWindow (hp.trans hv.symm) (hz.trans hv.symm)).trans hv
      obtain ⟨r', hr'⟩ :=
        ih (show (e.time - P).toNat ≤ 16384 by unfold GorillaDateTime at *; omega) hv hlen
          (lanesWindow_valid hzv) hS
        (done ++ dodCode ((e.time - P).toNat - Dl) ++ lanesCode e.values prev zs)
      refine ⟨r', ?_⟩
      rw [seriesCode, List.append_assoc, List.append_assoc, List.length_cons, List.replicate_succ,
        List.mapM_cons, bind_apply,
        retrieveEntry_sampleCode h0 h1 hstall hDl hv hp hz hzv hfit]
      simp only [bind_apply, hr', pure_apply]

/-- `retrieve_values` reads back every series `compress_values` writes that is decodable: the
same timestamps and, in every dimension, the same 64 bits. -/
theorem compressValues_retrieveValues_of_decodable (S : List MVEntry) (h : Int) (D : Nat)
    (hh : -2 ^ 63 ≤ h ∧ h < 2 ^ 63) (hS : decodable D h 0 (List.replicate D 0) S) :
    (compressValues S h D).bind (retrieveValues · D S.length) = some S := by
  have hzv : ∀ z ∈ List.replicate D Zeros.initial, z.Valid := fun z hz => by
    rw [List.eq_of_mem_replicate hz]; exact Zeros.valid_initial
  obtain ⟨w', hw', -, hb⟩ := forM_appendEntry_seriesCode S h (List.length_replicate D 0)
    (List.length_replicate D _) hzv hS (headerBody h)
  obtain ⟨r', hr'⟩ := mapM_retrieveEntry_seriesCode S ⟨h, List.replicate D 0⟩ (Nat.zero_le _)
    (List.length_replicate D 0) (List.length_replicate D _) hzv hS
    (bitsLE 64 (BitVec.ofInt 64 h).toNat) [] (bitsLE (BitWriter.fillBits w'.body.n) 0)
  simp only [List.append_nil, Nat.cast_zero, hb, headerBody_eq, BitWriter.push_push] at hr'
  have hc : compressValues S h D = some w'.close := by
    simp only [compressValues, GorillaWriterMV.withVec, forM_unwrap_of_ok hw']
  simp only [hc, Option.some_bind, retrieveValues, GorillaReaderMV.fromBlock,
    GorillaWriterMV.close, BitReader.new_close, hb, headerBody_eq, BitWriter.push_push,
    BitWriter.new_push_bits, readHeader_over, ofNat_toNat_mod,
    toInt_ofInt_64 hh.1 hh.2, List.nil_append, hr']

theorem compressValues_retrieveValues_two_lanes :
    (compressValues [⟨10, [0x3FF0000000000000, 0x4000000000000000]⟩,
        ⟨30, [0x3FF8000000000000, 0x4000000000000000]⟩,
        ⟨40, [0x3FF8000000000000, 0x4008000000000000]⟩] 0 2).bind (retrieveValues · 2 3) =
      some [⟨10, [0x3FF0000000000000, 0x4000000000000000]⟩,
        ⟨30, [0x3FF8000000000000, 0x4000000000000000]⟩,
        ⟨40, [0x3FF8000000000000, 0x4008000000000000]⟩] :=
  compressValues_retrieveValues_of_decodable _ 0 2 (by decide) (by decide)

/-! ## Sample by sample

The reader tests write the first sample with `append_first`, its delta in 14 bits and its values
raw, and read it back with `from_writer` and `next`; the later samples go through `append_entry`
and `get_next_entry`, which is a sample of `retrieve_values` stored in `entry`. -/

def valuesCode (values : List U64) : List Bool := values.flatMap fun v => bitsLE 64 v.toNat

namespace GorillaWriterMV

theorem forM_writeValue (V₀ V : List U64) (w : GorillaWriterMV) :
    ((List.range' V₀.length V.length).forM fun i =>
        match (V₀ ++ V)[i]? with
        | some v => onBody (BitWriter.write 64 v)
        | none => throwPanic : EStateM (Fault Error) GorillaWriterMV PUnit) w =
      .ok () { w with body := w.body.push (valuesCode V) } := by
  induction V generalizing V₀ w with
  | nil => simp [valuesCode, BitWriter.push_nil]
  | cons v V ih =>
      have hrest := ih (V₀ ++ [v]) { w with body := w.body.push (bitsLE 64 v.toNat) }
      simp only [List.length_append, List.length_singleton, List.append_assoc,
        List.singleton_append, onBody, BitWriter.push_push] at hrest
      rw [List.length_cons, List.range'_succ, List.forM_cons', bind_apply]
      simp only [List.getElem?_append_right (le_refl _), Nat.sub_self, List.getElem?_cons_zero,
        onBody, zoom_apply, BitWriter.write_push (le_refl 64), hrest, valuesCode,
        List.flatMap_cons]

theorem appendFirst_values {e : MVEntry} {D : Nat} {header prevTs : GorillaDateTime}
    {prevDelta : Nat} {prev : List U64} {zs : List Zeros} {body : BitWriter}
    (hv : e.values.length = D) {δ : Nat} (hd : Gorilla.validateTimestamp prevTs e.time = .ok δ) :
    appendFirst e ⟨D, header, prevTs, prevDelta, prev, zs, body⟩ =
      .ok () ⟨D, header, e.time, δ, e.values, zs,
        body.push (bitsLE 14 (BitVec.ofNat 64 δ).toNat ++ valuesCode e.values)⟩ := by
  subst hv
  simp only [appendFirst, bind_apply, get_apply, validateTimestamp, hd, liftExcept, onBody,
    zoom_apply, BitWriter.write_push (show 14 ≤ 64 by decide), List.range_eq_range']
  have h := forM_writeValue [] e.values
  simp only [List.nil_append, List.length_nil, onBody] at h
  -- `h` is stated with its own `match`, `append_first`'s loop has another
  erw [h]
  simp only [modify_apply, BitWriter.push_push]

end GorillaWriterMV

theorem GorillaReaderMV.readValues_over (V : List U64) (done todo pad : List Bool) :
    GorillaReaderMV.readValues V.length (BitReader.over done (valuesCode V ++ todo) pad) =
      .ok V (BitReader.over (done ++ valuesCode V) todo pad) := by
  induction V generalizing done with
  | nil => simp [valuesCode, GorillaReaderMV.readValues]
  | cons v V ih =>
      simp only [valuesCode] at ih ⊢
      simp only [List.length_cons, GorillaReaderMV.readValues, bind_apply, unwrap_apply,
        List.flatMap_cons, List.append_assoc, BitReader.read_bitsLE_over (le_refl 64),
        ofNat_toNat_mod, ih, pure_apply]

theorem GorillaReaderMV.fromWriter_first {w : GorillaWriterMV} {h t : Int}
    (hh : -2 ^ 63 ≤ h ∧ h < 2 ^ 63) (h0 : h ≤ t) (h1 : t - h < 16384) {V : List U64}
    {rest : List Bool} (hD : w.dim = V.length)
    (hb : w.body = (headerBody h).push
      (bitsLE 14 (BitVec.ofNat 64 (t - h).toNat).toNat ++ valuesCode V ++ rest)) :
    ∃ done pad, GorillaReaderMV.fromWriter w =
      .ok ⟨V.length, ⟨t, V⟩, ⟨h, List.replicate V.length 0⟩, 0, List.replicate V.length .initial,
        BitReader.over done rest pad⟩ := by
  have ht : h + (BitVec.ofNat 64 ((BitVec.ofNat 64 (t - h).toNat).toNat % 2 ^ 14)).toInt = t := by
    rw [firstDelta_readBack (by omega), Nat.mod_eq_of_lt (by omega)]
    omega
  rw [← hD]
  exact ⟨_, _, GorillaReaderMV.fromWriter_ok (by
    rw [hb, hD]
    simp only [headerBody_eq, BitWriter.push_push, BitWriter.new_push_bits, bind_apply,
      List.append_assoc, readHeader_over, ofNat_toNat_mod, toInt_ofInt_64 hh.1 hh.2,
      readFirstTime_over, ht, GorillaReaderMV.readValues_over, pure_apply]
    rfl)⟩

namespace GorillaReaderMV

section Entry

variable (x : MVEntry)

theorem nextLane_entry (values : List U64) (i : Nat) (r : GorillaReaderMV) :
    nextLane values i { r with entry := x } =
      mapState (fun r => { r with entry := x }) (nextLane values i r) := by
  obtain ⟨dim, entry, prev, d, zs, b⟩ := r
  simp only [nextLane]
  cases prev.values[i]? with
  | none => rfl
  | some p =>
      cases zs[i]? with
      | none => rfl
      | some z => dsimp only; cases nextXor p z b <;> rfl

theorem nextLanes_entry (is : List Nat) (values : List U64) (r : GorillaReaderMV) :
    nextLanes is values { r with entry := x } =
      mapState (fun r => { r with entry := x }) (nextLanes is values r) := by
  induction is generalizing values r with
  | nil => rfl
  | cons i is ih => exact bind_mapState (nextLane_entry x values i) (fun vs => ih vs) r

theorem getNextTime_entry (r : GorillaReaderMV) :
    getNextTime { r with entry := x } =
      mapState (fun r => { r with entry := x }) (getNextTime r) := by
  simp only [getNextTime, bind_apply, get_apply, onReader, zoom_apply]
  cases nextTime r.prevEntry.time r.prevDiff r.reader <;> rfl

theorem getNextValues_entry (r : GorillaReaderMV) :
    getNextValues { r with entry := x } =
      mapState (fun r => { r with entry := x }) (getNextValues r) :=
  nextLanes_entry x _ _ r

theorem retrieveEntry_entry (r : GorillaReaderMV) :
    retrieveEntry { r with entry := x } =
      mapState (fun r => { r with entry := x }) (retrieveEntry r) :=
  bind_mapState (getNextTime_entry x) (fun _ =>
    bind_mapState (getNextValues_entry x) (fun _ _ => rfl)) r

theorem mapM_retrieveEntry_entry (n : Nat) (r : GorillaReaderMV) :
    (List.replicate n ()).mapM (fun _ => retrieveEntry) { r with entry := x } =
      mapState (fun r => { r with entry := x })
        ((List.replicate n ()).mapM (fun _ => retrieveEntry) r) := by
  induction n generalizing r with
  | zero => rfl
  | succ n ih =>
      rw [List.replicate_succ, List.mapM_cons]
      exact bind_mapState (retrieveEntry_entry x) (fun e =>
        bind_mapState ih (fun _ _ => rfl)) r

end Entry

theorem getNextEntry_of_retrieveEntry {r r' : GorillaReaderMV} {e : MVEntry}
    (h : retrieveEntry r = .ok e r') : getNextEntry r = .ok e { r' with entry := e } := by
  obtain ⟨t, r₁, ht, h⟩ := ok_of_bind_eq_ok h
  obtain ⟨vs, r₂, hvs, h⟩ := ok_of_bind_eq_ok h
  cases h
  simp only [getNextEntry, bind_apply, ht, hvs, modify_apply, pure_apply]

theorem mapM_getNextEntry_of_ok {n : Nat} {r r' : GorillaReaderMV} {es : List MVEntry}
    (h : (List.replicate n ()).mapM (fun _ => retrieveEntry) r = .ok es r') :
    ∃ x, (List.replicate n ()).mapM (fun _ => getNextEntry) r = .ok es { r' with entry := x } := by
  induction n generalizing r r' es with
  | zero => cases h; exact ⟨_, rfl⟩
  | succ n ih =>
      rw [List.replicate_succ, List.mapM_cons] at h ⊢
      obtain ⟨e, r₁, h₁, h⟩ := ok_of_bind_eq_ok h
      obtain ⟨es', r₂, h₂, h⟩ := ok_of_bind_eq_ok h
      cases h
      have h₂' := mapM_retrieveEntry_entry e n r₁
      rw [h₂, mapState] at h₂'
      obtain ⟨x, hx⟩ := ih h₂'
      exact ⟨x, by simp only [bind_apply, getNextEntry_of_retrieveEntry h₁, hx, pure_apply]⟩

end GorillaReaderMV

theorem writeAll_next_of_decodable (h : Int) (hh : -2 ^ 63 ≤ h ∧ h < 2 ^ 63) (t : Int)
    (V : List U64) (rest : List MVEntry) (h0 : h ≤ t ∧ t - h < 16384)
    (hS : decodable V.length t (t - h).toNat V rest) :
    ∃ w r r₁ r', GorillaWriterMV.writeAll h V.length ⟨t, V⟩ rest = .ok w ∧
      GorillaReaderMV.fromWriter w = .ok r ∧ GorillaReaderMV.next r = .ok ⟨t, V⟩ r₁ ∧
      (List.replicate rest.length ()).mapM (fun _ => retrieveEntry) r₁ = .ok rest r' := by
  have hzv : ∀ z ∈ List.replicate V.length Zeros.initial, z.Valid := fun z hz => by
    rw [List.eq_of_mem_replicate hz]; exact Zeros.valid_initial
  obtain ⟨w', hw', hD, hb⟩ := forM_appendEntry_seriesCode rest h rfl (List.length_replicate _ _)
    hzv hS ((headerBody h).push (bitsLE 14 (BitVec.ofNat 64 (t - h).toNat).toNat ++ valuesCode V))
  rw [BitWriter.push_push] at hb
  obtain ⟨done, pad, hr⟩ := GorillaReaderMV.fromWriter_first hh h0.1 h0.2 hD hb
  obtain ⟨r', hr'⟩ := mapM_retrieveEntry_seriesCode rest ⟨t, V⟩
    (show (t - h).toNat ≤ 16384 by omega) rfl (List.length_replicate _ _) hzv hS done [] pad
  rw [List.append_nil, Int.toNat_of_nonneg (show 0 ≤ t - h by omega)] at hr'
  refine ⟨w', _, _, r', ?_, hr, rfl, hr'⟩
  simp only [GorillaWriterMV.writeAll, GorillaWriterMV.withVec, bind_apply,
    GorillaWriterMV.appendFirst_values (e := ⟨t, V⟩) rfl
      (validateTimestamp_ok h0.1 (show t - h ≤ 16384 by omega)), hw']

/-- The reader tests' use of the codec, `append_first` and `append_entry`s, then `from_writer`,
`next` and `get_next_entry`s, gives back every series whose first sample is less than `16384`
seconds after the header and whose later samples are decodable. -/
theorem writeAll_readAll_of_decodable (h : Int) (hh : -2 ^ 63 ≤ h ∧ h < 2 ^ 63) (D : Nat)
    (first : MVEntry) (rest : List MVEntry) (h0 : h ≤ first.time ∧ first.time - h < 16384)
    (hv : first.values.length = D)
    (hS : decodable D first.time (first.time - h).toNat first.values rest) :
    (GorillaWriterMV.writeAll h D first rest).bind (GorillaReaderMV.readAll · rest.length) =
      .ok (first :: rest) := by
  obtain ⟨t, V⟩ := first
  subst hv
  obtain ⟨w, r, r₁, r', hw, hr, hn, hm⟩ := writeAll_next_of_decodable h hh t V rest h0 hS
  obtain ⟨x, hx⟩ := GorillaReaderMV.mapM_getNextEntry_of_ok hm
  simp only [hw, Except.bind, GorillaReaderMV.readAll, hr, bind, EStateM.bind, hn, hx, pure_apply]

theorem writeAll_readAll_two_lanes :
    (GorillaWriterMV.writeAll 0 2 ⟨10, [0x3FF0000000000000, 0x4000000000000000]⟩
        [⟨30, [0x3FF8000000000000, 0x4000000000000000]⟩,
          ⟨40, [0x3FF8000000000000, 0x4008000000000000]⟩]).bind (GorillaReaderMV.readAll · 2) =
      .ok [⟨10, [0x3FF0000000000000, 0x4000000000000000]⟩,
        ⟨30, [0x3FF8000000000000, 0x4000000000000000]⟩,
        ⟨40, [0x3FF8000000000000, 0x4008000000000000]⟩] :=
  writeAll_readAll_of_decodable 0 (by decide) 2 _ _ (by decide) rfl (by decide)

end RustyDb.Gorilla
