import RustyDb.Gorilla.Steps

/-!
# Block API

`compress_values` and `retrieve_values` of `gorilla/api.rs`, and the
sample-by-sample use of a writer and a reader that the reader tests make:
`append_first`, `append_entry`s, then `from_writer`, `next` and `get_next_entry`s.

`compress_values` writes every sample, the first included, with `append_entry`,
so the first timestamp is a delta of delta against a zero previous delta and the
first values XOR codes against zeros; `retrieve_values` mirrors this from
`from_block`.  Neither path uses the 14-bit first delta of `append_first`.
A panic (of `assert!` or of an `unwrap`) is `none`.
-/

namespace RustyDb.Gorilla

/-- `compress_values`: `assert!(writer.append_entry(..).is_ok())` for every sample. -/
def compressValues (mvEntries : List MVEntry) (header : GorillaDateTime) (dim : Nat) :
    Option GorillaBlock :=
  match mvEntries.forM (fun e => unwrap (GorillaWriterMV.appendEntry e))
      (GorillaWriterMV.withVec header dim) with
  | .ok _ w => some w.close
  | .error _ _ => none

def retrieveEntry : EStateM (Fault Error) GorillaReaderMV MVEntry := do
  let time ← GorillaReaderMV.getNextTime
  let values ← GorillaReaderMV.getNextValues
  pure { time, values }

def retrieveValues (block : GorillaBlock) (dim numEntries : Nat) : Option (List MVEntry) :=
  match GorillaReaderMV.fromBlock block dim with
  | .error _ => none
  | .ok reader =>
      match (List.replicate numEntries ()).mapM (fun _ => retrieveEntry) reader with
      | .ok entries _ => some entries
      | .error _ _ => none

/-! ## Evenly spaced samples

After the first, every sample of an evenly spaced series has a delta of delta of `0`, written
as the single bit `0`; on that bit `get_next_time` returns `prev_time + prev_diff` without
storing it in `prev_time`, so from the third sample on the reader repeats one time. -/

def stepSeries (t d : GorillaDateTime) : Nat → List MVEntry
  | 0 => []
  | k + 1 => ⟨t + d, [0]⟩ :: stepSeries (t + d) d k

theorem forM_appendEntry_stepSeries {H t d : Int} {z : Zeros} (hz : z.Valid) (hd0 : 0 ≤ d)
    (hd : d ≤ 16384)
    (k : Nat) (body : BitWriter) :
    (stepSeries t d k).forM (fun e => unwrap (GorillaWriterMV.appendEntry e))
      ⟨1, H, t, d.toNat, [0], [z], body⟩ =
      .ok () ⟨1, H, t + k * d, d.toNat, [0], [z], body.push (List.replicate (2 * k) false)⟩ := by
  induction k generalizing t body with
  | zero => simp [stepSeries, List.forM]
  | succ k ih =>
      have hs : t + d - t = d := by omega
      simp only [stepSeries, List.forM, bind_apply, unwrap_apply,
        GorillaWriterMV.appendEntry_mk hz (show t ≤ t + d by omega)
            (show t + d - t ≤ 16384 by omega),
        hs, sub_self, dodCode_zero, xorCode_self, xorWindow_self, ih, BitWriter.push_push]
      have ht : t + d + (k : Int) * d = t + ((k + 1 : Nat) : Int) * d := by
        rw [Nat.cast_succ, Int.add_mul, Int.one_mul]; omega
      simp only [ht, Nat.mul_succ, List.replicate_succ, List.singleton_append, List.cons_append,
        List.nil_append]

theorem retrieveEntry_dodCode {dod : Int} (h0 : dod ≠ 0) (hlo : -2 ^ 31 ≤ dod) (hhi : dod < 2 ^ 31)
    (e : MVEntry) (t : GorillaDateTime) (p : U64) (D : Int) (z : Zeros)
    (done todo pad : List Bool) :
    retrieveEntry ⟨1, e, ⟨t, [p]⟩, D, [z], BitReader.over done (dodCode dod ++ false :: todo) pad⟩ =
      .ok ⟨t + (dod + D), [p]⟩
        ⟨1, e, ⟨t + (dod + D), [p]⟩, dod + D, [z],
          BitReader.over (done ++ (dodCode dod ++ [false])) todo pad⟩ := by
  simp only [retrieveEntry, bind_apply, GorillaReaderMV.getNextTime_dodCode h0 hlo hhi,
    GorillaReaderMV.getNextValues_zero, pure_apply, List.append_assoc]

theorem mapM_retrieveEntry_zeros (e : MVEntry) (t : GorillaDateTime) (p : U64) (D : Int) (z : Zeros)
    (done todo pad : List Bool) (k : Nat) :
    (List.replicate k ()).mapM (fun _ => retrieveEntry)
        ⟨1, e, ⟨t, [p]⟩, D, [z], BitReader.over done (List.replicate (2 * k) false ++ todo) pad⟩ =
      .ok (List.replicate k ⟨t + D, [p]⟩)
        ⟨1, e, ⟨t, [p]⟩, D, [z],
          BitReader.over (done ++ List.replicate (2 * k) false) todo pad⟩ := by
  induction k generalizing done with
  | zero => simp only [Nat.mul_zero, List.replicate_zero, List.nil_append, List.append_nil]; rfl
  | succ k ih =>
      have hk : List.replicate (2 * (k + 1)) false ++ todo =
          false :: false :: (List.replicate (2 * k) false ++ todo) := by
        simp [Nat.mul_succ, List.replicate_succ]
      have hd : done ++ [false] ++ [false] ++ List.replicate (2 * k) false =
          done ++ List.replicate (2 * (k + 1)) false := by
        simp [Nat.mul_succ, List.replicate_succ]
      have hstep : ∀ rest,
          retrieveEntry ⟨1, e, ⟨t, [p]⟩, D, [z], BitReader.over done (false :: false :: rest) pad⟩ =
          .ok ⟨t + D, [p]⟩
              ⟨1, e, ⟨t, [p]⟩, D, [z], BitReader.over (done ++ [false] ++ [false]) rest pad⟩ := by
        intro rest
        simp only [retrieveEntry, bind_apply, GorillaReaderMV.getNextTime_zero,
          GorillaReaderMV.getNextValues_zero, pure_apply]
      simp only [hk, List.replicate_succ, List.mapM_cons, bind_apply, hstep, ih, pure_apply, hd]

/-- `n + 2` samples `d` seconds apart after the header, all of value `0`, come back as the
first time, then the second time `n + 1` times over. -/
theorem compressValues_retrieveValues_repeats_time (h d : Int) (hh : -2 ^ 63 ≤ h ∧ h < 2 ^ 63)
    (hd : 0 < d ∧ d ≤ 16384) (n : Nat) :
    (compressValues (stepSeries h d (n + 2)) h 1).bind (retrieveValues · 1 (n + 2)) =
      some (⟨h + d, [0]⟩ :: List.replicate (n + 1) ⟨h + 2 * d, [0]⟩) := by
  have hw :=
      forM_appendEntry_stepSeries (H := h) (t := h + d) Zeros.valid_initial hd.1.le hd.2 (n + 1)
  have hs : h + d - h = d := by omega
  have hdn : ((d.toNat : Nat) : Int) = d := Int.toNat_of_nonneg hd.1.le
  have h2d : h + d + d = h + 2 * d := by omega
  have hr := fun done pad =>
      mapM_retrieveEntry_zeros ⟨h, [0]⟩ (h + d) 0 d Zeros.initial done [] pad (n + 1)
  simp only [List.append_nil, h2d] at hr
  rw [show stepSeries h d (n + 2) = ⟨h + d, [0]⟩ :: stepSeries (h + d) d (n + 1) from rfl]
  simp only [compressValues, List.forM.eq_2, bind_apply, unwrap_apply, GorillaWriterMV.withVec,
    List.replicate_one,
    GorillaWriterMV.appendEntry_mk Zeros.valid_initial (show h ≤ h + d by omega)
        (show h + d - h ≤ 16384 by omega),
    hs, xorCode_self, xorWindow_self, Nat.cast_zero, Int.sub_zero, hdn, hw]
  simp only [Option.some_bind, retrieveValues, GorillaWriterMV.close, GorillaReaderMV.fromBlock,
    BitReader.new_close, headerBody_eq, BitWriter.push_push, BitWriter.new_push_bits,
    List.append_assoc, readHeader_over, ofNat_toNat_mod, toInt_ofInt_64 hh.1 hh.2,
    List.replicate_one, List.nil_append, List.singleton_append]
  rw [List.replicate_succ, List.mapM_cons]
  simp only [bind_apply,
    retrieveEntry_dodCode (show d ≠ 0 by omega) (show -2 ^ 31 ≤ d by omega)
        (show d < 2 ^ 31 by omega),
    Int.add_zero, List.append_assoc, List.singleton_append, hr, pure_apply]

theorem compressValues_retrieveValues_one_two_two :
    (compressValues (stepSeries 0 1 3) 0 1).bind (retrieveValues · 1 3) =
      some [⟨1, [0]⟩, ⟨2, [0]⟩, ⟨2, [0]⟩] :=
  compressValues_retrieveValues_repeats_time 0 1 (by omega) (by omega) 1

/-! ## Sample by sample -/

def GorillaWriterMV.writeAll (header : GorillaDateTime) (dim : Nat) (first : MVEntry)
    (rest : List MVEntry) : Except (Fault Error) GorillaWriterMV :=
  match (do GorillaWriterMV.appendFirst first; rest.forM GorillaWriterMV.appendEntry)
      (GorillaWriterMV.withVec header dim) with
  | .ok _ w => .ok w
  | .error e _ => .error e

def GorillaReaderMV.readAll (writer : GorillaWriterMV) (n : Nat) :
    Except (Fault Error) (List MVEntry) := do
  let reader ← GorillaReaderMV.fromWriter writer
  match (do
      let first ← GorillaReaderMV.next
      let rest ← (List.replicate n ()).mapM fun _ => GorillaReaderMV.getNextEntry
      pure (first :: rest)) reader with
  | .ok entries _ => .ok entries
  | .error e _ => .error e

def GorillaWriter.writeAll (header : GorillaDateTime) (first : Entry) (rest : List Entry) :
    Except (Fault Error) GorillaWriter :=
  match (do GorillaWriter.appendFirst first; rest.forM GorillaWriter.appendEntry)
      (GorillaWriter.withVec header) with
  | .ok _ w => .ok w
  | .error e _ => .error e

def GorillaReader.readAll (writer : GorillaWriter) (n : Nat) :
    Except (Fault Error) (List Entry) := do
  let reader ← GorillaReader.fromWriter writer
  match (do
      let first ← GorillaReader.next
      let rest ← (List.replicate n ()).mapM fun _ => do
        let time ← GorillaReader.getNextTime
        let value ← GorillaReader.getNextValue
        pure { time, value : Entry }
      pure (first :: rest)) reader with
  | .ok entries _ => .ok entries
  | .error e _ => .error e

theorem toInt_ofNat_64 {m : Nat} (hm : m < 2 ^ 63) : (BitVec.ofNat 64 m).toInt = m := by
  rw [BitVec.toInt_ofNat, Int.bmod_def]
  split <;> omega

theorem firstDelta_readBack {δ : Nat} (hδ : δ ≤ 16384) :
    (BitVec.ofNat 64 ((BitVec.ofNat 64 δ).toNat % 2 ^ 14)).toInt = ((δ % 16384 : Nat) : Int) := by
  rw [BitVec.toNat_ofNat, Nat.mod_eq_of_lt (show δ < 2 ^ 64 by omega)]
  exact toInt_ofNat_64 (by omega)

/-- A first sample `δ ≤ 16384` seconds after the header is accepted, but its delta is written
in 14 bits, so both codecs read it back `δ % 16384` seconds after the header. -/
theorem writeAll_readAll_wraps_first_delta (h : Int) (hh : -2 ^ 63 ≤ h ∧ h < 2 ^ 63) (δ : Nat)
    (hδ : δ ≤ 16384) (v : U64) :
    (GorillaWriterMV.writeAll h 1 ⟨h + δ, [v]⟩ []).bind (GorillaReaderMV.readAll · 0) =
        .ok [⟨h + (δ % 16384 : Nat), [v]⟩] ∧
      (GorillaWriter.writeAll h ⟨h + δ, v⟩ []).bind (GorillaReader.readAll · 0) =
        .ok [⟨h + (δ % 16384 : Nat), v⟩] := by
  have h0 : h ≤ h + δ := by omega
  have h1 : h + δ - h ≤ 16384 := by omega
  have hs : (h + δ - h).toNat = δ := by omega
  constructor
  · simp only [GorillaWriterMV.writeAll, GorillaWriterMV.withVec, headerBody_eq, bind_apply,
      List.replicate_one, GorillaWriterMV.appendFirst_mk h0 h1, List.forM, pure_apply,
      BitWriter.push_push, List.append_assoc, Except.bind, GorillaReaderMV.readAll,
      GorillaReaderMV.fromWriter_push, GorillaReaderMV.next, List.replicate_zero, List.mapM_nil,
      ofNat_toNat_mod, toInt_ofInt_64 hh.1 hh.2, hs, firstDelta_readBack hδ]
    rfl
  · simp only [GorillaWriter.writeAll, GorillaWriter.withVec, headerBody_eq, bind_apply,
      GorillaWriter.appendFirst_mk h0 h1, List.forM, pure_apply, BitWriter.push_push,
      List.append_assoc, Except.bind, GorillaReader.readAll, GorillaReader.fromWriter_push,
      GorillaReader.next, List.replicate_zero, List.mapM_nil, ofNat_toNat_mod,
      toInt_ofInt_64 hh.1 hh.2, hs, firstDelta_readBack hδ]
    rfl

theorem writeAll_readAll_first_delta_max :
    (GorillaWriterMV.writeAll 0 1 ⟨16384, [0]⟩ []).bind (GorillaReaderMV.readAll · 0) =
      .ok [⟨0, [0]⟩] ∧
      (GorillaWriter.writeAll 0 ⟨16384, 0⟩ []).bind (GorillaReader.readAll · 0) = .ok [⟨0, 0⟩] :=
  writeAll_readAll_wraps_first_delta 0 (by omega) 16384 le_rfl 0

end RustyDb.Gorilla
