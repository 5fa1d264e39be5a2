import Mathlib.Data.List.Basic
import RustyDb.Gorilla.RoundTrip

/-!
# The scalar codec is the vector codec at dimension one

`GorillaWriter` and `GorillaReader` duplicate the code of `GorillaWriterMV` and
`GorillaReaderMV` for a single value.  `toMV` sends a scalar structure to the vector
structure of dimension one with the same fields, its lists being singletons.  Each
method call commutes with `toMV`: on `s.toMV` the vector method returns what the
scalar method returns on `s`, in the state `toMV` of the scalar's
(`WriterCall.runVector_toMV`, `ReaderCall.runVector_toMV`).  So does any sequence of
calls (`runCalls_map`), and a writer closes to the same block as its `toMV`.

A run goes on after a call returns `Err`, as a caller that handles the error does,
and stops at a panic.

Through `toMV` the round trip of the vector codec carries over to the scalar one: the
reader tests' sample by sample use of `GorillaWriter` and `GorillaReader` gives back every
series that is decodable at dimension one.
-/

namespace RustyDb.Gorilla

/-! ## Writers -/

inductive WriterCall where
  | appendFirst (time : GorillaDateTime) (value : U64)
  | appendEntry (time : GorillaDateTime) (value : U64)
  | appendTime (time : GorillaDateTime)
  | appendValue (value : U64)

def WriterCall.runScalar : WriterCall → EStateM (Fault Error) GorillaWriter Unit
  | .appendFirst t v => GorillaWriter.appendFirst ⟨t, v⟩
  | .appendEntry t v => GorillaWriter.appendEntry ⟨t, v⟩
  | .appendTime t => GorillaWriter.appendTime t
  | .appendValue v => GorillaWriter.appendValue v

def WriterCall.runVector : WriterCall → EStateM (Fault Error) GorillaWriterMV Unit
  | .appendFirst t v => GorillaWriterMV.appendFirst ⟨t, [v]⟩
  | .appendEntry t v => GorillaWriterMV.appendEntry ⟨t, [v]⟩
  | .appendTime t => GorillaWriterMV.appendTime t
  | .appendValue v => GorillaWriterMV.appendValues [v]

def GorillaWriter.toMV (w : GorillaWriter) : GorillaWriterMV :=
  ⟨1, w.header, w.prevTs, w.prevDelta, [w.prevValue], [w.prevZeros], w.body⟩

namespace GorillaWriter

theorem withVec_toMV (header : GorillaDateTime) :
    (withVec header).toMV = GorillaWriterMV.withVec header 1 :=
  rfl

theorem close_toMV (w : GorillaWriter) : w.toMV.close = w.close := rfl

variable (w : GorillaWriter)

theorem onBody_toMV {α : Type} (x : EStateM (Fault Error) BitWriter α) :
    GorillaWriterMV.onBody x w.toMV = mapState toMV (onBody x w) := by
  simp only [GorillaWriterMV.onBody, onBody, zoom_apply, toMV]
  cases x w.body <;> rfl

theorem appendTime_toMV (t : GorillaDateTime) :
    GorillaWriterMV.appendTime t w.toMV = mapState toMV (appendTime t w) := by
  simp only [GorillaWriterMV.appendTime, appendTime, bind_apply, get_apply,
    GorillaWriterMV.validateTimestamp, validateTimestamp, liftExcept, toMV]
  cases Gorilla.validateTimestamp w.prevTs t with
  | error e => rfl
  | ok d => exact onBody_toMV { w with prevDelta := d, prevTs := t } _

theorem appendValue_toMV (v : U64) :
    GorillaWriterMV.appendValues [v] w.toMV = mapState toMV (appendValue v w) := by
  simp only [GorillaWriterMV.appendValues, appendValue, bind_apply, get_apply,
    GorillaWriterMV.validateValues, liftExcept, toMV, List.length_singleton, ne_eq,
    not_true_eq_false, ↓reduceIte, onBody, zoom_apply]
  show (GorillaWriterMV.appendLane [v] 0 >>= fun _ => pure ()) _ = _
  simp only [bind_apply, GorillaWriterMV.appendLane, List.getElem?_cons_zero]
  cases appendXor v w.prevValue w.prevZeros w.body <;> rfl

theorem appendFirst_toMV (t : GorillaDateTime) (v : U64) :
    GorillaWriterMV.appendFirst ⟨t, [v]⟩ w.toMV = mapState toMV (appendFirst ⟨t, v⟩ w) := by
  simp only [GorillaWriterMV.appendFirst, appendFirst, bind_apply, get_apply,
    GorillaWriterMV.validateTimestamp, validateTimestamp, liftExcept, toMV]
  cases Gorilla.validateTimestamp w.prevTs t with
  | error e => rfl
  | ok d =>
      simp only [GorillaWriterMV.onBody, onBody, zoom_apply, toMV,
        BitWriter.write_push (show 14 ≤ 64 by decide), BitWriter.write_push (le_refl 64),
        List.range, List.range.loop, List.forM, bind_apply, List.getElem?_cons_zero, modify_apply,
        pure_apply]
      rfl

theorem appendEntry_toMV (t : GorillaDateTime) (v : U64) :
    GorillaWriterMV.appendEntry ⟨t, [v]⟩ w.toMV = mapState toMV (appendEntry ⟨t, v⟩ w) := by
  have hv : w.toMV.validateValues [v] = .ok () := rfl
  simp only [GorillaWriterMV.appendEntry, appendEntry, bind_apply, get_apply, hv, liftExcept,
    appendTime_toMV]
  cases appendTime t w with
  | error e s => rfl
  | ok a s => exact appendValue_toMV s v

end GorillaWriter

theorem WriterCall.runVector_toMV (c : WriterCall) (w : GorillaWriter) :
    c.runVector w.toMV = mapState GorillaWriter.toMV (c.runScalar w) := by
  cases c with
  | appendFirst t v => exact w.appendFirst_toMV t v
  | appendEntry t v => exact w.appendEntry_toMV t v
  | appendTime t => exact w.appendTime_toMV t
  | appendValue v => exact w.appendValue_toMV v

def Entry.toMV (e : Entry) : MVEntry := ⟨e.time, [e.value]⟩

theorem Entry.toMV_injective : Function.Injective Entry.toMV := by
  intro ⟨t, v⟩ ⟨t', v'⟩ h
  simp only [Entry.toMV, MVEntry.mk.injEq, List.cons.injEq, and_true] at h
  rw [h.1, h.2]

theorem forM_appendEntry_toMV (es : List Entry) (w : GorillaWriter) :
    (es.map Entry.toMV).forM GorillaWriterMV.appendEntry w.toMV =
      mapState GorillaWriter.toMV (es.forM GorillaWriter.appendEntry w) := by
  induction es generalizing w with
  | nil => rfl
  | cons e es ih =>
      rw [List.map_cons, List.forM_cons', List.forM_cons']
      exact bind_mapState (fun w => w.appendEntry_toMV e.time e.value) (fun _ => ih) w

theorem writeAll_toMV (h : GorillaDateTime) (first : Entry) (rest : List Entry) :
    (GorillaWriter.writeAll h first rest).map GorillaWriter.toMV =
      GorillaWriterMV.writeAll h 1 first.toMV (rest.map Entry.toMV) := by
  have hrun := bind_mapState (fun w => GorillaWriter.appendFirst_toMV w first.time first.value)
    (fun _ => forM_appendEntry_toMV rest) (GorillaWriter.withVec h)
  simp only [GorillaWriterMV.writeAll, GorillaWriter.writeAll, ← GorillaWriter.withVec_toMV]
  erw [hrun]
  cases (do GorillaWriter.appendFirst first; rest.forM GorillaWriter.appendEntry :
    EStateM (Fault Error) GorillaWriter Unit) (GorillaWriter.withVec h) <;> rfl

/-! ## Readers -/

inductive ReaderCall where
  | next
  | getNextTime
  | getNextValue

inductive ReaderOut where
  | entry (time : GorillaDateTime) (values : List U64)
  | time (time : GorillaDateTime)
  | values (values : List U64)
  deriving DecidableEq, Repr

def ReaderCall.runScalar : ReaderCall → EStateM (Fault Error) GorillaReader ReaderOut
  | .next => do let e ← GorillaReader.next; pure (.entry e.time [e.value])
  | .getNextTime => do pure (.time (← GorillaReader.getNextTime))
  | .getNextValue => do pure (.values [← GorillaReader.getNextValue])

def ReaderCall.runVector : ReaderCall → EStateM (Fault Error) GorillaReaderMV ReaderOut
  | .next => do let e ← GorillaReaderMV.next; pure (.entry e.time e.values)
  | .getNextTime => do pure (.time (← GorillaReaderMV.getNextTime))
  | .getNextValue => do pure (.values (← GorillaReaderMV.getNextValues))

def GorillaReader.toMV (r : GorillaReader) : GorillaReaderMV :=
  ⟨1, ⟨r.entry.time, [r.entry.value]⟩, ⟨r.prevEntry.time, [r.prevEntry.value]⟩, r.prevDiff,
    [r.prevZeros],
    r.reader⟩

theorem getNextTime_toMV (r : GorillaReader) :
    GorillaReaderMV.getNextTime r.toMV =
      mapState GorillaReader.toMV (GorillaReader.getNextTime r) := by
  simp only [GorillaReader.getNextTime, GorillaReaderMV.getNextTime, bind_apply, get_apply,
    GorillaReader.onReader, GorillaReaderMV.onReader, zoom_apply, GorillaReader.toMV]
  cases nextTime r.prevEntry.time r.prevDiff r.reader <;> rfl

theorem getNextValues_toMV (r : GorillaReader) :
    GorillaReaderMV.getNextValues r.toMV =
      match GorillaReader.getNextValue r with
      | .ok v r' => .ok [v] r'.toMV
      | .error e r' => .error e r'.toMV := by
  simp only [GorillaReader.getNextValue, GorillaReaderMV.getNextValues, bind_apply, get_apply,
    GorillaReader.onReader, zoom_apply]
  show (GorillaReaderMV.nextLane [0] 0 >>= fun vs => GorillaReaderMV.nextLanes [] vs) _ = _
  simp only [bind_apply, GorillaReaderMV.nextLane, GorillaReader.toMV, List.getElem?_cons_zero]
  cases nextXor r.prevEntry.value r.prevZeros r.reader <;> rfl

theorem ReaderCall.runVector_toMV (c : ReaderCall) (r : GorillaReader) :
    c.runVector r.toMV = mapState GorillaReader.toMV (c.runScalar r) := by
  cases c with
  | next => rfl
  | getNextTime =>
      simp only [runScalar, runVector, bind_apply, getNextTime_toMV]
      cases GorillaReader.getNextTime r <;> rfl
  | getNextValue =>
      simp only [runScalar, runVector, bind_apply, getNextValues_toMV]
      cases GorillaReader.getNextValue r <;> rfl

theorem fromWriter_toMV (w : GorillaWriter) :
    GorillaReaderMV.fromWriter w.toMV = (GorillaReader.fromWriter w).map GorillaReader.toMV := by
  simp only [GorillaReaderMV.fromWriter, GorillaReader.fromWriter, GorillaWriter.close_toMV,
    GorillaReaderMV.readValues, bind_apply, pure_apply]
  cases readHeader (BitReader.new w.close.data) with
  | error e b => rfl
  | ok h b =>
      simp only []
      cases readFirstTime h b with
      | error e b' => rfl
      | ok t b' =>
          simp only []
          cases unwrap (BitReader.read 64) b' <;> rfl

theorem retrieveEntry_toMV (r : GorillaReader) :
    retrieveEntry r.toMV =
      match (do
          let time ← GorillaReader.getNextTime
          let value ← GorillaReader.getNextValue
          pure { time, value : Entry }) r with
      | .ok e r' => .ok e.toMV r'.toMV
      | .error e r' => .error e r'.toMV := by
  simp only [retrieveEntry, bind_apply, getNextTime_toMV]
  cases GorillaReader.getNextTime r with
  | ok t r₁ =>
      simp only [mapState, getNextValues_toMV]
      cases GorillaReader.getNextValue r₁ <;> rfl
  | error e r₁ => rfl

theorem mapM_retrieveEntry_toMV {n : Nat} {r : GorillaReader} {es : List MVEntry}
    {r'' : GorillaReaderMV}
    (h : (List.replicate n ()).mapM (fun _ => retrieveEntry) r.toMV = .ok es r'') :
    ∃ es₁ r₁, ((List.replicate n ()).mapM fun _ => do
          let time ← GorillaReader.getNextTime
          let value ← GorillaReader.getNextValue
          pure { time, value : Entry } :
        EStateM (Fault Error) GorillaReader (List Entry)) r = .ok es₁ r₁ ∧
      es = es₁.map Entry.toMV ∧ r'' = r₁.toMV := by
  induction n generalizing r es r'' with
  | zero => cases h; exact ⟨[], r, rfl, rfl, rfl⟩
  | succ n ih =>
      rw [List.replicate_succ, List.mapM_cons] at h ⊢
      obtain ⟨e, s₁, h₁, h⟩ := ok_of_bind_eq_ok h
      obtain ⟨es', s₂, h₂, h⟩ := ok_of_bind_eq_ok h
      cases h
      rw [retrieveEntry_toMV] at h₁
      split at h₁
      · rename_i e₁ r₁ hs
        cases h₁
        obtain ⟨es₁, r₂, hl, rfl, rfl⟩ := ih h₂
        refine ⟨e₁ :: es₁, r₂, ?_, rfl, rfl⟩
        rw [bind_apply, hs]
        simp only [bind_apply, hl, pure_apply]
      · cases h₁

/-- The same writer calls on `GorillaWriter::with_vec(h)` and `GorillaWriterMV::with_vec(h, 1)`
return the same results and close to the same block, and the same reader calls on the
readers `from_writer` builds from them return the same times and values. -/
theorem scalar_vector_agree (header : GorillaDateTime) (ws : List WriterCall)
    (rs : List ReaderCall) :
    let scalar := runCalls WriterCall.runScalar ws (GorillaWriter.withVec header)
    let vector := runCalls WriterCall.runVector ws (GorillaWriterMV.withVec header 1)
    scalar.1 = vector.1 ∧ scalar.2.close = vector.2.close ∧
      (GorillaReader.fromWriter scalar.2).map (fun r => (runCalls ReaderCall.runScalar rs r).1) =
        (GorillaReaderMV.fromWriter vector.2).map
            (fun r => (runCalls ReaderCall.runVector rs r).1) := by
  simp only [← GorillaWriter.withVec_toMV, runCalls_map WriterCall.runVector_toMV, fromWriter_toMV,
    GorillaWriter.close_toMV, true_and]
  cases GorillaReader.fromWriter
      (runCalls WriterCall.runScalar ws (GorillaWriter.withVec header)).2 with
  | error e => rfl
  | ok r => simp only [Except.map, runCalls_map ReaderCall.runVector_toMV]

/-! ## The scalar round trip -/

theorem Except.exists_of_map_eq_ok {α β ε : Type} {f : α → β} {x : Except ε α} {b : β}
    (h : x.map f = .ok b) : ∃ a, x = .ok a ∧ f a = b := by
  cases x with
  | error e => cases h
  | ok a => exact ⟨a, rfl, Except.ok.inj h⟩

/-- The scalar codec, `GorillaWriter` and `GorillaReader`, gives back every series whose first
sample is less than `16384` seconds after the header and whose later samples are decodable as a
series of dimension one. -/
theorem scalar_writeAll_readAll_of_decodable (h : Int) (hh : -2 ^ 63 ≤ h ∧ h < 2 ^ 63)
    (first : Entry) (rest : List Entry) (h0 : h ≤ first.time ∧ first.time - h < 16384)
    (hS : decodable 1 first.time (first.time - h).toNat [first.value] (rest.map Entry.toMV)) :
    (GorillaWriter.writeAll h first rest).bind (GorillaReader.readAll · rest.length) =
      .ok (first :: rest) := by
  obtain ⟨t, v⟩ := first
  obtain ⟨w, r, r₁, r', hw, hr, hn, hm⟩ :=
    writeAll_next_of_decodable h hh t [v] (rest.map Entry.toMV) h0 hS
  -- the scalar writer and reader are the ones whose `toMV` the vector round trip runs on
  obtain ⟨ws, hsw, rfl⟩ := Except.exists_of_map_eq_ok ((writeAll_toMV h ⟨t, v⟩ rest).trans hw)
  obtain ⟨rs, hrs, rfl⟩ := Except.exists_of_map_eq_ok ((fromWriter_toMV ws).symm.trans hr)
  obtain ⟨he, rfl⟩ := EStateM.Result.ok.inj hn
  have hfirst : rs.entry = ⟨t, v⟩ := Entry.toMV_injective (show rs.entry.toMV = _ from he)
  obtain ⟨es, r₂, hl, hes, -⟩ := mapM_retrieveEntry_toMV
    (r := { rs with prevDiff := rs.entry.time - rs.prevEntry.time, prevEntry := rs.entry }) hm
  obtain rfl := List.map_injective_iff.mpr Entry.toMV_injective hes.symm
  simp only [List.length_map, hfirst, bind] at hl
  simp only [hsw, Except.bind, GorillaReader.readAll, hrs, bind, EStateM.bind, GorillaReader.next,
    hfirst, hl, pure_apply]

theorem scalar_writeAll_readAll_three_samples :
    (GorillaWriter.writeAll 0 ⟨10, 0x3FF0000000000000⟩
        [⟨30, 0x3FF8000000000000⟩, ⟨40, 0x3FF8000000000000⟩]).bind (GorillaReader.readAll · 2) =
      .ok [⟨10, 0x3FF0000000000000⟩, ⟨30, 0x3FF8000000000000⟩, ⟨40, 0x3FF8000000000000⟩] :=
  scalar_writeAll_readAll_of_decodable 0 (by decide) _ _ (by decide) (by decide)

end RustyDb.Gorilla
