import RustyDb.Gorilla.Simulation

/-!
# What every run of the writers keeps

Two facts about the writers over whole runs of calls, each from a lemma per method.

Every `Err` a writer method returns comes from a check made before the method
changes anything: `validate_values` and `validate_timestamp`.  What follows them only
panics when it fails, since `append_value` computes `nbits` as at most 64 and
`write` refuses only wider writes.  So a call that returns `Err` leaves the writer as
it found it, in every state.

Every predictor window the writers hold is valid (`Zeros.Valid`): the initial one is,
and `append_value` moves to a valid window from a valid one.  Under a valid window
`append_value` returns, with its code: neither `u8` subtraction of `nbits` underflows,
the shift of `xored` is below 64, and `write` accepts `nbits`.
-/

namespace RustyDb.Gorilla

/-! ## Errors come from the checks -/

theorem noError_u8Sub_bind {σ β : Type} {a b : Nat} {k : Nat → EStateM (Fault Error) σ β}
    (hk : ∀ c ≤ a, NoError (k c)) : NoError (u8Sub a b >>= k) := by
  unfold u8Sub
  split
  · rw [pure_bind]; exact hk _ (Nat.sub_le a b)
  · rintro _ _ _ ⟨⟩

theorem noError_shr {σ : Type} (x : U64) (s : Nat) : NoError (shr x s : EStateM _ σ U64) := by
  unfold shr
  split
  exacts [noError_pure _, noError_throwPanic]

theorem appendXor_noError (value prev : U64) (z : Zeros) : NoError (appendXor value prev z) := by
  unfold appendXor
  refine noError_u8Sub_bind fun c hc => noError_u8Sub_bind fun nbits hn =>
    noError_bind (noError_shr _ _) fun toWrite => ?_
  intro w e w'
  split_ifs <;> simp only [bind_apply, BitWriter.writeBit_push, pure_apply, ne_eq, reduceCtorEq,
    BitWriter.write_push (show nbits ≤ 64 by omega), BitWriter.write_push (show 5 ≤ 64 by decide),
    BitWriter.write_push (show 6 ≤ 64 by decide), not_false_eq_true]

theorem appendDod_noError (dod : Int) : NoError (appendDod dod) := by
  intro w e w'
  rw [appendDod_push]
  rintro ⟨⟩

theorem write_noError {k : Nat} (hk : k ≤ 64) (v : U64) : NoError (BitWriter.write k v) := by
  intro w e w'
  rw [BitWriter.write_push hk]
  rintro ⟨⟩

inductive MVWriterCall where
  | appendFirst (entry : MVEntry)
  | appendEntry (entry : MVEntry)
  | appendTime (time : GorillaDateTime)
  | appendValues (values : List U64)

def MVWriterCall.run : MVWriterCall → EStateM (Fault Error) GorillaWriterMV Unit
  | .appendFirst e => GorillaWriterMV.appendFirst e
  | .appendEntry e => GorillaWriterMV.appendEntry e
  | .appendTime t => GorillaWriterMV.appendTime t
  | .appendValues vs => GorillaWriterMV.appendValues vs

namespace GorillaWriterMV

theorem appendLane_noError (values : List U64) (i : Nat) : NoError (appendLane values i) := by
  intro w e w'
  unfold appendLane
  split
  · cases hx : appendXor _ _ _ w.body with
    | ok z body => rintro ⟨⟩
    | error f body =>
        rintro ⟨⟩
        exact appendXor_noError _ _ _ _ _ _ hx
  · rintro ⟨⟩

theorem appendValues_eq_error {values : List U64} {w w' : GorillaWriterMV} {e : Error}
    (h : appendValues values w = .error (.error e) w') :
    w' = w ∧ w.validateValues values = .error e := by
  simp only [appendValues, bind_apply, get_apply, liftExcept] at h
  cases hv : w.validateValues values with
  | error f => simp only [hv] at h; cases h; exact ⟨rfl, rfl⟩
  | ok _ => simp only [hv] at h; exact absurd h (noError_forM (appendLane_noError values) _ _ _ _)

theorem errorKeepsState_appendTime (t : GorillaDateTime) : ErrorKeepsState (appendTime t) := by
  unfold appendTime
  exact errorKeepsState_get_bind fun w => errorKeepsState_bind (errorKeepsState_liftExcept _)
    fun _ => noError_bind (noError_set _) fun _ => noError_zoom (appendDod_noError _)

theorem errorKeepsState_appendFirst (entry : MVEntry) : ErrorKeepsState (appendFirst entry) := by
  unfold appendFirst
  refine errorKeepsState_get_bind fun w => errorKeepsState_bind (errorKeepsState_liftExcept _)
    fun _ => noError_bind (noError_zoom (write_noError (by decide) _))
      fun _ => noError_bind (noError_forM (fun i => ?_) _) fun _ => noError_modify _
  split
  · exact noError_zoom (write_noError (le_refl 64) _)
  · exact noError_throwPanic

theorem errorKeepsState_appendEntry (entry : MVEntry) : ErrorKeepsState (appendEntry entry) := by
  intro w e w' h
  simp only [appendEntry, bind_apply, get_apply, liftExcept] at h
  cases hv : w.validateValues entry.values with
  | error f => simp only [hv] at h; cases h; rfl
  | ok _ =>
      simp only [hv] at h
      cases hd : Gorilla.validateTimestamp w.prevTs entry.time with
      | error f => simp only [appendTime_error hd] at h; cases h; rfl
      | ok d =>
          simp only [appendTime_ok hd] at h
          cases (appendValues_eq_error h).2.symm.trans hv

end GorillaWriterMV

namespace GorillaWriter

theorem errorKeepsState_appendTime (t : GorillaDateTime) : ErrorKeepsState (appendTime t) := by
  unfold appendTime
  exact errorKeepsState_get_bind fun w => errorKeepsState_bind (errorKeepsState_liftExcept _)
    fun _ => noError_bind (noError_set _) fun _ => noError_zoom (appendDod_noError _)

theorem errorKeepsState_appendFirst (entry : Entry) : ErrorKeepsState (appendFirst entry) := by
  unfold appendFirst
  exact errorKeepsState_get_bind fun w => errorKeepsState_bind (errorKeepsState_liftExcept _)
    fun _ => noError_bind (noError_zoom (write_noError (by decide) _))
      fun _ => noError_bind (noError_zoom (write_noError (le_refl 64) _)) fun _ => noError_modify _

theorem appendValue_noError (value : U64) : NoError (appendValue value) := by
  unfold appendValue
  exact noError_bind noError_get fun w => noError_bind (noError_zoom (appendXor_noError _ _ _))
    fun _ => noError_modify _

end GorillaWriter

/-- A writer method that returns `Err` leaves every field of the writer as it was: the body's
bits and length, the previous timestamp, delta and values, and every predictor window. -/
theorem writers_keep_state_on_error (e : MVEntry) (e₁ : Entry) :
    (ErrorKeepsState (GorillaWriterMV.appendEntry e) ∧
        ErrorKeepsState (GorillaWriterMV.appendTime e.time) ∧
        ErrorKeepsState (GorillaWriterMV.appendValues e.values) ∧
        ErrorKeepsState (GorillaWriterMV.appendFirst e)) ∧
      ErrorKeepsState (GorillaWriter.appendFirst e₁) ∧
        ErrorKeepsState (GorillaWriter.appendEntry e₁) ∧
        ErrorKeepsState (GorillaWriter.appendTime e₁.time) :=
  ⟨⟨GorillaWriterMV.errorKeepsState_appendEntry e, GorillaWriterMV.errorKeepsState_appendTime _,
      fun _ _ _ h => (GorillaWriterMV.appendValues_eq_error h).1,
      GorillaWriterMV.errorKeepsState_appendFirst e⟩,
    GorillaWriter.errorKeepsState_appendFirst e₁,
    errorKeepsState_bind (GorillaWriter.errorKeepsState_appendTime _)
      fun _ => GorillaWriter.appendValue_noError _,
    GorillaWriter.errorKeepsState_appendTime _⟩

/-! ## Valid windows -/

namespace GorillaWriterMV

def WindowsValid (w : GorillaWriterMV) : Prop := ∀ z ∈ w.prevZeros, z.Valid

theorem windowsValid_withVec (header : GorillaDateTime) (dim : Nat) :
    (withVec header dim).WindowsValid := fun _ hz =>
  (List.eq_of_mem_replicate hz) ▸ Zeros.valid_initial

theorem keeps_onBody {α : Type} (m : EStateM (Fault Error) BitWriter α) :
    Keeps WindowsValid (onBody m) := keeps_zoom_of_set fun _ _ h => h

theorem keeps_appendLane (values : List U64) (i : Nat) :
    Keeps WindowsValid (appendLane values i) := by
  intro w hw
  unfold appendLane
  split
  · next v p z _ _ hz =>
      rw [appendXor_push v p (hw z (List.getElem?_mem hz))]
      intro z' hz'
      rcases List.mem_or_eq_of_mem_set hz' with h | rfl
      · exact hw z' h
      · exact xorWindow_valid v p (hw z (List.getElem?_mem hz))
  · exact hw

theorem keeps_appendValues (values : List U64) : Keeps WindowsValid (appendValues values) := by
  unfold appendValues
  exact keeps_get_bind fun _ _ => keeps_bind (keeps_liftExcept _)
    fun _ => keeps_forM fun i _ => keeps_appendLane values i

theorem keeps_appendTime (t : GorillaDateTime) : Keeps WindowsValid (appendTime t) := by
  unfold appendTime
  exact keeps_get_bind fun _ hw => keeps_bind (keeps_liftExcept _)
    fun _ => keeps_bind (keeps_set hw) fun _ => keeps_onBody _

theorem keeps_appendFirst (entry : MVEntry) : Keeps WindowsValid (appendFirst entry) := by
  unfold appendFirst
  refine keeps_get_bind fun _ _ => keeps_bind (keeps_liftExcept _)
    fun _ => keeps_bind (keeps_onBody _) fun _ => keeps_bind (keeps_forM fun i _ => ?_)
      fun _ => keeps_modify fun _ h => h
  split
  · exact keeps_onBody _
  · exact keeps_throwPanic

theorem keeps_appendEntry (entry : MVEntry) : Keeps WindowsValid (appendEntry entry) := by
  unfold appendEntry
  exact keeps_get_bind fun _ _ => keeps_bind (keeps_liftExcept _)
    fun _ => keeps_bind (keeps_appendTime _) fun _ => keeps_appendValues _

theorem keeps_run (c : MVWriterCall) : Keeps WindowsValid c.run := by
  cases c with
  | appendFirst e => exact keeps_appendFirst e
  | appendEntry e => exact keeps_appendEntry e
  | appendTime t => exact keeps_appendTime t
  | appendValues vs => exact keeps_appendValues vs

end GorillaWriterMV

namespace GorillaWriter

def WindowValid (w : GorillaWriter) : Prop := w.prevZeros.Valid

theorem keeps_onBody {α : Type} (m : EStateM (Fault Error) BitWriter α) :
    Keeps WindowValid (onBody m) :=
  keeps_zoom_of_set fun _ _ h => h

theorem keeps_appendValue (value : U64) :
    Keeps WindowValid (appendValue value) := by
  intro w hw
  simp only [appendValue, bind_apply, get_apply, onBody, zoom_apply, appendXor_push _ _ hw,
    modify_apply]
  exact xorWindow_valid _ _ hw

theorem keeps_appendTime (t : GorillaDateTime) :
    Keeps WindowValid (appendTime t) := by
  unfold appendTime
  exact keeps_get_bind fun _ hw => keeps_bind (keeps_liftExcept _)
    fun _ => keeps_bind (keeps_set hw) fun _ => keeps_onBody _

theorem keeps_appendFirst (entry : Entry) :
    Keeps WindowValid (appendFirst entry) := by
  unfold appendFirst
  exact keeps_get_bind fun _ _ => keeps_bind (keeps_liftExcept _)
    fun _ => keeps_bind (keeps_onBody _) fun _ => keeps_bind (keeps_onBody _)
      fun _ => keeps_modify fun _ h => h

theorem keeps_runScalar (c : WriterCall) :
    Keeps WindowValid c.runScalar := by
  cases c with
  | appendFirst t v => exact keeps_appendFirst _
  | appendEntry t v => exact keeps_bind (keeps_appendTime t) fun _ => keeps_appendValue v
  | appendTime t => exact keeps_appendTime t
  | appendValue v => exact keeps_appendValue v

end GorillaWriter

/-- In every state that calls reach from `with_vec`, each predictor window is valid, and
`append_value` under it returns, for every value, previous value and body: neither `u8`
subtraction of `nbits` underflows, the shift is below 64 and `write` takes `nbits` bits. -/
theorem windows_valid_of_run (header : GorillaDateTime) (D : Nat) (cs : List MVWriterCall)
    (ws : List WriterCall) :
    (∀ z ∈ (runCalls MVWriterCall.run cs (GorillaWriterMV.withVec header D)).2.prevZeros,
      z.Valid ∧ ∀ value prev body,
        appendXor value prev z body =
          .ok (xorWindow value prev z) (body.push (xorCode value prev z))) ∧
    let z := (runCalls WriterCall.runScalar ws (GorillaWriter.withVec header)).2.prevZeros
    z.Valid ∧ ∀ value prev body,
      appendXor value prev z body =
        .ok (xorWindow value prev z) (body.push (xorCode value prev z)) := by
  have hv := runCalls_keeps GorillaWriterMV.keeps_run cs
    (GorillaWriterMV.windowsValid_withVec header D)
  have hs := runCalls_keeps GorillaWriter.keeps_runScalar ws (s := GorillaWriter.withVec header)
    Zeros.valid_initial
  exact ⟨fun z hz => ⟨hv z hz, fun _ _ => appendXor_push _ _ (hv z hz)⟩,
    hs, fun _ _ => appendXor_push _ _ hs⟩

end RustyDb.Gorilla
