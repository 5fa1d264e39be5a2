import RustyDb.Gorilla.BitStream

/-!
# Block writers

`GorillaWriter` (`writer.rs`) and `GorillaWriterMV` (`writer_mv.rs`), with the sample
types of `gorilla/mod.rs`.  A block is a 64-bit header timestamp followed, sample by
sample, by a delta-of-delta code for the timestamp and an XOR code for each value.
The two writers run the same code on their own fields: `appendDod` for a timestamp
and `appendXor` for one value, which the vector writer runs once per dimension with
that dimension's predictor window.

Times are `GorillaDateTime`s at whole seconds, counted from the Unix epoch.  The
`u8` arithmetic on predictor windows and the `u64` shifts are checked, as in a debug
build.
-/

namespace RustyDb.Gorilla

abbrev GorillaDateTime := Int

structure Entry where
  time : GorillaDateTime
  value : U64
  deriving DecidableEq, Repr

structure MVEntry where
  time : GorillaDateTime
  values : List U64
  deriving DecidableEq, Repr

structure GorillaBlock where
  data : BitStream
  deriving DecidableEq, Repr

def GorillaBlock.new (datastr : Bytes) : Except (Fault Error) GorillaBlock := do
  pure ⟨← BitStream.new datastr⟩

def GorillaBlock.toString (b : GorillaBlock) : Bytes := b.data.toString

/-- `GorillaBlock::new` undoes `to_string` on a block of fewer than `2 ^ 32` bits: above
that the `n as u32` of `to_string` drops the high bits of the length. -/
theorem GorillaBlock.new_toString_of_lt (b : GorillaBlock) (hn : b.data.n < 2 ^ 32) :
    GorillaBlock.new b.toString = .ok b := by
  simp only [GorillaBlock.new, GorillaBlock.toString, BitStream.new_toString, Nat.mod_eq_of_lt hn]
  rfl

theorem GorillaBlock.new_toString_empty :
    GorillaBlock.new (GorillaBlock.toString ⟨⟨0, []⟩⟩) = .ok ⟨⟨0, []⟩⟩ :=
  GorillaBlock.new_toString_of_lt ⟨⟨0, []⟩⟩ (by decide)

structure Zeros where
  leading : Nat
  trailing : Nat
  deriving DecidableEq, Repr

def Zeros.initial : Zeros := ⟨32, 32⟩

def leadingZeros (x : U64) : Nat := go 64
where
  go : Nat → Nat
    | 0 => 0
    | k + 1 => if x.getLsbD k then 0 else go k + 1

def trailingZeros (x : U64) : Nat := go 64
where
  go : Nat → Nat
    | 0 => 0
    | k + 1 => if x.getLsbD (63 - k) then 0 else go k + 1

def u8Sub {σ : Type} (a b : Nat) : EStateM (Fault Error) σ Nat :=
  if b ≤ a then pure (a - b) else throwPanic

def shr {σ : Type} (x : U64) (s : Nat) : EStateM (Fault Error) σ U64 :=
  if s < 64 then pure (x >>> s) else throwPanic

def shl {σ : Type} (x : U64) (s : Nat) : EStateM (Fault Error) σ U64 :=
  if s < 64 then pure (x <<< s) else throwPanic

/-! ## The steps both writers share -/

def validateTimestamp (prevTs time : GorillaDateTime) : Except Error Nat :=
  let delta := time - prevTs
  if delta < 0 then .error .appendOrderError
  else if delta > 16384 then .error .appendDurationError
  else .ok delta.toNat

def appendDod (dod : Int) : EStateM (Fault Error) BitWriter Unit := do
  if dod = 0 then
    BitWriter.writeBit false
  else if -63 ≤ dod ∧ dod ≤ 64 then
    BitWriter.writeBit true
    BitWriter.writeBit false
    BitWriter.write 7 (BitVec.ofInt 64 dod)
  else if -255 ≤ dod ∧ dod ≤ 256 then
    BitWriter.writeBit true
    BitWriter.writeBit true
    BitWriter.writeBit false
    BitWriter.write 9 (BitVec.ofInt 64 dod)
  else if -2047 ≤ dod ∧ dod ≤ 2048 then
    BitWriter.writeBit true
    BitWriter.writeBit true
    BitWriter.writeBit true
    BitWriter.writeBit false
    BitWriter.write 12 (BitVec.ofInt 64 dod)
  else
    BitWriter.writeBit true
    BitWriter.writeBit true
    BitWriter.writeBit true
    BitWriter.writeBit true
    BitWriter.write 32 (BitVec.ofInt 64 dod)

def insideBlock (xored : U64) (z : Zeros) : Prop :=
  leadingZeros xored ≥ z.leading ∧ trailingZeros xored ≥ z.trailing

instance (xored : U64) (z : Zeros) : Decidable (insideBlock xored z) :=
  inferInstanceAs (Decidable (_ ∧ _))

/--
The code `append_value` writes for `value` after `prev` under the window `z`, and the
window after it: `0` for an unchanged value, `10` and the bits inside the window when
the XOR fits it, `11`, five bits of `leading`, six of `nbits` and the bits otherwise.
-/
def appendXor (value prev : U64) (z : Zeros) : EStateM (Fault Error) BitWriter Zeros := do
  let xored := value ^^^ prev
  let inside := decide (insideBlock xored z)
  let leading := if inside then z.leading else leadingZeros xored
  let trailing := if inside then z.trailing else trailingZeros xored
  let nbits ← u8Sub (← u8Sub 64 leading) trailing
  let toWrite ← shr xored trailing
  if xored = 0 then
    BitWriter.writeBit false
    pure z
  else if inside then
    BitWriter.writeBit true
    BitWriter.writeBit false
    BitWriter.write nbits toWrite
    pure z
  else
    BitWriter.writeBit true
    BitWriter.writeBit true
    BitWriter.write 5 (BitVec.ofNat 64 leading)
    BitWriter.write 6 (BitVec.ofNat 64 nbits)
    BitWriter.write nbits toWrite
    pure ⟨leading, trailing⟩

/-- The body of a fresh writer: the header timestamp, `timestamp as u64`, in 64 bits.
`write(64, _).unwrap()` cannot fail. -/
def headerBody (header : GorillaDateTime) : BitWriter :=
  match BitWriter.write 64 (BitVec.ofInt 64 header) BitWriter.new with
  | .ok _ body => body
  | .error _ body => body

/-! ## `GorillaWriter` -/

structure GorillaWriter where
  header : GorillaDateTime
  prevTs : GorillaDateTime
  prevDelta : Nat
  prevValue : U64
  prevZeros : Zeros
  body : BitWriter

namespace GorillaWriter

def withVec (header : GorillaDateTime) : GorillaWriter :=
  { header, prevTs := header, prevDelta := 0, prevValue := 0, prevZeros := .initial,
    body := headerBody header }

def close (w : GorillaWriter) : GorillaBlock := ⟨w.body.close⟩

def onBody {α : Type} (m : EStateM (Fault Error) BitWriter α) :
    EStateM (Fault Error) GorillaWriter α :=
  zoom body (fun w b => { w with body := b }) m

def validateTimestamp (w : GorillaWriter) (time : GorillaDateTime) : Except Error Nat :=
  Gorilla.validateTimestamp w.prevTs time

def appendFirst (entry : Entry) : EStateM (Fault Error) GorillaWriter Unit := do
  let delta ← liftExcept ((← get).validateTimestamp entry.time)
  onBody (BitWriter.write 14 (BitVec.ofNat 64 delta))
  onBody (BitWriter.write 64 entry.value)
  modify fun w => { w with prevValue := entry.value, prevTs := entry.time, prevDelta := delta }

def appendValue (value : U64) : EStateM (Fault Error) GorillaWriter Unit := do
  let w ← get
  let z ← onBody (appendXor value w.prevValue w.prevZeros)
  modify fun w => { w with prevZeros := z, prevValue := value }

def appendTime (time : GorillaDateTime) : EStateM (Fault Error) GorillaWriter Unit := do
  let w ← get
  let delta ← liftExcept (w.validateTimestamp time)
  set { w with prevDelta := delta, prevTs := time }
  onBody (appendDod ((delta : Int) - w.prevDelta))

def appendEntry (entry : Entry) : EStateM (Fault Error) GorillaWriter Unit := do
  appendTime entry.time
  appendValue entry.value

end GorillaWriter

/-! ## `GorillaWriterMV` -/

structure GorillaWriterMV where
  dim : Nat
  header : GorillaDateTime
  prevTs : GorillaDateTime
  prevDelta : Nat
  prevValue : List U64
  prevZeros : List Zeros
  body : BitWriter

namespace GorillaWriterMV

def withVec (header : GorillaDateTime) (dim : Nat) : GorillaWriterMV :=
  { dim, header, prevTs := header, prevDelta := 0, prevValue := List.replicate dim 0,
    prevZeros := List.replicate dim .initial, body := headerBody header }

def close (w : GorillaWriterMV) : GorillaBlock := ⟨w.body.close⟩

def onBody {α : Type} (m : EStateM (Fault Error) BitWriter α) :
    EStateM (Fault Error) GorillaWriterMV α :=
  zoom body (fun w b => { w with body := b }) m

def validateValues (w : GorillaWriterMV) (values : List U64) : Except Error Unit :=
  if values.length ≠ w.dim then .error .badDimensionError else .ok ()

def validateTimestamp (w : GorillaWriterMV) (time : GorillaDateTime) : Except Error Nat :=
  Gorilla.validateTimestamp w.prevTs time

def appendFirst (entry : MVEntry) : EStateM (Fault Error) GorillaWriterMV Unit := do
  let w ← get
  let delta ← liftExcept (w.validateTimestamp entry.time)
  onBody (BitWriter.write 14 (BitVec.ofNat 64 delta))
  (List.range w.dim).forM fun i =>
    match entry.values[i]? with
    | some v => onBody (BitWriter.write 64 v)
    | none => throwPanic
  modify fun w => { w with prevValue := entry.values, prevTs := entry.time, prevDelta := delta }

def appendLane (values : List U64) (i : Nat) : EStateM (Fault Error) GorillaWriterMV Unit :=
  fun w =>
    match values[i]?, w.prevValue[i]?, w.prevZeros[i]? with
    | some v, some p, some z =>
        match appendXor v p z w.body with
        | .ok z' body =>
            .ok ()
                { w with body, prevZeros := w.prevZeros.set i z', prevValue := w.prevValue.set i v }
        | .error e body => .error e { w with body }
    | _, _, _ => .error .panic w

def appendValues (values : List U64) : EStateM (Fault Error) GorillaWriterMV Unit := do
  let w ← get
  liftExcept (w.validateValues values)
  (List.range w.dim).forM (appendLane values)

def appendTime (time : GorillaDateTime) : EStateM (Fault Error) GorillaWriterMV Unit := do
  let w ← get
  let delta ← liftExcept (w.validateTimestamp time)
  set { w with prevDelta := delta, prevTs := time }
  onBody (appendDod ((delta : Int) - w.prevDelta))

def appendEntry (entry : MVEntry) : EStateM (Fault Error) GorillaWriterMV Unit := do
  liftExcept ((← get).validateValues entry.values)
  appendTime entry.time
  appendValues entry.values

end GorillaWriterMV

end RustyDb.Gorilla
