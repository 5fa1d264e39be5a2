import RustyDb.Gorilla.Writer

/-!
# Block readers

`GorillaReader` (`reader.rs`) and `GorillaReaderMV` (`reader_mv.rs`).  A reader built
`from_writer` has decoded the header and the first sample, which `next` hands out;
each further sample comes from `get_next_time` and `get_next_value(s)` in lockstep.
Every bit read is `unwrap`ped, so a read past the stream panics.

As on the writing side, the two readers share their steps: `nextTime` decodes a
timestamp and `nextXor` one value against its window.  A `0` timestamp code returns
`prev_time + prev_diff` without moving `prev_time`, as `get_next_time` does.
-/

namespace RustyDb.Gorilla

def toDod (x : U64) (shift max : Nat) : Int :=
  (if x.toNat > max then x ||| (BitVec.allOnes 64 <<< shift) else x).toInt

def dodWidth : EStateM (Fault Error) BitReader (Nat × Nat) := do
  if !(← unwrap BitReader.readBit) then return (7, 64)
  if !(← unwrap BitReader.readBit) then return (9, 256)
  if !(← unwrap BitReader.readBit) then return (12, 2048)
  return (32, 2147483647)

/-- `get_next_time` on the previous time and difference: the time it returns, and the
previous time and difference it leaves. -/
def nextTime (prevTime prevDiff : Int) :
    EStateM (Fault Error) BitReader (GorillaDateTime × GorillaDateTime × Int) := do
  if !(← unwrap BitReader.readBit) then
    return (prevTime + prevDiff, prevTime, prevDiff)
  let (bits, max) ← dodWidth
  let x ← unwrap (BitReader.read bits)
  let diff := toDod x bits max + prevDiff
  let time := prevTime + diff
  pure (time, time, diff)

def nextXor (prev : U64) (z : Zeros) : EStateM (Fault Error) BitReader (U64 × Zeros) := do
  if !(← unwrap BitReader.readBit) then
    return (prev, z)
  if !(← unwrap BitReader.readBit) then
    let nbits ← u8Sub (← u8Sub 64 z.leading) z.trailing
    let xored ← shl (← unwrap (BitReader.read nbits)) z.trailing
    return (prev ^^^ xored, z)
  let leading := (← unwrap (BitReader.read 5)).toNat
  let nbits := (← unwrap (BitReader.read 6)).toNat
  let trailing ← u8Sub (← u8Sub 64 leading) nbits
  let xored ← shl (← unwrap (BitReader.read nbits)) trailing
  pure (prev ^^^ xored, ⟨leading, trailing⟩)

def readHeader : EStateM (Fault Error) BitReader GorillaDateTime := do
  pure (← unwrap (BitReader.read 64)).toInt

def readFirstTime (header : GorillaDateTime) : EStateM (Fault Error) BitReader GorillaDateTime := do
  pure (header + (← unwrap (BitReader.read 14)).toInt)

/-! ## `GorillaReader` -/

structure GorillaReader where
  entry : Entry
  prevEntry : Entry
  prevDiff : Int
  prevZeros : Zeros
  reader : BitReader

namespace GorillaReader

def onReader {α : Type} (m : EStateM (Fault Error) BitReader α) :
    EStateM (Fault Error) GorillaReader α :=
  zoom reader (fun r b => { r with reader := b }) m

def fromWriter (writer : GorillaWriter) : Except (Fault Error) GorillaReader :=
  let start : EStateM (Fault Error) BitReader (GorillaDateTime × Entry) := do
    let header ← readHeader
    let time ← readFirstTime header
    let value ← unwrap (BitReader.read 64)
    pure (header, { time, value })
  match start (BitReader.new writer.close.data) with
  | .ok (header, entry) reader =>
      .ok { entry, prevEntry := ⟨header, 0⟩, prevDiff := 0, prevZeros := .initial, reader }
  | .error e _ => .error e

def next : EStateM (Fault Error) GorillaReader Entry := fun r =>
  .ok r.entry { r with prevDiff := r.entry.time - r.prevEntry.time, prevEntry := r.entry }

def getNextValue : EStateM (Fault Error) GorillaReader U64 := do
  let r ← get
  let (value, z) ← onReader (nextXor r.prevEntry.value r.prevZeros)
  modify fun r => { r with prevZeros := z, prevEntry := { r.prevEntry with value } }
  pure value

def getNextTime : EStateM (Fault Error) GorillaReader GorillaDateTime := do
  let r ← get
  let (time, prevTime, prevDiff) ← onReader (nextTime r.prevEntry.time r.prevDiff)
  modify fun r => { r with prevEntry := { r.prevEntry with time := prevTime }, prevDiff }
  pure time

end GorillaReader

/-! ## `GorillaReaderMV` -/

structure GorillaReaderMV where
  dim : Nat
  entry : MVEntry
  prevEntry : MVEntry
  prevDiff : Int
  prevZeros : List Zeros
  reader : BitReader

namespace GorillaReaderMV

def onReader {α : Type} (m : EStateM (Fault Error) BitReader α) :
    EStateM (Fault Error) GorillaReaderMV α :=
  zoom reader (fun r b => { r with reader := b }) m

def readValues : Nat → EStateM (Fault Error) BitReader (List U64)
  | 0 => pure []
  | k + 1 => do
      let v ← unwrap (BitReader.read 64)
      pure (v :: (← readValues k))

def fromWriter (writer : GorillaWriterMV) : Except (Fault Error) GorillaReaderMV :=
  let dim := writer.dim
  let start : EStateM (Fault Error) BitReader (GorillaDateTime × MVEntry) := do
    let header ← readHeader
    let time ← readFirstTime header
    let values ← readValues dim
    pure (header, { time, values })
  match start (BitReader.new writer.close.data) with
  | .ok (header, entry) reader =>
      .ok { dim, entry, prevEntry := ⟨header, List.replicate dim 0⟩, prevDiff := 0,
            prevZeros := List.replicate dim .initial, reader }
  | .error e _ => .error e

def fromBlock (block : GorillaBlock) (dim : Nat) : Except (Fault Error) GorillaReaderMV :=
  match readHeader (BitReader.new block.data) with
  | .ok header reader =>
      .ok { dim, entry := ⟨header, List.replicate dim 0⟩,
            prevEntry := ⟨header, List.replicate dim 0⟩, prevDiff := 0,
            prevZeros := List.replicate dim .initial, reader }
  | .error e _ => .error e

def getReader (r : GorillaReaderMV) : BitReader := r.reader

def next : EStateM (Fault Error) GorillaReaderMV MVEntry := fun r =>
  .ok r.entry { r with prevDiff := r.entry.time - r.prevEntry.time, prevEntry := r.entry }

def nextLane (values : List U64) (i : Nat) :
    EStateM (Fault Error) GorillaReaderMV (List U64) := fun r =>
  match r.prevEntry.values[i]?, r.prevZeros[i]? with
  | some p, some z =>
      match nextXor p z r.reader with
      | .ok (v, z') reader =>
          .ok (values.set i v)
            { r with reader, prevZeros := r.prevZeros.set i z',
                     prevEntry := { r.prevEntry with values := r.prevEntry.values.set i v } }
      | .error e reader => .error e { r with reader }
  | _, _ => .error .panic r

def nextLanes : List Nat → List U64 → EStateM (Fault Error) GorillaReaderMV (List U64)
  | [], values => pure values
  | i :: is, values => do nextLanes is (← nextLane values i)

def getNextValues : EStateM (Fault Error) GorillaReaderMV (List U64) := do
  let r ← get
  nextLanes (List.range r.dim) (List.replicate r.dim 0)

def getNextTime : EStateM (Fault Error) GorillaReaderMV GorillaDateTime := do
  let r ← get
  let (time, prevTime, prevDiff) ← onReader (nextTime r.prevEntry.time r.prevDiff)
  modify fun r => { r with prevEntry := { r.prevEntry with time := prevTime }, prevDiff }
  pure time

def getNextEntry : EStateM (Fault Error) GorillaReaderMV MVEntry := do
  let time ← getNextTime
  let values ← getNextValues
  modify fun r => { r with entry := { time, values } }
  pure { time, values }

end GorillaReaderMV

end RustyDb.Gorilla
