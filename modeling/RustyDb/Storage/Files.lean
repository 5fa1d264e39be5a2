import RustyDb.Basic

/-!
# Files and readers

The storage engine keeps its files in one root directory: the write-ahead log
`rustydb.wal`, the manifest `rustydb.meta` and the SSTables `<uuid>.sst`.  A `Disk`
holds the bytes of each file by name.  A file being read is the list of its bytes
not read yet; `byteorder`'s `read_u8`, `read_u32::<LittleEndian>` and
`read_u64::<LittleEndian>` and `read_exact` consume from its front and fail with
`UnexpectedEof` when it is too short, as a `BufReader` over a `File` does.

Writes through a `BufWriter` reach the file when it is flushed; the model writes a
file's bytes at that point (`commit`, or after each WAL record).
-/

namespace RustyDb.Storage

def ascii (s : String) : Bytes := s.toList.map fun c => Fin.ofNat' 256 c.toNat

/-- The root directory: the bytes of each file, by file name. -/
@[ext] structure Disk where
  files : Bytes → Option Bytes

namespace Disk

def empty : Disk := ⟨fun _ => none⟩

/-- The directory after `name` is given the bytes `content`: `File::create` and the
writes to it. -/
def write (d : Disk) (name content : Bytes) : Disk :=
  ⟨fun n => if n = name then some content else d.files n⟩

def openFile (d : Disk) (name : Bytes) : Except (Fault IoError) Bytes :=
  match d.files name with
  | some bs => .ok bs
  | none => .error (.error .notFound)

@[simp] theorem write_files_self (d : Disk) (name content : Bytes) :
    (d.write name content).files name = some content := by
  simp [write]

@[simp] theorem write_files_of_ne {d : Disk} {name n : Bytes} (h : n ≠ name) (content : Bytes) :
    (d.write name content).files n = d.files n := by
  simp [write, h]

@[simp] theorem write_write (d : Disk) (name a b : Bytes) :
    (d.write name a).write name b = d.write name b := by
  ext1; funext n; by_cases h : n = name <;> simp [write, h]

theorem write_of_files {d : Disk} {name content : Bytes} (h : d.files name = some content) :
    d.write name content = d := by
  ext1; funext n; by_cases hn : n = name <;> simp [write, hn, h]

theorem openFile_of_files {d : Disk} {name bs : Bytes} (h : d.files name = some bs) :
    d.openFile name = .ok bs := by
  simp [openFile, h]

end Disk

/-! ## Reading a file -/

abbrev ReadM := EStateM (Fault IoError) Bytes

def readExact (n : Nat) : ReadM Bytes := fun bs =>
  if n ≤ bs.length then .ok (bs.take n) (bs.drop n) else .error (.error .unexpectedEof) []

def readU8 : ReadM Nat := do pure (ofLeBytes (← readExact 1))

def readU32 : ReadM Nat := do pure (ofLeBytes (← readExact 4))

def readU64 : ReadM Nat := do pure (ofLeBytes (← readExact 8))

def fromUtf8Unwrap {σ : Type} (buf : Bytes) : EStateM (Fault IoError) σ Bytes :=
  if utf8Valid buf then pure buf else throwPanic

def runRead {α : Type} (r : ReadM α) (bs : Bytes) : Except (Fault IoError) α :=
  match r bs with
  | .ok a _ => .ok a
  | .error e _ => .error e

def liftResult {ε σ α : Type} (x : Except (Fault ε) α) : EStateM (Fault ε) σ α := fun s =>
  match x with
  | .ok a => .ok a s
  | .error e => .error e s

section Except

variable {ε α β : Type}

@[simp] theorem except_ok_bind (a : α) (f : α → Except ε β) : (Except.ok a >>= f) = f a := rfl

@[simp] theorem except_error_bind (e : ε) (f : α → Except ε β) :
    (Except.error e >>= f) = Except.error e := rfl

end Except

section Reads

variable {n : Nat} {bs rest : Bytes}

theorem readExact_append (h : bs.length = n) (rest : Bytes) :
    readExact n (bs ++ rest) = .ok bs rest := by
  simp [readExact, h]

theorem readExact_short (h : bs.length < n) :
    readExact n bs = .error (.error .unexpectedEof) [] := by
  simp [readExact, Nat.not_le.mpr h]

def ReadsPrefix {α : Type} (x : ReadM α) (bs : Bytes) (v : α) : Prop :=
  ∀ rest j, x ((bs ++ rest).take j) =
    if bs.length ≤ j then .ok v (rest.take (j - bs.length)) else .error (.error .unexpectedEof) []

namespace ReadsPrefix

variable {α β : Type}

protected theorem pure (v : α) : ReadsPrefix (pure v) [] v := fun rest j => by
  simp only [List.nil_append, List.length_nil, Nat.zero_le, if_true, Nat.sub_zero, pure_apply]

protected theorem bind {x : ReadM α} {f : α → ReadM β} {bs' : Bytes} {v : α} {w : β}
    (hx : ReadsPrefix x bs v) (hf : ReadsPrefix (f v) bs' w) :
    ReadsPrefix (x >>= f) (bs ++ bs') w := fun rest j => by
  rw [bind_apply, List.append_assoc, hx, List.length_append]
  by_cases h : bs.length ≤ j
  · by_cases h' : bs'.length ≤ j - bs.length
    · simp only [if_pos h, hf rest, if_pos h', if_pos (show bs.length + bs'.length ≤ j by omega),
        Nat.sub_sub]
    · simp only [if_pos h, hf rest, if_neg h', if_neg (show ¬bs.length + bs'.length ≤ j by omega)]
  · simp only [if_neg h, if_neg (show ¬bs.length + bs'.length ≤ j by omega)]

end ReadsPrefix

theorem readU32_append (x : Nat) (rest : Bytes) :
    readU32 (u32Bytes x ++ rest) = .ok (x % 2 ^ 32) rest := by
  simp only [readU32, bind_apply, readExact_append (length_u32Bytes x), pure_apply,
    ofLeBytes_u32Bytes]

theorem readU32_self (x : Nat) : readU32 (u32Bytes x) = .ok (x % 2 ^ 32) [] := by
  simpa using readU32_append x []

theorem fromUtf8Unwrap_of_valid {σ : Type} {buf : Bytes} (h : utf8Valid buf = true) :
    (fromUtf8Unwrap buf : EStateM (Fault IoError) σ Bytes) = pure buf := by
  simp [fromUtf8Unwrap, h]

theorem readsPrefix_readExact (h : bs.length = n) : ReadsPrefix (readExact n) bs bs := by
  subst h
  intro rest j
  rw [List.take_append_eq_append_take]
  split
  · rw [List.take_of_length_le (by omega)]
    exact readExact_append rfl _
  · apply readExact_short
    simp only [List.length_append, List.length_take]
    omega

theorem readsPrefix_readU32 {x : Nat} (hx : x < 2 ^ 32) : ReadsPrefix readU32 (u32Bytes x) x := by
  have h : ReadsPrefix readU32 (u32Bytes x ++ []) (ofLeBytes (u32Bytes x)) :=
    (readsPrefix_readExact (length_u32Bytes x)).bind (ReadsPrefix.pure _)
  rwa [List.append_nil, ofLeBytes_u32Bytes, Nat.mod_eq_of_lt hx] at h

theorem readsPrefix_readU64 {x : Nat} (hx : x < 2 ^ 64) : ReadsPrefix readU64 (u64Bytes x) x := by
  have h : ReadsPrefix readU64 (u64Bytes x ++ []) (ofLeBytes (u64Bytes x)) :=
    (readsPrefix_readExact (length_u64Bytes x)).bind (ReadsPrefix.pure _)
  rwa [List.append_nil, ofLeBytes_u64Bytes, Nat.mod_eq_of_lt hx] at h

theorem readsPrefix_fromUtf8Unwrap {buf : Bytes} (h : utf8Valid buf = true) :
    ReadsPrefix (fromUtf8Unwrap buf) [] buf := by
  rw [fromUtf8Unwrap_of_valid h]
  exact ReadsPrefix.pure buf

end Reads

end RustyDb.Storage
