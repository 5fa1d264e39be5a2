import RustyDb.Storage.Files

/-!
# SSTable files

`SSTableFileBuilder`, `SSTableFileReader` and `SSTableFileIter` of `sstable.rs`.  A
table is a data section of `(keylen: u32, key, vallen: u32, val)` entries, an index
section of `(keylen: u32, key, offset: u32)` entries, one per data entry, and a footer
`(num_entries: u32, index_loc: u32)`.

The reader loads the index into a `HashMap`, where a later entry of a key replaces an
earlier one, and answers `get` from the data entry its offset points to.  A table built
by `add`s and `merge_file`s and committed reads back as the pairs added, in order, and
`get` returns the value of the last pair with the key.
-/

namespace RustyDb.Storage

def sstEntry (key val : Bytes) : Bytes := u32Bytes key.length ++ key ++ u32Bytes val.length ++ val

def indexSection (index : List (Bytes × Nat)) : Bytes :=
  index.flatMap fun e => u32Bytes e.1.length ++ e.1 ++ u32Bytes e.2

/-- `HashMap<String, u32>::get` on a map whose bindings are listed newest first. -/
def indexGet : List (Bytes × Nat) → Bytes → Option Nat
  | [], _ => none
  | (k', v) :: m, k => if k' = k then some v else indexGet m k

/-! ## Builder -/

structure SSTableFileBuilder where
  path : Bytes
  /-- The bytes written so far; the file gets them when `commit` flushes. -/
  written : Bytes
  index : List (Bytes × Nat)
  bytesWritten : Nat

namespace SSTableFileBuilder

def new (path : Bytes) : EStateM (Fault IoError) Disk SSTableFileBuilder := fun d =>
  .ok ⟨path, [], [], 0⟩ (d.write path [])

def add (key val : Bytes) : EStateM (Fault IoError) SSTableFileBuilder Unit :=
  modify fun b =>
    { b with index := b.index ++ [(key, b.bytesWritten % 2 ^ 32)],
             written := b.written ++ sstEntry key val,
             bytesWritten := b.bytesWritten + (4 + key.length) + (4 + val.length) }

def commit : EStateM (Fault IoError) (SSTableFileBuilder × Disk) Unit := modify fun s =>
  let b := s.1
  let content :=
      b.written ++ indexSection b.index ++ u32Bytes b.index.length ++
          u32Bytes (b.bytesWritten % 2 ^ 32)
  ({ b with written := content }, s.2.write b.path content)

end SSTableFileBuilder

/-! ## Reader -/

structure SSTableFileReader where
  path : Bytes
  numEntries : Nat
  /-- The `HashMap` of the index, newest binding first. -/
  index : List (Bytes × Nat)

def readIndex : Nat → List (Bytes × Nat) → ReadM (List (Bytes × Nat))
  | 0, acc => pure acc
  | n + 1, acc => do
      let keylen ← readU32
      let key ← fromUtf8Unwrap (← readExact keylen)
      let offset ← readU32
      readIndex n ((key, offset) :: acc)

def readSstEntry : ReadM (Bytes × Bytes) := do
  let keylen ← readU32
  let key ← fromUtf8Unwrap (← readExact keylen)
  let vallen ← readU32
  let val ← fromUtf8Unwrap (← readExact vallen)
  pure (key, val)

/-- What a `for` loop over `SSTableFileIter` gets: up to `n` entries, ending early at
an I/O error. -/
def readEntries : Nat → ReadM (List (Bytes × Bytes))
  | 0 => pure []
  | n + 1 => fun bs =>
      match readSstEntry bs with
      | .ok e bs' =>
          match readEntries n bs' with
          | .ok es bs'' => .ok (e :: es) bs''
          | .error err bs'' => .error err bs''
      | .error (.error _) bs' => .ok [] bs'
      | .error .panic bs' => .error .panic bs'

def skip (n : Nat) : ReadM Unit := fun bs => .ok () (bs.drop n)

def readValueAt : ReadM Bytes := do
  let keylen ← readU32
  skip keylen
  let vallen ← readU32
  readExact vallen

namespace SSTableFileReader

def «open» (d : Disk) (path : Bytes) : Except (Fault IoError) SSTableFileReader := do
  let content ← d.openFile path
  if content.length < 8 then throw (.error .invalidInput)
  let (numEntries, indexLoc) ← runRead (do let n ← readU32; let l ← readU32; pure (n, l))
    (content.drop (content.length - 8))
  let index ← runRead (readIndex numEntries []) (content.drop indexLoc)
  pure ⟨path, numEntries, index⟩

def iterEntries (r : SSTableFileReader) (d : Disk) :
    Except (Fault IoError) (List (Bytes × Bytes)) :=
  match d.files r.path with
  | none => .error .panic
  | some content => runRead (readEntries r.numEntries) content

def get (r : SSTableFileReader) (d : Disk) (key : Bytes) : Except (Fault IoError) (Option Bytes) :=
  match indexGet r.index key with
  | none => .ok none
  | some loc => do
      let content ← d.openFile r.path
      let val ← runRead readValueAt (content.drop loc)
      pure (some val)

end SSTableFileReader

def SSTableFileBuilder.mergeFile (path : Bytes) :
    EStateM (Fault IoError) (SSTableFileBuilder × Disk) Unit := do
  let d := (← get).2
  let reader ← liftResult (SSTableFileReader.open d path)
  let entries ← liftResult (reader.iterEntries d)
  entries.forM fun e => zoom Prod.fst (fun s b => (b, s.2)) (SSTableFileBuilder.add e.1 e.2)

/-! ## What a table holds -/

def dataSection (pairs : List (Bytes × Bytes)) : Bytes := pairs.flatMap fun p => sstEntry p.1 p.2

def indexOf : List (Bytes × Bytes) → Nat → List (Bytes × Nat)
  | [], _ => []
  | p :: ps, base => (p.1, base % 2 ^ 32) :: indexOf ps (base + (sstEntry p.1 p.2).length)

def sstFile (pairs : List (Bytes × Bytes)) : Bytes :=
  dataSection pairs ++ indexSection (indexOf pairs 0) ++ u32Bytes pairs.length ++
    u32Bytes ((dataSection pairs).length % 2 ^ 32)

def lastValue : List (Bytes × Bytes) → Bytes → Option Bytes
  | [], _ => none
  | p :: ps, k =>
      match lastValue ps k with
      | some v => some v
      | none => if p.1 = k then some p.2 else none

def PairsValid (pairs : List (Bytes × Bytes)) : Prop :=
  ∀ p ∈ pairs, utf8Valid p.1 = true ∧ utf8Valid p.2 = true

theorem length_sstEntry (key val : Bytes) :
    (sstEntry key val).length = 4 + key.length + (4 + val.length) := by
  simp only [sstEntry, List.length_append, length_u32Bytes]
  omega

@[simp] theorem dataSection_nil : dataSection [] = [] := rfl

@[simp] theorem dataSection_cons (p : Bytes × Bytes) (ps : List (Bytes × Bytes)) :
    dataSection (p :: ps) = sstEntry p.1 p.2 ++ dataSection ps := rfl

theorem dataSection_append (ps qs : List (Bytes × Bytes)) :
    dataSection (ps ++ qs) = dataSection ps ++ dataSection qs := by
  simp [dataSection]

@[simp] theorem indexSection_nil : indexSection [] = [] := rfl

@[simp] theorem indexSection_cons (e : Bytes × Nat) (es : List (Bytes × Nat)) :
    indexSection (e :: es) = u32Bytes e.1.length ++ e.1 ++ u32Bytes e.2 ++ indexSection es := rfl

theorem indexOf_append (ps qs : List (Bytes × Bytes)) (base : Nat) :
    indexOf (ps ++ qs) base = indexOf ps base ++ indexOf qs (base + (dataSection ps).length) := by
  induction ps generalizing base with
  | nil => simp [indexOf]
  | cons p ps ih =>
      rw [List.cons_append]
      simp only [indexOf, ih, dataSection_cons, List.length_append, Nat.add_assoc, List.cons_append]

theorem length_indexOf (ps : List (Bytes × Bytes)) (base : Nat) :
    (indexOf ps base).length = ps.length := by
  induction ps generalizing base with
  | nil => rfl
  | cons p ps ih => simp [indexOf, ih]

/-! ## Reading what the builder wrote -/

section Read

variable {key val rest : Bytes}

theorem readSstEntry_append (hk : utf8Valid key = true) (hv : utf8Valid val = true)
    (hkl : key.length < 2 ^ 32)
    (hvl : val.length < 2 ^ 32) (rest : Bytes) :
    readSstEntry (sstEntry key val ++ rest) = .ok (key, val) rest := by
  simp only [sstEntry, List.append_assoc, readSstEntry, bind_apply, readU32_append,
    Nat.mod_eq_of_lt hkl, Nat.mod_eq_of_lt hvl, readExact_append rfl, fromUtf8Unwrap_of_valid hk,
    fromUtf8Unwrap_of_valid hv, pure_apply]

theorem readValueAt_append (hkl : key.length < 2 ^ 32) (hvl : val.length < 2 ^ 32) (rest : Bytes) :
    readValueAt (sstEntry key val ++ rest) = .ok val rest := by
  simp only [sstEntry, List.append_assoc, readValueAt, bind_apply, readU32_append,
    Nat.mod_eq_of_lt hkl, Nat.mod_eq_of_lt hvl, skip, List.drop_left, readExact_append rfl]

theorem lengths_lt_of_dataSection {pairs : List (Bytes × Bytes)}
    (h : (dataSection pairs).length < 2 ^ 32) :
    ∀ p ∈ pairs, p.1.length < 2 ^ 32 ∧ p.2.length < 2 ^ 32 := by
  induction pairs with
  | nil => simp
  | cons p ps ih =>
      simp only [dataSection_cons, List.length_append, length_sstEntry] at h
      intro q hq
      rcases List.mem_cons.mp hq with rfl | hq
      · omega
      · exact ih (by omega) q hq

theorem readEntries_dataSection {pairs : List (Bytes × Bytes)} (hv : PairsValid pairs)
    (hl : ∀ p ∈ pairs, p.1.length < 2 ^ 32 ∧ p.2.length < 2 ^ 32) (rest : Bytes) :
    readEntries pairs.length (dataSection pairs ++ rest) = .ok pairs rest := by
  induction pairs with
  | nil => rfl
  | cons p ps ih =>
      have hp := hv p (List.mem_cons_self p ps)
      have hpl := hl p (List.mem_cons_self p ps)
      simp only [List.length_cons, readEntries, dataSection_cons, List.append_assoc,
        readSstEntry_append hp.1 hp.2 hpl.1 hpl.2,
        ih (fun q h => hv q (List.mem_cons_of_mem p h))
            (fun q h => hl q (List.mem_cons_of_mem p h))]

theorem readIndex_indexSection {index : List (Bytes × Nat)}
    (hv : ∀ e ∈ index, utf8Valid e.1 = true ∧ e.1.length < 2 ^ 32 ∧ e.2 < 2 ^ 32)
    (acc : List (Bytes × Nat)) (rest : Bytes) :
    readIndex index.length acc (indexSection index ++ rest) = .ok (index.reverse ++ acc) rest := by
  induction index generalizing acc with
  | nil => rfl
  | cons e es ih =>
      have he := hv e (List.mem_cons_self e es)
      simp only [List.length_cons, readIndex, indexSection_cons, List.append_assoc, bind_apply,
        readU32_append, Nat.mod_eq_of_lt he.2.1, Nat.mod_eq_of_lt he.2.2, readExact_append rfl,
        fromUtf8Unwrap_of_valid he.1, pure_apply, ih (fun q h => hv q (List.mem_cons_of_mem e h)),
        List.reverse_cons, List.append_assoc, List.singleton_append]

theorem mem_indexOf {ps : List (Bytes × Bytes)} {base : Nat} {e : Bytes × Nat}
    (he : e ∈ indexOf ps base) :
    (∃ p ∈ ps, e.1 = p.1) ∧ e.2 < 2 ^ 32 := by
  induction ps generalizing base with
  | nil => simp [indexOf] at he
  | cons p ps ih =>
      rcases List.mem_cons.mp he with rfl | he
      · exact ⟨⟨p, List.mem_cons_self p ps, rfl⟩, Nat.mod_lt _ (by norm_num)⟩
      · obtain ⟨⟨q, hq, hq'⟩, hlt⟩ := ih he
        exact ⟨⟨q, List.mem_cons_of_mem p hq, hq'⟩, hlt⟩

theorem length_le_dataSection (ps : List (Bytes × Bytes)) :
    8 * ps.length ≤ (dataSection ps).length := by
  induction ps with
  | nil => simp
  | cons p ps ih =>
      simp only [dataSection_cons, List.length_append, length_sstEntry, List.length_cons]
      omega

theorem open_sstFile_eq {d : Disk} {path : Bytes} {ps : List (Bytes × Bytes)}
    (hs : (dataSection ps).length < 2 ^ 32) (h : d.files path = some (sstFile ps)) :
    SSTableFileReader.open d path =
      (do let index ← runRead (readIndex ps.length [])
            (indexSection (indexOf ps 0) ++
              (u32Bytes ps.length ++ u32Bytes (dataSection ps).length))
          pure ⟨path, ps.length, index⟩) := by
  have hn : ps.length < 2 ^ 32 := by have := length_le_dataSection ps; omega
  have hlen : (sstFile ps).length = (dataSection ps ++ indexSection (indexOf ps 0)).length + 8 := by
    simp only [sstFile, List.length_append, length_u32Bytes]
  have hfoot : (sstFile ps).drop ((sstFile ps).length - 8) =
      u32Bytes ps.length ++ u32Bytes ((dataSection ps).length % 2 ^ 32) := by
    rw [hlen, Nat.add_sub_cancel, sstFile, List.append_assoc, List.drop_left]
  have hidx : (sstFile ps).drop (dataSection ps).length =
      indexSection (indexOf ps 0) ++
          (u32Bytes ps.length ++ u32Bytes ((dataSection ps).length % 2 ^ 32)) := by
    rw [sstFile, List.append_assoc, List.append_assoc, List.drop_left]
  rw [SSTableFileReader.open, Disk.openFile_of_files h, except_ok_bind,
    if_neg (show ¬(sstFile ps).length < 8 by omega)]
  simp only [except_ok_bind, hfoot, runRead, bind_apply, readU32_append, readU32_self,
    Nat.mod_eq_of_lt hn, Nat.mod_mod, Nat.mod_eq_of_lt hs, hidx, pure_apply, pure_bind]

theorem open_sstFile {d : Disk} {path : Bytes} {ps : List (Bytes × Bytes)} (hv : PairsValid ps)
    (hs : (dataSection ps).length < 2 ^ 32) (h : d.files path = some (sstFile ps)) :
    SSTableFileReader.open d path = .ok ⟨path, ps.length, (indexOf ps 0).reverse⟩ := by
  have hidxv : ∀ e ∈ (indexOf ps 0), utf8Valid e.1 = true ∧ e.1.length < 2 ^ 32 ∧ e.2 < 2 ^ 32 := by
    intro e he
    obtain ⟨⟨p, hp, hep⟩, hlt⟩ := mem_indexOf he
    rw [hep]
    exact ⟨(hv p hp).1, (lengths_lt_of_dataSection hs p hp).1, hlt⟩
  have hread :=
      readIndex_indexSection hidxv [] (u32Bytes ps.length ++ u32Bytes (dataSection ps).length)
  rw [length_indexOf] at hread
  rw [open_sstFile_eq hs h, runRead, hread, List.append_nil]
  rfl

theorem open_sstFile_panic {d : Disk} {path key val : Bytes} {ps : List (Bytes × Bytes)}
    (hk : utf8Valid key = false) (hs : (dataSection ((key, val) :: ps)).length < 2 ^ 32)
    (h : d.files path = some (sstFile ((key, val) :: ps))) :
    SSTableFileReader.open d path = .error .panic := by
  have hkl := (lengths_lt_of_dataSection hs (key, val) (List.mem_cons_self _ _)).1
  rw [open_sstFile_eq hs h]
  simp only [List.length_cons, readIndex, indexOf, indexSection_cons, List.append_assoc, runRead,
    bind_apply, readU32_append, Nat.mod_eq_of_lt hkl, readExact_append rfl, fromUtf8Unwrap, hk]
  rfl

theorem iterEntries_sstFile {d : Disk} {path : Bytes} {ps : List (Bytes × Bytes)}
    (hv : PairsValid ps)
    (hs : (dataSection ps).length < 2 ^ 32) (h : d.files path = some (sstFile ps))
    (index : List (Bytes × Nat)) :
    SSTableFileReader.iterEntries ⟨path, ps.length, index⟩ d = .ok ps := by
  simp only [SSTableFileReader.iterEntries, h, runRead, sstFile, List.append_assoc,
    readEntries_dataSection hv (lengths_lt_of_dataSection hs)]

def getFrom (content : Bytes) (index : List (Bytes × Nat)) (k : Bytes) :
    Except (Fault IoError) (Option Bytes) :=
  match indexGet index k with
  | none => .ok none
  | some loc => (runRead readValueAt (content.drop loc)).map some

theorem get_eq_getFrom {d : Disk} {r : SSTableFileReader} {content : Bytes}
    (h : d.files r.path = some content)
    (k : Bytes) : r.get d k = getFrom content r.index k := by
  simp only [SSTableFileReader.get, getFrom, Disk.openFile_of_files h, except_ok_bind]
  split
  · rfl
  · cases runRead readValueAt (List.drop _ content) <;> rfl

theorem getFrom_indexOf {ps : List (Bytes × Bytes)}
    (hl : ∀ p ∈ ps, p.1.length < 2 ^ 32 ∧ p.2.length < 2 ^ 32)
    (pre post : Bytes) (hpre : pre.length + (dataSection ps).length < 2 ^ 32)
    (acc : List (Bytes × Nat))
    (k : Bytes) :
    getFrom (pre ++ dataSection ps ++ post) ((indexOf ps pre.length).reverse ++ acc) k =
      match lastValue ps k with
      | some v => .ok (some v)
      | none => getFrom (pre ++ dataSection ps ++ post) acc k := by
  induction ps generalizing pre acc with
  | nil => rfl
  | cons p ps ih =>
      have hp := hl p (List.mem_cons_self p ps)
      simp only [dataSection_cons, List.length_append] at hpre
      have hih := ih (fun q h => hl q (List.mem_cons_of_mem p h)) (pre ++ sstEntry p.1 p.2)
        (by simp only [List.length_append]; omega) ((p.1, pre.length % 2 ^ 32) :: acc)
      simp only [List.length_append, List.append_assoc] at hih
      simp only [indexOf, List.reverse_cons, List.append_assoc, List.singleton_append,
        dataSection_cons, List.append_assoc, hih, lastValue]
      cases lastValue ps k with
      | some v => rfl
      | none =>
          simp only [getFrom, indexGet]
          by_cases hk : p.1 = k
          · simp only [if_pos hk, Nat.mod_eq_of_lt (show pre.length < 2 ^ 32 by omega),
              List.drop_left, runRead, readValueAt_append hp.1 hp.2]
            rfl
          · simp only [if_neg hk]

theorem get_sstFile {d : Disk} {path : Bytes} {ps : List (Bytes × Bytes)}
    (hs : (dataSection ps).length < 2 ^ 32) (h : d.files path = some (sstFile ps)) (k : Bytes) :
    SSTableFileReader.get ⟨path, ps.length, (indexOf ps 0).reverse⟩ d k = .ok (lastValue ps k) := by
  rw [get_eq_getFrom h]
  have := getFrom_indexOf (lengths_lt_of_dataSection hs) [] (indexSection (indexOf ps 0) ++
    u32Bytes ps.length ++ u32Bytes ((dataSection ps).length % 2 ^ 32)) (by simpa using hs) [] k
  simp only [List.nil_append, List.length_nil, List.append_nil, ← List.append_assoc] at this
  rw [sstFile, this]
  cases lastValue ps k <;> rfl

end Read

/-! ## Building a table -/

namespace SSTableFileBuilder

structure Holds (b : SSTableFileBuilder) (pairs : List (Bytes × Bytes)) : Prop where
  written : b.written = dataSection pairs
  index : b.index = indexOf pairs 0
  bytesWritten : b.bytesWritten = (dataSection pairs).length

theorem holds_new (path : Bytes) : Holds ⟨path, [], [], 0⟩ [] := ⟨rfl, rfl, rfl⟩

theorem add_holds {b : SSTableFileBuilder} {pairs : List (Bytes × Bytes)} (h : b.Holds pairs)
    (key val : Bytes) :
    ∃ b', add key val b = .ok () b' ∧ b'.path = b.path ∧ b'.Holds (pairs ++ [(key, val)]) := by
  refine ⟨_, rfl, rfl, ?_, ?_, ?_⟩
  · simp only [h.written, dataSection_append, dataSection_cons, dataSection_nil, List.append_nil]
  · simp only [h.index, h.bytesWritten, indexOf_append, indexOf, Nat.zero_add]
  · simp only [h.bytesWritten, dataSection_append, List.length_append, dataSection_cons,
      dataSection_nil, List.append_nil, length_sstEntry]
    omega

theorem forM_add_holds {b : SSTableFileBuilder} {ps : List (Bytes × Bytes)}
    (h : b.Holds ps) (d : Disk)
    (qs : List (Bytes × Bytes)) :
    ∃ b',
      qs.forM (fun e => zoom Prod.fst (fun s b => (b, s.2)) (add e.1 e.2)) (b, d) = .ok () (b', d) ∧
      b'.path = b.path ∧ b'.Holds (ps ++ qs) := by
  induction qs generalizing b ps with
  | nil => exact ⟨b, rfl, rfl, by simpa using h⟩
  | cons q qs ih =>
      obtain ⟨b₁, hb₁, hp₁, h₁⟩ := add_holds h q.1 q.2
      obtain ⟨b₂, hb₂, hp₂, h₂⟩ := ih h₁
      refine ⟨b₂, ?_, hp₂.trans hp₁, by simpa using h₂⟩
      simp only [List.forM, bind_apply, zoom_apply, hb₁, hb₂]

theorem mergeFile_holds {b : SSTableFileBuilder} {ps : List (Bytes × Bytes)}
    (h : b.Holds ps) {d : Disk}
    {path : Bytes} {qs : List (Bytes × Bytes)} (hv : PairsValid qs)
    (hs : (dataSection qs).length < 2 ^ 32)
    (hf : d.files path = some (sstFile qs)) :
    ∃ b', mergeFile path (b, d) = .ok () (b', d) ∧ b'.path = b.path ∧ b'.Holds (ps ++ qs) := by
  obtain ⟨b', hb', hp', h'⟩ := forM_add_holds h d qs
  refine ⟨b', ?_, hp', h'⟩
  simp only [mergeFile, bind_apply, get_apply, liftResult, open_sstFile hv hs hf,
    iterEntries_sstFile hv hs hf, hb']

theorem commit_holds {b : SSTableFileBuilder} {ps : List (Bytes × Bytes)} (h : b.Holds ps)
    (d : Disk) :
    commit (b, d) = .ok () ({ b with written := sstFile ps }, d.write b.path (sstFile ps)) := by
  simp only [commit, modify_apply, h.written, h.index, h.bytesWritten, length_indexOf, sstFile]

end SSTableFileBuilder

inductive SstOp where
  | add (key val : Bytes)
  | mergeFile (path : Bytes)

def SstOp.run : SstOp → EStateM (Fault IoError) (SSTableFileBuilder × Disk) Unit
  | .add key val => zoom Prod.fst (fun s b => (b, s.2)) (SSTableFileBuilder.add key val)
  | .mergeFile path => SSTableFileBuilder.mergeFile path

def SstOp.pairs (tables : Bytes → List (Bytes × Bytes)) : SstOp → List (Bytes × Bytes)
  | .add key val => [(key, val)]
  | .mergeFile path => tables path

def SSTableFileBuilder.build (path : Bytes)
    (fill : EStateM (Fault IoError) (SSTableFileBuilder × Disk) Unit) :
    EStateM (Fault IoError) Disk Unit := fun d =>
  match SSTableFileBuilder.new path d with
  | .ok b d₁ =>
      match (fill >>= fun _ => SSTableFileBuilder.commit) (b, d₁) with
      | .ok _ s => .ok () s.2
      | .error e s => .error e s.2
  | .error e d₁ => .error e d₁

theorem build_forM_add (path : Bytes) (pairs : List (Bytes × Bytes)) (d : Disk) :
    SSTableFileBuilder.build path
        (pairs.forM fun e => zoom Prod.fst (fun s b => (b, s.2))
          (SSTableFileBuilder.add e.1 e.2)) d =
      .ok () (d.write path (sstFile pairs)) := by
  obtain ⟨b, hb, hpb, h⟩ :=
      SSTableFileBuilder.forM_add_holds (SSTableFileBuilder.holds_new path) (d.write path []) pairs
  rw [List.nil_append] at h
  have hc := SSTableFileBuilder.commit_holds h (d.write path [])
  rw [hpb, Disk.write_write] at hc
  simp only [SSTableFileBuilder.build, SSTableFileBuilder.new, bind_apply, hb, hc]

def buildTable (path : Bytes) (ops : List SstOp) : EStateM (Fault IoError) Disk Unit :=
  SSTableFileBuilder.build path (ops.forM SstOp.run)

theorem SstOp.run_holds {tables : Bytes → List (Bytes × Bytes)} {d : Disk} (op : SstOp)
    (hf : ∀ path, op = .mergeFile path → d.files path = some (sstFile (tables path)))
    (hv : PairsValid (op.pairs tables)) {b : SSTableFileBuilder} {ps : List (Bytes × Bytes)}
    (h : b.Holds ps) (hs : (dataSection (ps ++ op.pairs tables)).length < 2 ^ 32) :
    ∃ b₁, op.run (b, d) = .ok () (b₁, d) ∧ b₁.path = b.path ∧ b₁.Holds (ps ++ op.pairs tables) := by
  cases op with
  | add key val =>
      obtain ⟨b₁, hb₁, hp₁, h₁⟩ := SSTableFileBuilder.add_holds h key val
      exact ⟨b₁, by simp only [SstOp.run, zoom_apply, hb₁], hp₁, h₁⟩
  | mergeFile path =>
      have hq : (dataSection (tables path)).length < 2 ^ 32 := by
        simp only [SstOp.pairs, dataSection_append, List.length_append] at hs
        omega
      exact SSTableFileBuilder.mergeFile_holds h hv hq (hf path rfl)

theorem ops_run_holds {tables : Bytes → List (Bytes × Bytes)} {d : Disk}
    (ops : List SstOp)
    (hf : ∀ path, SstOp.mergeFile path ∈ ops → d.files path = some (sstFile (tables path)))
    (hv : PairsValid (ops.flatMap (SstOp.pairs tables)))
    {b : SSTableFileBuilder} {ps : List (Bytes × Bytes)} (h : b.Holds ps)
    (hs : (dataSection (ps ++ ops.flatMap (SstOp.pairs tables))).length < 2 ^ 32) :
    ∃ b', ops.forM SstOp.run (b, d) = .ok () (b', d) ∧ b'.path = b.path ∧
      b'.Holds (ps ++ ops.flatMap (SstOp.pairs tables)) := by
  induction ops generalizing b ps with
  | nil => exact ⟨b, rfl, rfl, by simpa using h⟩
  | cons op ops ih =>
      simp only [List.flatMap_cons, PairsValid, List.mem_append] at hv
      obtain ⟨b₁, hb₁, hp₁, h₁⟩ :=
        op.run_holds (fun path hp => hf path (hp ▸ List.mem_cons_self _ _))
          (fun p hp => hv p (.inl hp)) h (by
            simp only [List.flatMap_cons, dataSection_append, List.length_append] at hs ⊢
            omega)
      obtain ⟨b₂, hb₂, hp₂, h₂⟩ := ih (fun path hp => hf path (List.mem_cons_of_mem op hp))
        (fun p hp => hv p (.inr hp)) h₁ (by simpa [List.append_assoc] using hs)
      refine ⟨b₂, ?_, hp₂.trans hp₁, by simpa [List.append_assoc] using h₂⟩
      simp only [List.forM, bind_apply, hb₁, hb₂]

theorem buildTable_ok {d : Disk} {path : Bytes} {ops : List SstOp}
    {tables : Bytes → List (Bytes × Bytes)}
    (hf : ∀ p, SstOp.mergeFile p ∈ ops → p ≠ path ∧ d.files p = some (sstFile (tables p)))
    (hv : PairsValid (ops.flatMap (SstOp.pairs tables)))
    (hs : (dataSection (ops.flatMap (SstOp.pairs tables))).length < 2 ^ 32) :
    buildTable path ops d = .ok () (d.write path (sstFile (ops.flatMap (SstOp.pairs tables)))) := by
  have hf₁ : ∀ p, SstOp.mergeFile p ∈ ops → (d.write path []).files p = some (sstFile (tables p)) :=
    fun p hp => by rw [Disk.write_files_of_ne (hf p hp).1]; exact (hf p hp).2
  obtain ⟨b, hb, hpb, h⟩ :=
      ops_run_holds ops hf₁ hv (SSTableFileBuilder.holds_new path) (by simpa using hs)
  have hb' := SSTableFileBuilder.commit_holds h (d.write path [])
  rw [hpb, Disk.write_write] at hb'
  simp only [buildTable, SSTableFileBuilder.build, SSTableFileBuilder.new, bind_apply, hb,
    List.nil_append, hb']

/-- A table built by `add`s and `merge_file`s of committed tables, with a data section
below `2^32` bytes, opens; its iterator yields every pair added, directly or through a
merge, in order; and `get` returns the value of the last pair added with the key, or
`None`. -/
theorem sstable_roundtrip (d : Disk) (path : Bytes) (ops : List SstOp)
    (tables : Bytes → List (Bytes × Bytes))
    (hf : ∀ p, SstOp.mergeFile p ∈ ops → p ≠ path ∧ d.files p = some (sstFile (tables p)))
    (hv : PairsValid (ops.flatMap (SstOp.pairs tables)))
    (hs : (dataSection (ops.flatMap (SstOp.pairs tables))).length < 2 ^ 32) :
    ∃ d', buildTable path ops d = .ok () d' ∧ ∃ r, SSTableFileReader.open d' path = .ok r ∧
      r.iterEntries d' = .ok (ops.flatMap (SstOp.pairs tables)) ∧
      ∀ k, r.get d' k = .ok (lastValue (ops.flatMap (SstOp.pairs tables)) k) := by
  have hfile := Disk.write_files_self d path (sstFile (ops.flatMap (SstOp.pairs tables)))
  exact ⟨_, buildTable_ok hf hv hs, _, open_sstFile hv hs hfile, iterEntries_sstFile hv hs hfile _,
    get_sstFile hs hfile⟩

theorem sstable_roundtrip_add_merge :
    ∃ d',
      buildTable [97] [.add [97] [98], .mergeFile [98]]
        (Disk.empty.write [98] (sstFile [([97], [99])])) =
        .ok () d' ∧ ∃ r, SSTableFileReader.open d' [97] = .ok r ∧
      r.iterEntries d' = .ok [([97], [98]), ([97], [99])] ∧
      ∀ k, r.get d' k = .ok (lastValue [([97], [98]), ([97], [99])] k) :=
  sstable_roundtrip _ [97] [.add [97] [98], .mergeFile [98]] (fun _ => [([97], [99])])
    (fun p hp => by
      simp only [List.mem_cons, SstOp.mergeFile.injEq, reduceCtorEq, false_or, List.mem_nil_iff,
        or_false] at hp
      subst hp
      exact ⟨by decide, Disk.write_files_self _ _ _⟩)
    (by unfold PairsValid; decide) (by decide)

end RustyDb.Storage
