import RustyDb.Storage.SSTable

/-!
# The LSM tree

`MemTable`, `SSTableMeta` and `LSMTree` of `lsmtree.rs`.  A `set` goes to the memtable,
a `BTreeMap` kept here as its entries in key order; `flush_memtable` writes the memtable
to a new SSTable named by a fresh UUID, appends its `SSTableMeta` to `sstables` and
rewrites the manifest `rustydb.meta`.  `get` looks in the memtable, then in each table
whose key range holds the key, in the order of `sstables`: oldest first.

The methods act on the tree and a `Host`: the root directory, and the generator behind
`Uuid::new_v4`.

Four things the code does are not what its comments and tests suggest:

* `get` returns the value of the oldest flushed table holding the key, so a key set,
  flushed, set again and flushed reads back its first value;
* `flush_metadata` writes the table count as a `u8` and each filename length as a
  `u32`, and `tryload_meta` reads them as a `u32` and a `u8`: no manifest is read back;
* `MemTable::insert` adds the size of the pair even when it replaces one, so after an
  overwrite `flush_size` exceeds the size of the entries;
* `set` of a pair larger than the threshold on an empty memtable flushes the empty
  memtable, and `get_minkey` panics.
-/

namespace RustyDb.Storage

def metaFilename : Bytes := ascii "rustydb.meta"

def memtableThreshold : Nat := 4 * 1024 * 1024

/-! ## Keys and the memtable's map -/

def bytesLt : Bytes → Bytes → Bool
  | [], [] => false
  | [], _ :: _ => true
  | _ :: _, [] => false
  | a :: as, b :: bs => decide (a < b) || (decide (a = b) && bytesLt as bs)

@[simp] theorem bytesLt_self (k : Bytes) : bytesLt k k = false := by
  induction k with
  | nil => rfl
  | cons a k ih => simp [bytesLt, ih]

/-- `BTreeMap::insert`: a new key goes to its place in key order, a present one has its
value replaced. -/
def mapInsert : List (Bytes × Bytes) → Bytes → Bytes → List (Bytes × Bytes)
  | [], k, v => [(k, v)]
  | (k', v') :: m, k, v =>
      if k = k' then (k, v) :: m
      else if bytesLt k k' then (k, v) :: (k', v') :: m
      else (k', v') :: mapInsert m k v

def mapGet : List (Bytes × Bytes) → Bytes → Option Bytes
  | [], _ => none
  | (k', v) :: m, k => if k' = k then some v else mapGet m k

theorem mapGet_insert_self (m : List (Bytes × Bytes)) (k v : Bytes) :
    mapGet (mapInsert m k v) k = some v := by
  induction m with
  | nil => simp [mapInsert, mapGet]
  | cons e m ih =>
      obtain ⟨k', v'⟩ := e
      by_cases h : k = k'
      · simp [mapInsert, mapGet, h]
      · by_cases hl : bytesLt k k' <;> simp [mapInsert, mapGet, h, hl, Ne.symm h, ih]

theorem mapGet_insert_of_ne (m : List (Bytes × Bytes)) {k k₁ : Bytes} (h : k₁ ≠ k) (v : Bytes) :
    mapGet (mapInsert m k v) k₁ = mapGet m k₁ := by
  induction m with
  | nil => simp [mapInsert, mapGet, Ne.symm h]
  | cons e m ih =>
      obtain ⟨k', v'⟩ := e
      by_cases hk : k = k'
      · subst hk; simp [mapInsert, mapGet, Ne.symm h]
      · by_cases hl : bytesLt k k' <;> simp [mapInsert, mapGet, hk, hl, Ne.symm h, ih]

/-! ## The memtable -/

structure MemTable where
  map : List (Bytes × Bytes)
  /-- The bytes the entries would take in an SSTable data section, as `insert` counts them. -/
  flushSize : Nat

namespace MemTable

def new : MemTable := ⟨[], 0⟩

def pairSize (key val : Bytes) : Nat := 2 * 4 + key.length + val.length

def insert (key val : Bytes) (mt : MemTable) : MemTable :=
  ⟨mapInsert mt.map key val, mt.flushSize + pairSize key val⟩

def needFlush (mt : MemTable) (key val : Bytes) : Bool :=
  decide (mt.flushSize + pairSize key val > memtableThreshold)

def getMinkey (mt : MemTable) : Except (Fault IoError) Bytes :=
  match mt.map.head? with
  | some e => .ok e.1
  | none => .error .panic

def getMaxkey (mt : MemTable) : Except (Fault IoError) Bytes :=
  match mt.map.getLast? with
  | some e => .ok e.1
  | none => .error .panic

def reset (_ : MemTable) : MemTable := new

def writeEntriesToSstable (mt : MemTable) :
    EStateM (Fault IoError) (SSTableFileBuilder × Disk) Unit :=
  mt.map.forM fun e => zoom Prod.fst (fun s b => (b, s.2)) (SSTableFileBuilder.add e.1 e.2)

def entriesSize (m : List (Bytes × Bytes)) : Nat := (m.map fun e => pairSize e.1 e.2).sum

end MemTable

/-! ## Table metadata -/

structure SSTableMeta where
  filename : Bytes
  level : Nat
  minKey : Bytes
  maxKey : Bytes
  deriving DecidableEq, Repr

def hexDigit (d : Nat) : Fin 256 :=
  if d < 10 then Fin.ofNat' 256 (48 + d) else Fin.ofNat' 256 (87 + d)

def hexDigits : Nat → Nat → Bytes
  | 0, _ => []
  | w + 1, n => hexDigits w (n / 16) ++ [hexDigit (n % 16)]

def uuidHyphenated (n : Nat) : Bytes :=
  let h := hexDigits 32 n
  h.take 8 ++ [45] ++ (h.drop 8).take 4 ++ [45] ++ (h.drop 12).take 4 ++ [45] ++
      (h.drop 16).take 4 ++ [45] ++
    h.drop 20

def sstFilename (n : Nat) : Bytes := uuidHyphenated n ++ ascii ".sst"

/-- The root directory, and the random generator behind `Uuid::new_v4`, given as the
number of ids drawn so far: each draw is an id not drawn before. -/
structure Host where
  disk : Disk
  drawn : Nat

def Host.onDisk {α : Type} (x : EStateM (Fault IoError) Disk α) : EStateM (Fault IoError) Host α :=
  zoom Host.disk (fun h d => { h with disk := d }) x

namespace SSTableMeta

def new (minkey maxkey : Bytes) : EStateM (Fault IoError) Host SSTableMeta := fun h =>
  .ok ⟨sstFilename h.drawn, 0, minkey, maxkey⟩ { h with drawn := h.drawn + 1 }

def inRange (m : SSTableMeta) (key : Bytes) : Bool := !bytesLt key m.minKey && !bytesLt m.maxKey key

@[simp] theorem inRange_self (f : Bytes) (l : Nat) (k : Bytes) : inRange ⟨f, l, k, k⟩ k = true := by
  simp [inRange]

end SSTableMeta

/-! ## The manifest -/

def metaRecord (m : SSTableMeta) : Bytes :=
  u32Bytes m.filename.length ++ m.filename ++ leBytes 1 m.level ++
      u32Bytes m.minKey.length ++ m.minKey ++
    u32Bytes m.maxKey.length ++ m.maxKey

def metaFile (sstables : List SSTableMeta) : Bytes :=
  leBytes 1 sstables.length ++ sstables.flatMap metaRecord

def readMetaEntry : ReadM SSTableMeta := do
  let sstFnameLen ← readU8
  let sstFname ← fromUtf8Unwrap (← readExact sstFnameLen)
  let sstLevel ← readU8
  let minkeyLen ← readU32
  let minkey ← fromUtf8Unwrap (← readExact minkeyLen)
  let maxkeyLen ← readU32
  let maxkey ← fromUtf8Unwrap (← readExact maxkeyLen)
  pure ⟨sstFname, sstLevel, minkey, maxkey⟩

def readMeta : ReadM (List SSTableMeta) := do
  let numSstables ← readU32
  (List.replicate numSstables ()).mapM fun _ => readMetaEntry

/-! ## The tree -/

structure LSMTree where
  memtable : MemTable
  sstables : List SSTableMeta
  totalFlushedSize : Nat

abbrev TreeM := EStateM (Fault IoError) (LSMTree × Host)

namespace LSMTree

def empty : LSMTree := ⟨MemTable.new, [], 0⟩

def onHost {α : Type} (x : EStateM (Fault IoError) Host α) : TreeM α :=
  zoom Prod.snd (fun s h => (s.1, h)) x

/-- `tryload_meta`.  It pushes each table as it is read; on an error `new` drops the
tree, so pushing them once read is the same. -/
def tryloadMeta : TreeM Unit := do
  let (t, h) ← get
  match h.disk.files metaFilename with
  | none => pure ()
  | some content =>
      let metas ← liftResult (runRead readMeta content)
      set ({ t with sstables := t.sstables ++ metas }, h)

def new : EStateM (Fault IoError) Host LSMTree := fun h =>
  match tryloadMeta (empty, h) with
  | .ok _ (t, h') => .ok t h'
  | .error e (_, h') => .error e h'

def flushMetadata : TreeM Unit :=
  modify fun s => (s.1, { s.2 with disk := s.2.disk.write metaFilename (metaFile s.1.sstables) })

def flushMemtable : TreeM Unit := do
  let t := (← get).1
  let minkey ← liftResult t.memtable.getMinkey
  let maxkey ← liftResult t.memtable.getMaxkey
  let newSstable ← onHost (SSTableMeta.new minkey maxkey)
  onHost
      (Host.onDisk (SSTableFileBuilder.build newSstable.filename t.memtable.writeEntriesToSstable))
  modify fun s => ({ s.1 with sstables := s.1.sstables ++ [newSstable] }, s.2)
  flushMetadata
  modify fun s =>
      ({ s.1 with totalFlushedSize := s.1.totalFlushedSize + s.1.memtable.flushSize }, s.2)
  modify fun s => ({ s.1 with memtable := s.1.memtable.reset }, s.2)

def set (key val : Bytes) : TreeM Unit := do
  if (← get).1.memtable.needFlush key val then flushMemtable
  modify fun s => ({ s.1 with memtable := s.1.memtable.insert key val }, s.2)

def searchSstables (d : Disk) (key : Bytes) :
    List SSTableMeta → Except (Fault IoError) (Option Bytes)
  | [] => .ok none
  | m :: ms =>
      if m.inRange key then do
        let currsst ← SSTableFileReader.open d m.filename
        match ← currsst.get d key with
        | some val => pure (some val)
        | none => searchSstables d key ms
      else searchSstables d key ms

def get (t : LSMTree) (d : Disk) (key : Bytes) : Except (Fault IoError) (Option Bytes) :=
  match mapGet t.memtable.map key with
  | some s => .ok (some s)
  | none => searchSstables d key t.sstables

end LSMTree

open LSMTree

/-! ## Table names -/

theorem length_hexDigits (w n : Nat) : (hexDigits w n).length = w := by
  induction w generalizing n with
  | zero => rfl
  | succ w ih => simp [hexDigits, ih]

theorem uuidHyphenated_getLast? (n : Nat) :
    (uuidHyphenated n).getLast? = some (hexDigit (n % 16)) := by
  have hd : hexDigits 32 n = hexDigits 31 (n / 16) ++ [hexDigit (n % 16)] := rfl
  simp only [uuidHyphenated, List.getLast?_append, List.getLast?_drop, length_hexDigits, hd,
    List.length_append, List.length_singleton, List.getLast?_concat]
  rfl

theorem hexDigit_inj : ∀ a < 16, ∀ b < 16, hexDigit a = hexDigit b → a = b := by decide

theorem sstFilename_succ_ne (n : Nat) : sstFilename n ≠ sstFilename (n + 1) := by
  intro h
  have h' := congrArg List.getLast? (List.append_inj_left' h rfl)
  simp only [uuidHyphenated_getLast?, Option.some.injEq] at h'
  have := hexDigit_inj _ (Nat.mod_lt _ (by decide)) _ (Nat.mod_lt _ (by decide)) h'
  omega

theorem length_sstFilename (n : Nat) : (sstFilename n).length = 40 := by
  simp [sstFilename, uuidHyphenated, length_hexDigits, ascii]

theorem sstFilename_ne_metaFilename (n : Nat) : sstFilename n ≠ metaFilename := by
  intro h
  have := congrArg List.length h
  rw [length_sstFilename] at this
  exact absurd this (by decide)

theorem hexDigits_inj : ∀ (w : Nat) {a b : Nat}, a < 16 ^ w → b < 16 ^ w →
    hexDigits w a = hexDigits w b → a = b
  | 0, a, b, ha, hb, _ => by simp only [pow_zero] at ha hb; omega
  | w + 1, a, b, ha, hb, h => by
      simp only [hexDigits] at h
      obtain ⟨h₁, h₂⟩ := List.append_inj' h rfl
      rw [pow_succ] at ha hb
      have hq := hexDigits_inj w (a := a / 16) (b := b / 16) (by omega) (by omega) h₁
      have hr := hexDigit_inj _ (Nat.mod_lt _ (by decide)) _ (Nat.mod_lt _ (by decide))
        (List.singleton_inj.mp h₂)
      omega

theorem uuidHyphenated_inj {a b : Nat} (h : uuidHyphenated a = uuidHyphenated b) :
    hexDigits 32 a = hexDigits 32 b := by
  have split : ∀ x : Bytes, x = x.take 8 ++ ((x.drop 8).take 4 ++ ((x.drop 12).take 4 ++
      ((x.drop 16).take 4 ++ x.drop 20))) := by
    intro x
    have h1 := List.take_append_drop 4 (x.drop 16)
    have h2 := List.take_append_drop 4 (x.drop 12)
    have h3 := List.take_append_drop 4 (x.drop 8)
    simp only [List.drop_drop] at h1 h2 h3
    rw [h1, h2, h3, List.take_append_drop]
  have la := length_hexDigits 32 a
  have lb := length_hexDigits 32 b
  simp only [uuidHyphenated, List.append_assoc, List.singleton_append] at h
  generalize hexDigits 32 a = x at h la
  generalize hexDigits 32 b = y at h lb
  obtain ⟨e1, h⟩ := List.append_inj h (by simp [la, lb])
  obtain ⟨e2, h⟩ := List.append_inj (List.cons.inj h).2 (by simp [la, lb])
  obtain ⟨e3, h⟩ := List.append_inj (List.cons.inj h).2 (by simp [la, lb])
  obtain ⟨e4, e5⟩ := List.append_inj (List.cons.inj h).2 (by simp [la, lb])
  rw [split x, split y, e1, e2, e3, e4, (List.cons.inj e5).2]

theorem sstFilename_inj {i j : Nat} (hi : i < 16 ^ 32) (hj : j < 16 ^ 32)
    (h : sstFilename i = sstFilename j) : i = j :=
  hexDigits_inj 32 hi hj (uuidHyphenated_inj (List.append_inj_left' h rfl))

/-! ## One call at a time -/

theorem new_of_no_meta {h : Host} (hm : h.disk.files metaFilename = none) :
    LSMTree.new h = .ok empty h := by
  simp only [LSMTree.new, tryloadMeta, bind_apply, get_apply, hm, pure_apply]

theorem needFlush_eq_false {mt : MemTable} {key val : Bytes}
    (h : mt.flushSize + MemTable.pairSize key val ≤ memtableThreshold) :
    mt.needFlush key val = false := by
  simp only [MemTable.needFlush, decide_eq_false_iff_not]; omega

theorem set_of_not_needFlush {mt : MemTable} {ssts : List SSTableMeta} {total : Nat} {h : Host}
    {key val : Bytes}
    (hn : mt.needFlush key val = false) :
    LSMTree.set key val (⟨mt, ssts, total⟩, h) = .ok () (⟨mt.insert key val, ssts, total⟩, h) := by
  simp only [LSMTree.set, bind_apply, get_apply, hn, Bool.false_eq_true, ↓reduceIte, pure_apply,
    modify_apply]

theorem set_new_of_le {ssts : List SSTableMeta} {total : Nat} {h : Host} {key val : Bytes}
    (hs : MemTable.pairSize key val ≤ memtableThreshold) :
    LSMTree.set key val (⟨MemTable.new, ssts, total⟩, h) =
      .ok () (⟨⟨[(key, val)], MemTable.pairSize key val⟩, ssts, total⟩, h) := by
  rw [set_of_not_needFlush (needFlush_eq_false (by simp only [MemTable.new]; omega))]
  simp only [MemTable.insert, MemTable.new, mapInsert, Nat.zero_add]

theorem flushMemtable_ok {t : LSMTree} {h : Host} {minkey maxkey : Bytes}
    (hmin : t.memtable.getMinkey = .ok minkey)
    (hmax : t.memtable.getMaxkey = .ok maxkey) :
    flushMemtable (t, h) = .ok ()
      (⟨MemTable.new, t.sstables ++ [⟨sstFilename h.drawn, 0, minkey, maxkey⟩],
        t.totalFlushedSize + t.memtable.flushSize⟩,
        ⟨(h.disk.write (sstFilename h.drawn) (sstFile t.memtable.map)).write metaFilename
          (metaFile (t.sstables ++ [⟨sstFilename h.drawn, 0, minkey, maxkey⟩])), h.drawn + 1⟩) := by
  simp only [flushMemtable, bind_apply, get_apply, liftResult, hmin, hmax, onHost, zoom_apply,
    SSTableMeta.new, Host.onDisk, MemTable.writeEntriesToSstable, build_forM_add, modify_apply,
    flushMetadata, MemTable.reset]

theorem flushMemtable_single {key val : Bytes} {fs : Nat} {ssts : List SSTableMeta} {total : Nat}
    {h : Host} :
    flushMemtable (⟨⟨[(key, val)], fs⟩, ssts, total⟩, h) = .ok ()
      (⟨MemTable.new, ssts ++ [⟨sstFilename h.drawn, 0, key, key⟩], total + fs⟩,
        ⟨(h.disk.write (sstFilename h.drawn) (sstFile [(key, val)])).write metaFilename
          (metaFile (ssts ++ [⟨sstFilename h.drawn, 0, key, key⟩])), h.drawn + 1⟩) :=
  flushMemtable_ok rfl rfl

theorem flushMemtable_empty {t : LSMTree} {h : Host} (hm : t.memtable.map = []) :
    flushMemtable (t, h) = .error .panic (t, h) := by
  simp only [flushMemtable, bind_apply, get_apply, liftResult, MemTable.getMinkey, hm,
    List.head?_nil]

theorem searchSstables_cons_hit {d : Disk} {key : Bytes} {m : SSTableMeta} (ms : List SSTableMeta)
    {ps : List (Bytes × Bytes)} {v : Bytes} (hin : m.inRange key = true) (hv : PairsValid ps)
    (hs : (dataSection ps).length < 2 ^ 32) (hf : d.files m.filename = some (sstFile ps))
    (hl : lastValue ps key = some v) : LSMTree.searchSstables d key (m :: ms) = .ok (some v) := by
  simp only [searchSstables, hin, if_true, open_sstFile hv hs hf, except_ok_bind, get_sstFile hs hf,
    hl]
  rfl

/-! ## A stale read -/

/-- From a tree over a root without a manifest: `set(k, v₁)`, `flush_memtable`, `set(k, v₂)`,
`flush_memtable` succeed, and `get(k)` then returns `v₁`, from the older table. -/
theorem get_after_two_flushes (h : Host) (hm : h.disk.files metaFilename = none) (k v₁ v₂ : Bytes)
    (hk : utf8Valid k = true) (hv₁ : utf8Valid v₁ = true)
    (hs₁ : MemTable.pairSize k v₁ ≤ memtableThreshold)
    (hs₂ : MemTable.pairSize k v₂ ≤ memtableThreshold) :
    LSMTree.new h = .ok LSMTree.empty h ∧
      ∃ t h', (do LSMTree.set k v₁; LSMTree.flushMemtable; LSMTree.set k v₂; LSMTree.flushMemtable)
          (LSMTree.empty, h) = .ok () (t, h') ∧
        t.get h'.disk k = .ok (some v₁) := by
  refine ⟨new_of_no_meta hm, ?_⟩
  simp only [LSMTree.empty, bind_apply, set_new_of_le hs₁, set_new_of_le hs₂, flushMemtable_single]
  refine ⟨_, _, rfl, ?_⟩
  have hsz : (dataSection [(k, v₁)]).length < 2 ^ 32 := by
    simp only [dataSection_cons, dataSection_nil, List.append_nil, length_sstEntry]
    simp only [MemTable.pairSize, memtableThreshold] at hs₁
    omega
  have hv : PairsValid [(k, v₁)] := by simp [PairsValid, hk, hv₁]
  simp only [LSMTree.get, MemTable.new, mapGet, List.nil_append, List.singleton_append]
  rw [searchSstables_cons_hit (v := v₁) _ (SSTableMeta.inRange_self _ _ k) hv hsz ?_
    (by simp [lastValue])]
  simp only [Disk.write_files_of_ne (sstFilename_ne_metaFilename h.drawn),
    Disk.write_files_of_ne (sstFilename_succ_ne h.drawn), Disk.write_files_self]

theorem get_after_two_flushes_abc :
    LSMTree.new ⟨Disk.empty, 0⟩ = .ok LSMTree.empty ⟨Disk.empty, 0⟩ ∧
      ∃ t h',
        (do
          LSMTree.set [97] [98]; LSMTree.flushMemtable
          LSMTree.set [97] [99]; LSMTree.flushMemtable)
          (LSMTree.empty, ⟨Disk.empty, 0⟩) = .ok () (t, h') ∧
        t.get h'.disk [97] = .ok (some [98]) :=
  get_after_two_flushes ⟨Disk.empty, 0⟩ rfl [97] [98] [99] (by decide) (by decide)
      (by decide) (by decide)

/-! ## The manifest read back -/

theorem leBytes_succ_of_lt {w n : Nat} (h : n < 256 ^ w) :
    leBytes (w + 1) n = leBytes w n ++ [0] := by
  induction w generalizing n with
  | zero => obtain rfl : n = 0 := by simpa using h
            rfl
  | succ w ih =>
      rw [leBytes, ih (by rw [pow_succ] at h; omega), leBytes, List.cons_append]

theorem readU32_cons_u32Bytes (c : Fin 256) {x : Nat} (hx : x < 2 ^ 24) (rest : Bytes) :
    readU32 (c :: (u32Bytes x ++ rest)) = .ok (c.val + 256 * x) (0 :: rest) := by
  have hsplit : c :: (u32Bytes x ++ rest) = (c :: leBytes 3 x) ++ (0 :: rest) := by
    rw [u32Bytes, leBytes_succ_of_lt (by norm_num; omega)]; simp
  rw [hsplit]
  simp only [readU32, bind_apply,
    readExact_append (show (c :: leBytes 3 x).length = 4 by simp [length_leBytes]), pure_apply,
    ofLeBytes, ofLeBytes_leBytes, Nat.mod_eq_of_lt (show x < 256 ^ 3 by norm_num; omega)]
  simp only [Fin.val_ofNat', EStateM.Result.ok.injEq, and_true]
  omega

theorem readMetaEntry_zero {bs rest : Bytes} {m : SSTableMeta}
    (h : readMetaEntry (0 :: bs) = .ok m rest) :
    m.filename = [] := by
  have h₁ : readU8 (0 :: bs) = .ok 0 bs := by simp [readU8, readExact, bind_apply, ofLeBytes]
  have h₂ : readExact 0 bs = .ok [] bs :=
      readExact_append (show ([] : Bytes).length = 0 from rfl) bs
  simp only [readMetaEntry, bind_apply, h₁, h₂, fromUtf8Unwrap, show utf8Valid [] = true from rfl,
    if_true, pure_apply] at h
  repeat obtain ⟨_, _, -, h⟩ := ok_of_bind_eq_ok h
  cases h
  rfl

theorem readMeta_metaFile {m : SSTableMeta} {ms metas : List SSTableMeta} {rest : Bytes}
    (h0 : 0 < m.filename.length) (h24 : m.filename.length < 2 ^ 24)
    (h : readMeta (metaFile (m :: ms)) = .ok metas rest) :
    ∃ m₀ ms₀, metas = m₀ :: ms₀ ∧ m₀.filename = [] := by
  simp only [metaFile, metaRecord, List.flatMap_cons, List.append_assoc, leBytes,
    List.singleton_append, List.cons_append, List.nil_append, List.length_cons] at h
  rw [readMeta, bind_apply, readU32_cons_u32Bytes _ h24] at h
  obtain ⟨n, hn⟩ : ∃ n, (Fin.ofNat' 256 (ms.length + 1)).val + 256 * m.filename.length = n + 1 :=
    ⟨_, (Nat.succ_pred_eq_of_pos (by omega)).symm⟩
  simp only [hn, List.replicate_succ, List.mapM_cons] at h
  obtain ⟨m₀, _, h₀, h⟩ := ok_of_bind_eq_ok h
  obtain ⟨ms₀, _, -, h⟩ := ok_of_bind_eq_ok h
  cases h
  exact ⟨m₀, ms₀, rfl, readMetaEntry_zero h₀⟩

/-- `flush_metadata` of a list of tables whose filenames are nonempty and shorter than
`2^24` bytes, such as `<uuid>.sst`, writes a manifest that `LSMTree::new` never reads
back as that list: for no tables it fails at the `u32` count, otherwise the first table
read back has an empty filename. -/
theorem tryload_never_reconstructs (L : List SSTableMeta)
    (hL : ∀ m ∈ L, 0 < m.filename.length ∧ m.filename.length < 2 ^ 24) (t : LSMTree)
    (ht : t.sstables = L)
    (h : Host) :
    flushMetadata (t, h) = .ok () (t, { h with disk := h.disk.write metaFilename (metaFile L) }) ∧
      ∀ t' h', LSMTree.new { h with disk := h.disk.write metaFilename (metaFile L) } = .ok t' h' →
        t'.sstables ≠ L := by
  refine ⟨by simp only [flushMetadata, modify_apply, ht], fun t' h' hnew => ?_⟩
  simp only [LSMTree.new, tryloadMeta, bind_apply, get_apply, Disk.write_files_self, liftResult,
    runRead] at hnew
  cases hr : readMeta (metaFile L) with
  | error e s => simp only [hr] at hnew; cases hnew
  | ok metas s =>
      simp only [hr, set_apply, EStateM.Result.ok.injEq, Prod.mk.injEq] at hnew
      obtain ⟨rfl, -⟩ := hnew
      show [] ++ metas ≠ L
      cases L with
      | nil => cases hr
      | cons m ms =>
          obtain ⟨h0, h24⟩ := hL m (List.mem_cons_self m ms)
          obtain ⟨m₀, ms₀, rfl, hm₀⟩ := readMeta_metaFile h0 h24 hr
          intro heq
          obtain ⟨rfl, -⟩ := List.cons.inj heq
          simp [hm₀] at h0

theorem tryload_never_reconstructs_one :
    flushMetadata (⟨MemTable.new, [⟨sstFilename 0, 0, [97], [98]⟩], 0⟩, ⟨Disk.empty, 1⟩) =
        .ok () (⟨MemTable.new, [⟨sstFilename 0, 0, [97], [98]⟩], 0⟩,
          ⟨Disk.empty.write metaFilename (metaFile [⟨sstFilename 0, 0, [97], [98]⟩]), 1⟩) ∧
      ∀ t' h',
        LSMTree.new ⟨Disk.empty.write metaFilename (metaFile [⟨sstFilename 0, 0, [97], [98]⟩]), 1⟩ =
        .ok t' h' → t'.sstables ≠ [⟨sstFilename 0, 0, [97], [98]⟩] :=
  tryload_never_reconstructs [⟨sstFilename 0, 0, [97], [98]⟩] (by simp [length_sstFilename]) _ rfl
      ⟨Disk.empty, 1⟩

/-! ## `flush_size` -/

/-- `set(k, v₀)` then `set(k, v)` on an empty tree: the map holds one entry, and
`flush_size` counts the replaced pair too. -/
theorem overwrite_inflates_flushSize (h : Host) (k v₀ v : Bytes)
    (hs : MemTable.pairSize k v₀ + MemTable.pairSize k v ≤ memtableThreshold) :
    ∃ t, (do LSMTree.set k v₀; LSMTree.set k v) (LSMTree.empty, h) = .ok () (t, h) ∧
      t.memtable.map = [(k, v)] ∧
      t.memtable.flushSize = MemTable.entriesSize t.memtable.map + MemTable.pairSize k v₀ := by
  have hn : MemTable.needFlush ⟨[(k, v₀)], MemTable.pairSize k v₀⟩ k v = false :=
      needFlush_eq_false hs
  simp only [LSMTree.empty, bind_apply,
    set_new_of_le (show MemTable.pairSize k v₀ ≤ memtableThreshold by omega),
    set_of_not_needFlush hn]
  refine ⟨_, rfl, ?_, ?_⟩
  · simp [MemTable.insert, mapInsert]
  · simp only [MemTable.insert, mapInsert, if_true, MemTable.entriesSize, List.map, List.sum_cons,
      List.sum_nil]
    omega

theorem overwrite_inflates_flushSize_ab :
    ∃ t, (do LSMTree.set [97] [98]; LSMTree.set [97] [99]) (LSMTree.empty, ⟨Disk.empty, 0⟩) =
        .ok () (t, ⟨Disk.empty, 0⟩) ∧
      t.memtable.map = [([97], [99])] ∧
      t.memtable.flushSize = MemTable.entriesSize t.memtable.map + MemTable.pairSize [97] [98] :=
  overwrite_inflates_flushSize ⟨Disk.empty, 0⟩ [97] [98] [99] (by decide)

/-! ## A pair larger than the threshold -/

/-- On an empty memtable, `set` of a pair whose size alone exceeds the threshold flushes the
empty memtable first, and `get_minkey` panics on it. -/
theorem set_panics_on_empty_memtable (t : LSMTree) (h : Host) (key val : Bytes)
    (hm : t.memtable = MemTable.new) (hs : memtableThreshold < MemTable.pairSize key val) :
    LSMTree.set key val (t, h) = .error .panic (t, h) := by
  have hn : t.memtable.needFlush key val = true := by
    simpa only [MemTable.needFlush, hm, MemTable.new, Nat.zero_add, decide_eq_true_eq] using hs
  simp only [LSMTree.set, bind_apply, get_apply, hn, if_true,
    flushMemtable_empty (show t.memtable.map = [] by rw [hm]; rfl)]

theorem set_panics_on_empty_memtable_4MiB :
    LSMTree.new ⟨Disk.empty, 0⟩ = .ok LSMTree.empty ⟨Disk.empty, 0⟩ ∧
      LSMTree.empty.memtable = MemTable.new ∧
      memtableThreshold < MemTable.pairSize [107] (List.replicate memtableThreshold 118) ∧
      LSMTree.set [107] (List.replicate memtableThreshold 118) (LSMTree.empty, ⟨Disk.empty, 0⟩) =
        .error .panic (LSMTree.empty, ⟨Disk.empty, 0⟩) := by
  have hs : memtableThreshold < MemTable.pairSize [107] (List.replicate memtableThreshold 118) := by
    rw [MemTable.pairSize, List.length_replicate]
    exact Nat.lt_add_of_pos_left (by decide)
  exact ⟨new_of_no_meta rfl, rfl, hs, set_panics_on_empty_memtable _ _ _ _ rfl hs⟩

end RustyDb.Storage
