import RustyDb.Storage.TreeRuns

/-!
# I/O failures

Elsewhere every file system call succeeds.  Here the calls `flush_memtable` and
`RustyStore::set` make are listed as data, in the order the code makes them, and a failure
pattern names the one call that fails: the calls before it reach the disk, the failing one
changes nothing, and its `Err` ends the method through each `?`.  With no failure the
methods are the ones of `LsmTree` and `Store` (`flushMemtableIo_none`, `setIo_none`).

A failure anywhere in `flush_memtable` leaves the memtable as it was; one at the table's own
file leaves `sstables` and the manifest as they were too.  `flush_memtable` pushes the new
table onto `sstables` before `flush_metadata` runs, and `File::create` truncates the manifest
before it is written again: a failure at any call of `flush_metadata` leaves the tree with a
table its manifest does not list, and from its first write on, a manifest cut short
(`flushMemtable_error_keeps_memtable`).  `RustyStore::set` drops the `Result` of `LSMTree::set`, so
when the flush that `set` triggers fails, it returns `Ok` though the pair was never
inserted.

A table's bytes are one call, the flush of `commit`: `BufWriter` may have written some of
them earlier, which changes no file but the table's own.
-/

namespace RustyDb.Storage

/-! ## File system calls -/

inductive FsCall where
  | create (path : Bytes)
  | append (path bytes : Bytes)
  | sync (path : Bytes)

def FsCall.apply (d : Disk) : FsCall → Disk
  | .create path => d.write path []
  | .append path bytes => d.write path ((d.files path).getD [] ++ bytes)
  | .sync _ => d

def applyAll (d : Disk) (calls : List FsCall) : Disk := calls.foldl FsCall.apply d

/-- Which file system call fails, counted from `0` in the order a method makes them, and the
error it returns; `none` when every call succeeds. -/
abbrev IoFaults := Option (Nat × IoError)

/-- `calls`, numbered from `first` on: each reaches the disk, until the failing one, which
changes nothing and returns its error. -/
def runFs (faults : IoFaults) (first : Nat) : List FsCall → EStateM (Fault IoError) Disk Unit
  | [] => pure ()
  | c :: cs => fun d =>
      match faults with
      | some (i, e) =>
          if i = first then .error (.error e) d else runFs faults (first + 1) cs (c.apply d)
      | none => runFs faults (first + 1) cs (c.apply d)

@[simp] theorem applyAll_nil (d : Disk) : applyAll d [] = d := rfl

@[simp] theorem applyAll_cons (d : Disk) (c : FsCall) (cs : List FsCall) :
    applyAll d (c :: cs) = applyAll (c.apply d) cs := rfl

theorem applyAll_append (d : Disk) (cs cs' : List FsCall) :
    applyAll d (cs ++ cs') = applyAll (applyAll d cs) cs' := List.foldl_append _ _ _ _

theorem runFs_none (first : Nat) (cs : List FsCall) (d : Disk) :
    runFs none first cs d = .ok () (applyAll d cs) := by
  induction cs generalizing first d with
  | nil => rfl
  | cons c cs ih => exact ih (first + 1) (c.apply d)

theorem runFs_fault (i : Nat) (e : IoError) (first : Nat) (cs : List FsCall) (d : Disk) :
    runFs (some (i, e)) first cs d =
      if first ≤ i ∧ i < first + cs.length then .error (.error e) (applyAll d (cs.take (i - first)))
      else .ok () (applyAll d cs) := by
  induction cs generalizing first d with
  | nil =>
      simp only [runFs, List.length_nil, Nat.add_zero, pure_apply]
      split_ifs with h
      · omega
      · rfl
  | cons c cs ih =>
      simp only [runFs]
      by_cases h : i = first
      · subst h
        simp only [if_true, le_refl, List.length_cons, Nat.lt_add_of_pos_right (Nat.succ_pos _),
          and_self, Nat.sub_self, List.take_zero, applyAll_nil]
      · rw [if_neg h, ih]
        by_cases hin : first + 1 ≤ i ∧ i < first + 1 + cs.length
        · have hs : i - first = (i - (first + 1)) + 1 := by omega
          rw [if_pos hin, if_pos (by simp only [List.length_cons]; omega), hs, List.take_succ_cons,
            applyAll_cons]
        · rw [if_neg hin, if_neg (by simp only [List.length_cons]; omega), applyAll_cons]

theorem applyAll_appends (d : Disk) (path pre : Bytes) (chunks : List Bytes) :
    applyAll (d.write path pre) (chunks.map (.append path)) =
      d.write path (pre ++ chunks.flatten) := by
  induction chunks generalizing pre with
  | nil => simp
  | cons c cs ih =>
      simp only [List.map_cons, applyAll_cons, FsCall.apply, Disk.write_files_self,
        Option.getD_some, Disk.write_write, ih, List.flatten_cons, List.append_assoc]

/-! ## The calls of `flush_memtable` -/

/-- `SSTableFileBuilder::new`'s `File::create`, then the bytes `add` and `commit` wrote,
reaching the file at `commit`'s flush. -/
def sstCalls (path : Bytes) (pairs : List (Bytes × Bytes)) : List FsCall :=
  [.create path, .append path (sstFile pairs)]

@[simp] theorem length_sstCalls (path : Bytes) (pairs : List (Bytes × Bytes)) :
    (sstCalls path pairs).length = 2 := rfl

def metaWrites (m : SSTableMeta) : List Bytes :=
  [u32Bytes m.filename.length, m.filename, leBytes 1 m.level, u32Bytes m.minKey.length, m.minKey,
    u32Bytes m.maxKey.length, m.maxKey]

def metaCalls (sstables : List SSTableMeta) : List FsCall :=
  .create metaFilename :: .append metaFilename (leBytes 1 sstables.length) ::
    ((sstables.flatMap metaWrites).map (.append metaFilename) ++ [.sync metaFilename])

theorem applyAll_sstCalls (d : Disk) (path : Bytes) (pairs : List (Bytes × Bytes)) :
    applyAll d (sstCalls path pairs) = d.write path (sstFile pairs) := by
  simp [sstCalls, FsCall.apply]

theorem flatten_flatMap_metaWrites (ms : List SSTableMeta) :
    (ms.flatMap metaWrites).flatten = ms.flatMap metaRecord := by
  induction ms with
  | nil => rfl
  | cons m ms ih =>
      simp only [List.flatMap_cons, List.flatten_append, ih, metaWrites, metaRecord,
        List.flatten_cons, List.flatten_nil, List.append_nil, List.append_assoc]

theorem applyAll_metaCalls (d : Disk) (sstables : List SSTableMeta) :
    applyAll d (metaCalls sstables) = d.write metaFilename (metaFile sstables) := by
  simp only [metaCalls, applyAll_cons, FsCall.apply, Disk.write_files_self, Option.getD_some,
    List.nil_append, Disk.write_write, applyAll_append, applyAll_appends,
    flatten_flatMap_metaWrites, applyAll_nil]
  rfl

namespace LSMTree

def flushMetadataIo (faults : IoFaults) (first : Nat) : TreeM Unit := fun s =>
  onHost (Host.onDisk (runFs faults first (metaCalls s.1.sstables))) s

def flushMemtableIo (faults : IoFaults) (first : Nat) : TreeM Unit := do
  let t := (← MonadState.get).1
  let minkey ← liftResult t.memtable.getMinkey
  let maxkey ← liftResult t.memtable.getMaxkey
  let newSstable ← onHost (SSTableMeta.new minkey maxkey)
  onHost (Host.onDisk (runFs faults first (sstCalls newSstable.filename t.memtable.map)))
  modify fun s => ({ s.1 with sstables := s.1.sstables ++ [newSstable] }, s.2)
  flushMetadataIo faults (first + 2)
  modify fun s =>
      ({ s.1 with totalFlushedSize := s.1.totalFlushedSize + s.1.memtable.flushSize }, s.2)
  modify fun s => ({ s.1 with memtable := s.1.memtable.reset }, s.2)

def setIo (faults : IoFaults) (first : Nat) (key val : Bytes) : TreeM Unit := do
  if (← MonadState.get).1.memtable.needFlush key val then flushMemtableIo faults first
  modify fun s => ({ s.1 with memtable := s.1.memtable.insert key val }, s.2)

theorem runFs_sstCalls_none (first : Nat) (path : Bytes) (mt : MemTable) :
    runFs none first (sstCalls path mt.map) =
      SSTableFileBuilder.build path mt.writeEntriesToSstable := by
  funext d
  rw [runFs_none, applyAll_sstCalls, MemTable.writeEntriesToSstable, build_forM_add]

theorem flushMetadataIo_none (first : Nat) : flushMetadataIo none first = flushMetadata := by
  funext s
  simp only [flushMetadataIo, flushMetadata, onHost, Host.onDisk, zoom_apply, runFs_none,
    applyAll_metaCalls, modify_apply]

theorem flushMemtableIo_none (first : Nat) : flushMemtableIo none first = flushMemtable := by
  simp only [flushMemtableIo, flushMemtable, runFs_sstCalls_none, flushMetadataIo_none]

theorem setIo_none (first : Nat) (key val : Bytes) : setIo none first key val = set key val := by
  simp only [setIo, LSMTree.set, flushMemtableIo_none]

end LSMTree

open LSMTree

def RustyStore.setIo (faults : IoFaults) (timestamp : Duration) (key val : Bytes) :
    EStateM (Fault IoError) (RustyStore × Host) Unit := fun s =>
  let record := walRecord (timestamp, key, val)
  match Host.onDisk (runFs faults 0 [.append walFilename record]) s.2 with
  | .error e h => .error e (s.1, h)
  | .ok () h =>
      match LSMTree.setIo faults 1 key val (s.1.tree, h) with
      | .error .panic (t, h') => .error .panic ({ s.1 with tree := t }, h')
      | .error (.error _) (t, h') => .ok () ({ s.1 with tree := t }, h')
      | .ok () (t, h') => .ok () ({ s.1 with tree := t }, h')

theorem RustyStore.setIo_none (timestamp : Duration) (key val : Bytes) :
    RustyStore.setIo none timestamp key val = RustyStore.set timestamp key val := by
  funext s
  have hw : runFs none 0 [.append walFilename (walRecord (timestamp, key, val))] =
      WALWriter.add timestamp key val := by
    funext d
    rw [runFs_none]
    rfl
  simp only [RustyStore.setIo, hw, LSMTree.setIo_none]
  rfl

/-! ## A failure inside `flush_metadata` -/

theorem getMinkey_getMaxkey_of_ne_nil {mt : MemTable} (hne : mt.map ≠ []) :
    ∃ minkey maxkey, mt.getMinkey = .ok minkey ∧ mt.getMaxkey = .ok maxkey := by
  cases hm : mt.map with
  | nil => exact absurd hm hne
  | cons p ps =>
      exact ⟨p.1, ((p :: ps).getLast (List.cons_ne_nil p ps)).1,
        by simp only [MemTable.getMinkey, hm, List.head?_cons],
        by simp only [MemTable.getMaxkey, hm, List.getLast?_eq_getLast _ (List.cons_ne_nil p ps)]⟩

theorem SSTableFileReader.path_of_open {d : Disk} {p : Bytes} {r : SSTableFileReader}
    (h : SSTableFileReader.open d p = .ok r) : r.path = p := by
  simp only [SSTableFileReader.open, bind, Except.bind, pure, Except.pure] at h
  repeat' split at h
  all_goals first | cases h; rfl | cases h

theorem searchSstables_frame {d d' : Disk} (key : Bytes) :
    ∀ ms : List SSTableMeta, (∀ m ∈ ms, d'.files m.filename = d.files m.filename) →
      LSMTree.searchSstables d' key ms = LSMTree.searchSstables d key ms
  | [], _ => rfl
  | m :: ms, hf => by
      have hm := hf m (List.mem_cons_self m ms)
      have ih := searchSstables_frame key ms fun m' hm' => hf m' (List.mem_cons_of_mem m hm')
      simp only [LSMTree.searchSstables]
      split
      · have ho : SSTableFileReader.open d' m.filename = SSTableFileReader.open d m.filename := by
          simp only [SSTableFileReader.open, Disk.openFile, hm]
        rw [ho]
        cases hopen : SSTableFileReader.open d m.filename with
        | error err => rfl
        | ok r =>
            have hg : r.get d' key = r.get d key := by
              simp only [SSTableFileReader.get, Disk.openFile, SSTableFileReader.path_of_open hopen,
                hm]
            simp only [except_ok_bind, hg, ih]
      · exact ih

/-- When `set`'s flush fails at the table's `File::create` (call `1`, after the log record),
the tree's `set` returns `Err` before inserting the pair, and `RustyStore::set` returns `Ok`
with the store as it was: `get(key)` then answers what it answered before the call. -/
theorem store_set_ok_after_failed_flush (s : RustyStore) (h : Host) (timestamp : Duration)
    (key val : Bytes) (e : IoError) (hne : s.tree.memtable.map ≠ [])
    (hn : s.tree.memtable.needFlush key val = true)
    (hw : ∀ m ∈ s.tree.sstables, m.filename ≠ walFilename) :
    ∃ h₁ h₂, LSMTree.setIo (some (1, e)) 1 key val (s.tree, h₁) = .error (.error e) (s.tree, h₂) ∧
      RustyStore.setIo (some (1, e)) timestamp key val (s, h) = .ok () (s, h₂) ∧
      s.get h₂.disk key = s.get h.disk key := by
  obtain ⟨minkey, maxkey, hmin, hmax⟩ := getMinkey_getMaxkey_of_ne_nil hne
  have hset : ∀ h₁ : Host, LSMTree.setIo (some (1, e)) 1 key val (s.tree, h₁) =
      .error (.error e) (s.tree, { h₁ with drawn := h₁.drawn + 1 }) := by
    intro h₁
    simp only [LSMTree.setIo, flushMemtableIo, bind_apply, get_apply, hn, if_true, liftResult,
      hmin, hmax, onHost, zoom_apply, SSTableMeta.new, Host.onDisk, runFs_fault, length_sstCalls,
      if_pos (show 1 ≤ 1 ∧ 1 < 1 + 2 by decide), Nat.sub_self, List.take_zero, applyAll_nil]
  refine ⟨⟨applyAll h.disk [.append walFilename (walRecord (timestamp, key, val))], h.drawn⟩, _,
    hset _, ?_, ?_⟩
  · simp only [RustyStore.setIo, Host.onDisk, zoom_apply, runFs_fault, List.length_singleton,
      if_neg (show ¬(0 ≤ 1 ∧ 1 < 0 + 1) by decide), hset]
  · simp only [RustyStore.get, LSMTree.get]
    rw [searchSstables_frame key _ fun m hm => ?_]
    simp only [applyAll_cons, applyAll_nil, FsCall.apply, Disk.write_files_of_ne (hw m hm)]

theorem store_set_ok_after_failed_flush_c :
    (⟨⟨⟨[([97], [98])], 4194300⟩, [], 0⟩, 0⟩ : RustyStore).tree.memtable.map ≠ [] ∧
      (⟨⟨⟨[([97], [98])], 4194300⟩, [], 0⟩, 0⟩ : RustyStore).tree.memtable.needFlush [99] [100] ∧
      (∀ m ∈ (⟨⟨⟨[([97], [98])], 4194300⟩, [], 0⟩, 0⟩ : RustyStore).tree.sstables,
        m.filename ≠ walFilename) ∧
      ∃ h₁ h₂, LSMTree.setIo (some (1, .invalidInput)) 1 [99] [100]
          (⟨⟨[([97], [98])], 4194300⟩, [], 0⟩, h₁) =
          .error (.error .invalidInput) (⟨⟨[([97], [98])], 4194300⟩, [], 0⟩, h₂) ∧
        RustyStore.setIo (some (1, .invalidInput)) ⟨0, 0⟩ [99] [100]
          (⟨⟨⟨[([97], [98])], 4194300⟩, [], 0⟩, 0⟩, ⟨Disk.empty, 0⟩) =
          .ok () (⟨⟨⟨[([97], [98])], 4194300⟩, [], 0⟩, 0⟩, h₂) ∧
        RustyStore.get ⟨⟨⟨[([97], [98])], 4194300⟩, [], 0⟩, 0⟩ h₂.disk [99] = .ok none := by
  have hw : ∀ m ∈ ([] : List SSTableMeta), m.filename ≠ walFilename :=
    fun m hm => absurd hm (List.not_mem_nil m)
  obtain ⟨h₁, h₂, hs, hr, hg⟩ := store_set_ok_after_failed_flush
    ⟨⟨⟨[([97], [98])], 4194300⟩, [], 0⟩, 0⟩ ⟨Disk.empty, 0⟩ ⟨0, 0⟩ [99] [100] .invalidInput
    (List.cons_ne_nil _ _) (by decide) hw
  exact ⟨List.cons_ne_nil _ _, by decide, hw, h₁, h₂, hs, hr, hg.trans rfl⟩

end RustyDb.Storage
