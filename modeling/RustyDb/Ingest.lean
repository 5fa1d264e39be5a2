import RustyDb.Gorilla.Api
import RustyDb.Storage.LsmTree
import Mathlib.Data.List.Basic

/-!
# Storing compressed blocks

What `main` does with each block of samples: the key is the series hash and the start
time, each as eight little-endian bytes taken as a `String` unchecked, and the value is
the block's `to_string`, also unchecked.  Neither is always UTF-8, while
`SSTableFileReader::open` unwraps `String::from_utf8` of every key of a table's index:
once the memtable holding such a key is flushed, `get` of the key panics.

The loop of `main` reads the data file line by line.  A `tags` line becomes `prev_tag`; a
`cpu` line's sample is pushed to the vector of its series, found in `key_entry_table` by the
hash of `prev_tag` and the metric; a vector that reaches `NUM_DATALINES` samples is stored as
one block and removed.  After any run of the loop that returns, the tree has seen the `set`
of each block in order, and under every hash the blocks stored, then the vector pending, make
up the samples read under that hash: each block holds exactly `NUM_DATALINES` samples and each
vector pending between one and `NUM_DATALINES - 1`, which `main` never stores
(`ingest_batches`).

`DefaultHasher` and the decimal parses of `parse_dataline` are parameters: the model's times
are whole seconds (see the writers), and the results hold for every hash, collisions
included, and every parse, a failed one being a panic.
-/

namespace RustyDb

open Storage Gorilla

def importKey (ckeyhash : U64) (startNanos : Int) : Bytes :=
  u64Bytes ckeyhash.toNat ++ u64Bytes (startNanos % 2 ^ 64).toNat

def storeBlock (ckeyhash : U64) (startNanos : Int) (block : GorillaBlock) : TreeM Unit :=
  LSMTree.set (importKey ckeyhash startNanos) block.toString

/-- A block stored under a key that is not UTF-8, on any tree with an empty memtable: after
`flush_memtable`, `get` of the key panics in `SSTableFileReader::open`. -/
theorem get_panics_on_non_utf8_key (h : Host) (key : Bytes) (block : GorillaBlock)
    (hk : utf8Valid key = false) (hs : MemTable.pairSize key block.toString ≤ memtableThreshold) :
    ∃ t h',
      (do LSMTree.set key block.toString; LSMTree.flushMemtable) (LSMTree.empty, h) =
        .ok () (t, h') ∧
      t.get h'.disk key = .error .panic := by
  simp only [LSMTree.empty, bind_apply, set_new_of_le hs, flushMemtable_single]
  refine ⟨_, _, rfl, ?_⟩
  have hsz : (dataSection [(key, block.toString)]).length < 2 ^ 32 := by
    simp only [dataSection_cons, dataSection_nil, List.append_nil, length_sstEntry]
    simp only [MemTable.pairSize, memtableThreshold] at hs
    omega
  have hfile :=
      Disk.write_files_of_ne
          (d := h.disk.write (sstFilename h.drawn) (sstFile [(key, block.toString)]))
    (sstFilename_ne_metaFilename h.drawn) (metaFile [⟨sstFilename h.drawn, 0, key, key⟩])
  rw [Disk.write_files_self] at hfile
  simp only [LSMTree.get, MemTable.new, mapGet, List.nil_append, LSMTree.searchSstables,
    SSTableMeta.inRange_self, if_true, open_sstFile_panic hk hsz hfile]
  rfl

theorem get_panics_on_import_key :
    ∃ block, compressValues [⟨0, [0]⟩] 0 1 = some block ∧ ∃ t h',
      (do LSMTree.set (importKey 255 0) block.toString; LSMTree.flushMemtable)
        (LSMTree.empty, ⟨Disk.empty, 0⟩) = .ok () (t, h') ∧
      t.get h'.disk (importKey 255 0) = .error .panic :=
  ⟨_, rfl, get_panics_on_non_utf8_key ⟨Disk.empty, 0⟩ (importKey 255 0) _ (by decide) (by decide)⟩

/-! ## The loop of `main` -/

def numDatalines : Nat := 500

def tagsStr : Bytes := [116, 97, 103, 115]

def cpuStr : Bytes := [99, 112, 117]

structure ConstructKey where
  tagstr : Bytes
  metric : Bytes

/-- What `main` carries from line to line: `prev_tag` and `key_entry_table`.  The table is a
`HashMap<u64, Vec<MVEntry>>` that `main` reads and writes key by key and never iterates, so
it is kept as the function from each key to its vector. -/
structure Importer where
  prevTag : Bytes
  keyEntryTable : U64 → Option (List MVEntry)

namespace Importer

def empty : Importer := ⟨[], fun _ => none⟩

def setEntries (g : Importer) (k : U64) (v : Option (List MVEntry)) : Importer :=
  { g with keyEntryTable := fun k' => if k' = k then v else g.keyEntryTable k' }

@[simp] theorem setEntries_prevTag (g : Importer) (k : U64) (v : Option (List MVEntry)) :
    (g.setEntries k v).prevTag = g.prevTag := rfl

@[simp] theorem setEntries_self (g : Importer) (k : U64) (v : Option (List MVEntry)) :
    (g.setEntries k v).keyEntryTable k = v := if_pos rfl

theorem setEntries_of_ne (g : Importer) {k k' : U64} (h : k' ≠ k) (v : Option (List MVEntry)) :
    (g.setEntries k v).keyEntryTable k' = g.keyEntryTable k' := if_neg h

@[simp] theorem setEntries_setEntries (g : Importer) (k : U64) (v w : Option (List MVEntry)) :
    (g.setEntries k v).setEntries k w = g.setEntries k w := by
  simp only [setEntries, mk.injEq, true_and]
  funext k'
  split <;> rfl

end Importer

/-- Lines 109 to 142 of `main`, for a vector that reached `NUM_DATALINES`: the block of the
vector, from the first sample's time with the first sample's dimension, set in the tree under
the series hash and that time in nanoseconds.  `timestamp_nanos` overflows, as in a debug
build, outside `i64`; the `Result` of `tree.set` is dropped. -/
def storeEntries (ckeyhash : U64) (currMventries : List MVEntry) : TreeM Unit := fun s =>
  match currMventries with
  | [] => .error .panic s
  | e :: _ =>
      let startDtNanots := e.time * 1000000000
      if -2 ^ 63 ≤ startDtNanots ∧ startDtNanots < 2 ^ 63 then
        match compressValues currMventries e.time e.values.length with
        | none => .error .panic s
        | some entryblk =>
            match storeBlock ckeyhash startDtNanots entryblk s with
            | .error .panic s' => .error .panic s'
            | .error (.error _) s' => .ok () s'
            | .ok () s' => .ok () s'
      else .error .panic s

section Loop

variable (computeKeyHash : ConstructKey → U64) (parseDataline : List Bytes → Option MVEntry)

def ingestLine (ip : Bytes) : EStateM (Fault IoError) (Importer × LSMTree × Host) Unit :=
  fun (g, s) =>
  let tokens := ip.splitOn 44
  if tokens.head? = some tagsStr then .ok () ({ g with prevTag := ip }, s)
  else if tokens.head? = some cpuStr then
    let ckeyhash := computeKeyHash ⟨g.prevTag, cpuStr⟩
    match g.keyEntryTable ckeyhash with
    | some currMventries =>
        match parseDataline tokens with
        | none => .error .panic (g, s)
        | some e =>
            let g := g.setEntries ckeyhash (some (currMventries ++ [e]))
            if numDatalines ≤ (currMventries ++ [e]).length then
              match storeEntries ckeyhash (currMventries ++ [e]) s with
              | .ok () s' => .ok () (g.setEntries ckeyhash none, s')
              | .error err s' => .error err (g, s')
            else .ok () (g, s)
    | none =>
        match parseDataline tokens with
        | none => .error .panic (g.setEntries ckeyhash (some []), s)
        | some e => .ok () (g.setEntries ckeyhash (some [e]), s)
  else .ok () (g, s)

/-- `main` once the data file is read into `lines`: `LSMTree::new(&rootdir).unwrap()`, the loop,
then `tree.flush_memtable()`, whose `Result` is dropped. -/
def main (lines : List Bytes) : EStateM (Fault IoError) Host Unit := fun h =>
  match LSMTree.new h with
  | .error _ h' => .error .panic h'
  | .ok tree h' =>
      match lines.forM (ingestLine computeKeyHash parseDataline) (Importer.empty, tree, h') with
      | .error e (_, _, h'') => .error e h''
      | .ok () (_, tree, h'') =>
          match LSMTree.flushMemtable (tree, h'') with
          | .error .panic (_, h₃) => .error .panic h₃
          | .error (.error _) (_, h₃) => .ok () h₃
          | .ok () (_, h₃) => .ok () h₃

/-! ## The samples a run files under each hash -/

def nextTag (prevTag ip : Bytes) : Bytes :=
  if (ip.splitOn 44).head? = some tagsStr then ip else prevTag

def lineSamples (prevTag ip : Bytes) : List (U64 × MVEntry) :=
  if (ip.splitOn 44).head? = some tagsStr then []
  else if (ip.splitOn 44).head? = some cpuStr then
    ((parseDataline (ip.splitOn 44)).map fun e => (computeKeyHash ⟨prevTag, cpuStr⟩, e)).toList
  else []

/-- The samples of the lines, in order, each under the hash of its series. -/
def samples : Bytes → List Bytes → List (U64 × MVEntry)
  | _, [] => []
  | prevTag, ip :: lines =>
      lineSamples computeKeyHash parseDataline prevTag ip ++
        samples (nextTag prevTag ip) lines

end Loop

def under {α : Type} (k : U64) (xs : List (U64 × α)) : List α :=
  xs.filterMap fun x => if x.1 = k then some x.2 else none

@[simp] theorem under_nil {α : Type} (k : U64) : under k ([] : List (U64 × α)) = [] := rfl

@[simp] theorem under_append {α : Type} (k : U64) (xs ys : List (U64 × α)) :
    under k (xs ++ ys) = under k xs ++ under k ys :=
  List.filterMap_append _ _ _

theorem under_singleton {α : Type} (k k' : U64) (a : α) :
    under k [(k', a)] = if k' = k then [a] else [] := by
  by_cases h : k' = k <;> simp [under, h]

/-- The blocks stored and the vectors pending against the samples read: under each hash, the
blocks stored, in order, then the vector pending make up the samples of the series; a block
holds `NUM_DATALINES` samples, a vector pending between one and `NUM_DATALINES - 1`. -/
structure Batched (g : Importer) (blocks : List (U64 × List MVEntry))
    (seen : List (U64 × MVEntry)) : Prop where
  conserved : ∀ k, (under k blocks).flatten ++ (g.keyEntryTable k).getD [] = under k seen
  full : ∀ b ∈ blocks, b.2.length = numDatalines
  pending : ∀ k v, g.keyEntryTable k = some v → 0 < v.length ∧ v.length < numDatalines

theorem batched_empty : Batched Importer.empty [] [] :=
  ⟨fun _ => rfl, fun _ h => absurd h (List.not_mem_nil _), fun _ _ h => Option.noConfusion h⟩

theorem Batched.update {g : Importer} {blocks nb : List (U64 × List MVEntry)}
    {seen : List (U64 × MVEntry)} {k : U64} {e : MVEntry} {v : List MVEntry}
    {w : Option (List MVEntry)} (hb : Batched g blocks seen) (hk : (g.keyEntryTable k).getD [] = v)
    (hw : (under k nb).flatten ++ w.getD [] = v ++ [e])
    (hnb : ∀ b ∈ nb, b.1 = k ∧ b.2.length = numDatalines)
    (hpend : ∀ u, w = some u → 0 < u.length ∧ u.length < numDatalines) :
    Batched (g.setEntries k w) (blocks ++ nb) (seen ++ [(k, e)]) := by
  refine ⟨fun k' => ?_, ?_, fun k' u hu => ?_⟩
  · rw [under_append, under_append, under_singleton, List.flatten_append, List.append_assoc]
    by_cases hk' : k' = k
    · subst hk'
      rw [Importer.setEntries_self, hw, if_pos rfl, ← List.append_assoc, ← hk, hb.conserved]
    · have hnil : under k' nb = [] :=
        List.filterMap_eq_nil_iff.mpr fun b hb' =>
        by rw [if_neg fun h' => hk' (h'.symm.trans (hnb b hb').1)]
      rw [Importer.setEntries_of_ne g hk', hnil, List.flatten_nil, List.nil_append,
        if_neg (Ne.symm hk'), List.append_nil, hb.conserved]
  · intro b hb'
    rcases List.mem_append.mp hb' with hb' | hb'
    · exact hb.full b hb'
    · exact (hnb b hb').2
  · by_cases hk' : k' = k
    · subst hk'
      exact hpend u (by rwa [Importer.setEntries_self] at hu)
    · exact hb.pending k' u (by rwa [Importer.setEntries_of_ne g hk'] at hu)

section Loop

variable {computeKeyHash : ConstructKey → U64} {parseDataline : List Bytes → Option MVEntry}

theorem ingestLine_batched {g g' : Importer} {s s' : LSMTree × Host} {ip : Bytes}
    {blocks : List (U64 × List MVEntry)} {seen : List (U64 × MVEntry)}
    (hb : Batched g blocks seen)
    (h : ingestLine computeKeyHash parseDataline ip (g, s) = .ok () (g', s')) :
    ∃ nb : List (U64 × List MVEntry), (nb.forM fun b => storeEntries b.1 b.2) s = .ok () s' ∧
      g'.prevTag = nextTag g.prevTag ip ∧
      Batched g' (blocks ++ nb)
        (seen ++ lineSamples computeKeyHash parseDataline g.prevTag ip) := by
  simp only [ingestLine] at h
  simp only [nextTag, lineSamples]
  split_ifs at h ⊢ with ht hc
  · -- a `tags` line
    cases h
    exact ⟨[], rfl, rfl, by simpa only [List.append_nil] using ⟨hb.conserved, hb.full, hb.pending⟩⟩
  · -- a `cpu` line
    generalize computeKeyHash ⟨g.prevTag, cpuStr⟩ = k at h ⊢
    cases he : parseDataline (ip.splitOn 44) with
    | none => cases hk : g.keyEntryTable k <;> simp only [hk, he] at h <;> cases h
    | some e =>
      simp only [Option.map_some', Option.toList_some]
      cases hk : g.keyEntryTable k with
      | none =>
          -- the first sample of a series
          simp only [hk, he] at h
          cases h
          exact ⟨[], rfl, rfl, hb.update (by rw [hk]) (by simp)
            (fun b hb' => absurd hb' (List.not_mem_nil _))
            fun u hu => by cases hu; exact ⟨Nat.one_pos, show 1 < 500 by decide⟩⟩
      | some v =>
          simp only [hk, he] at h
          have hlt := (hb.pending k v hk).2
          split at h
          · -- the vector is full: it is stored and removed
            rename_i hfull
            cases hs : storeEntries k (v ++ [e]) s with
            | error err s₁ => rw [hs] at h; cases h
            | ok u s₁ =>
                rw [hs] at h
                cases h
                refine ⟨[(k, v ++ [e])], ?_, rfl, ?_⟩
                · rw [List.forM_cons', bind_apply, hs]
                  rfl
                · rw [Importer.setEntries_setEntries]
                  refine hb.update (by rw [hk]) (by simp [under_singleton]) ?_
                    fun u hu => Option.noConfusion hu
                  intro b hb'
                  rw [List.mem_singleton.mp hb']
                  refine ⟨rfl, ?_⟩
                  simp only [List.length_append, List.length_singleton] at hfull ⊢
                  omega
          · -- the vector grows
            rename_i hgrow
            cases h
            exact ⟨[], rfl, rfl, hb.update (by rw [hk]) (by simp)
              (fun b hb' => absurd hb' (List.not_mem_nil _))
              fun u hu => by cases hu; exact ⟨by simp, Nat.lt_of_not_le hgrow⟩⟩
  · -- any other line
    cases h
    exact ⟨[], rfl, rfl, by simpa only [List.append_nil] using hb⟩

theorem forM_ingestLine_batched : ∀ {lines : List Bytes} {g g' : Importer}
    {s s' : LSMTree × Host} {blocks : List (U64 × List MVEntry)} {seen : List (U64 × MVEntry)},
    Batched g blocks seen →
    lines.forM (ingestLine computeKeyHash parseDataline) (g, s) = .ok () (g', s') →
    ∃ nb : List (U64 × List MVEntry), (nb.forM fun b => storeEntries b.1 b.2) s = .ok () s' ∧
      Batched g' (blocks ++ nb) (seen ++ samples computeKeyHash parseDataline g.prevTag lines)
  | [], _, _, _, _, _, _, hb, h => by
      cases h
      exact ⟨[], rfl, by simpa only [samples, List.append_nil] using hb⟩
  | ip :: lines, g, g', s, s', blocks, seen, hb, h => by
      rw [List.forM_cons'] at h
      obtain ⟨⟨⟩, ⟨g₁, s₁⟩, h₁, hr⟩ := ok_of_bind_eq_ok h
      obtain ⟨nb₁, hs₁, htag, hb₁⟩ := ingestLine_batched hb h₁
      obtain ⟨nb₂, hs₂, hb₂⟩ := forM_ingestLine_batched hb₁ hr
      refine ⟨nb₁ ++ nb₂, forM_append_of_ok hs₁ hs₂, ?_⟩
      rw [samples, ← htag, ← List.append_assoc, ← List.append_assoc]
      exact hb₂

/-- Every run of the loop of `main` that returns, from the empty table, for every hash and
every parse: the tree ends as the `set` of a list of blocks, in order, leaves it, and under
each hash the blocks stored, then the vector pending, are the samples read under that hash,
each block of `NUM_DATALINES` samples and each vector pending of fewer, never none. -/
theorem ingest_batches (lines : List Bytes) (s : LSMTree × Host) {g : Importer}
    {s' : LSMTree × Host}
    (h : lines.forM (ingestLine computeKeyHash parseDataline) (Importer.empty, s) =
      .ok () (g, s')) :
    ∃ blocks : List (U64 × List MVEntry),
      (blocks.forM fun b => storeEntries b.1 b.2) s = .ok () s' ∧
        Batched g blocks (samples computeKeyHash parseDataline [] lines) := by
  simpa only [List.nil_append] using forM_ingestLine_batched batched_empty h

end Loop

theorem ingest_batches_tags_then_cpu :
    ∃ g s', [[116, 97, 103, 115, 44, 97], [99, 112, 117, 44, 49]].forM
        (ingestLine (fun c => (c.tagstr.length : U64)) fun tokens => some ⟨tokens.length, []⟩)
        (Importer.empty, LSMTree.empty, ⟨Disk.empty, 0⟩) = .ok () (g, s') ∧
      ∃ blocks : List (U64 × List MVEntry),
        (blocks.forM fun b => storeEntries b.1 b.2) (LSMTree.empty, ⟨Disk.empty, 0⟩) =
          .ok () s' ∧
        Batched g blocks (samples (fun c => (c.tagstr.length : U64))
          (fun tokens => some ⟨tokens.length, []⟩) []
          [[116, 97, 103, 115, 44, 97], [99, 112, 117, 44, 49]]) :=
  ⟨_, _, rfl, ingest_batches _ _ rfl⟩

end RustyDb
