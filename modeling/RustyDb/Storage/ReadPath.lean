import Mathlib.Data.List.Forall2
import RustyDb.Storage.TreeRuns

/-!
# The read path, against the tree with its tables in memory

`MemLsm` is the tree without its files: the memtable, and the pairs each flush wrote, oldest
first.  Its `get` asks the memtable, then each flushed table in the order `get` scans
`sstables`, and the first that holds the key answers.

Over every run of `set` and `flush_memtable` from the tree `LSMTree::new` opens on a root
with no manifest, with keys and values UTF-8 and each pair within the threshold, the tree and
`MemLsm` return the same results and hold the same memtable, and while the ids drawn are
fresh, `get` on the tree answers what `MemLsm.get` answers, for every key
(`get_refines_memLsm`).  The table files, the index `open` reads back and the `in_range`
test change no answer: a table is skipped only for a key it does not hold.

Each call is simulated once (`simulates_flush`, `simulates_set`), and the run follows from
`runCalls_sim`.
-/

namespace RustyDb.Storage

open LSMTree

/-! ## The tree with its tables in memory -/

/-- The memtable, and the pairs each flush wrote, oldest first. -/
structure MemLsm where
  memtable : MemTable
  tables : List (List (Bytes × Bytes))

namespace MemLsm

def empty : MemLsm := ⟨MemTable.new, []⟩

/-- `flush_memtable`: the memtable's pairs become the newest table.  On an empty memtable it
panics, as `get_minkey` does. -/
def flush : EStateM (Fault IoError) MemLsm Unit := fun a =>
  if a.memtable.map = [] then .error .panic a
  else .ok () ⟨MemTable.new, a.tables ++ [a.memtable.map]⟩

def set (key val : Bytes) : EStateM (Fault IoError) MemLsm Unit := do
  if (← get).memtable.needFlush key val then flush
  modify fun a => { a with memtable := a.memtable.insert key val }

def get (a : MemLsm) (key : Bytes) : Option Bytes :=
  match mapGet a.memtable.map key with
  | some v => some v
  | none => a.tables.findSome? fun ps => mapGet ps key

def run : TreeCall → EStateM (Fault IoError) MemLsm Unit
  | .set key val => set key val
  | .flushMemtable => flush

theorem flush_ok {a a' : MemLsm} {u : Unit} (h : flush a = .ok u a') :
    a'.memtable = MemTable.new := by
  unfold flush at h
  split at h
  · cases h
  · cases h; rfl

theorem set_eq (key val : Bytes) (a : MemLsm) :
    set key val a =
      if a.memtable.needFlush key val then
        match flush a with
        | .ok _ a' => .ok () { a' with memtable := a'.memtable.insert key val }
        | .error e a' => .error e a'
      else .ok () { a with memtable := a.memtable.insert key val } := by
  simp only [set, bind_apply, get_apply]
  split
  · rw [bind_apply]
    cases flush a <;> rfl
  · rfl

end MemLsm

/-- A call whose pair a table can hold: a UTF-8 key and value, within the threshold. -/
def TreeCall.Valid : TreeCall → Prop
  | .set key val =>
      utf8Valid key = true ∧ utf8Valid val = true ∧ MemTable.pairSize key val ≤ memtableThreshold
  | .flushMemtable => True

instance : DecidablePred TreeCall.Valid := fun c =>
  match c with
  | .set _ _ => inferInstanceAs (Decidable (_ ∧ _ ∧ _))
  | .flushMemtable => inferInstanceAs (Decidable True)

/-! ## Keys a table does not hold -/

theorem mapGet_eq_none {ps : List (Bytes × Bytes)} {k : Bytes} (h : ∀ p ∈ ps, p.1 ≠ k) :
    mapGet ps k = none := by
  induction ps with
  | nil => rfl
  | cons p ps ih =>
      simp only [mapGet, if_neg (h p (List.mem_cons_self p ps))]
      exact ih fun q hq => h q (List.mem_cons_of_mem p hq)

theorem lastValue_eq_mapGet {ps : List (Bytes × Bytes)} (hs : KeysSorted ps) (k : Bytes) :
    lastValue ps k = mapGet ps k := by
  induction ps with
  | nil => rfl
  | cons p ps ih =>
      obtain ⟨hlt, hs⟩ := List.pairwise_cons.mp hs
      simp only [lastValue, mapGet, ih hs]
      by_cases hk : p.1 = k
      · have hnone : mapGet ps k = none := mapGet_eq_none fun q hq hqk => by
          have := hlt q hq
          rw [hk, hqk, bytesLt_self] at this
          exact Bool.false_ne_true this
        simp only [hnone, hk, if_true]
      · simp only [hk, if_false]
        cases mapGet ps k <;> rfl

/-! ## The relation between the two levels -/

/-- `m` names a file of `h`'s disk, under an id already drawn, that holds the table of `ps`:
keys in order and UTF-8, a data section a `u32` locates, and every key in `m`'s range. -/
structure SSTableMeta.Holds (m : SSTableMeta) (h : Host) (ps : List (Bytes × Bytes)) :
    Prop where
  named : ∃ i < h.drawn, m.filename = sstFilename i
  file : h.disk.files m.filename = some (sstFile ps)
  sorted : KeysSorted ps
  valid : PairsValid ps
  small : (dataSection ps).length < 2 ^ 32
  inRange : ∀ p ∈ ps, m.inRange p.1

/-- A memtable a flush writes a readable table from: keys in order and UTF-8, no more bytes
than `flush_size` counts, and no more than the threshold. -/
structure MemTable.Readable (mt : MemTable) : Prop where
  sorted : KeysSorted mt.map
  valid : PairsValid mt.map
  counted : MemTable.entriesSize mt.map ≤ mt.flushSize
  small : MemTable.entriesSize mt.map ≤ memtableThreshold

/-- The tree refines `a`: the same memtable, and while the ids drawn are fresh, the tree's
tables hold `a`'s tables, in order. -/
structure Refines (s : LSMTree × Host) (a : MemLsm) : Prop where
  memtable : s.1.memtable = a.memtable
  readable : a.memtable.Readable
  tables : s.2.drawn ≤ 16 ^ 32 → List.Forall₂ (fun m ps => m.Holds s.2 ps) s.1.sstables a.tables

theorem MemTable.readable_new : MemTable.new.Readable :=
  ⟨List.Pairwise.nil, fun _ h => absurd h (List.not_mem_nil _), le_refl 0, Nat.zero_le _⟩

theorem MemTable.Readable.insert {mt : MemTable} (hr : mt.Readable) {key val : Bytes}
    (hv : (TreeCall.set key val).Valid) (hn : mt.needFlush key val = false) :
    (mt.insert key val).Readable := by
  simp only [MemTable.needFlush, decide_eq_false_iff_not, not_lt] at hn
  have hle := entriesSize_mapInsert_le mt.map key val
  have hc := hr.counted
  refine ⟨mapInsert_sorted hr.sorted key val, fun p hp => ?_, ?_, ?_⟩
  · rcases mem_mapInsert hp with rfl | hp
    · exact ⟨hv.1, hv.2.1⟩
    · exact hr.valid p hp
  · simp only [MemTable.insert]; omega
  · simp only [MemTable.insert]; omega

theorem MemTable.readable_new_insert {key val : Bytes} (hv : (TreeCall.set key val).Valid) :
    (MemTable.new.insert key val).Readable := by
  have hsize : MemTable.entriesSize [(key, val)] = MemTable.pairSize key val := by
    simp [MemTable.entriesSize]
  refine ⟨List.pairwise_singleton _ _, fun p hp => ?_, ?_, ?_⟩
  · rw [List.mem_singleton.mp hp]; exact ⟨hv.1, hv.2.1⟩
  · simp only [MemTable.insert, MemTable.new, mapInsert, hsize, Nat.zero_add, le_refl]
  · simp only [MemTable.insert, MemTable.new, mapInsert, hsize]; exact hv.2.2

theorem SSTableMeta.Holds.flush {m : SSTableMeta} {h : Host} {ps : List (Bytes × Bytes)}
    (hm : m.Holds h ps) (hd : h.drawn < 16 ^ 32) (f g : Bytes) :
    m.Holds ⟨(h.disk.write (sstFilename h.drawn) f).write metaFilename g, h.drawn + 1⟩ ps := by
  obtain ⟨i, hi, hname⟩ := hm.named
  have hne : m.filename ≠ sstFilename h.drawn := fun heq =>
    Nat.ne_of_lt hi (sstFilename_inj (Nat.lt_trans hi hd) hd (hname.symm.trans heq))
  refine ⟨⟨i, Nat.lt_succ_of_lt hi, hname⟩, ?_, hm.sorted, hm.valid, hm.small, hm.inRange⟩
  rw [Disk.write_files_of_ne (hname ▸ sstFilename_ne_metaFilename i), Disk.write_files_of_ne hne,
    hm.file]

theorem MemTable.Readable.holds_flushed {mt : MemTable} (hr : mt.Readable) {minkey maxkey : Bytes}
    (hmin : mt.map.head?.map Prod.fst = some minkey)
    (hmax : mt.map.getLast?.map Prod.fst = some maxkey) (h : Host) (sstables : List SSTableMeta) :
    SSTableMeta.Holds ⟨sstFilename h.drawn, 0, minkey, maxkey⟩
      ⟨(h.disk.write (sstFilename h.drawn) (sstFile mt.map)).write metaFilename
        (metaFile sstables), h.drawn + 1⟩ mt.map := by
  have hsmall : (dataSection mt.map).length < 2 ^ 32 := by
    rw [length_dataSection]
    exact lt_of_le_of_lt hr.small (by decide)
  refine ⟨⟨h.drawn, Nat.lt_succ_self _, rfl⟩, ?_, hr.sorted, hr.valid, hsmall,
    inRange_of_sorted hr.sorted hmin hmax⟩
  rw [Disk.write_files_of_ne (sstFilename_ne_metaFilename h.drawn), Disk.write_files_self]

theorem Refines.insert {s : LSMTree × Host} {a : MemLsm} (hR : Refines s a) {key val : Bytes}
    (hr : (a.memtable.insert key val).Readable) :
    Refines ({ s.1 with memtable := s.1.memtable.insert key val }, s.2)
      { a with memtable := a.memtable.insert key val } :=
  ⟨by rw [hR.memtable], hr, hR.tables⟩

theorem refines_empty (h : Host) : Refines (LSMTree.empty, h) MemLsm.empty :=
  ⟨rfl, MemTable.readable_new, fun _ => List.Forall₂.nil⟩

/-! ## One call at a time -/

theorem simulates_flush : Simulates Refines flushMemtable MemLsm.flush := by
  rintro ⟨t, h⟩ a hR
  rcases flushMemtable_cases t h with ⟨hm, hf⟩ | ⟨minkey, maxkey, hmin, hmax, hf⟩ <;> rw [hf]
  · have ha : a.memtable.map = [] := hR.memtable ▸ hm
    simp only [MemLsm.flush, ha, if_true]
    exact ⟨rfl, hR⟩
  · have hne : a.memtable.map ≠ [] := fun ha => by
      rw [hR.memtable, ha] at hmin
      cases hmin
    simp only [MemLsm.flush, hne, if_false]
    refine ⟨rfl, rfl, MemTable.readable_new, fun hd => ?_⟩
    have hd' : h.drawn < 16 ^ 32 := hd
    refine List.rel_append ((hR.tables (Nat.le_of_lt hd')).imp fun m ps hm => hm.flush hd' _ _)
      (.cons ?_ .nil)
    rw [← hR.memtable]
    exact (hR.memtable ▸ hR.readable).holds_flushed hmin hmax h _

theorem simulates_set {key val : Bytes} (hv : (TreeCall.set key val).Valid) :
    Simulates Refines (LSMTree.set key val) (MemLsm.set key val) := by
  rintro ⟨t, h⟩ a hR
  have hstep := simulates_flush (t, h) a hR
  have hcond : t.memtable.needFlush key val = a.memtable.needFlush key val := by
    rw [hR.memtable]
  rw [set_cases, MemLsm.set_eq, hcond]
  cases hn : a.memtable.needFlush key val
  · exact ⟨rfl, hR.insert (hR.memtable ▸ hR.readable.insert hv hn)⟩
  · -- the flush first: both levels return alike, and the insert goes to a new memtable
    simp only [if_true]
    cases hc : flushMemtable (t, h) <;> cases hd : MemLsm.flush a <;> rw [hc, hd] at hstep
    · exact ⟨rfl, hstep.2.insert (MemLsm.flush_ok hd ▸ MemTable.readable_new_insert hv)⟩
    · cases hstep.1
    · cases hstep.1
    · exact hstep

theorem TreeCall.simulates_run {c : TreeCall} (hv : c.Valid) :
    Simulates Refines c.run (MemLsm.run c) := by
  cases c with
  | set key val => exact simulates_set hv
  | flushMemtable => exact simulates_flush

/-! ## The read path -/

theorem searchSstables_eq {h : Host} (key : Bytes) :
    ∀ {ms : List SSTableMeta} {tables : List (List (Bytes × Bytes))},
      List.Forall₂ (fun m ps => m.Holds h ps) ms tables →
      searchSstables h.disk key ms = .ok (tables.findSome? fun ps => mapGet ps key)
  | [], [], .nil => rfl
  | m :: ms, ps :: tables, .cons hm hrest => by
      have ih := searchSstables_eq key hrest
      simp only [searchSstables, List.findSome?_cons]
      split
      · simp only [open_sstFile hm.valid hm.small hm.file, except_ok_bind,
          get_sstFile hm.small hm.file, lastValue_eq_mapGet hm.sorted]
        cases mapGet ps key with
        | some v => rfl
        | none => exact ih
      · have hnone : mapGet ps key = none := mapGet_eq_none fun p hp hpk =>
          ‹¬m.inRange key = true› (hpk ▸ hm.inRange p hp)
        simp only [hnone, ih]

theorem get_eq_of_refines {s : LSMTree × Host} {a : MemLsm} (hR : Refines s a)
    (hd : s.2.drawn ≤ 16 ^ 32) (key : Bytes) : s.1.get s.2.disk key = .ok (a.get key) := by
  simp only [LSMTree.get, MemLsm.get, hR.memtable]
  cases mapGet a.memtable.map key with
  | some v => rfl
  | none => exact searchSstables_eq key (hR.tables hd)

/-- Over every run of `set` and `flush_memtable` from the tree `LSMTree::new` opens on a root
with no manifest, with UTF-8 keys and values and each pair within the threshold: the tree and
`MemLsm` return the same results and hold the same memtable, and while the ids drawn are fresh,
`get` answers, for every key, from the memtable and then from the flushed tables, oldest
first, as `MemLsm.get` does, without an error or a panic. -/
theorem get_refines_memLsm {h h₀ : Host} {t : LSMTree} (hm : h.disk.files metaFilename = none)
    (hnew : LSMTree.new h = .ok t h₀) (cs : List TreeCall) (hv : ∀ c ∈ cs, c.Valid) :
    let s := runCalls TreeCall.run cs (t, h₀)
    let a := runCalls MemLsm.run cs MemLsm.empty
    s.1 = a.1 ∧ s.2.1.memtable = a.2.memtable ∧
      (s.2.2.drawn ≤ 16 ^ 32 → ∀ key, s.2.1.get s.2.2.disk key = .ok (a.2.get key)) := by
  rw [new_of_no_meta hm] at hnew
  cases hnew
  obtain ⟨hres, hR⟩ := runCalls_sim cs (fun c hc => TreeCall.simulates_run (hv c hc))
    (refines_empty h)
  exact ⟨hres, hR.memtable, fun hd key => get_eq_of_refines hR hd key⟩

theorem get_refines_memLsm_two_flushes :
    (Disk.empty : Disk).files metaFilename = none ∧
      LSMTree.new ⟨Disk.empty, 0⟩ = .ok LSMTree.empty ⟨Disk.empty, 0⟩ ∧
      (∀ c ∈ [TreeCall.set [97] [98], .flushMemtable, .set [97] [99], .flushMemtable], c.Valid) ∧
      let s := runCalls TreeCall.run
        [.set [97] [98], .flushMemtable, .set [97] [99], .flushMemtable]
        (LSMTree.empty, ⟨Disk.empty, 0⟩)
      let a := runCalls MemLsm.run [.set [97] [98], .flushMemtable, .set [97] [99], .flushMemtable]
        MemLsm.empty
      s.1 = a.1 ∧ s.2.1.memtable = a.2.memtable ∧
        (s.2.2.drawn ≤ 16 ^ 32 → ∀ key, s.2.1.get s.2.2.disk key = .ok (a.2.get key)) :=
  ⟨rfl, new_of_no_meta rfl, by decide,
    get_refines_memLsm rfl (new_of_no_meta rfl) _ (by decide)⟩

end RustyDb.Storage
