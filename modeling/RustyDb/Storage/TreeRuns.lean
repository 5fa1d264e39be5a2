import RustyDb.Storage.Store

/-!
# What every run of the tree keeps

Runs of `LSMTree::set` and `flush_memtable` calls, with the file system calls succeeding,
from the tree `LSMTree::new` returns.  Each call's effect is said once (`flushMemtable_cases`,
`set_cases`), and each invariant is kept by both calls, so it holds after every call of
every run.

The memtable stays small: it holds one entry, or its entries take at most
`MEMTABLE_THRESHOLD` bytes in a data section.  `flush_size` over-counts after an
overwrite, but never under-counts, so the check `need_flush` makes on it is safe.

The tables stay described by their metadata: every `SSTableMeta` names a file that holds
the pairs of a memtable, with keys strictly increasing, the first key its `min_key` and the
last its `max_key`.  Their ids are fresh as long as fewer than `2^128` have been drawn:
`Uuid::new_v4` shows 128 bits, and the model draws them in order.
-/

namespace RustyDb.Storage

open LSMTree

/-! ## The order on keys -/

theorem bytesLt_trans : ∀ {a b c : Bytes}, bytesLt a b → bytesLt b c → bytesLt a c
  | [], [], _, h, _ => absurd h (by decide)
  | [], _ :: _, [], _, h => absurd h (by simp [bytesLt])
  | [], _ :: _, _ :: _, _, _ => rfl
  | _ :: _, [], _, h, _ => absurd h (by simp [bytesLt])
  | _ :: _, _ :: _, [], _, h => absurd h (by simp [bytesLt])
  | x :: a, y :: b, z :: c, h₁, h₂ => by
      simp only [bytesLt, Bool.or_eq_true, decide_eq_true_eq, Bool.and_eq_true] at h₁ h₂ ⊢
      rcases h₁ with h₁ | ⟨rfl, h₁⟩ <;> rcases h₂ with h₂ | ⟨rfl, h₂⟩
      · exact .inl (Fin.lt_trans h₁ h₂)
      · exact .inl h₁
      · exact .inl h₂
      · exact .inr ⟨rfl, bytesLt_trans h₁ h₂⟩

theorem bytesLt_asymm {a b : Bytes} (h : bytesLt a b) : bytesLt b a = false := by
  cases hba : bytesLt b a
  · rfl
  · simpa using bytesLt_trans h hba

theorem bytesLt_of_not_lt : ∀ {a b : Bytes}, a ≠ b → bytesLt a b = false → bytesLt b a
  | [], [], h, _ => absurd rfl h
  | [], _ :: _, _, h => absurd h (by simp [bytesLt])
  | _ :: _, [], _, _ => rfl
  | x :: a, y :: b, hne, h => by
      simp only [bytesLt, Bool.or_eq_false_iff, decide_eq_false_iff_not, Bool.and_eq_false_imp,
        decide_eq_true_eq] at h
      simp only [bytesLt, Bool.or_eq_true, decide_eq_true_eq, Bool.and_eq_true]
      by_cases hyx : y < x
      · exact .inl hyx
      · obtain rfl := Fin.le_antisymm (Fin.not_lt.mp hyx) (Fin.not_lt.mp h.1)
        exact .inr ⟨rfl, bytesLt_of_not_lt (fun hab => hne (hab ▸ rfl)) (h.2 rfl)⟩

/-! ## The memtable's map -/

def KeysSorted (m : List (Bytes × Bytes)) : Prop := m.Pairwise fun p q => bytesLt p.1 q.1

theorem mem_mapInsert {m : List (Bytes × Bytes)} {k v : Bytes} {x : Bytes × Bytes}
    (h : x ∈ mapInsert m k v) : x = (k, v) ∨ x ∈ m := by
  induction m with
  | nil => simpa [mapInsert] using h
  | cons e m ih =>
      simp only [mapInsert] at h
      split_ifs at h <;> simp only [List.mem_cons] at h
      · rcases h with h | h <;> simp [h]
      · rcases h with h | h | h <;> simp [h]
      · rcases h with h | h
        · simp [h]
        · rcases ih h with h | h <;> simp [h]

theorem mapInsert_sorted {m : List (Bytes × Bytes)} (hm : KeysSorted m) (k v : Bytes) :
    KeysSorted (mapInsert m k v) := by
  induction m with
  | nil => exact List.pairwise_singleton _ _
  | cons e m ih =>
      obtain ⟨he, hm'⟩ := List.pairwise_cons.mp hm
      simp only [mapInsert]
      split_ifs with hk hl
      · exact List.pairwise_cons.mpr ⟨fun y hy => hk ▸ he y hy, hm'⟩
      · refine List.pairwise_cons.mpr ⟨fun y hy => ?_, hm⟩
        rcases List.mem_cons.mp hy with rfl | hy
        · exact hl
        · exact bytesLt_trans hl (he y hy)
      · refine List.pairwise_cons.mpr ⟨fun y hy => ?_, ih hm'⟩
        rcases mem_mapInsert hy with rfl | hy
        · exact bytesLt_of_not_lt hk (Bool.eq_false_iff.mpr hl)
        · exact he y hy

theorem entriesSize_mapInsert_le (m : List (Bytes × Bytes)) (k v : Bytes) :
    MemTable.entriesSize (mapInsert m k v) ≤ MemTable.entriesSize m + MemTable.pairSize k v := by
  induction m with
  | nil => simp [mapInsert, MemTable.entriesSize]
  | cons e m ih =>
      simp only [MemTable.entriesSize] at ih ⊢
      simp only [mapInsert]
      split_ifs with hk <;> simp only [List.map_cons, List.sum_cons] <;> omega

theorem length_dataSection (m : List (Bytes × Bytes)) :
    (dataSection m).length = MemTable.entriesSize m := by
  induction m with
  | nil => rfl
  | cons e m ih =>
      simp only [dataSection_cons, List.length_append, length_sstEntry, ih, MemTable.entriesSize,
        List.map_cons, List.sum_cons, MemTable.pairSize]
      omega

/-! ## What one call does -/

theorem flushMemtable_cases (t : LSMTree) (h : Host) :
    (t.memtable.map = [] ∧ flushMemtable (t, h) = .error .panic (t, h)) ∨
      ∃ minkey maxkey, t.memtable.map.head?.map Prod.fst = some minkey ∧
        t.memtable.map.getLast?.map Prod.fst = some maxkey ∧
        flushMemtable (t, h) = .ok ()
          (⟨MemTable.new, t.sstables ++ [⟨sstFilename h.drawn, 0, minkey, maxkey⟩],
            t.totalFlushedSize + t.memtable.flushSize⟩,
            ⟨(h.disk.write (sstFilename h.drawn) (sstFile t.memtable.map)).write metaFilename
              (metaFile (t.sstables ++ [⟨sstFilename h.drawn, 0, minkey, maxkey⟩])),
              h.drawn + 1⟩) := by
  cases hm : t.memtable.map with
  | nil => exact .inl ⟨rfl, flushMemtable_empty hm⟩
  | cons e es =>
      have hlast := List.getLast?_eq_getLast (e :: es) (List.cons_ne_nil e es)
      have hf := @flushMemtable_ok t h e.1 ((e :: es).getLast (List.cons_ne_nil e es)).1
        (by simp only [MemTable.getMinkey, hm, List.head?_cons])
        (by simp only [MemTable.getMaxkey, hm, hlast])
      rw [hm] at hf
      exact .inr ⟨_, _, rfl, by rw [hlast]; rfl, hf⟩

theorem set_cases (key val : Bytes) (t : LSMTree) (h : Host) :
    LSMTree.set key val (t, h) =
      if t.memtable.needFlush key val then
        match flushMemtable (t, h) with
        | .ok _ s => .ok () ({ s.1 with memtable := s.1.memtable.insert key val }, s.2)
        | .error e s => .error e s
      else .ok () ({ t with memtable := t.memtable.insert key val }, h) := by
  simp only [LSMTree.set, bind_apply, get_apply]
  split
  · rw [bind_apply]
    cases flushMemtable (t, h) <;> rfl
  · rfl

/-! ## Runs -/

inductive TreeCall where
  | set (key val : Bytes)
  | flushMemtable

def TreeCall.run : TreeCall → TreeM Unit
  | .set key val => LSMTree.set key val
  | .flushMemtable => LSMTree.flushMemtable

theorem TreeCall.keeps_run {P : LSMTree × Host → Prop}
    (hset : ∀ key val, Keeps P (LSMTree.set key val)) (hflush : Keeps P LSMTree.flushMemtable)
    (c : TreeCall) : Keeps P c.run := by
  cases c with
  | set key val => exact hset key val
  | flushMemtable => exact hflush

/-! ## The memtable's size -/

/-- The bound the memtable keeps: `flush_size` counts at least the entries' bytes, and the
memtable holds one entry or `flush_size` is within the threshold. -/
structure MemTable.Bounded (mt : MemTable) : Prop where
  entries_le : MemTable.entriesSize mt.map ≤ mt.flushSize
  small : mt.map.length = 1 ∨ mt.flushSize ≤ memtableThreshold

theorem MemTable.bounded_new : MemTable.new.Bounded := ⟨le_refl 0, .inr (Nat.zero_le _)⟩

theorem MemTable.bounded_insert {mt : MemTable} (hb : mt.Bounded) {key val : Bytes}
    (hn : mt.needFlush key val = false) : (mt.insert key val).Bounded := by
  simp only [MemTable.needFlush, decide_eq_false_iff_not, not_lt] at hn
  have := entriesSize_mapInsert_le mt.map key val
  have := hb.entries_le
  exact ⟨by simp only [MemTable.insert]; omega, .inr (by simp only [MemTable.insert]; omega)⟩

theorem MemTable.bounded_new_insert (key val : Bytes) : (MemTable.new.insert key val).Bounded :=
  ⟨by simp [MemTable.insert, MemTable.new, mapInsert, MemTable.entriesSize], .inl rfl⟩

theorem keeps_flushMemtable_bounded :
    Keeps (fun s : LSMTree × Host => s.1.memtable.Bounded) flushMemtable := by
  rintro ⟨t, h⟩ hb
  rcases flushMemtable_cases t h with ⟨-, hf⟩ | ⟨_, _, -, -, hf⟩ <;> rw [hf]
  · exact hb
  · exact MemTable.bounded_new

theorem keeps_set_bounded (key val : Bytes) :
    Keeps (fun s : LSMTree × Host => s.1.memtable.Bounded) (LSMTree.set key val) := by
  rintro ⟨t, h⟩ hb
  rw [set_cases]
  split
  · rcases flushMemtable_cases t h with ⟨-, hf⟩ | ⟨_, _, -, -, hf⟩ <;> rw [hf]
    · exact hb
    · exact MemTable.bounded_new_insert key val
  · exact MemTable.bounded_insert hb (Bool.eq_false_iff.mpr ‹_›)

/-- After every call of every run of `set` and `flush_memtable` from a new tree, the memtable
holds one entry or its entries take at most `MEMTABLE_THRESHOLD` bytes, the length of the data
section a flush writes for them. -/
theorem memtable_bounded_of_run {h h₀ : Host} {t : LSMTree} (hnew : LSMTree.new h = .ok t h₀)
    (cs : List TreeCall) :
    let mt := (runCalls TreeCall.run cs (t, h₀)).2.1.memtable
    (mt.map.length = 1 ∨ MemTable.entriesSize mt.map ≤ memtableThreshold) ∧
      (dataSection mt.map).length = MemTable.entriesSize mt.map := by
  have hb := runCalls_keeps (TreeCall.keeps_run keeps_set_bounded keeps_flushMemtable_bounded)
    cs (s := (t, h₀)) (show t.memtable.Bounded from (new_memtable hnew).1 ▸ MemTable.bounded_new)
  refine ⟨?_, length_dataSection _⟩
  rcases hb.small with h1 | hle
  · exact .inl h1
  · exact .inr (le_trans hb.entries_le hle)

theorem memtable_bounded_of_run_empty_root :
    LSMTree.new ⟨Disk.empty, 0⟩ = .ok LSMTree.empty ⟨Disk.empty, 0⟩ ∧
      let mt := (runCalls TreeCall.run [.set [97] [98], .flushMemtable, .set [97] [99]]
        (LSMTree.empty, ⟨Disk.empty, 0⟩)).2.1.memtable
      (mt.map.length = 1 ∨ MemTable.entriesSize mt.map ≤ memtableThreshold) ∧
        (dataSection mt.map).length = MemTable.entriesSize mt.map :=
  ⟨new_of_no_meta rfl, memtable_bounded_of_run (new_of_no_meta rfl) _⟩

/-! ## The tables' key ranges -/

def SSTableMeta.Describes (m : SSTableMeta) (d : Disk) : Prop :=
  ∃ ps, d.files m.filename = some (sstFile ps) ∧ KeysSorted ps ∧
    ps.head?.map Prod.fst = some m.minKey ∧ ps.getLast?.map Prod.fst = some m.maxKey

theorem inRange_of_sorted {ps : List (Bytes × Bytes)} (hs : KeysSorted ps) {m : SSTableMeta}
    (hmin : ps.head?.map Prod.fst = some m.minKey)
    (hmax : ps.getLast?.map Prod.fst = some m.maxKey) : ∀ p ∈ ps, m.inRange p.1 := by
  intro p hp
  obtain ⟨q, hq, hqm⟩ := Option.map_eq_some'.mp hmin
  obtain ⟨l, hl, hlm⟩ := Option.map_eq_some'.mp hmax
  obtain ⟨qs, rfl⟩ := List.head?_eq_some_iff.mp hq
  obtain ⟨ls, hls⟩ := List.getLast?_eq_some_iff.mp hl
  have hlow : bytesLt p.1 m.minKey = false := by
    rcases List.mem_cons.mp hp with rfl | hp
    · rw [← hqm, bytesLt_self]
    · exact hqm ▸ bytesLt_asymm ((List.pairwise_cons.mp hs).1 p hp)
  have hhigh : bytesLt m.maxKey p.1 = false := by
    rw [hls] at hs hp
    rcases List.mem_append.mp hp with hp | hp
    · exact hlm ▸
        bytesLt_asymm ((List.pairwise_append.mp hs).2.2 p hp l (List.mem_singleton_self l))
    · rw [List.mem_singleton.mp hp, ← hlm, bytesLt_self]
  simp only [SSTableMeta.inRange, hlow, hhigh, Bool.not_false, Bool.and_self]

/-- The invariant of the tables: the memtable's keys in order, and every table named by an id
already drawn, with metadata that describes its file. -/
structure TablesDescribed (s : LSMTree × Host) : Prop where
  memtable_sorted : KeysSorted s.1.memtable.map
  named : ∀ m ∈ s.1.sstables, ∃ i < s.2.drawn, m.filename = sstFilename i
  describes : ∀ m ∈ s.1.sstables, m.Describes s.2.disk

theorem TablesDescribed.insert {t : LSMTree} {h : Host} (hi : TablesDescribed (t, h))
    (key val : Bytes) : TablesDescribed ({ t with memtable := t.memtable.insert key val }, h) :=
  ⟨mapInsert_sorted hi.memtable_sorted key val, hi.named, hi.describes⟩

theorem TablesDescribed.flush {t : LSMTree} {h : Host} (hi : TablesDescribed (t, h))
    (hd : h.drawn < 16 ^ 32) {minkey maxkey : Bytes}
    (hmin : t.memtable.map.head?.map Prod.fst = some minkey)
    (hmax : t.memtable.map.getLast?.map Prod.fst = some maxkey) :
    TablesDescribed
      (⟨MemTable.new, t.sstables ++ [⟨sstFilename h.drawn, 0, minkey, maxkey⟩],
        t.totalFlushedSize + t.memtable.flushSize⟩,
        ⟨(h.disk.write (sstFilename h.drawn) (sstFile t.memtable.map)).write metaFilename
          (metaFile (t.sstables ++ [⟨sstFilename h.drawn, 0, minkey, maxkey⟩])), h.drawn + 1⟩) := by
  refine ⟨List.Pairwise.nil, fun m hm => ?_, fun m hm => ?_⟩ <;>
    rcases List.mem_append.mp hm with hm | hm
  · obtain ⟨i, hlt, hf⟩ := hi.named m hm
    exact ⟨i, Nat.lt_succ_of_lt hlt, hf⟩
  · exact ⟨h.drawn, Nat.lt_succ_self _, by rw [List.mem_singleton.mp hm]⟩
  · obtain ⟨i, hlt, hf⟩ := hi.named m hm
    obtain ⟨ps, hps⟩ := hi.describes m hm
    have hne : m.filename ≠ sstFilename h.drawn := fun heq =>
      Nat.ne_of_lt hlt (sstFilename_inj (Nat.lt_trans hlt hd) hd (hf.symm.trans heq))
    refine ⟨ps, ?_⟩
    rwa [Disk.write_files_of_ne (hf ▸ sstFilename_ne_metaFilename i), Disk.write_files_of_ne hne]
  · rw [List.mem_singleton.mp hm]
    refine ⟨t.memtable.map, ?_, hi.memtable_sorted, hmin, hmax⟩
    rw [Disk.write_files_of_ne (sstFilename_ne_metaFilename h.drawn), Disk.write_files_self]

def TablesDescribedWhileFresh (s : LSMTree × Host) : Prop :=
  s.2.drawn ≤ 16 ^ 32 → TablesDescribed s

theorem keeps_flushMemtable_described : Keeps TablesDescribedWhileFresh flushMemtable := by
  rintro ⟨t, h⟩ hP
  rcases flushMemtable_cases t h with ⟨-, hf⟩ | ⟨_, _, hmin, hmax, hf⟩ <;> rw [hf]
  · exact hP
  · exact fun hd => (hP (Nat.le_of_succ_le hd)).flush (Nat.lt_of_succ_le hd) hmin hmax

theorem keeps_set_described (key val : Bytes) :
    Keeps TablesDescribedWhileFresh (LSMTree.set key val) := by
  rintro ⟨t, h⟩ hP
  rw [set_cases]
  split
  · rcases flushMemtable_cases t h with ⟨-, hf⟩ | ⟨_, _, hmin, hmax, hf⟩ <;> rw [hf]
    · exact hP
    · exact fun hd =>
        ((hP (Nat.le_of_succ_le hd)).flush (Nat.lt_of_succ_le hd) hmin hmax).insert key val
  · exact fun hd => (hP hd).insert key val

/-- From a tree over an empty root, after every call of every run of `set` and
`flush_memtable` that draws fewer than `2^128` ids, every table's metadata names a file whose
keys are strictly increasing from `min_key` to `max_key`; so `in_range` holds of every key the
file stores, and `get`'s range filter never skips a table that holds the key. -/
theorem tables_described_of_run {n : Nat} {t : LSMTree} {h₀ : Host}
    (hnew : LSMTree.new ⟨Disk.empty, n⟩ = .ok t h₀) (cs : List TreeCall) :
    let s := (runCalls TreeCall.run cs (t, h₀)).2
    s.2.drawn ≤ 16 ^ 32 →
      ∀ m ∈ s.1.sstables, ∃ ps, s.2.disk.files m.filename = some (sstFile ps) ∧ KeysSorted ps ∧
        ps.head?.map Prod.fst = some m.minKey ∧ ps.getLast?.map Prod.fst = some m.maxKey ∧
        ∀ p ∈ ps, m.inRange p.1 := by
  intro s hd m hm
  rw [new_of_no_meta rfl] at hnew
  cases hnew
  have hi := runCalls_keeps (TreeCall.keeps_run keeps_set_described keeps_flushMemtable_described)
    cs (s := (LSMTree.empty, ⟨Disk.empty, n⟩))
    (fun _ => ⟨List.Pairwise.nil, nofun, nofun⟩) hd
  obtain ⟨ps, hf, hs, hmin, hmax⟩ := hi.describes m hm
  exact ⟨ps, hf, hs, hmin, hmax, inRange_of_sorted hs hmin hmax⟩

theorem tables_described_of_run_one_flush :
    LSMTree.new ⟨Disk.empty, 0⟩ = .ok LSMTree.empty ⟨Disk.empty, 0⟩ ∧
      let s := (runCalls TreeCall.run [.set [98] [1], .set [97] [2], .flushMemtable]
        (LSMTree.empty, ⟨Disk.empty, 0⟩)).2
      s.2.drawn ≤ 16 ^ 32 ∧
        ∀ m ∈ s.1.sstables, ∃ ps, s.2.disk.files m.filename = some (sstFile ps) ∧ KeysSorted ps ∧
          ps.head?.map Prod.fst = some m.minKey ∧ ps.getLast?.map Prod.fst = some m.maxKey ∧
          ∀ p ∈ ps, m.inRange p.1 :=
  ⟨new_of_no_meta rfl, by decide, tables_described_of_run (new_of_no_meta rfl) _ (by decide)⟩

end RustyDb.Storage
