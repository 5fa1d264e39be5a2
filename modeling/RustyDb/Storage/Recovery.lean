import RustyDb.Storage.ReadPath

/-!
# The log, across a crash and the next `new`

`RustyStore::set` appends its record to `rustydb.wal` before it touches the tree, and the
tree writes only table files and the manifest, never the log.  So after any run of `set`
calls the log holds, in order, the record of every call that ran, the one that panicked
included, whatever the tree did with the pair; cut at any byte, as by a crash, it reads back
as the records wholly in the cut (`log_of_run`).

`RustyStore::new` on a root with no manifest replays the records wholly in the log through
`set`, flushes, and starts an empty log.  On a log with at least one whole record it returns a
store whose `get` answers, for every key, as the in-memory tree that replays the same records
and flushes (`new_recovers_log`); with none it panics (`new_fails_without_wal_records`).
-/

namespace RustyDb.Storage

open LSMTree

/-! ## The tree never writes the log -/

theorem sstFilename_ne_walFilename (i : Nat) : sstFilename i ≠ walFilename := fun h => by
  have := congrArg List.length h
  rw [length_sstFilename] at this
  exact absurd this (by decide)

theorem metaFilename_ne_walFilename : metaFilename ≠ walFilename := by decide

theorem walEntries_append (xs ys : List WalItem) :
    walEntries (xs ++ ys) = walEntries xs ++ walEntries ys := by
  simp only [walEntries, List.flatMap_append]

theorem keeps_log_flush (L : Option Bytes) :
    Keeps (fun s : LSMTree × Host => s.2.disk.files walFilename = L) flushMemtable := by
  rintro ⟨t, h⟩ hl
  rcases flushMemtable_cases t h with ⟨-, hf⟩ | ⟨_, _, -, -, hf⟩ <;> rw [hf]
  · exact hl
  · exact (Disk.write_files_of_ne metaFilename_ne_walFilename.symm _).trans
      ((Disk.write_files_of_ne (sstFilename_ne_walFilename _).symm _).trans hl)

theorem keeps_log_set (key val : Bytes) (L : Option Bytes) :
    Keeps (fun s : LSMTree × Host => s.2.disk.files walFilename = L) (LSMTree.set key val) := by
  rintro ⟨t, h⟩ hl
  have hf := keeps_log_flush L (t, h) hl
  rw [set_cases]
  split
  · cases hc : flushMemtable (t, h) <;> rw [hc] at hf <;> exact hf
  · exact hl

/-! ## The log over a run of `set` -/

theorem RustyStore.set_log (s : RustyStore) {h : Host} {L : Bytes}
    (hl : h.disk.files walFilename = some L) (r : WalItem) :
    ∃ s' h', (RustyStore.set r.1 r.2.1 r.2.2 (s, h) = .ok () (s', h') ∨
        RustyStore.set r.1 r.2.1 r.2.2 (s, h) = .error .panic (s', h')) ∧
      h'.disk.files walFilename = some (L ++ walRecord r) := by
  have hlog := keeps_log_set r.2.1 r.2.2 (some (L ++ walRecord r))
    (s.tree, ⟨h.disk.write walFilename (L ++ walRecord r), h.drawn⟩) (Disk.write_files_self _ _ _)
  have hadd : Host.onDisk (WALWriter.add r.1 r.2.1 r.2.2) h =
      .ok () ⟨h.disk.write walFilename (L ++ walRecord r), h.drawn⟩ := by
    simp only [Host.onDisk, zoom_apply, WALWriter.add, modify_apply, hl, Option.getD_some]
  simp only [RustyStore.set, hadd]
  cases hc : LSMTree.set r.2.1 r.2.2 (s.tree, ⟨_, h.drawn⟩) with
  | ok u s₁ => rw [hc] at hlog; exact ⟨_, _, .inl rfl, hlog⟩
  | error e s₁ =>
      rw [hc] at hlog
      cases e with
      | panic => exact ⟨_, _, .inr rfl, hlog⟩
      | error e => exact ⟨_, _, .inl rfl, hlog⟩

theorem runCalls_set_log (cs : List WalItem) :
    ∀ (s : RustyStore) (h : Host) (items : List WalItem),
      h.disk.files walFilename = some (walEntries items) →
      let run := runCalls (fun r : WalItem => RustyStore.set r.1 r.2.1 r.2.2) cs (s, h)
      run.2.2.disk.files walFilename = some (walEntries (items ++ cs.take run.1.length)) := by
  induction cs with
  | nil => intro s h items hl; simpa only [runCalls, List.take_nil, List.append_nil] using hl
  | cons r cs ih =>
      intro s h items hl
      obtain ⟨s', h', hres, hlog⟩ := RustyStore.set_log s hl r
      have hlog' : h'.disk.files walFilename = some (walEntries (items ++ [r])) := by
        rw [hlog, walEntries_append]
        simp only [walEntries, List.flatMap_cons, List.flatMap_nil, List.append_nil]
      rcases hres with hres | hres
      · have := ih s' h' (items ++ [r]) hlog'
        simp only [runCalls, hres, List.length_cons, List.take_succ_cons, List.append_assoc,
          List.singleton_append] at this ⊢
        exact this
      · simpa only [runCalls, hres, Fault.isPanic, if_true, List.length_singleton,
          List.take_succ_cons, List.take_zero] using hlog'

/-- Every `RustyStore::set` is logged before the tree is touched: after any run of `set`
calls from a store whose log holds the records `items`, the log holds `items` and then the
record of every call that ran, the one that panicked included, in order; cut at any byte, as
by a crash, it reads back as the records wholly in the cut, then `None`. -/
theorem log_of_run (s : RustyStore) (h : Host) (items cs : List WalItem)
    (hl : h.disk.files walFilename = some (walEntries items)) (hv : ∀ r ∈ items ++ cs, r.Valid)
    (n : Nat) :
    let run := runCalls (fun r : WalItem => RustyStore.set r.1 r.2.1 r.2.2) cs (s, h)
    let logged := items ++ cs.take run.1.length
    run.2.2.disk.files walFilename = some (walEntries logged) ∧
      ∃ rest, (List.replicate ((wholeItems logged n).length + 1) ()).mapM
          (fun _ => WALReader.next) ((walEntries logged).take n) =
        .ok ((wholeItems logged n).map some ++ [none]) rest :=
  ⟨runCalls_set_log cs s h items hl, next_walEntries_take _ (fun r hr => hv r
    (List.mem_append.mpr ((List.mem_append.mp hr).imp id (List.mem_of_mem_take)))) n⟩

theorem log_of_run_two_sets :
    (Disk.empty.write walFilename []).files walFilename = some (walEntries []) ∧
      (∀ r ∈ ([] : List WalItem) ++ [(⟨1, 0⟩, [97], [98]), (⟨2, 0⟩, [97], [99])], r.Valid) ∧
      let run := runCalls (fun r : WalItem => RustyStore.set r.1 r.2.1 r.2.2)
        [(⟨1, 0⟩, [97], [98]), (⟨2, 0⟩, [97], [99])]
        (⟨LSMTree.empty, 0⟩, ⟨Disk.empty.write walFilename [], 0⟩)
      let logged := [] ++ [((⟨1, 0⟩ : Duration), [97], [98]), (⟨2, 0⟩, [97], [99])].take
        run.1.length
      run.2.2.disk.files walFilename = some (walEntries logged) ∧
        ∃ rest, (List.replicate ((wholeItems logged 30).length + 1) ()).mapM
            (fun _ => WALReader.next) ((walEntries logged).take 30) =
          .ok ((wholeItems logged 30).map some ++ [none]) rest := by
  have hv : ∀ r ∈ ([] : List WalItem) ++ [(⟨1, 0⟩, [97], [98]), (⟨2, 0⟩, [97], [99])],
      r.Valid := by
    intro r hr
    simp only [List.nil_append, List.mem_cons, List.mem_singleton, List.not_mem_nil,
      or_false] at hr
    rcases hr with rfl | rfl <;> exact ⟨by decide, by decide, by decide, by decide, rfl, rfl⟩
  exact ⟨Disk.write_files_self _ _ _, hv, log_of_run _ _ [] _ (Disk.write_files_self _ _ _) hv 30⟩

/-! ## `new` replays the log -/

theorem mem_wholeItems {items : List WalItem} {n : Nat} {r : WalItem}
    (h : r ∈ wholeItems items n) : r ∈ items := by
  induction items generalizing n with
  | nil => exact absurd h (List.not_mem_nil r)
  | cons r' rs ih =>
      simp only [wholeItems] at h
      split at h
      · rcases List.mem_cons.mp h with rfl | h
        · exact List.mem_cons_self _ _
        · exact List.mem_cons_of_mem _ (ih h)
      · exact absurd h (List.not_mem_nil r)

theorem length_wholeItems_le (items : List WalItem) (n : Nat) :
    (wholeItems items n).length ≤ ((walEntries items).take n).length := by
  induction items generalizing n with
  | nil => simp [wholeItems]
  | cons r rs ih =>
      simp only [wholeItems]
      split
      · have := ih (n - (walRecord r).length)
        have hr := length_walRecord r
        simp only [walEntries, List.flatMap_cons, List.length_take, List.length_append,
          List.length_cons] at this ⊢
        omega
      · exact Nat.zero_le _

theorem replayWal_walEntries {items : List WalItem} (hv : ∀ r ∈ items, r.Valid) :
    ∀ {n fuel : Nat}, (wholeItems items n).length < fuel →
      replayWal fuel ((walEntries items).take n) =
        (wholeItems items n).forM fun r => LSMTree.set r.2.1 r.2.2 := by
  induction items with
  | nil =>
      intro n fuel hf
      obtain ⟨fuel, rfl⟩ : ∃ f, fuel = f + 1 := ⟨fuel - 1, by simp [wholeItems] at hf; omega⟩
      funext s
      rw [show (walEntries ([] : List WalItem)).take n = [] from List.take_nil,
        @replayWal_of_next_none fuel [] [] rfl s]
      rfl
  | cons r rs ih =>
      intro n fuel hf
      have hnext := next_take (hv r (List.mem_cons_self r rs)) (walEntries rs) n
      have ih' := fun {n fuel : Nat} =>
        @ih (fun r' hr' => hv r' (List.mem_cons_of_mem r hr')) n fuel
      obtain ⟨ts, key, val⟩ := r
      obtain ⟨fuel, rfl⟩ : ∃ f, fuel = f + 1 := ⟨fuel - 1, by omega⟩
      have hw : walEntries ((ts, key, val) :: rs) = walRecord (ts, key, val) ++ walEntries rs := rfl
      funext s
      rw [hw]
      by_cases hn : (walRecord (ts, key, val)).length ≤ n
      · simp only [wholeItems, hn, if_true, List.length_cons] at hf ⊢
        simp only [replayWal, hnext, hn, if_true, List.forM, ih' (Nat.lt_of_succ_lt_succ hf)]
      · simp only [wholeItems, hn, if_false, List.forM]
        simp only [replayWal, hnext, hn, if_false]

def MemLsm.replay (items : List WalItem) : EStateM (Fault IoError) MemLsm Unit := do
  items.forM fun r => MemLsm.set r.2.1 r.2.2
  MemLsm.flush

theorem mapInsert_ne_nil (m : List (Bytes × Bytes)) (k v : Bytes) : mapInsert m k v ≠ [] := by
  cases m with
  | nil => exact List.cons_ne_nil _ _
  | cons e m =>
      simp only [mapInsert]
      split_ifs <;> exact List.cons_ne_nil _ _

theorem MemLsm.set_ok {a : MemLsm} {key val : Bytes}
    (hp : MemTable.pairSize key val ≤ memtableThreshold)
    (hz : a.memtable.map = [] → a.memtable.flushSize = 0) :
    ∃ a', MemLsm.set key val a = .ok () a' ∧ a'.memtable.map ≠ [] := by
  rw [MemLsm.set_eq]
  cases hn : a.memtable.needFlush key val
  · exact ⟨_, rfl, mapInsert_ne_nil _ _ _⟩
  · have hne : a.memtable.map ≠ [] := fun hm => by
      simp only [MemTable.needFlush, hz hm, decide_eq_true_eq] at hn
      omega
    simp only [if_pos rfl, MemLsm.flush, hne, if_false]
    exact ⟨_, rfl, mapInsert_ne_nil _ _ _⟩

theorem MemLsm.forM_set_ok : ∀ {rs : List WalItem} {a : MemLsm},
    (∀ r ∈ rs, MemTable.pairSize r.2.1 r.2.2 ≤ memtableThreshold) →
    (a.memtable.map = [] → a.memtable.flushSize = 0) →
    ∃ a', rs.forM (fun r => MemLsm.set r.2.1 r.2.2) a = .ok () a' ∧
      (a.memtable.map ≠ [] ∨ rs ≠ [] → a'.memtable.map ≠ [])
  | [], a, _, _ => ⟨a, rfl, fun h => h.resolve_right fun h => h rfl⟩
  | r :: rs, a, hp, hz => by
      obtain ⟨a₁, h₁, hne₁⟩ := MemLsm.set_ok (hp r (List.mem_cons_self r rs)) hz
      obtain ⟨a', h', hne'⟩ := MemLsm.forM_set_ok (fun r' hr' => hp r' (List.mem_cons_of_mem r hr'))
        fun h => absurd h hne₁
      exact ⟨a', by simp only [List.forM, bind_apply, h₁, h'], fun _ => hne' (.inl hne₁)⟩

theorem SSTableMeta.Holds.write_log {m : SSTableMeta} {h : Host} {ps : List (Bytes × Bytes)}
    (hm : m.Holds h ps) (bs : Bytes) : m.Holds ⟨h.disk.write walFilename bs, h.drawn⟩ ps := by
  obtain ⟨i, -, hname⟩ := hm.named
  exact ⟨hm.named, by rw [Disk.write_files_of_ne (hname ▸ sstFilename_ne_walFilename i), hm.file],
    hm.sorted, hm.valid, hm.small, hm.inRange⟩

theorem Refines.write_log {t : LSMTree} {h : Host} {a : MemLsm} (hR : Refines (t, h) a)
    (bs : Bytes) : Refines (t, ⟨h.disk.write walFilename bs, h.drawn⟩) a :=
  ⟨hR.memtable, hR.readable, fun hd => (hR.tables hd).imp fun _ _ hm => hm.write_log bs⟩

/-- Recovery: on a root with no manifest whose log is any prefix of the records `items`, UTF-8
and each within the threshold, with at least one whole record, `RustyStore::new` returns a store
with an empty log whose `get` answers, for every key, as the in-memory tree that sets each whole
record and flushes, as long as the ids drawn are fresh. -/
theorem new_recovers_log {h : Host} (hm : h.disk.files metaFilename = none) (items : List WalItem)
    (hv : ∀ r ∈ items, r.Valid ∧ MemTable.pairSize r.2.1 r.2.2 ≤ memtableThreshold) (n : Nat)
    (hlog : h.disk.files walFilename = some ((walEntries items).take n))
    (hne : wholeItems items n ≠ []) :
    ∃ a s h', MemLsm.replay (wholeItems items n) MemLsm.empty = .ok () a ∧
      RustyStore.new h = .ok s h' ∧ h'.disk.files walFilename = some [] ∧
      (h'.drawn ≤ 16 ^ 32 → ∀ key, s.get h'.disk key = .ok (a.get key)) := by
  have hw : ∀ r ∈ wholeItems items n, (TreeCall.set r.2.1 r.2.2).Valid := fun r hr =>
    have hr := hv r (mem_wholeItems hr)
    ⟨hr.1.key_utf8, hr.1.val_utf8, hr.2⟩
  -- the in-memory replay returns
  obtain ⟨a₁, h₁, hne₁⟩ := MemLsm.forM_set_ok (fun r hr => (hw r hr).2.2)
    fun _ => (rfl : MemLsm.empty.memtable.flushSize = 0)
  have habs : MemLsm.replay (wholeItems items n) MemLsm.empty =
      .ok () ⟨MemTable.new, a₁.tables ++ [a₁.memtable.map]⟩ := by
    simp only [MemLsm.replay, bind_apply, h₁, MemLsm.flush, hne₁ (.inr hne), if_false]
  -- the tree runs the same calls
  have hsim : Simulates Refines
      ((wholeItems items n).forM (fun r => LSMTree.set r.2.1 r.2.2) >>= fun _ =>
        LSMTree.flushMemtable)
      (MemLsm.replay (wholeItems items n)) :=
    Simulates.bind (simulates_forM fun r hr => simulates_set (hw r hr)) fun _ => simulates_flush
  obtain ⟨d, dr⟩ := h
  dsimp only at hm hlog
  obtain ⟨hres, hR⟩ := hsim (LSMTree.empty, ⟨d, dr⟩) MemLsm.empty (refines_empty _)
  rw [habs] at hres hR
  have hreplay := replayWal_walEntries (fun r hr => (hv r hr).1)
    (show _ < _ + 1 from Nat.lt_succ_of_le (length_wholeItems_le items n))
  cases hc : ((wholeItems items n).forM (fun r => LSMTree.set r.2.1 r.2.2) >>= fun _ =>
      LSMTree.flushMemtable) (LSMTree.empty, ⟨d, dr⟩) with
  | error e s' => rw [hc] at hres; cases hres
  | ok u s' =>
      rw [hc] at hR
      obtain ⟨t', h₂⟩ := s'
      refine ⟨_, ⟨t', 0⟩, ⟨h₂.disk.write walFilename [], h₂.drawn⟩, habs, ?_,
        Disk.write_files_self _ _ _, fun hd key => get_eq_of_refines (hR.write_log []) hd key⟩
      rw [bind_apply] at hc
      simp only [RustyStore.new, bind_apply, @new_of_no_meta ⟨d, dr⟩ hm, Host.onDisk, zoom_apply,
        WALReader.new, hlog, withTree, hreplay, hc, WALWriter.new, modify_apply, pure_apply]

theorem new_recovers_log_cut_record :
    (Disk.empty.write walFilename ((walEntries [(⟨1, 0⟩, [97], [98]), (⟨2, 0⟩, [97], [99])]).take
        30)).files metaFilename = none ∧
      (∀ r ∈ ([(⟨1, 0⟩, [97], [98]), (⟨2, 0⟩, [97], [99])] : List WalItem),
        r.Valid ∧ MemTable.pairSize r.2.1 r.2.2 ≤ memtableThreshold) ∧
      (Disk.empty.write walFilename ((walEntries [(⟨1, 0⟩, [97], [98]), (⟨2, 0⟩, [97], [99])]).take
        30)).files walFilename =
        some ((walEntries [(⟨1, 0⟩, [97], [98]), (⟨2, 0⟩, [97], [99])]).take 30) ∧
      wholeItems [(⟨1, 0⟩, [97], [98]), (⟨2, 0⟩, [97], [99])] 30 ≠ [] ∧
      ∃ a s h', MemLsm.replay (wholeItems [(⟨1, 0⟩, [97], [98]), (⟨2, 0⟩, [97], [99])] 30)
          MemLsm.empty = .ok () a ∧
        RustyStore.new ⟨Disk.empty.write walFilename
          ((walEntries [(⟨1, 0⟩, [97], [98]), (⟨2, 0⟩, [97], [99])]).take 30), 0⟩ = .ok s h' ∧
        h'.disk.files walFilename = some [] ∧
        (h'.drawn ≤ 16 ^ 32 → ∀ key, s.get h'.disk key = .ok (a.get key)) := by
  have hv : ∀ r ∈ ([(⟨1, 0⟩, [97], [98]), (⟨2, 0⟩, [97], [99])] : List WalItem),
      r.Valid ∧ MemTable.pairSize r.2.1 r.2.2 ≤ memtableThreshold := by
    intro r hr
    simp only [List.mem_cons, List.mem_singleton, List.not_mem_nil, or_false] at hr
    rcases hr with rfl | rfl <;>
      exact ⟨⟨by decide, by decide, by decide, by decide, rfl, rfl⟩, by decide⟩
  have hm := Disk.write_files_of_ne metaFilename_ne_walFilename
    ((walEntries [(⟨1, 0⟩, [97], [98]), (⟨2, 0⟩, [97], [99])]).take 30) (d := Disk.empty)
  have hl := Disk.write_files_self Disk.empty walFilename
    ((walEntries [(⟨1, 0⟩, [97], [98]), (⟨2, 0⟩, [97], [99])]).take 30)
  have hne : wholeItems [(⟨1, 0⟩, [97], [98]), (⟨2, 0⟩, [97], [99])] 30 ≠ [] := by decide
  exact ⟨hm, hv, hl, hne, new_recovers_log (h := ⟨_, 0⟩) hm _ hv 30 hl hne⟩

end RustyDb.Storage
