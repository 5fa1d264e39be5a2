import RustyDb.Storage.Wal
import RustyDb.Storage.LsmTree

/-!
# The store

`RustyStore` of `store.rs`: an `LSMTree` behind the write-ahead log.  `new` opens the
tree, replays the log into it with `set`, flushes the memtable and starts a fresh log;
`set` appends to the log, then sets the pair in the tree; `get` asks the tree.

The compaction thread `new` starts waits for a flag nothing sets, and `set` waits on a
flag that starts `true`: neither changes what the methods return, and the model leaves
them out.

`new` flushes the memtable whatever the log held, and `flush_memtable` unwraps the first
key of the memtable, so over a log with no whole record, as on a fresh root, `new`
panics and no store is ever opened.
-/

namespace RustyDb.Storage

structure RustyStore where
  tree : LSMTree
  numWalEntries : Nat

def withTree {α : Type} (x : TreeM α) (tree : LSMTree) :
    EStateM (Fault IoError) Host (α × LSMTree) := fun h =>
  match x (tree, h) with
  | .ok a (t, h') => .ok (a, t) h'
  | .error e (_, h') => .error e h'

/-- The `for (_, key, val) in WALReader::new(&path)?` loop of `new`: each record read is
`set` into the tree.  Each record takes 20 bytes or more, so `log.length + 1` rounds
reach the end of `log`. -/
def replayWal : Nat → Bytes → TreeM Unit
  | 0, _ => pure ()
  | fuel + 1, log =>
      match WALReader.next log with
      | .ok (some (_, key, val)) log' => do LSMTree.set key val; replayWal fuel log'
      | .ok none _ => pure ()
      | .error e _ => throw e

namespace RustyStore

def new : EStateM (Fault IoError) Host RustyStore := do
  let lsmtree ← LSMTree.new
  let log ← Host.onDisk WALReader.new
  let ((), lsmtree) ← withTree (do replayWal (log.length + 1) log; LSMTree.flushMemtable) lsmtree
  Host.onDisk WALWriter.new
  pure ⟨lsmtree, 0⟩

def get (s : RustyStore) (d : Disk) (key : Bytes) : Except (Fault IoError) (Option Bytes) :=
  s.tree.get d key

/-- `set(key, val)`, at `timestamp` by the system clock.  The result of the tree's `set`
is dropped: only a panic gets through. -/
def set (timestamp : Duration) (key val : Bytes) :
    EStateM (Fault IoError) (RustyStore × Host) Unit := fun s =>
  match Host.onDisk (WALWriter.add timestamp key val) s.2 with
  | .error e h => .error e (s.1, h)
  | .ok () h =>
      match LSMTree.set key val (s.1.tree, h) with
      | .error .panic (t, h') => .error .panic ({ s.1 with tree := t }, h')
      | .error (.error _) (t, h') => .ok () ({ s.1 with tree := t }, h')
      | .ok () (t, h') => .ok () ({ s.1 with tree := t }, h')

end RustyStore

open LSMTree

theorem tryloadMeta_memtable {t t' : LSMTree} {h h' : Host} {u : Unit}
    (ht : tryloadMeta (t, h) = .ok u (t', h')) : t'.memtable = t.memtable ∧ h' = h := by
  cases hf : h.disk.files metaFilename with
  | none =>
      simp only [tryloadMeta, bind_apply, get_apply, hf, pure_apply, EStateM.Result.ok.injEq,
        Prod.mk.injEq] at ht
      exact ⟨by rw [ht.2.1], ht.2.2.symm⟩
  | some content =>
      simp only [tryloadMeta, bind_apply, get_apply, hf, liftResult] at ht
      split at ht
      · simp only [set_apply, EStateM.Result.ok.injEq, Prod.mk.injEq] at ht
        exact ⟨by rw [← ht.2.1], ht.2.2.symm⟩
      · cases ht

theorem new_memtable {h h' : Host} {t : LSMTree} (ht : LSMTree.new h = .ok t h') :
    t.memtable = MemTable.new ∧ h' = h := by
  simp only [LSMTree.new] at ht
  split at ht
  · rename_i heq
    cases ht
    exact tryloadMeta_memtable heq
  · cases ht

theorem onDisk_walReaderNew (h : Host) :
    ∃ h', Host.onDisk WALReader.new h = .ok ((h.disk.files walFilename).getD []) h' := by
  cases hf : h.disk.files walFilename <;> exact
      ⟨_, by simp only [Host.onDisk, zoom_apply, WALReader.new, hf]; rfl⟩

theorem replayWal_of_next_none {fuel : Nat} {log rest : Bytes}
    (hn : WALReader.next log = .ok none rest)
    (s : LSMTree × Host) : replayWal (fuel + 1) log s = .ok () s := by
  simp only [replayWal, hn, pure_apply]

theorem new_panics_of_tree {h h₁ : Host} {t : LSMTree} (ht : LSMTree.new h = .ok t h₁)
    (hn : ∃ rest, WALReader.next ((h.disk.files walFilename).getD []) = .ok none rest) :
    ∃ h', RustyStore.new h = .error .panic h' := by
  obtain ⟨hmt, hh⟩ := new_memtable ht
  rw [hh] at ht
  obtain ⟨rest, hn⟩ := hn
  obtain ⟨h₂, hlog⟩ := onDisk_walReaderNew h
  refine ⟨h₂, ?_⟩
  simp only [RustyStore.new, bind_apply, ht, hlog, withTree, replayWal_of_next_none hn,
    flushMemtable_empty (show t.memtable.map = [] by rw [hmt]; rfl)]

/-- Over a log with no whole record, `new` never returns a store, whatever the manifest
holds, and panics when there is no manifest, as on a fresh root. -/
theorem new_fails_without_wal_records (h : Host)
    (hw : ∃ rest, WALReader.next ((h.disk.files walFilename).getD []) = .ok none rest) :
    (∀ s h', RustyStore.new h ≠ .ok s h') ∧
      (h.disk.files metaFilename = none → ∃ h', RustyStore.new h = .error .panic h') := by
  refine ⟨fun s h' hs => ?_, fun hm => new_panics_of_tree (new_of_no_meta hm) hw⟩
  cases ht : LSMTree.new h with
  | ok t h₁ =>
      obtain ⟨h'', hp⟩ := new_panics_of_tree ht hw
      rw [hp] at hs
      cases hs
  | error e h₁ =>
      simp only [RustyStore.new, bind_apply, ht] at hs
      cases hs

theorem new_fails_on_empty_root :
    (∀ s h', RustyStore.new ⟨Disk.empty, 0⟩ ≠ .ok s h') ∧
      (Disk.empty.files metaFilename = none → ∃ h',
        RustyStore.new ⟨Disk.empty, 0⟩ = .error .panic h') :=
  new_fails_without_wal_records ⟨Disk.empty, 0⟩ ⟨[], rfl⟩

end RustyDb.Storage
