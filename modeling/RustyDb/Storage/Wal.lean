import RustyDb.Storage.Files

/-!
# The write-ahead log

`WALWriter` and `WALReader` of `wal.rs`.  A record is a `Duration` (`u64` seconds,
`u32` nanoseconds) and a key and a value, each after its `u32` length.  Every `add`
is flushed, so the file is the records written so far; a crash can cut the last one.

`WALReader::next` turns any I/O error into `None`, so a reader over a prefix of the
file returns the records that lie wholly in it and then `None`
(`next_walEntries_take`).
-/

namespace RustyDb.Storage

def walFilename : Bytes := ascii "rustydb.wal"

structure Duration where
  secs : Nat
  nanos : Nat
  deriving DecidableEq, Repr

/-- `Duration::new(secs, nanos)`: nanoseconds past a second carry into the seconds,
and seconds past `u64::MAX` panic. -/
def Duration.new {σ : Type} (secs nanos : Nat) : EStateM (Fault IoError) σ Duration :=
  if secs + nanos / 1000000000 < 2 ^ 64 then pure ⟨secs + nanos / 1000000000, nanos % 1000000000⟩
  else throwPanic

abbrev WalItem := Duration × Bytes × Bytes

def walRecord (r : WalItem) : Bytes :=
  u64Bytes r.1.secs ++ u32Bytes r.1.nanos ++ u32Bytes r.2.1.length ++ r.2.1 ++
      u32Bytes r.2.2.length ++ r.2.2

def walEntries (items : List WalItem) : Bytes := items.flatMap walRecord

/-- A record as `WALWriter::add` is called with it: a `Duration` from the system clock,
and UTF-8 strings shorter than `2^32` bytes. -/
structure WalItem.Valid (r : WalItem) : Prop where
  secs_lt : r.1.secs < 2 ^ 64
  nanos_lt : r.1.nanos < 1000000000
  key_lt : r.2.1.length < 2 ^ 32
  val_lt : r.2.2.length < 2 ^ 32
  key_utf8 : utf8Valid r.2.1 = true
  val_utf8 : utf8Valid r.2.2 = true

/-! ## Writer -/

def WALWriter.new : EStateM (Fault IoError) Disk Unit :=
  modify fun d => d.write walFilename []

def WALWriter.add (timestamp : Duration) (key val : Bytes) : EStateM (Fault IoError) Disk Unit :=
  modify fun d =>
      d.write walFilename ((d.files walFilename).getD [] ++ walRecord (timestamp, key, val))

/-! ## Reader -/

def WALReader.new : EStateM (Fault IoError) Disk Bytes := fun d =>
  match d.files walFilename with
  | some bs => .ok bs d
  | none => .ok [] (d.write walFilename [])

def WALReader.readEntry : ReadM WalItem := do
  let secs ← readU64
  let nsecs ← readU32
  let keylen ← readU32
  let key ← fromUtf8Unwrap (← readExact keylen)
  let vallen ← readU32
  let val ← fromUtf8Unwrap (← readExact vallen)
  let timestamp ← Duration.new secs nsecs
  pure (timestamp, key, val)

/-- `Iterator::next` of `WALReader`: an I/O error ends the log. -/
def WALReader.next : ReadM (Option WalItem) := fun bs =>
  match WALReader.readEntry bs with
  | .ok r bs' => .ok (some r) bs'
  | .error (.error _) bs' => .ok none bs'
  | .error .panic bs' => .error .panic bs'

def wholeItems : List WalItem → Nat → List WalItem
  | [], _ => []
  | r :: rs, n =>
    if (walRecord r).length ≤ n then r :: wholeItems rs (n - (walRecord r).length) else []

theorem length_walRecord (r : WalItem) :
    (walRecord r).length = 20 + r.2.1.length + r.2.2.length := by
  simp only [walRecord, List.length_append, length_u64Bytes, length_u32Bytes]
  omega

theorem readEntry_take {r : WalItem} (hr : r.Valid) :
    ReadsPrefix WALReader.readEntry (walRecord r) r := by
  obtain ⟨⟨secs, nanos⟩, key, val⟩ := r
  obtain ⟨hs, hn, hk, hv, hku, hvu⟩ := hr
  simp only at hs hn hk hv hku hvu
  have hd : ReadsPrefix (Duration.new secs nanos) [] ⟨secs, nanos⟩ := by
    simp only [Duration.new, Nat.div_eq_of_lt hn, Nat.add_zero, if_pos hs, Nat.mod_eq_of_lt hn]
    exact ReadsPrefix.pure _
  -- the fields in the order `read_entry` reads them; the UTF-8 checks and `Duration::new`
  -- read nothing
  have hbytes : walRecord (⟨secs, nanos⟩, key, val) = u64Bytes secs ++ (u32Bytes nanos ++
      (u32Bytes key.length ++ (key ++ ([] ++ (u32Bytes val.length ++
        (val ++ ([] ++ ([] ++ [])))))))) := by
    simp only [walRecord, List.append_assoc, List.nil_append, List.append_nil]
  rw [hbytes]
  exact (readsPrefix_readU64 hs).bind <| (readsPrefix_readU32 (by omega)).bind <|
    (readsPrefix_readU32 hk).bind <| (readsPrefix_readExact rfl).bind <|
    (readsPrefix_fromUtf8Unwrap hku).bind <| (readsPrefix_readU32 hv).bind <|
    (readsPrefix_readExact rfl).bind <| (readsPrefix_fromUtf8Unwrap hvu).bind <|
    hd.bind (ReadsPrefix.pure _)

theorem next_take {r : WalItem} (hr : r.Valid) (rest : Bytes) (j : Nat) :
    WALReader.next ((walRecord r ++ rest).take j) =
      if (walRecord r).length ≤
        j then .ok (some r) (rest.take (j - (walRecord r).length)) else .ok none [] := by
  by_cases h : (walRecord r).length ≤ j <;> simp only [WALReader.next, readEntry_take hr rest j,
    h, ↓reduceIte]

theorem next_walEntries_take (items : List WalItem) (hv : ∀ r ∈ items, r.Valid) (n : Nat) :
    ∃ rest, (List.replicate ((wholeItems items n).length + 1) ()).mapM (fun _ => WALReader.next)
      ((walEntries items).take n) = .ok ((wholeItems items n).map some ++ [none]) rest := by
  induction items generalizing n with
  | nil => exact ⟨[], by simp only [wholeItems, walEntries, List.flatMap_nil, List.take_nil]; rfl⟩
  | cons r rs ih =>
      have hr := hv r (List.mem_cons_self r rs)
      obtain ⟨rest, hrest⟩ :=
          ih (fun r' h => hv r' (List.mem_cons_of_mem r h)) (n - (walRecord r).length)
      simp only [walEntries, List.flatMap_cons] at hrest ⊢
      by_cases hn : (walRecord r).length ≤ n
      · refine ⟨rest, ?_⟩
        simp only [wholeItems, hn, ↓reduceIte, List.length_cons, List.replicate_succ,
          List.mapM_cons, bind_apply, next_take hr, pure_apply, List.map_cons, List.cons_append]
        simp only [List.replicate_succ, List.mapM_cons, bind_apply, pure_apply] at hrest
        rw [hrest]
      · refine ⟨[], ?_⟩
        simp only [wholeItems, hn, ↓reduceIte, List.length_nil, List.replicate_succ,
          List.replicate_zero, List.mapM_cons, List.mapM_nil, bind_apply, next_take hr, pure_apply,
          List.map_nil, List.nil_append]

theorem add_walEntries (items : List WalItem) (d : Disk) (pre : Bytes)
    (h : d.files walFilename = some pre) :
    items.forM (fun r => WALWriter.add r.1 r.2.1 r.2.2) d =
      .ok () (d.write walFilename (pre ++ walEntries items)) := by
  induction items generalizing d pre with
  | nil =>
      simp only
          [List.forM, walEntries, List.flatMap_nil, List.append_nil, pure_apply,
            Disk.write_of_files h]
  | cons r rs ih =>
      have hadd : WALWriter.add r.1 r.2.1 r.2.2 d =
          .ok () (d.write walFilename (pre ++ walRecord r)) := by
        simp only [WALWriter.add, modify_apply, h, Option.getD_some]
      simp only [List.forM, bind_apply, hadd, ih _ _ (Disk.write_files_self _ _ _),
        Disk.write_write, walEntries, List.flatMap_cons, List.append_assoc]

/-- A freshly created log with `items` added, cut to its first `n` bytes, reads back as the
records that lie wholly in those bytes, in order, and then `None`, without a panic. -/
theorem wal_prefix_reads_whole_records (d : Disk) (items : List WalItem) (hv : ∀ r ∈ items, r.Valid)
    (n : Nat) :
    ∃ d', (do WALWriter.new; items.forM fun r => WALWriter.add r.1 r.2.1 r.2.2) d = .ok () d' ∧
      d'.files walFilename = some (walEntries items) ∧
      WALReader.new (d'.write walFilename ((walEntries items).take n)) =
        .ok ((walEntries items).take n) (d'.write walFilename ((walEntries items).take n)) ∧
      ∃ rest, (List.replicate ((wholeItems items n).length + 1) ()).mapM (fun _ => WALReader.next)
        ((walEntries items).take n) = .ok ((wholeItems items n).map some ++ [none]) rest := by
  refine ⟨d.write walFilename (walEntries items), ?_, Disk.write_files_self _ _ _, ?_,
    next_walEntries_take items hv n⟩
  · simp only [bind_apply, WALWriter.new, modify_apply,
      add_walEntries items _ [] (Disk.write_files_self _ _ _), Disk.write_write, List.nil_append]
  · simp only [WALReader.new, Disk.write_files_self]

theorem wal_prefix_reads_whole_records_cut :
    ∃ d',
      (do
        WALWriter.new
        [((⟨1, 0⟩ : Duration), [97], [98])].forM fun (r : WalItem) => WALWriter.add r.1 r.2.1 r.2.2)
        Disk.empty = .ok () d' ∧
      d'.files walFilename = some (walEntries [((⟨1, 0⟩ : Duration), [97], [98])]) ∧
      WALReader.new
        (d'.write walFilename ((walEntries [((⟨1, 0⟩ : Duration), [97], [98])]).take 10)) =
        .ok ((walEntries [((⟨1, 0⟩ : Duration), [97], [98])]).take 10)
          (d'.write walFilename ((walEntries [((⟨1, 0⟩ : Duration), [97], [98])]).take 10)) ∧
      ∃ rest,
        (List.replicate ((wholeItems [((⟨1, 0⟩ : Duration), [97], [98])] 10).length + 1) ()).mapM
        (fun _ => WALReader.next) ((walEntries [((⟨1, 0⟩ : Duration), [97], [98])]).take 10) =
          .ok ((wholeItems [((⟨1, 0⟩ : Duration), [97], [98])] 10).map some ++ [none]) rest :=
  wal_prefix_reads_whole_records Disk.empty [((⟨1, 0⟩ : Duration), [97], [98])]
    (fun r hr => by
      simp only [List.mem_singleton] at hr
      subst hr
      exact ⟨by decide, by decide, by decide, by decide, rfl, rfl⟩) 10

end RustyDb.Storage
