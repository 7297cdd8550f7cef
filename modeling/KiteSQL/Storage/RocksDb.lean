import KiteSQL.Storage.Backends

/-! What the transactions call of RocksDB, what is assumed of it, and a database that behaves so. -/
namespace KiteSQL

open Function Option List

structure Snapshot where
  seq : Nat
  store : Store

/-- Data with writes over it; a write of `none` deletes the key. -/
def overlaid (data : Bytes → Option Bytes) (writes : Bytes → Option (Option Bytes)) :
    Bytes → Option Bytes :=
  fun key => (writes key).getD (data key)

/-- The calls of RocksDB, and what can be said of its state: the committed data, the number of
commits, the last commit of every key, and of a transaction its last write to each key and the
number of commits before the first one. No snapshot is set on a transaction itself. -/
structure RocksCalls where
  Db : Type
  Tx : Type
  committed : Db → Store
  seq : Db → Nat
  lastCommit : Db → Bytes → Nat
  writes : Tx → Bytes → Option (Option Bytes)
  firstWrite : Tx → Bytes → Option Nat
  opened : Store → Db
  fresh : Tx
  /-- What a transaction reads under these options. -/
  view : Db → Tx → Option Snapshot → Store
  /-- `put`, and without a value `delete`. -/
  write : Db → Nat → Tx → Bytes → Option Bytes → Option (Db × Tx)
  commit : Db → Nat → Tx → Option Db
  rollback : Db → Nat → Db
  /-- What holds of a database and the transactions that are open on it. -/
  Consistent : Db → (Nat → Option Tx) → Prop

/-- Nothing was committed between two states. -/
structure RocksCalls.SameData (R : RocksCalls) (db db' : R.Db) : Prop where
  committed : R.committed db' = R.committed db
  seq : R.seq db' = R.seq db
  lastCommit : R.lastCommit db' = R.lastCommit db

/-- The behaviour that is assumed of RocksDB. -/
structure RocksApi extends RocksCalls where
  committed_opened (store : Store) : committed (opened store) = store
  lastCommit_opened (store : Store) (key : Bytes) : lastCommit (opened store) key = 0
  writes_fresh (key : Bytes) : writes fresh key = none
  firstWrite_fresh (key : Bytes) : firstWrite fresh key = none
  /-- A read with a snapshot overlays the writes of the transaction on it. -/
  view_snapshot (db : Db) (tx : Tx) (snapshot : Snapshot) :
    (view db tx (some snapshot)).contents = overlaid snapshot.store.contents (writes tx)
  write_data {db db' : Db} {id : Nat} {tx tx' : Tx} {key : Bytes} {value : Option Bytes} :
    write db id tx key value = some (db', tx') → toRocksCalls.SameData db db'
  write_writes {db db' : Db} {id : Nat} {tx tx' : Tx} {key : Bytes} {value : Option Bytes} :
    write db id tx key value = some (db', tx') → writes tx' = update (writes tx) key (some value)
  write_first {db db' : Db} {id : Nat} {tx tx' : Tx} {key : Bytes} {value : Option Bytes} :
    write db id tx key value = some (db', tx') →
      firstWrite tx' = update (firstWrite tx) key (some ((firstWrite tx key).getD (seq db)))
  commit_committed {db db' : Db} {id : Nat} {tx : Tx} : commit db id tx = some db' →
    (committed db').contents = overlaid (committed db).contents (writes tx)
  commit_seq {db db' : Db} {id : Nat} {tx : Tx} : commit db id tx = some db' →
    seq db' = seq db + 1
  commit_last {db db' : Db} {id : Nat} {tx : Tx} (key : Bytes) : commit db id tx = some db' →
    lastCommit db' key = if (firstWrite tx key).isSome then seq db + 1 else lastCommit db key
  rollback_data (db : Db) (id : Nat) : toRocksCalls.SameData db (rollback db id)
  /-- Conflicts on a key are detected from the first write of it on: a transaction commits only if
  nobody has committed the key since. -/
  commit_conflict {db db' : Db} {openTx : Nat → Option Tx} {id n : Nat} {tx : Tx} {key : Bytes} :
    Consistent db openTx → openTx id = some tx → commit db id tx = some db' →
      firstWrite tx key = some n → lastCommit db key ≤ n
  consistent_opened (store : Store) : Consistent (opened store) fun _ => none
  consistent_fresh {db : Db} {openTx : Nat → Option Tx} {id : Nat} :
    Consistent db openTx → Consistent db (update openTx id (some fresh))
  consistent_write {db db' : Db} {openTx : Nat → Option Tx} {id : Nat} {tx tx' : Tx} {key : Bytes}
    {value : Option Bytes} : Consistent db openTx → openTx id = some tx →
      write db id tx key value = some (db', tx') → Consistent db' (update openTx id (some tx'))
  consistent_commit {db db' : Db} {openTx : Nat → Option Tx} {id : Nat} {tx : Tx} :
    Consistent db openTx → openTx id = some tx → commit db id tx = some db' →
      Consistent db' (update openTx id none)
  consistent_rollback {db : Db} {openTx : Nat → Option Tx} {id : Nat} :
    Consistent db openTx → Consistent (rollback db id) (update openTx id none)

/-- A write batch has the newest write first. -/
abbrev WriteBatch := List (Bytes × Option Bytes)

/-- The writes of a batch over a store. -/
def Store.overlay (store : Store) : WriteBatch → Store
  | [] => store
  | (key, some value) :: writes => (store.overlay writes).insert key value
  | (key, none) :: writes => (store.overlay writes).erase key

/-- `TransactionDB` locks the keys that are written, `OptimisticTransactionDB` validates them at the
commit. -/
inductive RocksKind where
  | transactionDb
  | optimisticTransactionDb
deriving DecidableEq

/-- The database with the owner of every lock. -/
structure RocksDb where
  committed : Store
  seq : Nat
  lastCommit : Bytes → Nat
  locks : Bytes → Option Nat

/-- `tracked` has the keys that were written, with the number of commits before the first write. -/
structure RawTransaction where
  batch : WriteBatch
  tracked : List (Bytes × Nat)

namespace RocksDb

/-- `put` and `delete`; a lock that another transaction holds makes them fail. -/
def write (kind : RocksKind) (db : RocksDb) (id : Nat) (tx : RawTransaction) (key : Bytes)
    (value : Option Bytes) : Option (RocksDb × RawTransaction) :=
  if kind = .transactionDb && (db.locks key).any (· ≠ id) then none
  else some ({ db with locks := update db.locks key (some id) },
    ⟨(key, value) :: tx.batch, (key, (tx.tracked.lookup key).getD db.seq) :: tx.tracked⟩)

def unlock (db : RocksDb) (id : Nat) : RocksDb :=
  { db with locks := fun key => (db.locks key).filter (· ≠ id) }

def apply (db : RocksDb) (tx : RawTransaction) : RocksDb :=
  { db with
    committed := db.committed.overlay tx.batch
    seq := db.seq + 1
    lastCommit := fun key =>
      if (tx.tracked.lookup key).isSome then db.seq + 1 else db.lastCommit key }

/-- An optimistic transaction has to find no commit of its keys after its first write of them. -/
def commit (kind : RocksKind) (db : RocksDb) (id : Nat) (tx : RawTransaction) : Option RocksDb :=
  if kind = .transactionDb ∨ ∀ entry ∈ tx.tracked, db.lastCommit entry.1 ≤ entry.2 then
    some ((db.apply tx).unlock id)
  else none

/-- The keys that a transaction wrote are locked for it and not committed since. -/
structure Locked (db : RocksDb) (openTx : Nat → Option RawTransaction) : Prop where
  seq : ∀ key, db.lastCommit key ≤ db.seq
  tracked : ∀ id tx, openTx id = some tx → ∀ entry ∈ tx.tracked,
    db.locks entry.1 = some id ∧ db.lastCommit entry.1 ≤ entry.2

end RocksDb

open RocksDb

theorem lookup_cons_eq_update {β : Type} (l : List (Bytes × β)) (key : Bytes) (value : β) :
    (fun k => lookup k ((key, value) :: l)) =
      update (fun k => l.lookup k) key (some value) := by
  funext k
  rw [lookup_cons]
  by_cases hk : k = key
  · simp [hk]
  · rw [update_of_ne hk, beq_false_of_ne hk]

theorem contents_overlay (store : Store) (writes : WriteBatch) :
    (store.overlay writes).contents = overlaid store.contents fun k => writes.lookup k := by
  induction writes with
  | nil => rfl
  | cons write writes ih =>
    obtain ⟨key, value⟩ := write
    rw [lookup_cons_eq_update]
    funext k
    cases value with
    | some value =>
      rw [Store.overlay, Store.contents_insert, ih]
      by_cases hk : k = key <;> simp [hk, overlaid]
    | none =>
      rw [Store.overlay, Store.contents_erase, ih]
      by_cases hk : k = key <;> simp [hk, overlaid]

theorem mem_of_lookup {β : Type} {l : List (Bytes × β)} {key : Bytes} {v : β}
    (h : l.lookup key = some v) : (key, v) ∈ l := by
  obtain ⟨l₁, l₂, rfl, -⟩ := lookup_eq_some_iff.mp h
  simp

section Locked

variable {kind : RocksKind} {db db' : RocksDb} {openTx : Nat → Option RawTransaction} {id : Nat}
  {tx tx' : RawTransaction} {key : Bytes} {value : Option Bytes}

theorem RocksDb.write_eq_some (h : write kind db id tx key value = some (db', tx')) :
    (kind = .transactionDb → ∀ owner, db.locks key = some owner → owner = id) ∧
      db' = { db with locks := update db.locks key (some id) } ∧
      tx' = ⟨(key, value) :: tx.batch, (key, (tx.tracked.lookup key).getD db.seq) :: tx.tracked⟩ := by
  rw [write] at h
  split at h
  · cases h
  · next hfree =>
    cases h
    exact ⟨fun hk owner ho => by simpa [hk, ho] using hfree, rfl, rfl⟩

theorem RocksDb.commit_eq_some (h : RocksDb.commit kind db id tx = some db') :
    (kind = .transactionDb ∨ ∀ entry ∈ tx.tracked, db.lastCommit entry.1 ≤ entry.2) ∧
      db' = (db.apply tx).unlock id := by
  rw [RocksDb.commit] at h
  split at h
  · next hv => exact ⟨hv, (some.inj h).symm⟩
  · cases h

theorem RocksDb.Locked.fresh (h : Locked db openTx) :
    Locked db (update openTx id (some ⟨[], []⟩)) := by
  refine ⟨h.seq, fun id' tx ho entry he => ?_⟩
  by_cases hid : id' = id
  · subst hid
    rw [update_self] at ho
    cases ho
    cases he
  · rw [update_of_ne hid] at ho
    exact h.tracked id' tx ho entry he

theorem RocksDb.Locked.close (h : Locked db openTx)
    (hseq : ∀ key, db'.lastCommit key ≤ db'.seq)
    (hother : ∀ key owner, owner ≠ id → db.locks key = some owner →
      db'.locks key = some owner ∧ db'.lastCommit key = db.lastCommit key) :
    Locked db' (update openTx id none) where
  seq := hseq
  tracked id' tx' ho entry he := by
    by_cases hid : id' = id
    · subst hid
      rw [update_self] at ho
      cases ho
    · rw [update_of_ne hid] at ho
      obtain ⟨hl, hle⟩ := h.tracked id' tx' ho entry he
      obtain ⟨hl', hlast⟩ := hother _ _ hid hl
      exact ⟨hl', hlast.trans_le hle⟩

theorem RocksDb.Locked.write (h : Locked db openTx) (ho : openTx id = some tx)
    (hw : write .transactionDb db id tx key value = some (db', tx')) :
    Locked db' (update openTx id (some tx')) := by
  obtain ⟨hfree, rfl, rfl⟩ := write_eq_some hw
  refine ⟨h.seq, fun id' tx' ho' entry he => ?_⟩
  by_cases hid : id' = id
  · subst hid
    rw [update_self] at ho'
    cases ho'
    rcases mem_cons.mp he with rfl | he
    · refine ⟨update_self _ _ _, ?_⟩
      cases hl : tx.tracked.lookup key with
      | none => exact h.seq key
      | some n => exact (h.tracked id' tx ho _ (mem_of_lookup hl)).2
    · obtain ⟨hl, hle⟩ := h.tracked id' tx ho entry he
      refine ⟨?_, hle⟩
      by_cases hk : entry.1 = key
      · rw [hk]
        exact update_self _ _ _
      · exact (update_of_ne hk _ _).trans hl
  · rw [update_of_ne hid] at ho'
    obtain ⟨hl, hle⟩ := h.tracked id' tx' ho' entry he
    have hk : entry.1 ≠ key := fun hk => hid (hfree rfl id' (hk ▸ hl))
    exact ⟨(update_of_ne hk _ _).trans hl, hle⟩

theorem RocksDb.Locked.rollback (h : Locked db openTx) :
    Locked (db.unlock id) (update openTx id none) :=
  h.close h.seq fun key owner hne hl => ⟨by simp [unlock, hl, hne], rfl⟩

theorem RocksDb.Locked.commit (h : Locked db openTx) (ho : openTx id = some tx) :
    Locked ((db.apply tx).unlock id) (update openTx id none) := by
  refine h.close (fun key => ?_) fun key owner hne hl => ⟨by simp [unlock, apply, hl, hne], ?_⟩
  · dsimp only [unlock, apply]
    split
    · exact le_rfl
    · exact (h.seq key).trans (Nat.le_succ _)
  · refine if_neg fun hsome => hne ?_
    obtain ⟨n, hn⟩ := isSome_iff_exists.mp hsome
    have hl' := (h.tracked id tx ho _ (mem_of_lookup hn)).1
    exact some.inj (hl.symm.trans hl')

end Locked

def rocksDb (kind : RocksKind) : RocksApi where
  Db := RocksDb
  Tx := RawTransaction
  committed := RocksDb.committed
  seq := RocksDb.seq
  lastCommit := RocksDb.lastCommit
  writes tx key := tx.batch.lookup key
  firstWrite tx key := tx.tracked.lookup key
  opened store := ⟨store, 0, fun _ => 0, fun _ => none⟩
  fresh := ⟨[], []⟩
  view db tx readOpts := ((readOpts.map Snapshot.store).getD db.committed).overlay tx.batch
  write := RocksDb.write kind
  commit := RocksDb.commit kind
  rollback := RocksDb.unlock
  Consistent db openTx := kind = .transactionDb → Locked db openTx
  committed_opened _ := rfl
  lastCommit_opened _ _ := rfl
  writes_fresh _ := rfl
  firstWrite_fresh _ := rfl
  view_snapshot _ _ _ := contents_overlay _ _
  write_data h := by
    obtain ⟨-, rfl, -⟩ := write_eq_some h
    exact ⟨rfl, rfl, rfl⟩
  write_writes h := by
    obtain ⟨-, -, rfl⟩ := write_eq_some h
    exact lookup_cons_eq_update _ _ _
  write_first h := by
    obtain ⟨-, -, rfl⟩ := write_eq_some h
    exact lookup_cons_eq_update _ _ _
  commit_committed h := by
    obtain ⟨-, rfl⟩ := commit_eq_some h
    exact contents_overlay _ _
  commit_seq h := by
    obtain ⟨-, rfl⟩ := commit_eq_some h
    rfl
  commit_last key h := by
    obtain ⟨-, rfl⟩ := commit_eq_some h
    rfl
  rollback_data _ _ := ⟨rfl, rfl, rfl⟩
  commit_conflict hc ho h hf := by
    rcases (commit_eq_some h).1 with hk | hv
    · exact ((hc hk).tracked _ _ ho _ (mem_of_lookup hf)).2
    · exact hv _ (mem_of_lookup hf)
  consistent_opened _ _ := ⟨fun _ => le_rfl, fun _ _ h => by cases h⟩
  consistent_fresh hc hk := (hc hk).fresh
  consistent_write hc ho h hk := by
    subst hk
    exact (hc rfl).write ho h
  consistent_commit hc ho h hk := by
    obtain ⟨-, rfl⟩ := commit_eq_some h
    exact (hc hk).commit ho
  consistent_rollback hc hk := (hc hk).rollback

end KiteSQL
