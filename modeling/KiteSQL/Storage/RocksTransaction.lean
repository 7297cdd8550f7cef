import KiteSQL.Lib.Runs
import KiteSQL.Storage.RocksDb

/-! Transactions on RocksDB: their snapshots, their statements and how they commit. -/
namespace KiteSQL

open Function Option List

inductive TransactionIsolationLevel where
  | readCommitted
  | repeatableRead
deriving DecidableEq

variable {R : RocksApi}

structure RocksTransaction (R : RocksApi) where
  tx : R.Tx
  isolation : TransactionIsolationLevel
  currentSnapshot : Option Snapshot

/-- An iterator with the read options it was opened with, behind the last key that it returned. -/
structure RocksCursor where
  readOpts : Option Snapshot
  min : Bound Bytes
  max : Bound Bytes

namespace RocksCursor

/-- The next entry of what the transaction reads now. -/
def tryNext (it : RocksCursor) (view : Store) : Option KeyValue × RocksCursor :=
  match (Backend.inside view it.min it.max).head? with
  | none => (none, it)
  | some entry => (some entry, { it with min := .excluded entry.1 })

end RocksCursor

namespace RocksTransaction

/-- `db.snapshot()`. -/
def snapshot (db : R.Db) : Snapshot := ⟨R.seq db, R.committed db⟩

def transactionWithIsolation (db : R.Db) (isolation : TransactionIsolationLevel) :
    RocksTransaction R where
  tx := R.fresh
  isolation := isolation
  currentSnapshot := if isolation = .repeatableRead then some (snapshot db) else none

def beginStatementScope (db : R.Db) (tx : RocksTransaction R) : RocksTransaction R :=
  if tx.isolation = .readCommitted then { tx with currentSnapshot := some (snapshot db) } else tx

def endStatementScope (tx : RocksTransaction R) : RocksTransaction R :=
  if tx.isolation = .readCommitted then { tx with currentSnapshot := none } else tx

def buildReadOptions (snapshot : Option Snapshot) : Option Snapshot := snapshot

def getBorrowed (db : R.Db) (tx : RocksTransaction R) (key : Bytes) : Option Bytes :=
  (R.view db tx.tx (buildReadOptions tx.currentSnapshot))[key]?

def range (tx : RocksTransaction R) (min max : Bound Bytes) : RocksCursor :=
  ⟨buildReadOptions tx.currentSnapshot, min, max⟩

end RocksTransaction

/-- The iterators that the executor of a statement, or the binder before it, holds open. -/
abbrev Cursors := List RocksCursor

structure TransactionIter where
  executor : Option Cursors
  statementScopeActive : Bool

inductive StatementPhase where
  | idle
  | building (cursors : Cursors)
  | iterating (iter : TransactionIter)

namespace StatementPhase

/-- The statement that may read, with its iterators. -/
def cursors? : StatementPhase → Option Cursors
  | .idle => none
  | .building cursors => some cursors
  | .iterating iter => iter.executor

def setCursors (cursors : Cursors) : StatementPhase → StatementPhase
  | .idle => .idle
  | .building _ => .building cursors
  | .iterating iter => .iterating { iter with executor := some cursors }

end StatementPhase

structure DBTransaction (R : RocksApi) where
  inner : RocksTransaction R
  phase : StatementPhase

/-- What a client, the binder or an executor does with a transaction. -/
inductive TransactionAction where
  | newTransaction (isolation : TransactionIsolationLevel)
  | execute
  | buildFails
  | iterate
  | get (key : Bytes)
  | range (min max : Bound Bytes)
  | tryNext (cursor : Nat)
  | set (key value : Bytes)
  | remove (key : Bytes)
  | exhausted
  | fails
  | dropIter
  | forgetIter
  | commit
  | drop
deriving DecidableEq

inductive Response where
  | done
  | refused
  | value (value : Option Bytes)
  | entry (entry : Option KeyValue)
deriving DecidableEq

namespace DBTransaction

/-- `TransactionIter::finish_statement_scope`; `executor.take()` closes the iterators. -/
def finishStatementScope (t : DBTransaction R) (iter : TransactionIter) :
    RocksTransaction R × TransactionIter :=
  if iter.statementScopeActive then (t.inner.endStatementScope, ⟨none, false⟩)
  else (t.inner, iter)

/-- The executor returned no tuple or an error. -/
def endOfTuples (t : DBTransaction R) : Option (DBTransaction R) :=
  match t.phase with
  | .iterating iter =>
    match iter.executor with
    | none => some t
    | some _ =>
      let (inner, iter) := t.finishStatementScope iter
      some ⟨inner, .iterating iter⟩
  | _ => none

def writes (db : R.Db) (id : Nat) (t : DBTransaction R) (key : Bytes) (value : Option Bytes) :
    Option (R.Db × DBTransaction R × Response) :=
  match t.phase with
  | .iterating ⟨some _, _⟩ =>
    match R.write db id t.inner.tx key value with
    | none => some (db, t, .refused)
    | some (db, tx) => some (db, { t with inner := { t.inner with tx := tx } }, .done)
  | _ => none

/-- A transaction that is open takes a step; an iterator borrows the transaction, so a statement
begins and a commit is called only when none is left. -/
def act (db : R.Db) (id : Nat) (t : DBTransaction R) :
    TransactionAction → Option (R.Db × Option (DBTransaction R) × Response)
  | .newTransaction _ => none
  | .execute =>
    match t.phase with
    | .idle => some (db, some ⟨t.inner.beginStatementScope db, .building []⟩, .done)
    | _ => none
  | .buildFails =>
    match t.phase with
    | .building _ => some (db, some ⟨t.inner, .idle⟩, .done)
    | _ => none
  | .iterate =>
    match t.phase with
    | .building _ => some (db, some ⟨t.inner, .iterating ⟨some [], true⟩⟩, .done)
    | _ => none
  | .get key =>
    match t.phase.cursors? with
    | some _ => some (db, some t, .value (t.inner.getBorrowed db key))
    | none => none
  | .range min max =>
    match t.phase.cursors? with
    | some cursors =>
      some (db, some ⟨t.inner, t.phase.setCursors (cursors ++ [t.inner.range min max])⟩, .done)
    | none => none
  | .tryNext cursor =>
    match t.phase.cursors? with
    | some cursors =>
      match cursors[cursor]? with
      | some it =>
        let (entry, it) := it.tryNext (R.view db t.inner.tx it.readOpts)
        some (db, some ⟨t.inner, t.phase.setCursors (cursors.set cursor it)⟩, .entry entry)
      | none => none
    | none => none
  | .set key value => (t.writes db id key (some value)).map fun (db, t, r) => (db, some t, r)
  | .remove key => (t.writes db id key none).map fun (db, t, r) => (db, some t, r)
  | .exhausted => t.endOfTuples.map fun t => (db, some t, .done)
  | .fails => t.endOfTuples.map fun t => (db, some t, .done)
  | .dropIter =>
    match t.phase with
    | .iterating iter => some (db, some ⟨(t.finishStatementScope iter).1, .idle⟩, .done)
    | _ => none
  | .forgetIter =>
    match t.phase with
    | .iterating _ => some (db, some ⟨t.inner, .idle⟩, .done)
    | _ => none
  | .commit =>
    match t.phase with
    | .idle =>
      match R.commit db id t.inner.tx with
      | some db => some (db, none, .done)
      | none => some (R.rollback db id, none, .refused)
    | _ => none
  | .drop =>
    match t.phase with
    | .idle => some (R.rollback db id, none, .done)
    | _ => none

end DBTransaction

open DBTransaction

/-- The database with the transactions that are open, by their handles. -/
structure Sessions (R : RocksApi) where
  db : R.Db
  transactions : Nat → Option (DBTransaction R)

namespace Sessions

def start (store : Store) : Sessions R where
  db := R.opened store
  transactions := fun _ => none

def step (s : Sessions R) : Nat × TransactionAction → Option (Sessions R × Response)
  | (id, action) =>
    match s.transactions id, action with
    | none, .newTransaction isolation =>
      let t : DBTransaction R := ⟨.transactionWithIsolation s.db isolation, .idle⟩
      some ({ s with transactions := update s.transactions id (some t) }, .done)
    | none, _ => none
    | some t, action =>
      match t.act s.db id action with
      | none => none
      | some (db, t, r) =>
        some ({ db := db, transactions := update s.transactions id t }, r)

end Sessions

variable {id : Nat} {a : TransactionAction} {r : Response} {t t' : DBTransaction R}
  {db db' : R.Db} {o : Option (DBTransaction R)}

/-- Actions that neither write nor begin or end a statement or a transaction. -/
def TransactionAction.isQuiet : TransactionAction → Bool
  | .newTransaction _ | .execute | .set _ _ | .remove _ | .commit | .drop => false
  | _ => true

/-- The action that writes a value or, without one, removes the key. -/
def TransactionAction.write (key : Bytes) (value : Option Bytes) : TransactionAction :=
  value.elim (.remove key) (.set key)

/-- The iterators of a statement after an action. -/
def TransactionAction.cursorsAfter (readOpts : Option Snapshot) :
    TransactionAction → Response → Cursors → Cursors
  | .iterate, _, _ => []
  | .range min max, _, cursors => cursors ++ [⟨readOpts, min, max⟩]
  | .tryNext cursor, .entry (some entry), cursors =>
    cursors.modify cursor fun it => { it with min := .excluded entry.1 }
  | _, _, cursors => cursors

theorem cursors?_setCursors {phase : StatementPhase} {cursors cursors' : Cursors}
    (h : (phase.setCursors cursors).cursors? = some cursors') : cursors' = cursors := by
  cases phase <;> cases h
  all_goals rfl

theorem set_tryNext {cursors : Cursors} {cursor : Nat} {it : RocksCursor} {view : Store}
    (h : cursors[cursor]? = some it) (readOpts : Option Snapshot) :
    cursors.set cursor (it.tryNext view).2 =
      (TransactionAction.tryNext cursor).cursorsAfter readOpts (.entry (it.tryNext view).1)
        cursors := by
  rw [RocksCursor.tryNext]
  split
  · obtain ⟨hlt, rfl⟩ := List.getElem?_eq_some_iff.mp h
    exact set_getElem_self hlt
  · simp [TransactionAction.cursorsAfter, modify_eq_set_getElem?, h]

/-- What a step leaves of the database and of the handle. -/
inductive ActStep (db : R.Db) (id : Nat) (t : DBTransaction R) :
    TransactionAction → Response → R.Db → Option (DBTransaction R) → Prop
  | keep {a : TransactionAction} {r : Response} {phase : StatementPhase} : a.isQuiet = true →
      (∀ cursors, phase.cursors? = some cursors → ∃ old, t.phase.cursors? = some old ∧
        cursors = a.cursorsAfter t.inner.currentSnapshot r old) →
      ActStep db id t a r db (some ⟨t.inner, phase⟩)
  | finish {a : TransactionAction} {r : Response} {phase : StatementPhase} : a.isQuiet = true →
      phase.cursors? = none → ActStep db id t a r db (some ⟨t.inner.endStatementScope, phase⟩)
  | execute {r : Response} :
      ActStep db id t .execute r db (some ⟨t.inner.beginStatementScope db, .building []⟩)
  | refused {k : Bytes} {v : Option Bytes} : ActStep db id t (.write k v) .refused db (some t)
  | write {k : Bytes} {v : Option Bytes} {tx : R.Tx} {db' : R.Db} :
      t.phase.cursors?.isSome → R.write db id t.inner.tx k v = some (db', tx) →
      ActStep db id t (.write k v) .done db' (some ⟨{ t.inner with tx := tx }, t.phase⟩)
  | commit {db' : R.Db} : R.commit db id t.inner.tx = some db' →
      ActStep db id t .commit .done db' none
  | rollback {a : TransactionAction} {r : Response} : a ≠ .commit ∨ r ≠ .done →
      ActStep db id t a r (R.rollback db id) none

theorem actStep_writes {k : Bytes} {v : Option Bytes}
    (hw : t.writes db id k v = some (db', t', r)) :
    ActStep db id t (.write k v) r db' (some t') := by
  rw [writes] at hw
  split at hw
  · next hphase =>
    split at hw
    · cases hw
      exact .refused
    · next hwrite =>
      cases hw
      exact .write (by simp [hphase, StatementPhase.cursors?]) hwrite
  · cases hw

theorem actStep_endOfTuples (ha : a = .exhausted ∨ a = .fails) (he : t.endOfTuples = some t') :
    ActStep db id t a r db (some t') := by
  have hq : a.isQuiet = true := by rcases ha with rfl | rfl <;> rfl
  have hkeep (cursors : Cursors) : a.cursorsAfter t.inner.currentSnapshot r cursors = cursors := by
    rcases ha with rfl | rfl <;> rfl
  obtain ⟨inner, phase⟩ := t
  cases phase with
  | idle => cases he
  | building cursors => cases he
  | iterating iter =>
    obtain ⟨executor, active⟩ := iter
    cases executor with
    | none =>
      cases he
      exact .keep hq fun cursors hc => by cases hc
    | some cursors =>
      cases active with
      | true =>
        cases he
        exact .finish hq rfl
      | false =>
        cases he
        exact .keep hq fun cursors' hc => ⟨cursors', hc, (hkeep cursors').symm⟩

theorem actStep_act (ha : t.act db id a = some (db', o, r)) : ActStep db id t a r db' o := by
  obtain ⟨inner, phase⟩ := t
  cases a with
  | newTransaction isolation => cases ha
  | set k v =>
    obtain ⟨⟨db₁, t₁, r₁⟩, hw, he⟩ := map_eq_some_iff.mp ha
    cases he
    exact actStep_writes (v := some v) hw
  | remove k =>
    obtain ⟨⟨db₁, t₁, r₁⟩, hw, he⟩ := map_eq_some_iff.mp ha
    cases he
    exact actStep_writes (v := none) hw
  | exhausted | fails =>
    obtain ⟨t₁, he, heq⟩ := map_eq_some_iff.mp ha
    cases heq
    exact actStep_endOfTuples (by simp) he
  | tryNext cursor =>
    rw [act] at ha
    split at ha
    · next cursors hc =>
      split at ha
      · next it hit =>
        cases ha
        refine .keep rfl fun cursors' hc' => ⟨cursors, hc, ?_⟩
        rw [cursors?_setCursors hc']
        exact set_tryNext hit _
      · cases ha
    · cases ha
  | get k =>
    rw [act] at ha
    split at ha
    · cases ha
      exact .keep rfl fun cursors hc => ⟨cursors, hc, rfl⟩
    · cases ha
  | range min max =>
    rw [act] at ha
    split at ha
    · next cursors hc =>
      cases ha
      exact .keep rfl fun cursors' hc' => ⟨cursors, hc, cursors?_setCursors hc'⟩
    · cases ha
  | execute =>
    cases phase <;> cases ha
    exact .execute
  | buildFails =>
    cases phase <;> cases ha
    exact .keep rfl fun cursors hc => by cases hc
  | iterate =>
    cases phase <;> cases ha
    refine .keep rfl fun cursors hc => ⟨_, rfl, ?_⟩
    cases hc
    rfl
  | dropIter =>
    cases phase with
    | iterating iter =>
      obtain ⟨executor, active⟩ := iter
      cases active with
      | true =>
        cases ha
        exact .finish rfl rfl
      | false =>
        cases ha
        exact .keep rfl fun cursors hc => by cases hc
    | _ => cases ha
  | forgetIter =>
    cases phase <;> cases ha
    exact .keep rfl fun cursors hc => by cases hc
  | commit =>
    rw [act] at ha
    split at ha
    · split at ha
      · next hcommit =>
        cases ha
        exact .commit hcommit
      · cases ha
        exact .rollback (.inr (by simp))
    · cases ha
  | drop =>
    rw [act] at ha
    split at ha <;> cases ha
    exact .rollback (.inl (by simp))

/-- A step creates a transaction or is a step of one that is open. -/
theorem step_cases {s s' : Sessions R} (h : s.step (id, a) = some (s', r)) :
    (∃ isolation, s.transactions id = none ∧ a = .newTransaction isolation ∧
      s' = ⟨s.db, update s.transactions id
        (some ⟨.transactionWithIsolation s.db isolation, .idle⟩)⟩) ∨
    ∃ t db o, s.transactions id = some t ∧ t.act s.db id a = some (db, o, r) ∧
      s' = ⟨db, update s.transactions id o⟩ := by
  cases ht : s.transactions id with
  | none =>
    cases a <;> simp only [Sessions.step, ht] at h <;> cases h
    exact .inl ⟨_, rfl, rfl, rfl⟩
  | some t =>
    simp only [Sessions.step, ht] at h
    split at h
    · cases h
    · next hact =>
      cases h
      exact .inr ⟨t, _, _, rfl, hact, rfl⟩

end KiteSQL
