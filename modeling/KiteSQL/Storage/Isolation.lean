import KiteSQL.Storage.RocksTransaction

/-! What the reads of a transaction see, in every interleaving of transactions. -/
namespace KiteSQL

open Function Runs Backend Store

abbrev TransactionLog := Log (Nat × TransactionAction) Response

namespace TransactionLog

/-- The last write that a transaction made to each key. -/
def ownWrites (id : Nat) : TransactionLog → Bytes → Option (Option Bytes)
  | [] => fun _ => none
  | ((id', action), r) :: past =>
    if id' = id then
      match action, r with
      | .newTransaction _, _ => fun _ => none
      | .set key value, .done => update (ownWrites id past) key (some (some value))
      | .remove key, .done => update (ownWrites id past) key (some none)
      | _, _ => ownWrites id past
    else ownWrites id past

/-- The data that the commits have left. -/
def committedData (initial : Store) : TransactionLog → Bytes → Option Bytes
  | [] => initial.contents
  | ((id, action), r) :: past =>
    match action, r with
    | .commit, .done => overlaid (committedData initial past) (ownWrites id past)
    | _, _ => committedData initial past

/-- The data committed when a transaction last did such an action. -/
def committedWhen (initial : Store) (isStart : TransactionAction → Bool) (id : Nat) :
    TransactionLog → Bytes → Option Bytes
  | [] => initial.contents
  | ((id', action), _) :: past =>
    if id' = id ∧ isStart action then committedData initial past
    else committedWhen initial isStart id past

/-- The ranges that the iterators of the statement under way still have to go through: each from
where it was opened or from behind the last key that it returned. -/
def openRanges (id : Nat) : TransactionLog → List (Bound Bytes × Bound Bytes)
  | [] => []
  | ((id', action), r) :: past =>
    if id' = id then
      match action, r with
      | .newTransaction _, _ | .execute, _ | .iterate, _ => []
      | .range min max, _ => openRanges id past ++ [(min, max)]
      | .tryNext cursor, .entry (some entry) =>
        (openRanges id past).modify cursor fun range => (.excluded entry.1, range.2)
      | _, _ => openRanges id past
    else openRanges id past

def isolationOf (id : Nat) : TransactionLog → Option TransactionIsolationLevel
  | [] => none
  | ((id', action), _) :: past =>
    if id' = id then
      match action with
      | .newTransaction isolation => some isolation
      | _ => isolationOf id past
    else isolationOf id past

end TransactionLog

namespace TransactionAction

def isCreation : TransactionAction → Bool
  | .newTransaction _ => true
  | _ => false

def isStatementStart : TransactionAction → Bool
  | .execute => true
  | _ => false

end TransactionAction

open TransactionAction TransactionLog

/-- The data committed when the transaction was created or, under `ReadCommitted`, when its last
statement started. -/
def TransactionLog.baseData (initial : Store) (id : Nat) (log : TransactionLog) :
    Bytes → Option Bytes :=
  match isolationOf id log with
  | some .repeatableRead => committedWhen initial isCreation id log
  | _ => committedWhen initial isStatementStart id log

/-- The data a transaction has to see. -/
def TransactionLog.dataSeen (initial : Store) (id : Nat) (log : TransactionLog) :
    Bytes → Option Bytes :=
  overlaid (baseData initial id log) (ownWrites id log)

/-- The first entry between two bounds. -/
def IsFirst (data : Bytes → Option Bytes) (min max : Bound Bytes) : Option KeyValue → Prop
  | none => ∀ k, inRange min max k = true → data k = none
  | some (key, value) => inRange min max key = true ∧ data key = some value ∧
    ∀ k, inRange min max k = true → data k ≠ none → (compare key k).isLE = true

variable {R : RocksApi} {initial store : Store} {log : TransactionLog} {id id' : Nat}
  {a : TransactionAction} {r : Response} {t : DBTransaction R} {db db' : R.Db}
  {o : Option (DBTransaction R)} {s : Sessions R}

theorem head?_inside (store : Store) (min max : Bound Bytes) :
    IsFirst store.contents min max (inside store min max).head? := by
  cases h : inside store min max with
  | nil =>
    intro k hk
    cases hv : store.contents k with
    | none => rfl
    | some v =>
      have hmem := mem_inside.mpr ⟨hv, hk⟩
      rw [h] at hmem
      cases hmem
  | cons entry rest =>
    obtain ⟨key, value⟩ := entry
    have hmem : (key, value) ∈ inside store min max := h ▸ List.mem_cons_self
    obtain ⟨hv, hk⟩ := mem_inside.mp hmem
    refine ⟨hk, hv, fun k' hk' hne => ?_⟩
    obtain ⟨v, hv'⟩ := Option.ne_none_iff_exists'.mp hne
    have hmem' := mem_inside.mpr ⟨hv', hk'⟩
    rw [h] at hmem'
    rcases List.mem_cons.mp hmem' with he | hrest
    · cases he
      exact Std.ReflCmp.isLE_rfl
    · exact Ordering.isLE_of_eq_lt (LmdbTransaction.inside_ascending h hrest)

section Frame

theorem ownWrites_other (h : id' ≠ id) : ownWrites id (((id', a), r) :: log) = ownWrites id log :=
  if_neg h

theorem baseData_other (h : id' ≠ id) :
    baseData initial id (((id', a), r) :: log) = baseData initial id log := by
  simp [baseData, isolationOf, committedWhen, h]

theorem isolationOf_other (h : id' ≠ id) :
    isolationOf id (((id', a), r) :: log) = isolationOf id log :=
  if_neg h

theorem openRanges_other (h : id' ≠ id) :
    openRanges id (((id', a), r) :: log) = openRanges id log :=
  if_neg h

end Frame

/-- The iterators that go through these ranges. -/
def cursorsOf (readOpts : Option Snapshot) (ranges : List (Bound Bytes × Bound Bytes)) : Cursors :=
  ranges.map fun range => ⟨readOpts, range.1, range.2⟩

/-- What a handle has kept of the log. -/
structure Tracks (initial : Store) (log : TransactionLog) (id : Nat) (t : DBTransaction R) :
    Prop where
  isolation : isolationOf id log = some t.inner.isolation
  writes : R.writes t.inner.tx = ownWrites id log
  snapshot : t.inner.isolation = .repeatableRead ∨ t.phase.cursors?.isSome →
    ∃ snapshot, t.inner.currentSnapshot = some snapshot ∧
      snapshot.store.contents = baseData initial id log
  cursors : ∀ cursors, t.phase.cursors? = some cursors →
    cursors = cursorsOf t.inner.currentSnapshot (openRanges id log)

theorem Tracks.other (h : Tracks initial log id t) (hne : id' ≠ id) :
    Tracks initial (((id', a), r) :: log) id t where
  isolation := (isolationOf_other hne).trans h.isolation
  writes := h.writes.trans (ownWrites_other hne).symm
  snapshot hp := by
    rw [baseData_other hne]
    exact h.snapshot hp
  cursors := by
    rw [openRanges_other hne]
    exact h.cursors

theorem Tracks.view (h : Tracks initial log id t) (hr : t.phase.cursors?.isSome) :
    (R.view db t.inner.tx t.inner.currentSnapshot).contents = dataSeen initial id log := by
  obtain ⟨snapshot, hs, hdata⟩ := h.snapshot (.inr hr)
  rw [hs, R.view_snapshot, h.writes, hdata]
  rfl

section Quiet

variable (hq : a.isQuiet = true) {phase : StatementPhase}
include hq

theorem isolationOf_quiet : isolationOf id (((id, a), r) :: log) = isolationOf id log := by
  cases a <;> simp_all [isQuiet, isolationOf]

theorem ownWrites_quiet : ownWrites id (((id, a), r) :: log) = ownWrites id log := by
  cases a <;> simp_all [isQuiet, ownWrites]

theorem baseData_quiet : baseData initial id (((id, a), r) :: log) = baseData initial id log := by
  rw [baseData, isolationOf_quiet hq]
  cases a <;> simp_all [isQuiet, baseData, committedWhen, isCreation, isStatementStart]

theorem cursorsOf_quiet (readOpts : Option Snapshot) :
    cursorsOf readOpts (openRanges id (((id, a), r) :: log)) =
      a.cursorsAfter readOpts r (cursorsOf readOpts (openRanges id log)) := by
  cases a with
  | range min max => simp [openRanges, cursorsOf, cursorsAfter]
  | tryNext cursor =>
    cases r with
    | entry entry =>
      cases entry with
      | none => simp [openRanges, cursorsAfter]
      | some entry =>
        apply List.ext_getElem?
        intro i
        by_cases hi : cursor = i <;>
          simp [openRanges, cursorsOf, cursorsAfter, hi, Function.comp_def]
    | _ => simp [openRanges, cursorsAfter]
  | _ => simp_all [isQuiet, openRanges, cursorsOf, cursorsAfter]

/-- The statement goes on, with iterators that use the current snapshot. -/
theorem Tracks.keep (h : Tracks initial log id t)
    (hphase : ∀ cursors, phase.cursors? = some cursors → ∃ old, t.phase.cursors? = some old ∧
      cursors = a.cursorsAfter t.inner.currentSnapshot r old) :
    Tracks initial (((id, a), r) :: log) id ⟨t.inner, phase⟩ where
  isolation := (isolationOf_quiet hq).trans h.isolation
  writes := h.writes.trans (ownWrites_quiet hq).symm
  snapshot hp := by
    rw [baseData_quiet hq]
    refine h.snapshot (hp.imp_right fun hsome => ?_)
    obtain ⟨cursors, hc⟩ := Option.isSome_iff_exists.mp hsome
    obtain ⟨old, hold, -⟩ := hphase cursors hc
    simp [hold]
  cursors cursors hc := by
    obtain ⟨old, hold, heq⟩ := hphase cursors hc
    rw [heq, h.cursors old hold]
    exact (cursorsOf_quiet hq _).symm

/-- The statement has ended. -/
theorem Tracks.finish (h : Tracks initial log id t) (hphase : phase.cursors? = none) :
    Tracks initial (((id, a), r) :: log) id ⟨t.inner.endStatementScope, phase⟩ := by
  cases hi : t.inner.isolation with
  | repeatableRead =>
    have hscope : t.inner.endStatementScope = t.inner := if_neg (by simp [hi])
    rw [hscope]
    refine h.keep hq fun cursors hc => ?_
    rw [hphase] at hc
    cases hc
  | readCommitted =>
    have hscope : t.inner.endStatementScope = { t.inner with currentSnapshot := none } :=
      if_pos hi
    rw [hscope]
    refine ⟨(isolationOf_quiet hq).trans h.isolation, h.writes.trans (ownWrites_quiet hq).symm,
      fun hp => ?_, fun cursors hc => ?_⟩
    · rw [hphase, hi] at hp
      rcases hp with hp | hp <;> cases hp
    · rw [hphase] at hc
      cases hc

end Quiet

/-- A transaction starts with no writes and, under `RepeatableRead`, with the data committed now. -/
theorem Tracks.create (hdb : (R.committed db).contents = committedData initial log)
    (isolation : TransactionIsolationLevel) :
    Tracks initial (((id, .newTransaction isolation), r) :: log) id
      ⟨.transactionWithIsolation db isolation, .idle⟩ where
  isolation := if_pos rfl
  writes := (funext R.writes_fresh).trans (if_pos rfl).symm
  snapshot hp := by
    rcases hp with hp | hp
    · have hi : isolation = .repeatableRead := hp
      subst hi
      refine ⟨RocksTransaction.snapshot db, rfl, hdb.trans ?_⟩
      simp [baseData, isolationOf, committedWhen, isCreation]
    · cases hp
  cursors cursors hc := by cases hc

/-- Under `ReadCommitted` a statement starts with the data committed now. -/
theorem Tracks.execute (h : Tracks initial log id t)
    (hdb : (R.committed db).contents = committedData initial log) :
    Tracks initial (((id, .execute), r) :: log) id
      ⟨t.inner.beginStatementScope db, .building []⟩ := by
  have hiso : isolationOf id (((id, .execute), r) :: log) = some t.inner.isolation :=
    (if_pos rfl).trans h.isolation
  have hwrites : ownWrites id (((id, .execute), r) :: log) = ownWrites id log := if_pos rfl
  have hcursors : ∀ cursors, (StatementPhase.building []).cursors? = some cursors →
      cursors = cursorsOf (t.inner.beginStatementScope db).currentSnapshot
        (openRanges id (((id, .execute), r) :: log)) := by
    intro cursors hc
    cases hc
    simp [openRanges, cursorsOf]
  cases hi : t.inner.isolation with
  | repeatableRead =>
    have hscope : t.inner.beginStatementScope db = t.inner := if_neg (by simp [hi])
    rw [hscope] at hcursors ⊢
    refine ⟨hiso, h.writes.trans hwrites.symm, fun _ => ?_, hcursors⟩
    obtain ⟨snapshot, hs, hdata⟩ := h.snapshot (.inl hi)
    refine ⟨snapshot, hs, hdata.trans ?_⟩
    simp [baseData, h.isolation, hiso, hi, committedWhen, isCreation]
  | readCommitted =>
    have hscope : t.inner.beginStatementScope db =
        { t.inner with currentSnapshot := some (RocksTransaction.snapshot db) } := if_pos hi
    rw [hscope] at hcursors ⊢
    refine ⟨hiso, h.writes.trans hwrites.symm, fun _ => ?_, hcursors⟩
    refine ⟨RocksTransaction.snapshot db, rfl, hdb.trans ?_⟩
    simp [baseData, hiso, hi, committedWhen, isStatementStart]

section Write

variable {key : Bytes} {value : Option Bytes}

theorem isolationOf_write :
    isolationOf id (((id, .write key value), r) :: log) = isolationOf id log := by
  cases value <;> exact if_pos rfl

theorem baseData_write :
    baseData initial id (((id, .write key value), r) :: log) = baseData initial id log := by
  rw [baseData, isolationOf_write]
  cases value <;>
    simp [baseData, committedWhen, TransactionAction.write, isCreation, isStatementStart]

theorem ownWrites_write : ownWrites id (((id, .write key value), .done) :: log) =
    update (ownWrites id log) key (some value) := by
  cases value <;> exact if_pos rfl

theorem ownWrites_refused :
    ownWrites id (((id, .write key value), .refused) :: log) = ownWrites id log := by
  cases value <;> exact if_pos rfl

theorem openRanges_write :
    openRanges id (((id, .write key value), r) :: log) = openRanges id log := by
  cases value <;> exact if_pos rfl

theorem Tracks.write {tx : R.Tx} (h : Tracks initial log id t)
    (hw : R.write db id t.inner.tx key value = some (db', tx)) :
    Tracks initial (((id, .write key value), .done) :: log) id
      ⟨{ t.inner with tx := tx }, t.phase⟩ := by
  refine ⟨isolationOf_write.trans h.isolation, ?_, fun hp => ?_, ?_⟩
  · rw [ownWrites_write, ← h.writes]
    exact R.write_writes hw
  · rw [baseData_write]
    exact h.snapshot hp
  · rw [openRanges_write]
    exact h.cursors

end Write

/-- What a step leaves of the handle has kept the log with the step. -/
theorem Tracks.act {t' : DBTransaction R} (h : Tracks initial log id t)
    (hdb : (R.committed db).contents = committedData initial log)
    (ha : t.act db id a = some (db', some t', r)) : Tracks initial (((id, a), r) :: log) id t' := by
  cases actStep_act ha with
  | keep hq hphase => exact h.keep hq hphase
  | finish hq hphase => exact h.finish hq hphase
  | execute => exact h.execute hdb
  | refused =>
    refine ⟨isolationOf_write.trans h.isolation, h.writes.trans ownWrites_refused.symm,
      fun hp => ?_, ?_⟩
    · rw [baseData_write]
      exact h.snapshot hp
    · rw [openRanges_write]
      exact h.cursors
  | write _ hwrite => exact h.write hwrite

theorem committedData_cons (h : a ≠ .commit ∨ r ≠ .done) :
    committedData initial (((id, a), r) :: log) = committedData initial log := by
  rw [committedData]
  rintro rfl rfl
  rcases h with h | h <;> exact h rfl

/-- Only a commit that is done changes the committed data. -/
theorem act_data (ha : t.act db id a = some (db', o, r)) :
    (a ≠ .commit ∨ r ≠ .done) ∧ R.SameData db db' ∨
      a = .commit ∧ r = .done ∧ R.commit db id t.inner.tx = some db' := by
  have hsame : R.SameData db db := ⟨rfl, rfl, rfl⟩
  have hne {k : Bytes} {v : Option Bytes} : TransactionAction.write k v ≠ .commit := by
    cases v <;> simp [TransactionAction.write]
  cases actStep_act ha with
  | keep hq | finish hq => exact .inl ⟨.inl (by rintro rfl; cases hq), hsame⟩
  | execute => exact .inl ⟨.inl (by simp), hsame⟩
  | refused => exact .inl ⟨.inl hne, hsame⟩
  | write _ hw => exact .inl ⟨.inl hne, R.write_data hw⟩
  | commit hcommit => exact .inr ⟨rfl, rfl, hcommit⟩
  | rollback h => exact .inl ⟨h, R.rollback_data db id⟩

theorem Tracks.committed (h : Tracks initial log id t)
    (hdb : (R.committed db).contents = committedData initial log)
    (ha : t.act db id a = some (db', o, r)) :
    (R.committed db').contents = committedData initial (((id, a), r) :: log) := by
  rcases act_data ha with ⟨hne, hsame⟩ | ⟨rfl, rfl, hcommit⟩
  · rw [hsame.committed, committedData_cons hne, hdb]
  · rw [R.commit_committed hcommit, hdb, h.writes]
    rfl

/-- The transactions of RocksDB behind the handles. -/
def Sessions.openTx (s : Sessions R) (id : Nat) : Option R.Tx :=
  (s.transactions id).map fun t => t.inner.tx

/-- The database and every handle have kept the log. -/
structure Faithful (initial : Store) (log : TransactionLog) (s : Sessions R) : Prop where
  committed : (R.committed s.db).contents = committedData initial log
  tracks : ∀ id t, s.transactions id = some t → Tracks initial log id t

theorem faithful_start : Faithful initial [] (.start (R := R) initial) :=
  ⟨by rw [Sessions.start, R.committed_opened]; rfl, fun _ _ h => by cases h⟩

theorem Faithful.step {s' : Sessions R} (h : Faithful initial log s)
    (hs : s.step (id, a) = some (s', r)) : Faithful initial (((id, a), r) :: log) s' := by
  rcases step_cases hs with ⟨isolation, hnone, rfl, rfl⟩ | ⟨t, db, o, ht, hact, rfl⟩
  · refine ⟨h.committed, fun id' t' ht' => ?_⟩
    dsimp only at ht'
    by_cases hid : id' = id
    · subst hid
      rw [update_self] at ht'
      cases ht'
      exact Tracks.create h.committed isolation
    · rw [update_of_ne hid] at ht'
      exact (h.tracks id' t' ht').other (Ne.symm hid)
  · refine ⟨(h.tracks id t ht).committed h.committed hact, fun id' t' ht' => ?_⟩
    dsimp only at ht'
    by_cases hid : id' = id
    · subst hid
      rw [update_self] at ht'
      subst ht'
      exact (h.tracks _ t ht).act h.committed hact
    · rw [update_of_ne hid] at ht'
      exact (h.tracks id' t' ht').other (Ne.symm hid)

theorem Tracks.get {key : Bytes} (h : Tracks initial log id t)
    (ha : t.act db id (.get key) = some (db', o, r)) :
    r = .value (dataSeen initial id log key) := by
  rw [DBTransaction.act] at ha
  split at ha
  · next hc =>
    cases ha
    exact congrArg Response.value (congrFun (h.view (by simp [hc])) key)
  · cases ha

theorem Tracks.tryNext {cursor : Nat} (h : Tracks initial log id t)
    (ha : t.act db id (.tryNext cursor) = some (db', o, r)) :
    ∃ min max entry, (openRanges id log)[cursor]? = some (min, max) ∧ r = .entry entry ∧
      IsFirst (dataSeen initial id log) min max entry := by
  rw [DBTransaction.act] at ha
  split at ha
  · next cursors hc =>
    split at ha
    · next it hit =>
      cases ha
      rw [h.cursors cursors hc, cursorsOf, List.getElem?_map] at hit
      obtain ⟨⟨min, max⟩, hrange, rfl⟩ := Option.map_eq_some_iff.mp hit
      refine ⟨min, max, _, hrange, rfl, ?_⟩
      have hentry (it : RocksCursor) (view : Store) :
          (it.tryNext view).1 = (inside view it.min it.max).head? := by
        rw [RocksCursor.tryNext]
        split <;> simp_all
      change IsFirst _ _ _ (RocksCursor.tryNext _ _).1
      rw [hentry, ← h.view (by simp [hc])]
      exact head?_inside _ _ _
    · cases ha
  · cases ha

end KiteSQL
