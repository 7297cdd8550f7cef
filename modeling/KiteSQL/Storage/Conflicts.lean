import KiteSQL.Storage.Isolation

/-! Rows that two transactions insert under one key. -/
namespace KiteSQL

open Function Runs TransactionAction TransactionLog RocksTransaction Option

variable {R : RocksApi}

namespace TransactionLog

/-- The statement under way has found the key absent, as `append_tuple` checks before it writes. -/
def foundAbsent (key : Bytes) (id : Nat) : TransactionLog → Bool
  | [] => false
  | ((id', action), r) :: past =>
    if id' = id then
      match action, r with
      | .get k, .value none => k = key || foundAbsent key id past
      | .newTransaction _, _ | .execute, _ => false
      | _, _ => foundAbsent key id past
    else foundAbsent key id past

/-- The transaction has written a row under the key after it found it absent. -/
def inserted (key : Bytes) (id : Nat) : TransactionLog → Bool
  | [] => false
  | ((id', action), r) :: past =>
    if id' = id then
      match action, r with
      | .set k _, .done => (k = key && foundAbsent key id past) || inserted key id past
      | .newTransaction _, _ => false
      | _, _ => inserted key id past
    else inserted key id past

/-- The transactions that inserted the key and committed. -/
def committedInserts (key : Bytes) : TransactionLog → List Nat
  | [] => []
  | ((id, action), r) :: past =>
    match action, r with
    | .commit, .done =>
      if inserted key id past then id :: committedInserts key past else committedInserts key past
    | _, _ => committedInserts key past

end TransactionLog

/-- No removal of the key, and no commit of it between the snapshot that a transaction reads and
the first write of the key by the transaction. -/
def Undisturbed (key : Bytes) (s : Sessions R) : Nat × TransactionAction → Prop
  | (_, .remove k) => k ≠ key
  | (id, .set k _) => k = key → ∀ t snapshot, s.transactions id = some t →
    t.inner.currentSnapshot = some snapshot → R.firstWrite t.inner.tx key = none →
      R.lastCommit s.db key ≤ snapshot.seq
  | _ => True

variable {initial : Store} {log : TransactionLog} {id id' : Nat} {a : TransactionAction}
  {r : Response} {t t' : DBTransaction R} {db db' : R.Db} {key : Bytes}
  {o : Option (DBTransaction R)}

/-- What the log and the database say of the key, for a transaction that is open. -/
structure Clean (key : Bytes) (log : TransactionLog) (db : R.Db) (id : Nat) (t : DBTransaction R) :
    Prop where
  written : R.writes t.inner.tx key ≠ some none
  tracked : (R.firstWrite t.inner.tx key).isSome = (R.writes t.inner.tx key).isSome
  seq : ∀ n, R.firstWrite t.inner.tx key = some n → n ≤ R.seq db
  snapshot : ∀ snapshot, t.inner.currentSnapshot = some snapshot → snapshot.seq ≤ R.seq db ∧
    (snapshot.store.contents key = none → R.lastCommit db key = 0 ∨
      snapshot.seq < R.lastCommit db key)
  absent : foundAbsent key id log = true → t.phase.cursors?.isSome →
    ∃ snapshot, t.inner.currentSnapshot = some snapshot ∧ snapshot.store.contents key = none ∧
      (R.firstWrite t.inner.tx key = none ∨ inserted key id log = true)
  inserted : inserted key id log = true → ∃ n, R.firstWrite t.inner.tx key = some n ∧
    (R.lastCommit db key = 0 ∨ n < R.lastCommit db key)

section Logs

theorem foundAbsent_other (h : id' ≠ id) :
    foundAbsent key id (((id', a), r) :: log) = foundAbsent key id log :=
  if_neg h

theorem inserted_other (h : id' ≠ id) :
    inserted key id (((id', a), r) :: log) = inserted key id log :=
  if_neg h

theorem inserted_quiet (hq : a.isQuiet = true) :
    inserted key id (((id, a), r) :: log) = inserted key id log := by
  cases a <;> simp_all [isQuiet, inserted]

theorem foundAbsent_quiet (hq : a.isQuiet = true)
    (h : foundAbsent key id (((id, a), r) :: log) = true) :
    foundAbsent key id log = true ∨ a = .get key ∧ r = .value none := by
  cases a with
  | get k =>
    cases r with
    | value v => cases v <;> simp_all [foundAbsent, or_comm]
    | _ => simp_all [foundAbsent]
  | _ => simp_all [isQuiet, foundAbsent]

end Logs

section Others

/-- The database goes on, with at most a commit of the key. -/
theorem Clean.mono (h : Clean key log db id t) (hseq : R.seq db ≤ R.seq db')
    (hlast : R.lastCommit db' key = R.lastCommit db key ∨ R.seq db < R.lastCommit db' key) :
    Clean key log db' id t where
  written := h.written
  tracked := h.tracked
  seq n hn := (h.seq n hn).trans hseq
  snapshot snapshot hs := by
    obtain ⟨hle, habsent⟩ := h.snapshot snapshot hs
    refine ⟨hle.trans hseq, fun hnone => ?_⟩
    rcases hlast with hlast | hlast
    · rw [hlast]
      exact habsent hnone
    · exact .inr (hle.trans_lt hlast)
  absent := h.absent
  inserted hi := by
    obtain ⟨n, hn, hcommit⟩ := h.inserted hi
    refine ⟨n, hn, ?_⟩
    rcases hlast with hlast | hlast
    · rw [hlast]
      exact hcommit
    · exact .inr ((h.seq n hn).trans_lt hlast)

theorem Clean.sameData (h : Clean key log db id t) (hd : R.SameData db db') :
    Clean key log db' id t :=
  h.mono hd.seq.ge (.inl (congrFun hd.lastCommit key))

theorem Clean.append (h : Clean key log db id t) (hne : id' ≠ id) :
    Clean key (((id', a), r) :: log) db id t where
  written := h.written
  tracked := h.tracked
  seq := h.seq
  snapshot := h.snapshot
  absent hf hp := by
    rw [foundAbsent_other hne] at hf
    rw [inserted_other hne]
    exact h.absent hf hp
  inserted hi := by
    rw [inserted_other hne] at hi
    exact h.inserted hi

/-- A step of another transaction. -/
theorem Clean.other {u : DBTransaction R} (h : Clean key log db id t) (hne : id' ≠ id)
    (ha : u.act db id' a = some (db', o, r)) : Clean key (((id', a), r) :: log) db' id t := by
  refine Clean.append ?_ hne
  rcases act_data ha with ⟨-, hsame⟩ | ⟨-, -, hcommit⟩
  · exact h.sameData hsame
  · refine h.mono (by rw [R.commit_seq hcommit]; exact Nat.le_succ _) ?_
    rw [R.commit_last key hcommit]
    split
    · exact .inr (Nat.lt_succ_self _)
    · exact .inl rfl

end Others

section Own

theorem inserted_execute :
    inserted key id (((id, .execute), r) :: log) =
      inserted key id log :=
  if_pos rfl

theorem foundAbsent_execute : foundAbsent key id (((id, .execute), r) :: log) = false :=
  if_pos rfl

variable {k : Bytes} {v : Option Bytes} {tx : RocksTransaction R} {snapshot : Snapshot}

theorem foundAbsent_write :
    foundAbsent key id (((id, .write k v), r) :: log) = foundAbsent key id log := by
  cases v <;> exact if_pos rfl

theorem inserted_refused :
    inserted key id (((id, .write k v), .refused) :: log) =
      inserted key id log := by
  cases v <;> exact if_pos rfl

theorem inserted_write (h : inserted key id (((id, .write k v), .done) :: log) = true) :
    k = key ∧ foundAbsent key id log = true ∨ inserted key id log = true := by
  cases v with
  | none => exact .inr (by simpa [inserted, TransactionAction.write] using h)
  | some v => simpa [inserted, TransactionAction.write] using h

theorem tx_endStatementScope (tx : RocksTransaction R) : tx.endStatementScope.tx = tx.tx := by
  rw [endStatementScope]
  split <;> rfl

theorem tx_beginStatementScope (db : R.Db) (tx : RocksTransaction R) :
    (tx.beginStatementScope db).tx = tx.tx := by
  rw [beginStatementScope]
  split <;> rfl

theorem currentSnapshot_endStatementScope (h : tx.endStatementScope.currentSnapshot = some snapshot)
    : tx.currentSnapshot = some snapshot := by
  rw [endStatementScope] at h
  split at h
  · cases h
  · exact h

theorem currentSnapshot_beginStatementScope
    (h : (tx.beginStatementScope db).currentSnapshot = some snapshot) :
    snapshot = RocksTransaction.snapshot db ∨ tx.currentSnapshot = some snapshot := by
  rw [beginStatementScope] at h
  split at h
  · exact .inl (some.inj h).symm
  · exact .inr h

/-- A key that a read did not find is neither in the snapshot nor among the writes. -/
theorem Clean.get (h : Clean key log db id t) (hk : Tracks initial log id t)
    (ha : t.act db id (.get key) = some (db', o, .value none)) :
    ∃ snapshot, t.inner.currentSnapshot = some snapshot ∧ snapshot.store.contents key = none ∧
      R.firstWrite t.inner.tx key = none := by
  rw [DBTransaction.act] at ha
  split at ha
  · next hc =>
    obtain ⟨snapshot, hs, -⟩ := hk.snapshot (.inr (by simp [hc]))
    have hread : t.inner.getBorrowed db key = none := by
      injection ha with ha
      injection ha with _ ha
      injection ha with _ ha
      injection ha
    have hview : overlaid snapshot.store.contents (R.writes t.inner.tx) key = none := by
      rw [← R.view_snapshot db]
      rw [getBorrowed, buildReadOptions, hs] at hread
      exact hread
    have hwritten := h.written
    cases hw : R.writes t.inner.tx key with
    | some w =>
      cases w with
      | none => exact absurd hw hwritten
      | some w => simp [overlaid, hw] at hview
    | none =>
      have htracked := h.tracked
      rw [hw] at htracked
      exact ⟨snapshot, hs, by simpa [overlaid, hw] using hview, by simpa using htracked⟩
  · cases ha

theorem Clean.writeOther {tx : R.Tx} (h : Clean key log db id t) (hk : key ≠ k)
    (hw : R.write db id t.inner.tx k v = some (db', tx)) :
    Clean key (((id, .write k v), .done) :: log) db' id ⟨{ t.inner with tx := tx }, t.phase⟩ := by
  have hwrites : R.writes tx key = R.writes t.inner.tx key := by
    rw [R.write_writes hw, update_of_ne hk]
  have htracked : R.firstWrite tx key = R.firstWrite t.inner.tx key := by
    rw [R.write_first hw, update_of_ne hk]
  have hiff : TransactionLog.inserted key id (((id, .write k v), .done) :: log) = true ↔
      TransactionLog.inserted key id log = true := by
    cases v <;> simp [TransactionLog.inserted, TransactionAction.write, hk.symm]
  refine Clean.sameData ?_ (R.write_data hw)
  refine ⟨?_, ?_, ?_, h.snapshot, fun hf hp => ?_, fun hi => ?_⟩
  · exact hwrites ▸ h.written
  · dsimp only
    rw [hwrites, htracked]
    exact h.tracked
  · exact htracked ▸ h.seq
  · rw [foundAbsent_write] at hf
    dsimp only
    rw [htracked, hiff]
    exact h.absent hf hp
  · dsimp only
    rw [htracked]
    exact h.inserted (hiff.mp hi)

theorem Clean.write {v : Bytes} {tx : R.Tx} (h : Clean key log db id t)
    (hp : t.phase.cursors?.isSome)
    (hfirst : ∀ snapshot, t.inner.currentSnapshot = some snapshot →
      R.firstWrite t.inner.tx key = none → R.lastCommit db key ≤ snapshot.seq)
    (hw : R.write db id t.inner.tx key (some v) = some (db', tx)) :
    Clean key (((id, .write key (some v)), .done) :: log) db' id
      ⟨{ t.inner with tx := tx }, t.phase⟩ := by
  have hwrites : R.writes tx key = some (some v) := by
    rw [R.write_writes hw, update_self]
  have htracked : R.firstWrite tx key = some ((R.firstWrite t.inner.tx key).getD (R.seq db)) := by
    rw [R.write_first hw, update_self]
  refine Clean.sameData ?_ (R.write_data hw)
  refine ⟨?_, ?_, fun n hn => ?_, h.snapshot, fun hf _ => ?_, fun hi => ?_⟩
  · dsimp only
    rw [hwrites]
    simp
  · dsimp only
    rw [hwrites, htracked]
    rfl
  · dsimp only at hn
    rw [htracked] at hn
    cases hn
    cases hl : R.firstWrite t.inner.tx key with
    | none => exact le_rfl
    | some n => exact h.seq n hl
  · rw [foundAbsent_write] at hf
    obtain ⟨snapshot, hs, hnone, -⟩ := h.absent hf hp
    refine ⟨snapshot, hs, hnone, .inr ?_⟩
    simp [TransactionLog.inserted, TransactionAction.write, hf]
  · dsimp only
    rw [htracked]
    refine ⟨_, rfl, ?_⟩
    have hold (hi : TransactionLog.inserted key id log = true) : R.lastCommit db key = 0 ∨
        (R.firstWrite t.inner.tx key).getD (R.seq db) < R.lastCommit db key := by
      obtain ⟨n, hn, hcommit⟩ := h.inserted hi
      rw [hn]
      exact hcommit
    rcases inserted_write hi with ⟨-, hf⟩ | hi
    · obtain ⟨snapshot, hs, hnone, hcase⟩ := h.absent hf hp
      rcases hcase with htr | hi
      · have hle := hfirst snapshot hs htr
        rcases (h.snapshot snapshot hs).2 hnone with hzero | hlt
        · exact .inl hzero
        · omega
      · exact hold hi
    · exact hold hi

/-- A step of the transaction itself, where no commit of the key came between its snapshot and its
first write of it. -/
theorem Clean.act {s : Sessions R} (h : Clean key log s.db id t) (hk : Tracks initial log id t)
    (ht : s.transactions id = some t) (hallowed : Undisturbed key s (id, a))
    (hpresent : (R.committed s.db).contents key = none → R.lastCommit s.db key = 0)
    (ha : t.act s.db id a = some (db', some t', r)) :
    Clean key (((id, a), r) :: log) db' id t' := by
  cases actStep_act ha with
  | keep hq hphase =>
    refine ⟨h.written, h.tracked, h.seq, h.snapshot, fun hf hp => ?_, fun hi => ?_⟩
    · rw [inserted_quiet hq]
      rcases foundAbsent_quiet hq hf with hf | ⟨rfl, rfl⟩
      · obtain ⟨cursors, hc⟩ := isSome_iff_exists.mp hp
        obtain ⟨old, hold, -⟩ := hphase cursors hc
        exact h.absent hf (by simp [hold])
      · obtain ⟨snapshot, hs, hnone, htracked⟩ := h.get hk ha
        exact ⟨snapshot, hs, hnone, .inl htracked⟩
    · rw [inserted_quiet hq] at hi
      exact h.inserted hi
  | finish hq hphase =>
    have htx := tx_endStatementScope t.inner
    refine ⟨htx ▸ h.written, htx ▸ h.tracked, htx ▸ h.seq, fun snapshot hs =>
      h.snapshot snapshot (currentSnapshot_endStatementScope hs), fun _ hp => ?_, fun hi => ?_⟩
    · simp [hphase] at hp
    · rw [inserted_quiet hq] at hi
      exact htx ▸ h.inserted hi
  | execute =>
    have htx := tx_beginStatementScope s.db t.inner
    refine ⟨htx ▸ h.written, htx ▸ h.tracked, htx ▸ h.seq, fun snapshot hs => ?_,
      fun hf _ => ?_, fun hi => ?_⟩
    · rcases currentSnapshot_beginStatementScope hs with rfl | hs
      · exact ⟨le_rfl, fun hnone => .inl (hpresent hnone)⟩
      · exact h.snapshot snapshot hs
    · rw [foundAbsent_execute] at hf
      cases hf
    · rw [inserted_execute] at hi
      exact htx ▸ h.inserted hi
  | refused =>
    refine ⟨h.written, h.tracked, h.seq, h.snapshot, fun hf hp => ?_, fun hi => ?_⟩
    · rw [foundAbsent_write] at hf
      rw [inserted_refused]
      exact h.absent hf hp
    · rw [inserted_refused] at hi
      exact h.inserted hi
  | @write k v tx _ hp hwrite =>
    by_cases hkey : key = k
    · subst hkey
      cases v with
      | none => exact absurd rfl hallowed
      | some v =>
        exact h.write hp (fun snapshot hs => hallowed rfl t snapshot ht hs) hwrite
    · exact h.writeOther hkey hwrite

end Own

section Run

theorem committedInserts_cons (h : a ≠ .commit ∨ r ≠ .done) :
    committedInserts key (((id, a), r) :: log) = committedInserts key log := by
  rw [committedInserts]
  rintro rfl rfl
  rcases h with h | h <;> exact h rfl

/-- At most one insertion of the key has been committed, and none while no commit wrote it. -/
structure AtMostOne (key : Bytes) (log : TransactionLog) (s : Sessions R) : Prop where
  present : (R.committed s.db).contents key = none → R.lastCommit s.db key = 0
  count : committedInserts key log = [] ∨
    (committedInserts key log).length = 1 ∧ R.lastCommit s.db key ≠ 0
  clean : ∀ id t, s.transactions id = some t → Clean key log s.db id t

theorem Clean.create (hpresent : (R.committed db).contents key = none → R.lastCommit db key = 0)
    (isolation : TransactionIsolationLevel) :
    Clean key (((id, .newTransaction isolation), r) :: log) db id
      ⟨.transactionWithIsolation db isolation, .idle⟩ where
  written := by simp [transactionWithIsolation, R.writes_fresh]
  tracked := by simp [transactionWithIsolation, R.writes_fresh, R.firstWrite_fresh]
  seq n hn := by simp [transactionWithIsolation, R.firstWrite_fresh] at hn
  snapshot snapshot hs := by
    cases isolation with
    | readCommitted => cases hs
    | repeatableRead =>
      cases hs
      exact ⟨le_rfl, fun hnone => .inl (hpresent hnone)⟩
  absent _ hp := by cases hp
  inserted hi := by simp [TransactionLog.inserted] at hi

variable {s : Sessions R}

/-- A transaction that inserted the key commits only if no commit wrote it before. -/
theorem Clean.lastCommit_eq_zero (h : Clean key log s.db id t)
    (hcons : R.Consistent s.db s.openTx) (ht : s.transactions id = some t)
    (hcommit : R.commit s.db id t.inner.tx = some db')
    (hi : TransactionLog.inserted key id log = true) : R.lastCommit s.db key = 0 := by
  obtain ⟨n, hn, hzero | hlt⟩ := h.inserted hi
  · exact hzero
  · have hle : R.lastCommit s.db key ≤ n :=
      R.commit_conflict hcons (by simp [Sessions.openTx, ht]) hcommit hn
    omega

theorem AtMostOne.commit (h : AtMostOne key log s) (hcons : R.Consistent s.db s.openTx)
    (ht : s.transactions id = some t) (hcommit : R.commit s.db id t.inner.tx = some db') :
    (committedInserts key (((id, .commit), .done) :: log) = [] ∨
      (committedInserts key (((id, .commit), .done) :: log)).length = 1 ∧
        R.lastCommit db' key ≠ 0) ∧
    ((R.committed db').contents key = none → R.lastCommit db' key = 0) := by
  have hc := h.clean id t ht
  have hcount : committedInserts key (((id, .commit), .done) :: log) =
      if inserted key id log then id :: committedInserts key log
      else committedInserts key log := rfl
  rw [hcount, congrFun (R.commit_committed hcommit) key, R.commit_last key hcommit, hc.tracked,
    overlaid]
  cases hw : R.writes t.inner.tx key with
  | none =>
    have hnot : inserted key id log = false := by
      by_contra hi
      obtain ⟨n, hn, -⟩ := hc.inserted (by simpa using hi)
      have htracked := hc.tracked
      simp [hn, hw] at htracked
    rw [hnot]
    exact ⟨h.count, h.present⟩
  | some w =>
    cases w with
    | none => exact absurd hw hc.written
    | some v =>
      refine ⟨?_, fun hnone => by cases hnone⟩
      cases hi : inserted key id log with
      | false => exact h.count.imp_right fun hone => ⟨hone.1, Nat.succ_ne_zero _⟩
      | true =>
        right
        have hzero := hc.lastCommit_eq_zero hcons ht hcommit hi
        have hnil := h.count.resolve_right fun hone => hone.2 hzero
        simp [hnil]

theorem AtMostOne.step {s' : Sessions R} (h : AtMostOne key log s) (hf : Faithful initial log s)
    (hcons : R.Consistent s.db s.openTx) (hallowed : Undisturbed key s (id, a))
    (hs : s.step (id, a) = some (s', r)) : AtMostOne key (((id, a), r) :: log) s' := by
  rcases step_cases hs with ⟨isolation, hnone, rfl, rfl⟩ | ⟨t, db, o, ht, hact, rfl⟩
  · refine ⟨h.present, h.count, fun id' t' ht' => ?_⟩
    dsimp only at ht'
    by_cases hid : id' = id
    · subst hid
      rw [update_self] at ht'
      cases ht'
      exact .create h.present isolation
    · rw [update_of_ne hid] at ht'
      exact (h.clean id' t' ht').append (Ne.symm hid)
  · have hclean : ∀ id' t', update s.transactions id o id' = some t' →
        Clean key (((id, a), r) :: log) db id' t' := by
      intro id' t' ht'
      by_cases hid : id' = id
      · subst hid
        rw [update_self] at ht'
        subst ht'
        exact (h.clean _ t ht).act (hf.tracks _ t ht) ht hallowed h.present hact
      · rw [update_of_ne hid] at ht'
        exact (h.clean id' t' ht').other (Ne.symm hid) hact
    rcases act_data hact with ⟨hne, hsame⟩ | ⟨rfl, rfl, hcommit⟩
    · refine ⟨?_, ?_, hclean⟩
      · rw [hsame.committed, hsame.lastCommit]
        exact h.present
      · rw [committedInserts_cons hne, hsame.lastCommit]
        exact h.count
    · obtain ⟨hcount, hpresent⟩ := h.commit hcons ht hcommit
      exact ⟨hpresent, hcount, hclean⟩

theorem openTx_update (s : Sessions R) (db : R.Db) (id : Nat) (o : Option (DBTransaction R)) :
    (Sessions.mk db (update s.transactions id o)).openTx =
      update s.openTx id (o.map fun t => t.inner.tx) :=
  comp_update (Option.map fun t : DBTransaction R => t.inner.tx) s.transactions id o

/-- The transactions of RocksDB are used as it expects. -/
theorem consistent_step {s' : Sessions R} (h : R.Consistent s.db s.openTx)
    (hs : s.step (id, a) = some (s', r)) : R.Consistent s'.db s'.openTx := by
  rcases step_cases hs with ⟨isolation, hnone, rfl, rfl⟩ | ⟨t, db, o, ht, hact, rfl⟩
  · rw [openTx_update]
    exact R.consistent_fresh h
  · have hopen : s.openTx id = some t.inner.tx := by simp [Sessions.openTx, ht]
    have hsame : update s.openTx id (some t.inner.tx) = s.openTx := by
      rw [← hopen, update_eq_self]
    rw [openTx_update]
    cases actStep_act hact with
    | keep => exact hsame.symm ▸ h
    | finish => simpa [tx_endStatementScope, hsame] using h
    | execute => simpa [tx_beginStatementScope, hsame] using h
    | refused => exact hsame.symm ▸ h
    | write _ hw => exact R.consistent_write h hopen hw
    | commit hcommit => exact R.consistent_commit h hopen hcommit
    | rollback => exact R.consistent_rollback h

theorem atMostOne_start : AtMostOne key [] (.start (R := R) initial) :=
  ⟨fun _ => R.lastCommit_opened _ _, .inl rfl, fun _ _ ht => by cases ht⟩

/-- Of the transactions that insert a row under one key at most one commits, if no commit of the
key comes between the snapshot of a transaction and its write. -/
theorem inserts_at_most_once
    (hrun : Runs.Run Sessions.step (Undisturbed key) (.start initial) log s) :
    (committedInserts key log).length ≤ 1 := by
  have hinv : R.Consistent s.db s.openTx ∧ Faithful initial log s ∧ AtMostOne key log s :=
    hrun.invariant
      (P := fun log s => R.Consistent s.db s.openTx ∧ Faithful initial log s ∧ AtMostOne key log s)
      ⟨R.consistent_opened initial, faithful_start, atMostOne_start⟩
      fun ⟨hc, hf, hone⟩ hallowed hs =>
        ⟨consistent_step hc hs, hf.step hs, hone.step hf hc hallowed hs⟩
  rcases hinv.2.2.count with hnil | ⟨hone, -⟩
  · rw [hnil]
    exact Nat.zero_le 1
  · exact hone.le

/-- Writes of the key before any commit of it, and no removal. -/
def beforeCommit (key : Bytes) (s : Sessions R) : Nat × TransactionAction → Bool
  | (_, .remove k) => k ≠ key
  | (_, .set k _) => k ≠ key || R.lastCommit s.db key = 0
  | _ => true

theorem undisturbed_of_beforeCommit {e : Nat × TransactionAction}
    (h : beforeCommit key s e = true) : Undisturbed key s e := by
  obtain ⟨id, a⟩ := e
  cases a with
  | set k v =>
    intro hk t snapshot _ _ _
    have hzero : R.lastCommit s.db key = 0 := by simpa [beforeCommit, hk] using h
    exact hzero.trans_le (Nat.zero_le _)
  | remove k => simpa [beforeCommit, Undisturbed] using h
  | _ => trivial

/-- A statement that inserts a row, from its existence check on, and a commit. -/
def insertRow (id : Nat) (value : Bytes) : List (Nat × TransactionAction) :=
  [(id, .set [1] value), (id, .exhausted), (id, .dropIter), (id, .commit)]

/-- Two transactions that both find the key absent; the second one begins its statement first. -/
def bothAbsent (isolation : TransactionIsolationLevel) : List (Nat × TransactionAction) :=
  [(0, .newTransaction isolation), (1, .newTransaction isolation), (1, .execute), (1, .iterate),
    (1, .get [1]), (0, .execute), (0, .iterate), (0, .get [1])]

/-- Both write before the first of them commits. -/
def insertAtOnce (isolation : TransactionIsolationLevel) : List (Nat × TransactionAction) :=
  bothAbsent isolation ++ (0, .set [1] [7]) :: insertRow 1 [8] ++
    [(0, .exhausted), (0, .dropIter), (0, .commit)]

/-- A run of the two in which the second write is answered so and one of them commits its row. -/
structure OneCommits (kind : RocksKind) (second : Response) (winner : Nat) (log : TransactionLog)
    (s : Sessions (rocksDb kind)) : Prop where
  run : Runs.Run Sessions.step (Undisturbed [1]) (.start ∅) log s
  first : ((0, .set [1] [7]), .done) ∈ log
  second : ((1, .set [1] [8]), second) ∈ log
  committed : committedInserts [1] log = [winner]

theorem oneCommits_of_replay (kind : RocksKind) (isolation : TransactionIsolationLevel)
    (second : Response) (winner : Nat)
    (h : ∃ run, replay (beforeCommit [1]) Sessions.step (insertAtOnce isolation)
      ([], .start (R := rocksDb kind) ∅) = some run ∧ ((0, .set [1] [7]), .done) ∈ run.1 ∧
        ((1, .set [1] [8]), second) ∈ run.1 ∧ committedInserts [1] run.1 = [winner]) :
    ∃ log s, OneCommits kind second winner log s := by
  obtain ⟨run, hrun, hfirst, hsecond, hone⟩ := h
  exact ⟨run.1, run.2, Run.start.replay (fun _ _ => undisturbed_of_beforeCommit) hrun, hfirst,
    hsecond, hone⟩

/-- The lock refuses the second write; without locks the commit that comes later is refused. -/
theorem inserts_at_most_once_two :
    (∃ log s, OneCommits .transactionDb .refused 0 log s ∧
      (committedInserts [1] log).length ≤ 1) ∧
    ∃ log s, OneCommits .optimisticTransactionDb .done 1 log s ∧
      (committedInserts [1] log).length ≤ 1 := by
  constructor
  · obtain ⟨log, s, h⟩ := oneCommits_of_replay .transactionDb .repeatableRead .refused 0
      ⟨_, rfl, by decide, by decide, rfl⟩
    exact ⟨log, s, h, inserts_at_most_once h.run⟩
  · obtain ⟨log, s, h⟩ := oneCommits_of_replay .optimisticTransactionDb .readCommitted .done 1
      ⟨_, rfl, by decide, by decide, rfl⟩
    exact ⟨log, s, h, inserts_at_most_once h.run⟩

/-- The second transaction writes after the commit of the first one and reads an older snapshot. -/
def insertTwice (isolation : TransactionIsolationLevel) : List (Nat × TransactionAction) :=
  bothAbsent isolation ++ insertRow 0 [7] ++ insertRow 1 [8]

/-- Two transactions insert the same row and both commit. -/
def BothCommit (kind : RocksKind) (isolation : TransactionIsolationLevel) : Prop :=
  ∃ run, replay (fun _ _ => true) Sessions.step (insertTwice isolation)
      ([], .start (R := rocksDb kind) ∅) = some run ∧
    committedInserts [1] run.1 = [1, 0] ∧
      ((rocksDb kind).committed run.2.db).contents [1] = some [8]

theorem inserts_both_commit :
    BothCommit .transactionDb .repeatableRead ∧ BothCommit .transactionDb .readCommitted ∧
      BothCommit .optimisticTransactionDb .repeatableRead ∧
        BothCommit .optimisticTransactionDb .readCommitted :=
  ⟨⟨_, rfl, rfl, rfl⟩, ⟨_, rfl, rfl, rfl⟩, ⟨_, rfl, rfl, rfl⟩, ⟨_, rfl, rfl, rfl⟩⟩

end Run

end KiteSQL
