import KiteSQL.Execution.HashJoin

/-! What a hash join returns for one right row after the other. -/
namespace KiteSQL

open Iterate DataValue KeyedMap Result List

namespace HashJoin

variable {positions : Nat → Nat} {exprs : List PlanExpression} {map : BuildMap}
  {lefts : List Tuple} {l : Tuple} {key : List DataValue}

/-- The values of the keys on a row on which they can be evaluated. -/
def keyOf (positions : Nat → Nat) (exprs : List PlanExpression) (tuple : Tuple) :
    List DataValue :=
  (evalKeys positions exprs tuple).toOption.getD []

def accepts (positions : Nat → Nat) (filter : Option PlanExpression) (l r : Tuple) : Bool :=
  Traverse.holds (passes positions filter l.values r.values)

/-- The left rows that the map holds for a key. -/
def rowsAt (map : BuildMap) (key : List DataValue) : List Tuple :=
  ((KeyedMap.lookup DataValue.listTest map key).map fun s => s.tuples.map Prod.snd).getD []

theorem evalKeys_keyOf (h : ∃ key, evalKeys positions exprs l = .ok key) :
    evalKeys positions exprs l = .ok (keyOf positions exprs l) := by
  obtain ⟨key, hkey⟩ := h
  rw [keyOf, hkey]
  rfl

theorem rowsAt_upsert {key key' : List DataValue} {i : Nat} :
    rowsAt (upsert listTest ⟨[(i, l)], false, false⟩
      (fun s => { s with tuples := s.tuples ++ [(i, l)] }) map key) key' =
      rowsAt map key' ++ if eqList key key' then [l] else [] := by
  rw [rowsAt, lookup_upsert, rowsAt]
  change Option.getD (Option.map _ (if eqList key key' = true then _ else _)) _ = _
  cases eqList key key' with
  | false => simp
  | true => cases lookup listTest map key' <;> simp

/-- After the build phase the map holds for each key the left rows with that key. -/
theorem buildRows_ok (h : ∀ l ∈ lefts, ∃ key, evalKeys positions exprs l = .ok key)
    (map : BuildMap) (count : Nat) :
    ∃ map', buildRows positions exprs (lefts.map .ok) map count =
        .ok (map', count + lefts.length) ∧
      ∀ key, rowsAt map' key = rowsAt map key ++
        lefts.filter fun l => eqList (keyOf positions exprs l) key := by
  induction lefts generalizing map count with
  | nil => exact ⟨map, rfl, fun key => by simp⟩
  | cons l lefts ih =>
    rw [forall_mem_cons] at h
    obtain ⟨map', hmap', hrows⟩ := ih h.2 (upsert listTest
      ⟨[(count, l)], false, false⟩ (fun s => { s with tuples := s.tuples ++ [(count, l)] }) map
      (keyOf positions exprs l)) (count + 1)
    refine ⟨map', ?_, fun key => ?_⟩
    · rw [map_cons, buildRows, ok_bind, evalKeys_keyOf h.1, ok_bind, hmap',
        length_cons, Nat.add_assoc, Nat.add_comm 1]
    · rw [hrows, rowsAt_upsert, filter_cons, append_assoc]
      split <;> rfl

end HashJoin

namespace JoinOperator

/-- The keys of the two rows are equal and not NULL. -/
def keysMatch (op : JoinOperator) (positions : Nat → Nat) (l r : Tuple) : Bool :=
  let lefts := HashJoin.keyOf positions (op.on.map Prod.fst) l
  let rights := HashJoin.keyOf positions (op.on.map Prod.snd) r
  DataValue.eqList lefts rights && !lefts.any DataValue.isNull && !rights.any DataValue.isNull

/-- The keys of the two rows are equal and not NULL and the filter is true on the pair. -/
def partners (op : JoinOperator) (positions : Nat → Nat) (l r : Tuple) : Bool :=
  op.keysMatch positions l r && HashJoin.accepts positions op.filter l r

/-- The keys can be evaluated on every row, and the filter on every pair with equal keys. -/
structure Evaluates (op : JoinOperator) (positions : Nat → Nat) (lefts rights : List Tuple) :
    Prop where
  left : ∀ l ∈ lefts, ∃ key, HashJoin.evalKeys positions (op.on.map Prod.fst) l = .ok key
  right : ∀ r ∈ rights, ∃ key, HashJoin.evalKeys positions (op.on.map Prod.snd) r = .ok key
  filter : ∀ l ∈ lefts, ∀ r ∈ rights, op.keysMatch positions l r = true →
    ∃ b, passes positions op.filter l.values r.values = .ok b

end JoinOperator

namespace JoinProbeStateImpl

/-- The implementation of a join that keeps the left rows, the right rows, both or neither. -/
def ofKept (keepLeft keepRight : Bool) (leftLen rightLen : Nat) (bits : RowBitmap) :
    JoinProbeStateImpl :=
  match keepLeft, keepRight with
  | false, false => .inner
  | true, false => .left leftLen rightLen bits
  | false, true => .right leftLen
  | true, true => .full leftLen rightLen bits

/-- A call of `probe_next` that ends the probe. -/
structure Ends (joinImpl : JoinProbeStateImpl) (row : Option Tuple) (state : Option BuildState)
    (probed : Probed) : Prop where
  tuple : probed.tuple = row
  joinImpl : probed.joinImpl = joinImpl
  finished : probed.probe.finished = true
  buildState : probed.buildState = state

variable {positions : Nat → Nat} {filter : Option PlanExpression} {kl kr : Bool}
  {leftLen rightLen : Nat} {bits : RowBitmap} {probe : ProbeState} {state : BuildState}
  {t : Nat × Tuple} {rest : List (Nat × Tuple)}

theorem ofType_eq {ty : JoinType} (hty : ty ≠ .cross) (count : Nat) :
    ofType ty leftLen rightLen count =
      .ok (ofKept ty.keepsLeft ty.keepsRight leftLen rightLen (.withCapacity count)) := by
  cases ty with
  | cross => exact absurd rfl hty
  | _ => rfl

/-- A probe that meets no left row. -/
theorem probeNext_unfound (he : probe.emittedUnmatched = false) :
    ∃ probed, (ofKept kl kr leftLen rightLen bits).probeNext positions filter probe none =
        .ok probed ∧
      Ends (ofKept kl kr leftLen rightLen bits)
        (if kr then some (fullRightRow leftLen probe.probeTuple) else none) none probed := by
  obtain ⟨null, r, index, filtered, produced, finished, emitted⟩ := probe
  cases he
  cases kl <;> cases kr <;> cases null <;> exact ⟨_, rfl, rfl, rfl, rfl, rfl⟩

/-- A probe that has seen all left rows of its key. -/
theorem probeNext_nil (hn : probe.isKeysHasNull = false) (he : probe.emittedUnmatched = false)
    (hd : state.tuples.drop probe.index = []) :
    ∃ probed used filted, (kl = true → used = !probe.hasFiltered ∧ filted = probe.hasFiltered) ∧
      (ofKept kl kr leftLen rightLen bits).probeNext positions filter probe (some state) =
        .ok probed ∧
      Ends (ofKept kl kr leftLen rightLen bits)
        (if !kl && kr && !probe.produced then some (fullRightRow leftLen probe.probeTuple)
          else none) (some ⟨state.tuples, used, filted⟩) probed := by
  obtain ⟨null, r, index, filtered, produced, finished, emitted⟩ := probe
  cases hn
  cases he
  cases kl <;> cases kr <;> cases produced <;>
    simp only [ofKept, probeNext, innerProbeNext, leftProbeNext, rightProbeNext, fullProbeNext, hd,
      probeTuples, ok_bind]
  all_goals exact ⟨_, _, _, by simp, rfl, rfl, rfl, rfl, rfl⟩

/-- The next left row passes the filter. -/
theorem probeNext_accepts (hn : probe.isKeysHasNull = false)
    (hd : state.tuples.drop probe.index = t :: rest)
    (hp : passes positions filter t.2.values probe.probeTuple.values = .ok true) :
    ∃ used filted,
      (ofKept kl kr leftLen rightLen bits).probeNext positions filter probe (some state) =
        .ok ⟨some (fullRow t.2 probe.probeTuple), ofKept kl kr leftLen rightLen bits,
          { probe with index := probe.index + 1, produced := probe.produced || !kl && kr },
          some ⟨state.tuples, used, filted⟩⟩ := by
  cases kl <;> cases kr <;>
    simp [ofKept, probeNext, innerProbeNext, leftProbeNext, rightProbeNext, fullProbeNext, hn, hd,
      probeTuples, hp, ok_bind]

/-- The next left row fails the filter of a full join. -/
theorem fullProbeNext_rejects (hn : probe.isKeysHasNull = false)
    (hd : state.tuples.drop probe.index = t :: rest) (ht : t.1 < bits.len)
    (hp : passes positions filter t.2.values probe.probeTuple.values = .ok false) :
    (ofKept true true leftLen rightLen bits).probeNext positions filter probe (some state) =
      .ok ⟨some (fullRightRow leftLen probe.probeTuple),
        ofKept true true leftLen rightLen (bits.mark t.1),
        { probe with index := probe.index + 1, hasFiltered := true }, some state⟩ := by
  simp [ofKept, probeNext, fullProbeNext, hn, hd, hp, ok_bind, RowBitmap.insert_eq_mark ht]

/-- The next left row fails the filter of another join, which goes on to the row after it. -/
theorem probeNext_rejects (hfull : (kl && kr) = false) (hn : probe.isKeysHasNull = false)
    (hd : state.tuples.drop probe.index = t :: rest) (ht : t.1 < bits.len)
    (hp : passes positions filter t.2.values probe.probeTuple.values = .ok false) :
    ∃ filtered, (kl = true → filtered = true) ∧
      (ofKept kl kr leftLen rightLen bits).probeNext positions filter probe (some state) =
        (ofKept kl kr leftLen rightLen (bits.mark t.1)).probeNext positions filter
          { probe with index := probe.index + 1, hasFiltered := filtered } (some state) := by
  have hd' : state.tuples.drop (probe.index + 1) = rest := by
    rw [← drop_drop, hd]
    rfl
  refine ⟨(kl || kr) || probe.hasFiltered, by simp +contextual, ?_⟩
  cases kl <;> cases kr
  case true.true => cases hfull
  all_goals
    simp [ofKept, probeNext, innerProbeNext, leftProbeNext, rightProbeNext, hn, hd, hd',
      probeTuples, hp, ok_bind]
    cases probeTuples positions filter probe.probeTuple rest with
    | error e => rfl
    | ok res =>
      simp [RowBitmap.insert_eq_mark ht, bind, Except.bind, Nat.add_assoc, Nat.add_comm 1]

end JoinProbeStateImpl

namespace HashJoin

variable {op : JoinOperator} {arena : JoinArena} {kl kr : Bool} {leftLen rightLen : Nat}
  {map map' : BuildMap} {joinImpl : JoinProbeStateImpl} {bits : RowBitmap}
  {buf : List DataValue} {probe : ProbeState} {probed : Probed} {rights rows : List Tuple}
  {r row : Tuple} {state state' : BuildState} {t : Nat × Tuple} {rest : List (Nat × Tuple)}

/-- The executor of an operator in some state, after the left rows have been read. -/
def atState (op : JoinOperator) (leftLen rightLen : Nat) (state : HashJoinState)
    (input : List (Result Tuple)) : HashJoin :=
  { ofOperator op leftLen rightLen [] input with state := state }

/-- The executor between two calls in the probe phase. -/
def running (op : JoinOperator) (leftLen rightLen : Nat) (map : BuildMap)
    (joinImpl : JoinProbeStateImpl) (buf : List DataValue) (probe : Option ProbeState)
    (rights : List Tuple) : HashJoin :=
  atState op leftLen rightLen (.probe map joinImpl buf probe) (rights.map .ok)

/-- A right row as the probe that is made for it. -/
def startProbe (op : JoinOperator) (positions : Nat → Nat) (r : Tuple) : ProbeState :=
  ⟨(keyOf positions (op.on.map Prod.snd) r).any DataValue.isNull, r, 0, false, false, false, false⟩

/-- What the map gives for the keys of a probe. -/
def found (map : BuildMap) (buf : List DataValue) (probe : ProbeState) : Option BuildState :=
  if probe.isKeysHasNull then none else KeyedMap.lookup DataValue.listTest map buf

theorem initError_eq_none (leftLen rightLen : Nat) (hkeys : op.on ≠ [])
    (hty : op.joinType ≠ .cross) : (ofOperator op leftLen rightLen [] []).initError = none := by
  rw [ofOperator]
  simp [hty, hkeys]

/-- The loop over the right rows reads nothing of the state it started in. -/
theorem probeRows_atState (s s' : HashJoinState) (i i' input : List (Result Tuple)) :
    probeRows (atState op leftLen rightLen s i) arena map joinImpl input =
      probeRows (atState op leftLen rightLen s' i') arena map joinImpl input := by
  induction input generalizing map joinImpl with
  | nil => rfl
  | cons item input ih =>
    rw [probeRows, probeRows]
    refine bind_congr fun tuple => bind_congr fun probeBuf => bind_congr fun res => ?_
    obtain ⟨probed, map'⟩ := res
    dsimp only
    rw [ih]
    rfl

variable (hinit : (ofOperator op leftLen rightLen [] []).initError = none)

include hinit

theorem nextTuple_none (s : HashJoinState) (i : List (Result Tuple)) :
    nextTuple arena (running op leftLen rightLen map joinImpl buf none rights) =
      probeRows (atState op leftLen rightLen s i) arena map joinImpl (rights.map .ok) := by
  have hjoin : (running op leftLen rightLen map joinImpl buf none rights).initError = none := hinit
  rw [nextTuple, hjoin]
  exact probeRows_atState ..

theorem nextTuple_probe (s : HashJoinState) (i : List (Result Tuple)) :
    nextTuple arena (running op leftLen rightLen map joinImpl buf (some probe) rights) =
      probeOnce (atState op leftLen rightLen s i) arena.positions map joinImpl buf probe >>=
        fun res => settle (atState op leftLen rightLen s i) res.1 res.2 buf (rights.map .ok)
          (nextTuple arena (running op leftLen rightLen res.2 res.1.joinImpl buf none rights)) := by
  have hjoin : (running op leftLen rightLen map joinImpl buf (some probe) rights).initError =
    none := hinit
  rw [nextTuple, hjoin]
  refine bind_congr (m := Except Fault) (x := probeOnce (atState op leftLen rightLen s i) _ _ _ _ _)
    fun res => ?_
  rw [nextTuple_none hinit (.probe map joinImpl buf (some probe)) (rights.map .ok)]
  rfl

/-- A right row is taken up as a probe. -/
theorem nextTuple_cons (hkey : ∃ key, evalKeys arena.positions (op.on.map Prod.snd) r = .ok key) :
    nextTuple arena (running op leftLen rightLen map joinImpl buf none (r :: rights)) =
      nextTuple arena (running op leftLen rightLen map joinImpl
        (keyOf arena.positions (op.on.map Prod.snd) r) (some (startProbe op arena.positions r))
        rights) := by
  rw [nextTuple_none hinit .build [], nextTuple_probe hinit .build [], map_cons, probeRows, ok_bind]
  simp only [nextTuple_none hinit .build []]
  exact congrArg (· >>= _) (evalKeys_keyOf hkey)

/-- A probe that returns a row. -/
theorem nextTuple_some
    (hrun : probeOnce (atState op leftLen rightLen .build []) arena.positions map joinImpl buf
      probe = .ok (probed, map')) (ht : probed.tuple = some row) :
    nextTuple arena (running op leftLen rightLen map joinImpl buf (some probe) rights) =
      .ok (some row, running op leftLen rightLen map' probed.joinImpl buf
        (if probed.probe.finished then none else some probed.probe) rights) := by
  rw [nextTuple_probe hinit .build [], hrun, ok_bind, settle, ht]
  rfl

/-- A probe that ends gives way to the next right row. -/
theorem yields_ends {row : Option Tuple} {found : Option BuildState}
    (hrun : probeOnce (atState op leftLen rightLen .build []) arena.positions map joinImpl buf
      probe = .ok (probed, map')) (he : JoinProbeStateImpl.Ends joinImpl row found probed)
    (hnext : Yields (nextTuple arena) (running op leftLen rightLen map' joinImpl buf none rights)
      rows) :
    Yields (nextTuple arena) (running op leftLen rightLen map joinImpl buf (some probe) rights)
      (row.toList ++ rows) := by
  cases row with
  | none =>
    refine hnext.of_next_eq ?_
    rw [nextTuple_probe hinit .build [], hrun, ok_bind, settle, he.tuple, he.finished, he.joinImpl]
    rfl
  | some row =>
    refine .more (nextTuple_some hinit hrun he.tuple) ?_
    rw [he.finished, he.joinImpl]
    exact hnext

omit hinit

theorem probeOnce_unfound (hf : found map buf probe = none)
    (hp : joinImpl.probeNext arena.positions op.filter probe none = .ok probed)
    (hb : probed.buildState = none) :
    probeOnce (atState op leftLen rightLen .build []) arena.positions map joinImpl buf probe =
      .ok (probed, map) := by
  rw [found] at hf
  rw [probeOnce, hf]
  refine bind_eq_ok.mpr ⟨probed, hp, ?_⟩
  rw [hb]
  rfl

theorem probeOnce_found (hn : probe.isKeysHasNull = false)
    (hl : lookup listTest map buf = some state)
    (hp : joinImpl.probeNext arena.positions op.filter probe (some state) = .ok probed)
    (hb : probed.buildState = some state') :
    probeOnce (atState op leftLen rightLen .build []) arena.positions map joinImpl buf probe =
      .ok (probed, modify listTest (fun _ => state') map buf) := by
  simp only [probeOnce, hn, Bool.false_eq_true, if_false, hl]
  refine bind_eq_ok.mpr ⟨probed, hp, ?_⟩
  rw [hb]
  rfl

/-- A probe that meets no left row. -/
theorem yields_unfound (hinit : (ofOperator op leftLen rightLen [] []).initError = none)
    (hf : found map buf (startProbe op arena.positions r) = none)
    (hnext : Yields (nextTuple arena) (running op leftLen rightLen map
      (.ofKept kl kr leftLen rightLen bits) buf none rights) rows) :
    Yields (nextTuple arena) (running op leftLen rightLen map (.ofKept kl kr leftLen rightLen bits)
      buf (some (startProbe op arena.positions r)) rights)
      ((if kr then [fullRightRow leftLen r] else []) ++ rows) := by
  obtain ⟨probed, hprobe, he⟩ := @JoinProbeStateImpl.probeNext_unfound arena.positions op.filter
    kl kr leftLen rightLen bits (startProbe op arena.positions r) rfl
  have hyields := yields_ends hinit (probeOnce_unfound hf hprobe he.buildState) he hnext
  cases kr <;> exact hyields

/-- The rows that a right row contributes with some of the left rows of its key. -/
def outerRows (positions : Nat → Nat) (filter : Option PlanExpression) (full : Bool)
    (leftLen : Nat) (r : Tuple) (lefts : List Tuple) : List Tuple :=
  lefts.flatMap fun l =>
    if accepts positions filter l r then [fullRow l r]
    else if full then [fullRightRow leftLen r] else []

theorem outerRows_cons {positions : Nat → Nat} {filter : Option PlanExpression} {full : Bool}
    {l : Tuple} {lefts : List Tuple} : outerRows positions filter full leftLen r (l :: lefts) =
      (if accepts positions filter l r then [fullRow l r]
        else if full then [fullRightRow leftLen r] else []) ++
        outerRows positions filter full leftLen r lefts := rfl

/-- The row of a right row that only a right join keeps, after all left rows of its key. -/
def lastRow (positions : Nat → Nat) (filter : Option PlanExpression) (right : Bool)
    (leftLen : Nat) (r : Tuple) (lefts : List Tuple) : List Tuple :=
  if right && !lefts.any (accepts positions filter · r) then [fullRightRow leftLen r] else []

/-- The left rows of a key that a right row is rejected with. -/
def rejected (positions : Nat → Nat) (filter : Option PlanExpression) (r : Tuple)
    (tuples : List (Nat × Tuple)) : List (Nat × Tuple) :=
  tuples.filter fun t => !accepts positions filter t.2 r

/-- A probe that has looked at some left rows of its key and not at the rest. -/
def probing (r : Tuple) (index : Nat) (filtered produced : Bool) : ProbeState :=
  ⟨false, r, index, filtered, produced, false, false⟩

theorem modify_const (s s' : BuildState) :
    modify listTest (fun _ => s)
      (modify listTest (fun _ => s') map buf) buf =
      modify listTest (fun _ => s) map buf :=
  modify_modify

theorem lookup_modified (hl : lookup listTest map buf = some state) :
    lookup listTest
      (modify listTest (fun _ => state') map buf) buf = some state' := by
  rw [lookup_modify, listTest.refl, hl]
  rfl

/-- A join that is not full passes over a left row that its filter rejects. -/
theorem nextTuple_rejects (hinit : (ofOperator op leftLen rightLen [] []).initError = none)
    (hfull : (kl && kr) = false) (hn : probe.isKeysHasNull = false)
    (hl : lookup listTest map buf = some state)
    (hd : state.tuples.drop probe.index = t :: rest) (ht : t.1 < bits.len)
    (hp : passes arena.positions op.filter t.2.values probe.probeTuple.values = .ok false) :
    ∃ filtered, (kl = true → filtered = true) ∧
      nextTuple arena (running op leftLen rightLen map (.ofKept kl kr leftLen rightLen bits) buf
        (some probe) rights) =
      nextTuple arena (running op leftLen rightLen map
        (.ofKept kl kr leftLen rightLen (bits.mark t.1)) buf
        (some { probe with index := probe.index + 1, hasFiltered := filtered }) rights) := by
  obtain ⟨filtered, hfiltered, hprobe⟩ := @JoinProbeStateImpl.probeNext_rejects arena.positions
    op.filter kl kr leftLen rightLen bits probe state t rest hfull hn hd ht hp
  refine ⟨filtered, hfiltered, ?_⟩
  rw [nextTuple_probe hinit .build [], nextTuple_probe hinit .build []]
  refine congrArg (· >>= _) ?_
  have hprobe' : ∀ join : HashJoin, join.filter = op.filter →
      join.probeOnce arena.positions map (.ofKept kl kr leftLen rightLen bits) buf probe =
        join.probeOnce arena.positions map (.ofKept kl kr leftLen rightLen (bits.mark t.1)) buf
          { probe with index := probe.index + 1, hasFiltered := filtered } := by
    intro join hjoin
    simp only [probeOnce, hn, Bool.false_eq_true, if_false, hl, hjoin, hprobe]
  exact hprobe' _ rfl

/-- The rows that a probe returns before the next right row is taken. -/
theorem yields_probing {seen : List (Nat × Tuple)} {filtered produced used filted : Bool}
    (hinit : (ofOperator op leftLen rightLen [] []).initError = none)
    (hl : lookup listTest map buf = some ⟨seen ++ rest, used, filted⟩)
    (hlen : ∀ t ∈ rest, t.1 < bits.len)
    (hok : ∀ t ∈ rest, ∃ b, passes arena.positions op.filter t.2.values r.values = .ok b) :
    ∃ used filted, (kl = true →
        used = !(filtered || !(rejected arena.positions op.filter r rest).isEmpty) ∧
        filted = (filtered || !(rejected arena.positions op.filter r rest).isEmpty)) ∧
      ∀ rows, Yields (nextTuple arena) (running op leftLen rightLen
          (modify listTest (fun _ => ⟨seen ++ rest, used, filted⟩) map buf)
          (.ofKept kl kr leftLen rightLen
            (bits.marks ((rejected arena.positions op.filter r rest).map Prod.fst)))
          buf none rights) rows →
        Yields (nextTuple arena) (running op leftLen rightLen map
          (.ofKept kl kr leftLen rightLen bits) buf
          (some (probing r seen.length filtered produced)) rights)
          (outerRows arena.positions op.filter (kl && kr) leftLen r (rest.map Prod.snd) ++
            (lastRow arena.positions op.filter (!kl && kr && !produced) leftLen r
              (rest.map Prod.snd) ++ rows)) := by
  induction rest generalizing seen map bits filtered produced used filted with
  | nil =>
    have hd : (seen ++ []).drop (probing r seen.length filtered produced).index = [] := by
      simp [probing]
    obtain ⟨probed, used', filted', hflags, hprobe, he⟩ := @JoinProbeStateImpl.probeNext_nil
      arena.positions op.filter kl kr leftLen rightLen bits (probing r seen.length filtered produced)
      ⟨seen ++ [], used, filted⟩ rfl rfl hd
    have hrow : lastRow arena.positions op.filter (!kl && kr && !produced) leftLen r [] =
        (if !kl && kr && !produced then some (fullRightRow leftLen r) else none).toList := by
      cases (!kl && kr && !produced) <;> rfl
    refine ⟨used', filted', by simpa [rejected, probing] using hflags, fun rows hnext => ?_⟩
    rw [map_nil, hrow]
    exact yields_ends hinit (probeOnce_found rfl hl hprobe he.buildState) he hnext
  | cons t rest ih =>
    have hd : (seen ++ t :: rest).drop (probing r seen.length filtered produced).index =
        t :: rest := by
      simp [probing]
    have hsplit : seen ++ t :: rest = (seen ++ [t]) ++ rest := by simp
    have hindex : (seen ++ [t]).length = seen.length + 1 := by simp
    have hcons : (t :: rest).map Prod.snd = t.2 :: rest.map Prod.snd := rfl
    rw [forall_mem_cons] at hlen hok
    obtain ⟨⟨b, hb⟩, hok⟩ := hok
    have haccepts : accepts arena.positions op.filter t.2 r = b := by
      rw [accepts, hb, Traverse.holds]
    cases b with
    | true =>
      have hrej : rejected arena.positions op.filter r (t :: rest) =
          rejected arena.positions op.filter r rest := by simp [rejected, haccepts]
      have hlast : lastRow arena.positions op.filter (!kl && kr && !produced) leftLen r
          ((t :: rest).map Prod.snd) = lastRow arena.positions op.filter
            (!kl && kr && !(produced || !kl && kr)) leftLen r (rest.map Prod.snd) := by
        cases kl <;> cases kr <;> simp [lastRow, haccepts]
      obtain ⟨used', filted', hprobe⟩ := @JoinProbeStateImpl.probeNext_accepts arena.positions
        op.filter kl kr leftLen rightLen bits (probing r seen.length filtered produced)
        ⟨seen ++ t :: rest, used, filted⟩ t rest rfl hd hb
      obtain ⟨used'', filted'', hflags, hrows⟩ := @ih _ bits (seen ++ [t]) filtered
        (produced || !kl && kr) used' filted' (lookup_modified hl) hlen.2 hok
      rw [hrej]
      refine ⟨used'', filted'', hflags, fun rows hnext => ?_⟩
      rw [hindex, modify_const, ← hsplit] at hrows
      rw [hlast, hcons, outerRows_cons, haccepts]
      exact .more (nextTuple_some hinit (probeOnce_found rfl hl hprobe rfl) rfl) (hrows rows hnext)
    | false =>
      have hrej : rejected arena.positions op.filter r (t :: rest) =
          t :: rejected arena.positions op.filter r rest := by simp [rejected, haccepts]
      have hlast : ∀ right, lastRow arena.positions op.filter right leftLen r
          ((t :: rest).map Prod.snd) = lastRow arena.positions op.filter right leftLen r
            (rest.map Prod.snd) := by
        intro right
        rw [lastRow, map_cons, any_cons, haccepts, Bool.false_or]
        rfl
      have hlen' : ∀ t' ∈ rest, t'.1 < (bits.mark t.1).len := hlen.2
      rw [hlast, hrej, hcons, outerRows_cons, haccepts, isEmpty_cons, Bool.not_false, Bool.or_true]
      cases hfull : kl && kr with
      | true =>
        obtain ⟨rfl, rfl⟩ := Bool.and_eq_true_iff.mp hfull
        obtain ⟨used', filted', hflags, hrows⟩ := @ih _ (bits.mark t.1) (seen ++ [t]) true produced
          used filted (lookup_modified hl) hlen' hok
        refine ⟨used', filted', hflags, fun rows hnext => ?_⟩
        rw [hindex, modify_const, ← hsplit] at hrows
        exact .more (nextTuple_some hinit (probeOnce_found rfl hl
          (JoinProbeStateImpl.fullProbeNext_rejects rfl hd hlen.1 hb) rfl) rfl) (hrows rows hnext)
      | false =>
        obtain ⟨filtered', hfiltered, heq⟩ := @nextTuple_rejects op arena kl kr leftLen rightLen map
          bits buf (probing r seen.length filtered produced) rights ⟨seen ++ t :: rest, used, filted⟩
          t rest hinit hfull rfl hl hd hlen.1 hb
        obtain ⟨used', filted', hflags, hrows⟩ := @ih map (bits.mark t.1) (seen ++ [t]) filtered'
          produced used filted (hsplit ▸ hl) hlen' hok
        refine ⟨used', filted', fun hkl => ?_, fun rows hnext => ?_⟩
        · simpa [hfiltered hkl] using hflags hkl
        · rw [hindex, ← hsplit, hfull] at hrows
          exact (hrows rows hnext).of_next_eq heq

end HashJoin

end KiteSQL
