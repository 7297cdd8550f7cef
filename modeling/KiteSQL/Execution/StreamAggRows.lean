import KiteSQL.Execution.StreamAgg
import KiteSQL.Lib.Grouping
import KiteSQL.Lib.Traverse

/-! On rows that come group by group the streaming aggregate returns what the hash aggregate
returns. -/
namespace KiteSQL

open Iterate Grouping DataValue Result Traverse List KeyedMap

variable {eval : RowEval} {exprs : List Expression} {keys : Tuple → List DataValue}
  {rows before members : List Tuple} {row : Tuple} {k : List DataValue}

section Aggregate
variable [BinaryCreate]

/-- The accumulators of a group after all its rows. -/
def aggregate (eval : RowEval) (aggCalls : List AggCall) (rows : List Tuple) :
    Result (List Accumulator) := do
  rows.foldlM (fun accs row => updateAccumulators eval row accs aggCalls)
    (← createAccumulators aggCalls)

variable {aggCalls : List AggCall} {accs : List Accumulator}

theorem aggregate_append (rows more : List Tuple) : aggregate eval aggCalls (rows ++ more) =
    (aggregate eval aggCalls rows >>= fun accs =>
      more.foldlM (fun accs row => updateAccumulators eval row accs aggCalls) accs) := by
  rw [aggregate, aggregate, bind_assoc]
  simp only [foldlM_append]

theorem aggregate_concat (rows : List Tuple) (row : Tuple) :
    aggregate eval aggCalls (rows ++ [row]) =
      (aggregate eval aggCalls rows >>= fun accs => updateAccumulators eval row accs aggCalls) := by
  simp only [aggregate_append, foldlM_cons, foldlM_nil, bind_pure]

theorem aggregate_singleton (row : Tuple) :
    aggregate eval aggCalls [row] = StreamAgg.startGroup eval aggCalls row := by
  simp only [aggregate, StreamAgg.startGroup, foldlM_cons, foldlM_nil, bind_pure]

theorem aggregate_of_prefix (h : members <+: rows) (hrows : aggregate eval aggCalls rows = .ok accs) :
    ∃ accs', aggregate eval aggCalls members = .ok accs' := by
  obtain ⟨more, rfl⟩ := h
  rw [aggregate_append] at hrows
  obtain ⟨accs', ha, -⟩ := bind_eq_ok.mp hrows
  exact ⟨accs', ha⟩

namespace HashAgg

variable {map : GroupMap}

/-- The map holds the accumulators of the groups. -/
def Holds (eval : RowEval) (aggCalls : List AggCall) (groups : List (List DataValue × List Tuple))
    (map : GroupMap) : Prop :=
  List.Forall₂ (fun group entry => entry.1 = group.1 ∧
    aggregate eval aggCalls group.2 = .ok entry.2) groups map

theorem updateGroup_holds {groups : List (List DataValue × List Tuple)}
    (h : Holds eval aggCalls groups map)
    (hok : ∀ group ∈ upsert listTest [row] (· ++ [row]) groups k,
      ∃ accs, aggregate eval aggCalls group.2 = .ok accs) :
    ∃ map', updateGroup eval aggCalls k row map = .ok map' ∧
      Holds eval aggCalls (upsert listTest [row] (· ++ [row]) groups k) map' := by
  induction h with
  | nil =>
    obtain ⟨accs, hacc⟩ := hok (k, [row]) (by simp [upsert])
    refine ⟨[(k, accs)], ?_, .cons ⟨rfl, hacc⟩ .nil⟩
    rw [updateGroup, ← aggregate_singleton, hacc]
    rfl
  | @cons group entry groups map hentry hrest ih =>
    obtain ⟨key, members⟩ := group
    obtain ⟨key', accs⟩ := entry
    obtain ⟨rfl, hacc⟩ : key' = key ∧ aggregate eval aggCalls members = .ok accs := hentry
    rw [upsert] at hok ⊢
    cases hsame : listTest.same key' k with
    | true =>
      rw [hsame, if_pos rfl] at hok
      obtain ⟨next, hnext⟩ := hok (key', members ++ [row]) (by simp)
      refine ⟨(key', next) :: map, ?_, .cons ⟨rfl, hnext⟩ hrest⟩
      rw [aggregate_concat, hacc, ok_bind] at hnext
      have hkey : eqList key' k = true := hsame
      rw [updateGroup, if_pos hkey, hnext]
      rfl
    | false =>
      rw [hsame, if_neg (by simp)] at hok
      obtain ⟨map', hmap, hholds⟩ := ih fun group hg => hok group (by simp [hg])
      refine ⟨(key', accs) :: map', ?_, .cons ⟨rfl, hacc⟩ hholds⟩
      have hkey : ¬eqList key' k = true := by
        rw [show eqList key' k = false from hsame]
        exact Bool.false_ne_true
      rw [updateGroup, if_neg hkey, hmap]
      rfl

/-- After the input the map holds all groups. -/
theorem collect_holds (hkeys : ∀ row ∈ rows, groupKeysOf eval exprs row = .ok (keys row))
    (h : Holds eval aggCalls (groups listTest keys before) map)
    (hok : ∀ group ∈ groups listTest keys (before ++ rows),
      ∃ accs, aggregate eval aggCalls group.2 = .ok accs) :
    ∃ map', collect eval aggCalls exprs (rows.map .ok) map = .ok map' ∧
      Holds eval aggCalls (groups listTest keys (before ++ rows)) map' := by
  induction rows generalizing before map with
  | nil => exact ⟨map, rfl, by rwa [append_nil]⟩
  | cons row rows ih =>
    have hassoc : before ++ row :: rows = (before ++ [row]) ++ rows := by simp
    rw [hassoc] at hok ⊢
    have hstep : ∀ group ∈ upsert listTest [row] (· ++ [row])
        (groups listTest keys before) (keys row),
        ∃ accs, aggregate eval aggCalls group.2 = .ok accs := by
      intro group hg
      rw [← groups_concat] at hg
      obtain ⟨group', hg', -, hprefix⟩ := exists_group_append hg rows
      obtain ⟨accs, hall⟩ := hok group' hg'
      exact aggregate_of_prefix hprefix hall
    obtain ⟨map', hmap, hholds⟩ := updateGroup_holds h hstep
    rw [← groups_concat] at hholds
    obtain ⟨map'', hcollect, hall⟩ := ih (fun row hr => hkeys row (by simp [hr])) hholds hok
    refine ⟨map'', ?_, hall⟩
    rw [map_cons, collect, ok_bind, hkeys row (by simp), ok_bind, hmap]
    exact hcollect

end HashAgg

variable [Conversions]

/-- The row that is returned for a group. -/
def groupRow (eval : RowEval) (aggCalls : List AggCall) (group : List DataValue × List Tuple) :
    Result Tuple := do
  writeAggregateOutput (← aggregate eval aggCalls group.2) group.1

theorem groupRow_eq (h : aggregate eval aggCalls members = .ok accs) :
    groupRow eval aggCalls (k, members) = writeAggregateOutput accs k := by
  rw [groupRow, h]
  rfl

theorem aggregate_of_groupRow {group : List DataValue × List Tuple}
    (h : groupRow eval aggCalls group = .ok row) :
    ∃ accs, aggregate eval aggCalls group.2 = .ok accs := by
  obtain ⟨accs, ha, -⟩ := bind_eq_ok.mp h
  exact ⟨accs, ha⟩

namespace StreamAgg

variable {input : List (Result Tuple)} {next : List Accumulator} {k' : List DataValue}
  {out : List Tuple}

theorem loop_end (hrow : writeAggregateOutput accs k = .ok row) :
    loop eval aggCalls exprs [] (some k) accs = .ok (some row, ⟨aggCalls, exprs, none, [], []⟩) := by
  rw [loop, hrow]
  rfl

theorem loop_first (hkeys : groupKeysOf eval exprs row = .ok k)
    (hnext : startGroup eval aggCalls row = .ok next) :
    loop eval aggCalls exprs (.ok row :: input) none accs =
      loop eval aggCalls exprs input (some k) next := by
  rw [loop, ok_bind, hkeys, ok_bind, hnext]
  rfl

theorem loop_same (hkeys : groupKeysOf eval exprs row = .ok k') (hsame : eqList k k' = true)
    (hnext : updateAccumulators eval row accs aggCalls = .ok next) :
    loop eval aggCalls exprs (.ok row :: input) (some k) accs =
      loop eval aggCalls exprs input (some k) next := by
  rw [loop, ok_bind, hkeys, ok_bind]
  dsimp only
  rw [if_pos hsame, hnext]
  rfl

theorem loop_other {out : Tuple} (hkeys : groupKeysOf eval exprs row = .ok k')
    (hsame : eqList k k' = false) (hnext : startGroup eval aggCalls row = .ok next)
    (hout : writeAggregateOutput accs k = .ok out) :
    loop eval aggCalls exprs (.ok row :: input) (some k) accs =
      .ok (some out, ⟨aggCalls, exprs, some k', next, input⟩) := by
  rw [loop, ok_bind, hkeys, ok_bind]
  dsimp only
  rw [if_neg (by simp [hsame]), hnext, ok_bind, hout]
  rfl

theorem aggregate_of_runsFrom
    (h : (runsFrom listTest keys k members rows).mapM (groupRow eval aggCalls) = .ok out) :
    ∃ accs, aggregate eval aggCalls members = .ok accs := by
  obtain ⟨more, later, hruns⟩ := runsFrom_eq_cons listTest keys k members rows
  rw [hruns] at h
  obtain ⟨first, _, hfirst, -, -⟩ := mapM_cons_eq_ok.mp h
  obtain ⟨accs, hall⟩ := aggregate_of_groupRow hfirst
  exact aggregate_of_prefix (prefix_append _ _) hall

section

variable (hkeys : ∀ row ∈ rows, groupKeysOf eval exprs row = .ok (keys row))
include hkeys

/-- The run that is read and all later runs are returned. -/
theorem yields_runsFrom (hacc : aggregate eval aggCalls members = .ok accs)
    (hout : (runsFrom listTest keys k members rows).mapM (groupRow eval aggCalls) = .ok out) :
    Yields (nextTuple eval) ⟨aggCalls, exprs, some k, accs, rows.map .ok⟩ out := by
  induction rows generalizing k members accs out with
  | nil =>
    obtain ⟨row, rest, hrow, hrest, rfl⟩ := mapM_cons_eq_ok.mp hout
    cases hrest
    rw [groupRow_eq hacc] at hrow
    exact .more (loop_end hrow) (.done rfl)
  | cons row rows ih =>
    have hkey := hkeys row (by simp)
    have hkeys' : ∀ row ∈ rows, groupKeysOf eval exprs row = .ok (keys row) :=
      fun row hr => hkeys row (by simp [hr])
    rw [runsFrom] at hout
    cases hsame : listTest.same k (keys row) with
    | true =>
      rw [hsame, if_pos rfl] at hout
      obtain ⟨next, hnext⟩ := aggregate_of_runsFrom hout
      have hstep := hnext
      rw [aggregate_concat, hacc, ok_bind] at hstep
      refine (ih hkeys' hnext hout).of_next_eq ?_
      exact loop_same hkey hsame hstep
    | false =>
      rw [hsame, if_neg (by simp)] at hout
      obtain ⟨first, rest, hfirst, hrest, rfl⟩ := mapM_cons_eq_ok.mp hout
      obtain ⟨next, hnext⟩ := aggregate_of_runsFrom hrest
      rw [groupRow_eq hacc] at hfirst
      refine .more ?_ (ih hkeys' hnext hrest)
      rw [aggregate_singleton] at hnext
      exact loop_other hkey hsame hnext hfirst

/-- Every run of rows with the same keys is returned as a group. -/
theorem yields_runs (hout : (runs listTest keys rows).mapM (groupRow eval aggCalls) = .ok out) :
    Yields (nextTuple eval) ⟨aggCalls, exprs, none, [], rows.map .ok⟩ out := by
  cases rows with
  | nil =>
    cases hout
    exact .done rfl
  | cons row rows =>
    obtain ⟨accs, hacc⟩ := aggregate_of_runsFrom hout
    refine (yields_runsFrom (fun row hr => hkeys row (by simp [hr])) hacc hout).of_next_eq ?_
    rw [aggregate_singleton] at hacc
    exact loop_first (hkeys row (by simp)) hacc

end

end StreamAgg

namespace HashAgg

variable {map : GroupMap} {input : List (Result Tuple)} {intoIter : GroupMap → GroupMap}
  {out : List Tuple}

/-- What is left of the map is returned entry by entry. -/
theorem yields_output (h : map.mapM (fun entry => writeAggregateOutput entry.2 entry.1) = .ok out) :
    Yields (nextTuple eval intoIter) ⟨aggCalls, exprs, input, some map⟩ out := by
  induction map generalizing input out with
  | nil =>
    cases h
    exact .done rfl
  | cons entry map ih =>
    obtain ⟨row, rest, hrow, hrest, rfl⟩ := mapM_cons_eq_ok.mp h
    refine .more (t := ⟨aggCalls, exprs, [], some map⟩) ?_ (ih hrest)
    rw [nextTuple]
    dsimp only
    rw [pure_eq, ok_bind]
    dsimp only
    rw [hrow]
    rfl

theorem mapM_of_holds {groups : List (List DataValue × List Tuple)}
    (h : Holds eval aggCalls groups map) :
    map.mapM (fun entry => writeAggregateOutput entry.2 entry.1) =
      groups.mapM (groupRow eval aggCalls) := by
  induction h with
  | nil => rfl
  | @cons group entry groups map hentry _ ih =>
    obtain ⟨key, members⟩ := group
    rw [mapM_cons, mapM_cons, ih, groupRow_eq hentry.2, hentry.1]

/-- Every group is returned, in the order of the map. -/
theorem yields_groups (hiter : ∀ map, (intoIter map).Perm map)
    (hkeys : ∀ row ∈ rows, groupKeysOf eval exprs row = .ok (keys row))
    (hout : (groups listTest keys rows).mapM (groupRow eval aggCalls) = .ok out) :
    ∃ out', out'.Perm out ∧
      Yields (nextTuple eval intoIter) ⟨aggCalls, exprs, rows.map .ok, none⟩ out' := by
  have hok : ∀ group ∈ groups listTest keys ([] ++ rows),
      ∃ accs, aggregate eval aggCalls group.2 = .ok accs := by
    intro group hg
    obtain ⟨row, hrow⟩ := exists_mapM_iff.mp ⟨out, hout⟩ group hg
    exact aggregate_of_groupRow hrow
  have hempty : Holds eval aggCalls (groups listTest keys []) [] := .nil
  obtain ⟨map, hcollect, hholds⟩ := collect_holds hkeys hempty hok
  rw [nil_append] at hholds
  rw [← mapM_of_holds hholds] at hout
  obtain ⟨out', hout', hperm⟩ := mapM_perm hout (hiter map)
  have hyields : Yields (nextTuple eval intoIter) ⟨aggCalls, exprs, [], some (intoIter map)⟩ out' :=
    yields_output hout'
  refine ⟨out', hperm, hyields.of_next_eq ?_⟩
  rw [nextTuple, nextTuple]
  dsimp only
  rw [hcollect]
  rfl

end HashAgg

end Aggregate

namespace StreamDistinct

variable {input : List (Result Tuple)} {last tuple : Tuple}

theorem rewrite_eq (h : groupKeysOf eval exprs row = .ok k) :
    rewrite eval exprs row = .ok { row with values := k } := by
  rw [rewrite, h]
  rfl

theorem loop_first (h : rewrite eval exprs row = .ok tuple) :
    loop eval exprs (.ok row :: input) none = loop eval exprs input (some tuple) := by
  rw [loop, ok_bind, h]
  rfl

theorem loop_same (h : rewrite eval exprs row = .ok tuple)
    (hsame : eqList last.values tuple.values = true) :
    loop eval exprs (.ok row :: input) (some last) = loop eval exprs input (some last) := by
  rw [loop, ok_bind, h, ok_bind]
  dsimp only
  rw [if_pos hsame]

theorem loop_other (h : rewrite eval exprs row = .ok tuple)
    (hsame : eqList last.values tuple.values = false) :
    loop eval exprs (.ok row :: input) (some last) =
      .ok (some last, ⟨exprs, some tuple, input⟩) := by
  rw [loop, ok_bind, h, ok_bind]
  dsimp only
  rw [if_neg (by simp [hsame])]
  rfl

/-- The keys of the run that is read and of all later runs are returned. -/
theorem yields_runsFrom (members : List Tuple)
    (hkeys : ∀ row ∈ rows, groupKeysOf eval exprs row = .ok (keys row)) (hlast : last.values = k) :
    ∃ out, Yields (nextTuple eval) ⟨exprs, some last, rows.map .ok⟩ out ∧
      out.map Tuple.values = (runsFrom listTest keys k members rows).map Prod.fst := by
  induction rows generalizing k last members with
  | nil => exact ⟨[last], .more rfl (.done rfl), by simp [runsFrom, hlast]⟩
  | cons row rows ih =>
    have hrow := rewrite_eq (hkeys row (by simp))
    have hkeys' : ∀ row ∈ rows, groupKeysOf eval exprs row = .ok (keys row) :=
      fun row hr => hkeys row (by simp [hr])
    rw [runsFrom]
    cases hsame : listTest.same k (keys row) with
    | true =>
      obtain ⟨out, hout, hvalues⟩ := ih (members ++ [row]) hkeys' hlast
      exact ⟨out, hout.of_next_eq (loop_same hrow (hlast ▸ hsame)), hvalues⟩
    | false =>
      have hnew : ({ row with values := keys row } : Tuple).values = keys row := rfl
      obtain ⟨out, hout, hvalues⟩ := ih [row] hkeys' hnew
      refine ⟨last :: out, .more (loop_other hrow (hlast ▸ hsame)) hout, ?_⟩
      rw [map_cons, hvalues, hlast]
      rfl

/-- The keys of each run are returned. -/
theorem yields_runs (hkeys : ∀ row ∈ rows, groupKeysOf eval exprs row = .ok (keys row)) :
    ∃ out, Yields (nextTuple eval) ⟨exprs, none, rows.map .ok⟩ out ∧
      out.map Tuple.values = (runs listTest keys rows).map Prod.fst := by
  cases rows with
  | nil => exact ⟨[], .done rfl, rfl⟩
  | cons row rows =>
    have hrow := rewrite_eq (hkeys row (by simp))
    have hnew : ({ row with values := keys row } : Tuple).values = keys row := rfl
    have hkeys' : ∀ row ∈ rows, groupKeysOf eval exprs row = .ok (keys row) :=
      fun row hr => hkeys row (by simp [hr])
    obtain ⟨out, hout, hvalues⟩ := yields_runsFrom [row] hkeys' hnew
    exact ⟨out, hout.of_next_eq (loop_first hrow), hvalues⟩

end StreamDistinct

section Groups
variable [BinaryCreate] [Conversions]

/-- On rows that come group by group the streaming aggregate returns a row for each group, the hash
aggregate returns the same rows, and the streaming distinct returns each key once. -/
theorem StreamAgg.returns_groups (eval : RowEval) (aggCalls : List AggCall)
    (exprs : List Expression) (keys : Tuple → List DataValue) (rows : List Tuple)
    (intoIter : GroupMap → GroupMap) (hiter : ∀ map, (intoIter map).Perm map)
    (hkeys : ∀ row ∈ rows, groupKeysOf eval exprs row = .ok (keys row))
    (hrows : Grouping.Contiguous listTest keys rows)
    (hok : ∀ group ∈ groups listTest keys rows, ∃ row, groupRow eval aggCalls group = .ok row) :
    (∃ out, (groups listTest keys rows).mapM (groupRow eval aggCalls) = .ok out ∧
      Yields (nextTuple eval) ⟨aggCalls, exprs, none, [], rows.map .ok⟩ out ∧
      ∃ out', out'.Perm out ∧
        Yields (HashAgg.nextTuple eval intoIter) ⟨aggCalls, exprs, rows.map .ok, none⟩ out') ∧
    ∃ distinct, Yields (StreamDistinct.nextTuple eval) ⟨exprs, none, rows.map .ok⟩ distinct ∧
      (∀ row ∈ rows, ∃ tuple ∈ distinct, eqList tuple.values (keys row) = true) ∧
      (∀ tuple ∈ distinct, ∃ row ∈ rows, keys row = tuple.values) ∧
      distinct.Pairwise fun a b => eqList a.values b.values = false := by
  constructor
  · obtain ⟨out, hout⟩ := exists_mapM_iff.mpr hok
    refine ⟨out, hout, ?_, HashAgg.yields_groups hiter hkeys hout⟩
    rw [groups_eq_runs hrows] at hout
    exact yields_runs hkeys hout
  · obtain ⟨distinct, hyields, hvalues⟩ := StreamDistinct.yields_runs hkeys
    rw [← groups_eq_runs hrows] at hvalues
    refine ⟨distinct, hyields, fun row hr => ?_, fun tuple ht => ?_, ?_⟩
    · obtain ⟨group, hg, hsame⟩ := exists_group listTest keys hr
      have hmem := List.mem_map_of_mem (f := Prod.fst) hg
      rw [← hvalues] at hmem
      obtain ⟨tuple, ht, hv⟩ := List.mem_map.mp hmem
      exact ⟨tuple, ht, hv ▸ hsame⟩
    · have hmem := List.mem_map_of_mem (f := Tuple.values) ht
      rw [hvalues] at hmem
      obtain ⟨group, hg, hv⟩ := List.mem_map.mp hmem
      obtain ⟨row, hr, hkey⟩ := key_of_mem_groups hg
      exact ⟨row, hr, hkey.trans hv⟩
    · have hd : ((groups listTest keys rows).map Prod.fst).Pairwise
          fun a b => eqList a b = false :=
        List.pairwise_map.mpr (distinct_groups listTest keys rows)
      rw [← hvalues] at hd
      exact List.pairwise_map.mp hd

end Groups

/-- An aggregate of the second value of the row. -/
def ofSecond (kind : AggKind) : AggCall := ⟨false, kind, [.constant (.uInt32 1)], .integer⟩

def twoGroups : List Tuple :=
  [⟨none, [.null, .int32 20]⟩, ⟨none, [.null, .int32 10]⟩, ⟨none, [.int32 7, .null]⟩]

theorem StreamAgg.returns_groups_twoGroups :
    (∃ out, Yields (@nextTuple .integers .refusing atPosition)
        ⟨[ofSecond .count, ofSecond .sum, ofSecond .min, ofSecond .max], [.constant (.uInt32 0)],
          none, [], twoGroups.map .ok⟩ out ∧
      ∃ out', out'.Perm out ∧
        Yields (@HashAgg.nextTuple .integers .refusing atPosition List.reverse)
          ⟨[ofSecond .count, ofSecond .sum, ofSecond .min, ofSecond .max],
            [.constant (.uInt32 0)], twoGroups.map .ok, none⟩ out') ∧
    ∃ distinct, Yields (StreamDistinct.nextTuple atPosition)
      ⟨[.constant (.uInt32 0)], none, twoGroups.map .ok⟩ distinct := by
  have hkeys : ∀ row ∈ twoGroups,
      groupKeysOf atPosition [.constant (.uInt32 0)] row = .ok (row.values.take 1) := by
    intro row hr
    simp only [twoGroups, List.mem_cons, List.not_mem_nil, or_false] at hr
    rcases hr with rfl | rfl | rfl <;> rfl
  have hrows : Grouping.Contiguous listTest (fun row : Tuple => row.values.take 1) twoGroups := by
    intro a b c hsub hsame
    have hall := hsub.eq_of_length rfl
    cases hall
    cases hsame
  have hok := @returns_groups .integers .refusing atPosition
    [ofSecond .count, ofSecond .sum, ofSecond .min, ofSecond .max] [.constant (.uInt32 0)]
    (fun row => row.values.take 1) twoGroups List.reverse (fun map => List.reverse_perm map)
    hkeys hrows (exists_mapM_iff.mp ⟨[⟨none, [.int32 2, .int32 30, .int32 10, .int32 20,
      .null]⟩, ⟨none, [.int32 0, .null, .null, .null, .int32 7]⟩], rfl⟩)
  obtain ⟨⟨out, -, hstream, hhash⟩, distinct, hdistinct, -⟩ := hok
  exact ⟨⟨out, hstream, hhash⟩, distinct, hdistinct⟩

end KiteSQL
