import KiteSQL.Execution.HashJoinOuter

/-! The rows that a hash join returns: those of the join and, if it keeps left rows, sometimes
more. -/
namespace KiteSQL

open Iterate List DataValue JoinOperator KeyedMap Join RowBitmap Result

namespace JoinOperator

variable {op : JoinOperator} {positions : Nat → Nat} {lefts rights : List Tuple} {l l' r : Tuple}

/-- The keys of the two rows are equal and not NULL and the filter is not true on the pair. -/
def rejects (op : JoinOperator) (positions : Nat → Nat) (l r : Tuple) : Bool :=
  op.keysMatch positions l r && !HashJoin.accepts positions op.filter l r

/-- The last of the right rows with the keys of a left row. -/
def lastProbe (op : JoinOperator) (positions : Nat → Nat) (rights : List Tuple) (l : Tuple) :
    Option Tuple :=
  (rights.filter (op.keysMatch positions l)).getLast?

/-- The flags `is_used` and `has_filted` of the left rows with the keys of one of them. -/
def flags (op : JoinOperator) (positions : Nat → Nat) (lefts rights : List Tuple) (l : Tuple) :
    Bool × Bool :=
  match op.lastProbe positions rights l with
  | none => (false, false)
  | some r => (!lefts.any (op.rejects positions · r), lefts.any (op.rejects positions · r))

/-- A left row that an outer hash join extends with NULLs. -/
def keptLeft (op : JoinOperator) (positions : Nat → Nat) (lefts rights : List Tuple) (l : Tuple) :
    Bool :=
  !(op.flags positions lefts rights l).1 &&
    (rights.any (op.rejects positions l) || !(op.flags positions lefts rights l).2)

/-- A left row that has a partner, was also rejected, and whose keys were last probed by a right
row that was rejected with some left row. -/
def resurfaces (op : JoinOperator) (positions : Nat → Nat) (lefts rights : List Tuple)
    (l : Tuple) : Bool :=
  rights.any (op.partners positions l) && rights.any (op.rejects positions l) &&
    (op.lastProbe positions rights l).any fun r => lefts.any (op.rejects positions · r)

/-- A right row that the filter rejects although it has a partner, or more than once. -/
def repeats (op : JoinOperator) (positions : Nat → Nat) (lefts : List Tuple) (r : Tuple) : Bool :=
  decide ((if lefts.any (op.partners positions · r) then 0 else 1) <
    lefts.countP (op.rejects positions · r))

theorem keysMatch_eq_or : op.keysMatch positions l r =
    (op.partners positions l r || op.rejects positions l r) := by
  rw [partners, rejects]
  cases op.keysMatch positions l r <;> cases HashJoin.accepts positions op.filter l r <;> rfl

/-- The left rows that are extended with NULLs: those without a partner, and some others. -/
theorem keptLeft_and_lone (hl : l ∈ lefts) :
    (op.keptLeft positions lefts rights l && !rights.any (op.partners positions l)) =
      !rights.any (op.partners positions l) := by
  cases hany : rights.any (op.partners positions l) with
  | true => simp
  | false =>
    rw [Bool.not_false, Bool.and_true, keptLeft, flags]
    cases hlast : op.lastProbe positions rights l with
    | none => simp
    | some r =>
      obtain ⟨hr, hkeys⟩ := mem_filter.mp (mem_of_getLast? hlast)
      have hp : op.partners positions l r = false := by
        rw [any_eq_false] at hany
        simpa using hany r hr
      rw [keysMatch_eq_or, hp, Bool.false_or] at hkeys
      have hlefts : lefts.any (op.rejects positions · r) = true :=
        any_eq_true.mpr ⟨l, hl, hkeys⟩
      have hrights : rights.any (op.rejects positions l) = true :=
        any_eq_true.mpr ⟨r, hr, hkeys⟩
      simp only [hlefts, hrights]
      rfl

theorem keptLeft_and_partner :
    (op.keptLeft positions lefts rights l && rights.any (op.partners positions l)) =
      op.resurfaces positions lefts rights l := by
  rw [resurfaces]
  cases hany : rights.any (op.partners positions l) with
  | false => simp
  | true =>
    rw [keptLeft, flags]
    cases hlast : op.lastProbe positions rights l with
    | none =>
      obtain ⟨r, hr, hp⟩ := any_eq_true.mp hany
      rw [lastProbe, getLast?_eq_none_iff, filter_eq_nil_iff] at hlast
      exact absurd (by rw [keysMatch_eq_or, hp]; rfl) (hlast r hr)
    | some r =>
      simp only [Option.any_some]
      cases lefts.any (op.rejects positions · r) <;>
        cases rights.any (op.rejects positions l) <;> rfl

theorem filter_keptLeft_perm : (lefts.filter (op.keptLeft positions lefts rights)).Perm
    (lefts.filter (fun l => !rights.any (op.partners positions l)) ++
      lefts.filter (op.resurfaces positions lefts rights)) := by
  refine (filter_append_perm (fun l => !rights.any (op.partners positions l)) _).symm.trans
    (.of_eq ?_)
  rw [filter_filter, filter_filter]
  congr 1
  · refine filter_congr fun l hl => ?_
    rw [Bool.and_comm, keptLeft_and_lone hl]
  · refine filter_congr fun l _ => ?_
    rw [Bool.and_comm, Bool.not_not, keptLeft_and_partner]

theorem lastProbe_concat : op.lastProbe positions (rights ++ [r]) l =
    if op.keysMatch positions l r then some r else op.lastProbe positions rights l := by
  rw [lastProbe, filter_append]
  by_cases h : op.keysMatch positions l r
  · simp [h]
  · simp [h, lastProbe]

theorem flags_concat : op.flags positions lefts (rights ++ [r]) l =
    if op.keysMatch positions l r then
      (!lefts.any (op.rejects positions · r), lefts.any (op.rejects positions · r))
    else op.flags positions lefts rights l := by
  rw [flags, lastProbe_concat, flags]
  cases op.keysMatch positions l r <;> rfl

end JoinOperator

namespace HashJoin

variable {op : JoinOperator} {arena : JoinArena} {kl kr : Bool} {leftLen rightLen : Nat}
  {map : BuildMap} {bits : RowBitmap} {buf : List DataValue} {positions : Nat → Nat}
  {lefts rights done : List Tuple} {l r : Tuple}

/-- The rows of the join that a right row makes with some of the left rows. -/
def matched (positions : Nat → Nat) (filter : Option PlanExpression) (r : Tuple)
    (lefts : List Tuple) : List Tuple :=
  (lefts.filter (accepts positions filter · r)).map (fullRow · r)

/-- The map holds for each key the left rows with that key. -/
def Holds (op : JoinOperator) (positions : Nat → Nat) (lefts : List Tuple) (map : BuildMap) :
    Prop :=
  ∀ key, rowsAt map key =
    lefts.filter fun l => DataValue.eqList (keyOf positions (op.on.map Prod.fst) l) key

/-- The left rows whose keys match those of a right row. -/
def keyPartners (op : JoinOperator) (positions : Nat → Nat) (lefts : List Tuple) (r : Tuple) :
    List Tuple :=
  lefts.filter (op.keysMatch positions · r)

theorem keyPartners_of_null (hn : (keyOf positions (op.on.map Prod.snd) r).any isNull = true) :
    keyPartners op positions lefts r = [] :=
  filter_eq_nil_iff.mpr fun l _ => by simp [keysMatch, hn]

/-- The left rows, numbered. -/
def numbered (lefts : List Tuple) : List (Nat × Tuple) := lefts.zipIdx.map Prod.swap

/-- The map holds each of the numbered rows once, under its keys. -/
structure Grouped (positions : Nat → Nat) (exprs : List PlanExpression)
    (tuples : List (Nat × Tuple)) (map : BuildMap) : Prop where
  distinct : KeyedMap.Distinct DataValue.listTest map
  filled : ∀ e ∈ map, e.2.tuples ≠ []
  keyed : ∀ e ∈ map, ∀ t ∈ e.2.tuples, DataValue.eqList (keyOf positions exprs t.2) e.1 = true
  perm : (map.flatMap fun e => e.2.tuples).Perm tuples

variable {exprs : List PlanExpression} {tuples : List (Nat × Tuple)} {t : Nat × Tuple}
  {key : List DataValue} {s : BuildState} {used filted : Bool}

namespace Grouped

section

variable (h : Grouped positions exprs tuples map)
include h

theorem mem {e : List DataValue × BuildState} (he : e ∈ map) (ht : t ∈ e.2.tuples) : t ∈ tuples :=
  h.perm.mem_iff.mp (mem_flatMap.mpr ⟨e, he, ht⟩)

/-- A row is among those that the map holds for its keys, and only there. -/
theorem mem_lookup_iff (hl : lookup listTest map key = some s) :
    t ∈ s.tuples ↔ t ∈ tuples ∧ eqList (keyOf positions exprs t.2) key = true := by
  constructor
  · intro ht
    obtain ⟨k, hmem, hk⟩ := exists_of_lookup hl
    refine ⟨h.mem hmem ht, ?_⟩
    rw [← h.keyed _ hmem t ht]
    exact (listTest.congr_right hk _).symm
  · rintro ⟨ht, hk⟩
    obtain ⟨e, he, ht⟩ := mem_flatMap.mp (h.perm.mem_iff.mpr ht)
    have hkey : listTest.same e.1 key = true :=
      (listTest.congr _ _ _ (h.keyed e he t ht)).symm.trans hk
    have he2 := lookup_of_mem h.distinct he hkey
    rw [hl] at he2
    cases he2
    exact ht

theorem upsert (i : Nat) (l : Tuple) :
    Grouped positions exprs (tuples ++ [(i, l)])
      (upsert listTest ⟨[(i, l)], false, false⟩
        (fun s => { s with tuples := s.tuples ++ [(i, l)] }) map (keyOf positions exprs l)) where
  distinct := h.distinct.upsert
  filled := forall_upsert h.filled (fun _ _ _ => by simp) (by simp)
  keyed := by
    refine forall_upsert h.keyed (fun e he hk t ht => ?_) (fun t ht => ?_)
    · rcases mem_append.mp ht with ht | ht
      · exact h.keyed e he t ht
      · rw [mem_singleton.mp ht]
        exact (listTest.symm _ _).trans hk
    · rw [mem_singleton.mp ht]
      exact listTest.refl _
  perm := (@KeyedMap.upsert_flatMap_perm _ _ _ _ _ _ _ _ BuildState.tuples (i, l) (fun _ => rfl)
    rfl).trans (h.perm.append_right _)

end

end Grouped

/-- No row of the map has been probed. -/
def Fresh (map : BuildMap) : Prop := ∀ e ∈ map, e.2.isUsed = false ∧ e.2.hasFilted = false

theorem buildRows_grouped (hk : ∀ l ∈ lefts, ∃ key, evalKeys positions exprs l = .ok key)
    {map' : BuildMap} {count count' : Nat} (h : Grouped positions exprs tuples map) (hf : Fresh map)
    (hb : buildRows positions exprs (lefts.map .ok) map count = .ok (map', count')) :
    Grouped positions exprs (tuples ++ (lefts.zipIdx count).map Prod.swap) map' ∧
      Fresh map' := by
  induction lefts generalizing tuples map count with
  | nil =>
    cases hb
    exact ⟨by simpa using h, hf⟩
  | cons l lefts ih =>
    rw [forall_mem_cons] at hk
    rw [map_cons, buildRows, ok_bind, evalKeys_keyOf hk.1, ok_bind] at hb
    obtain ⟨hg, hf'⟩ := ih hk.2 (h.upsert count l)
      (forall_upsert hf (fun e he _ => hf e he) ⟨rfl, rfl⟩) hb
    refine ⟨?_, hf'⟩
    rw [append_assoc] at hg
    exact hg

/-- What holds between two right rows: the map and the marks tell what the right rows that were
taken have met, the flags of the map only in a join that keeps left rows. -/
structure Tracked (op : JoinOperator) (positions : Nat → Nat) (keepLeft : Bool)
    (lefts done : List Tuple) (map : BuildMap) (bits : RowBitmap) : Prop where
  holds : Holds op positions lefts map
  grouped : Grouped positions (op.on.map Prod.fst) (numbered lefts) map
  flags : keepLeft = true → ∀ e ∈ map, ∀ t ∈ e.2.tuples,
    (e.2.isUsed, e.2.hasFilted) = op.flags positions lefts done t.2
  len : bits.len = lefts.length
  marks : ∀ t ∈ numbered lefts, bits.contains t.1 = done.any (op.rejects positions t.2)

theorem mem_numbered : t ∈ numbered lefts ↔ lefts[t.1]? = some t.2 := by
  rw [numbered, mem_map]
  constructor
  · rintro ⟨⟨l, i⟩, hmem, rfl⟩
    exact (mem_zipIdx_iff_getElem?).mp hmem
  · intro h
    exact ⟨(t.2, t.1), mem_zipIdx_iff_getElem?.mpr h, rfl⟩

theorem numbered_inj {t' : Nat × Tuple} (ht : t ∈ numbered lefts) (ht' : t' ∈ numbered lefts)
    (he : t.1 = t'.1) : t = t' := by
  rw [mem_numbered] at ht ht'
  rw [he, ht'] at ht
  exact Prod.ext he (Option.some.inj ht).symm

theorem numbered_snd : (numbered lefts).map Prod.snd = lefts := by
  simp [numbered, Function.comp_def]

/-- A right row without partners by key leaves everything as it is. -/
theorem Tracked.skip (h : Tracked op positions kl lefts done map bits)
    (hr : keyPartners op positions lefts r = []) :
    Tracked op positions kl lefts (done ++ [r]) map bits := by
  have hno : ∀ l ∈ lefts, op.keysMatch positions l r = false := by
    simpa [keyPartners] using hr
  have hmem : ∀ t ∈ numbered lefts, t.2 ∈ lefts := fun t ht => by
    rw [← @numbered_snd lefts]
    exact mem_map_of_mem ht
  refine ⟨h.holds, h.grouped, fun hkl e he t ht => ?_, h.len, fun t ht => ?_⟩
  · rw [flags_concat, hno _ (hmem t (h.grouped.mem he ht))]
    exact h.flags hkl e he t ht
  · rw [h.marks t ht, any_append]
    simp [rejects, hno _ (hmem t ht)]

/-- The entry that a probe of a right row finds. -/
structure Found (op : JoinOperator) (positions : Nat → Nat) (map : BuildMap) (r : Tuple)
    (s : BuildState) : Prop where
  null : (keyOf positions (op.on.map Prod.snd) r).any DataValue.isNull = false
  lookup : KeyedMap.lookup DataValue.listTest map (keyOf positions (op.on.map Prod.snd) r) = some s

section

variable (hf : Found op positions map r s)
include hf

theorem Found.keysMatch_eq (l : Tuple) :
    op.keysMatch positions l r = eqList (keyOf positions (op.on.map Prod.fst) l)
      (keyOf positions (op.on.map Prod.snd) r) := by
  rw [keysMatch]
  cases he : eqList (keyOf positions (op.on.map Prod.fst) l)
      (keyOf positions (op.on.map Prod.snd) r) with
  | false => rfl
  | true =>
    have hn := any_isNull_of_eqList he
    rw [hf.null] at hn
    simp only [hn, hf.null]
    rfl

theorem Found.rows (hh : Holds op positions lefts map) :
    s.tuples.map Prod.snd = keyPartners op positions lefts r := by
  have hrows := hh (keyOf positions (op.on.map Prod.snd) r)
  rw [rowsAt, hf.lookup] at hrows
  refine hrows.trans (filter_congr fun l _ => ?_)
  exact (hf.keysMatch_eq l).symm

theorem Found.mem_iff (hg : Grouped positions (op.on.map Prod.fst) tuples map) :
    t ∈ s.tuples ↔ t ∈ tuples ∧ op.keysMatch positions t.2 r = true := by
  rw [hf.keysMatch_eq]
  exact hg.mem_lookup_iff hf.lookup

theorem Found.filtered_eq (hh : Holds op positions lefts map) :
    (!(rejected positions op.filter r s.tuples).isEmpty) =
      lefts.any (op.rejects positions · r) := by
  have hany : (!(rejected positions op.filter r s.tuples).isEmpty) =
      (s.tuples.map Prod.snd).any fun l => !accepts positions op.filter l r := by
    rw [Bool.eq_iff_iff]
    simp [rejected]
  rw [hany, hf.rows hh, keyPartners, any_filter]
  rfl

end

theorem rowsAt_modify (hs : lookup listTest map buf = some s) :
    rowsAt (modify listTest (fun _ => ⟨s.tuples, used, filted⟩) map buf) key =
      rowsAt map key := by
  rw [rowsAt, lookup_modify, rowsAt]
  cases hsame : listTest.same buf key with
  | false => rfl
  | true =>
    rw [← lookup_congr hsame, hs]
    rfl

/-- The map after a probe: the entry has the same rows and other flags. -/
def probedMap (op : JoinOperator) (positions : Nat → Nat) (map : BuildMap) (r : Tuple)
    (s : BuildState) (used filted : Bool) : BuildMap :=
  KeyedMap.modify DataValue.listTest (fun _ => ⟨s.tuples, used, filted⟩) map
    (keyOf positions (op.on.map Prod.snd) r)

/-- A probe changes no rows, the flags of its entry and no others. -/
theorem Found.mem_probedMap (hf : Found op positions map r s)
    (hg : Grouped positions (op.on.map Prod.fst) tuples map) (used filted : Bool) :
    ∃ g : List DataValue × BuildState → List DataValue × BuildState,
      probedMap op positions map r s used filted = map.map g ∧
      ∀ e ∈ map, (g e).1 = e.1 ∧ (g e).2.tuples = e.2.tuples ∧
        ∀ t ∈ e.2.tuples, ((g e).2.isUsed, (g e).2.hasFilted) =
          if op.keysMatch positions t.2 r then (used, filted) else (e.2.isUsed, e.2.hasFilted) := by
  refine ⟨_, modify_eq_map hg.distinct, fun e he => ?_⟩
  cases hk : listTest.same e.1 (keyOf positions (op.on.map Prod.snd) r) with
  | true =>
    have hs := lookup_of_mem hg.distinct he hk
    rw [hf.lookup] at hs
    cases hs
    refine ⟨rfl, rfl, fun t ht => ?_⟩
    rw [((hf.mem_iff hg).mp ht).2]
    rfl
  | false =>
    refine ⟨rfl, rfl, fun t ht => ?_⟩
    have hno : op.keysMatch positions t.2 r = false := by
      rw [hf.keysMatch_eq, ← hk]
      exact listTest.congr _ _ _ (hg.keyed e he t ht)
    rw [hno]
    rfl

theorem Tracked.probe (h : Tracked op positions kl lefts done map bits)
    (hf : Found op positions map r s)
    (hflags : kl = true →
      used = !!(rejected positions op.filter r s.tuples).isEmpty ∧
      filted = !(rejected positions op.filter r s.tuples).isEmpty) :
    Tracked op positions kl lefts (done ++ [r]) (probedMap op positions map r s used filted)
      (bits.marks ((rejected positions op.filter r s.tuples).map Prod.fst)) := by
  obtain ⟨g, hmap, hg⟩ := hf.mem_probedMap h.grouped used filted
  have hlen : ∀ i ∈ (rejected positions op.filter r s.tuples).map Prod.fst, i < bits.len := by
    intro i hi
    obtain ⟨t, ht, rfl⟩ := mem_map.mp hi
    have ht := ((hf.mem_iff h.grouped).mp (mem_of_mem_filter ht)).1
    rw [h.len]
    exact (List.getElem?_eq_some_iff.mp (mem_numbered.mp ht)).1
  refine ⟨?_, ⟨?_, ?_, ?_, ?_⟩, ?_, ?_, ?_⟩
  · intro key
    refine Eq.trans ?_ (h.holds key)
    exact rowsAt_modify hf.lookup
  · rw [hmap]
    refine pairwise_map.mpr (h.grouped.distinct.imp_of_mem fun ha hb hne => ?_)
    rwa [(hg _ ha).1, (hg _ hb).1]
  · rw [hmap, forall_mem_map]
    intro e he
    rw [(hg e he).2.1]
    exact h.grouped.filled e he
  · rw [hmap, forall_mem_map]
    intro e he
    rw [(hg e he).2.1, (hg e he).1]
    exact h.grouped.keyed e he
  · rw [hmap, flatMap_map]
    refine .trans (.of_eq (flatMap_congr fun e he => ?_)) h.grouped.perm
    exact (hg e he).2.1
  · intro hkl
    rw [hmap, forall_mem_map]
    intro e he t ht
    rw [(hg e he).2.1] at ht
    rw [(hg e he).2.2 t ht, flags_concat, (hflags hkl).1, (hflags hkl).2,
      hf.filtered_eq h.holds, h.flags hkl e he t ht]
  · rw [marks_len, h.len]
  · intro t ht
    have hmem : ((rejected positions op.filter r s.tuples).map Prod.fst).contains t.1 =
        op.rejects positions t.2 r := by
      rw [Bool.eq_iff_iff, contains_iff_mem, mem_map]
      constructor
      · rintro ⟨t', ht', he⟩
        obtain ⟨hmem, hrej⟩ := mem_filter.mp ht'
        obtain ⟨hnum, hkeys⟩ := (hf.mem_iff h.grouped).mp hmem
        rw [← numbered_inj hnum ht he, rejects, hkeys, hrej]
        rfl
      · intro hrej
        rw [rejects, Bool.and_eq_true] at hrej
        exact ⟨t, mem_filter.mpr ⟨(hf.mem_iff h.grouped).mpr ⟨ht, hrej.1⟩, hrej.2⟩, rfl⟩
    rw [contains_marks hlen, hmem, h.marks t ht, any_append]
    simp

/-- The rows that are left in the map after the last right row. -/
theorem Tracked.dropped_perm (h : Tracked op arena.positions true lefts done map bits)
    (fullLen : Nat) :
    (droppedOf fullLen bits (arena.entries map)).Perm
      ((lefts.filter (op.keptLeft arena.positions lefts done)).map (extended fullLen)) := by
  have hmap : droppedOf fullLen bits map = ((map.flatMap fun e => e.2.tuples).filter fun t =>
      op.keptLeft arena.positions lefts done t.2).map (extended fullLen ·.2) := by
    rw [droppedOf, filter_flatMap, map_flatMap]
    refine flatMap_congr fun e he => ?_
    have hkept : e.2.tuples.filter (fun t => op.keptLeft arena.positions lefts done t.2) =
        e.2.tuples.filter fun t => !e.2.isUsed && (bits.contains t.1 || !e.2.hasFilted) := by
      refine filter_congr fun t ht => ?_
      rw [keptLeft, ← h.flags rfl e he t ht, h.marks t (h.grouped.mem he ht)]
    rw [hkept]
    cases e.2.isUsed with
    | true => simp
    | false => simp [dropped]
  have hlefts : lefts.filter (op.keptLeft arena.positions lefts done) =
      ((numbered lefts).filter fun t => op.keptLeft arena.positions lefts done t.2).map
        Prod.snd := by
    conv_lhs => rw [← @numbered_snd lefts, filter_map]
    rw [numbered_snd]
    rfl
  have hentries : (droppedOf fullLen bits (arena.entries map)).Perm
      (droppedOf fullLen bits map) := (arena.perm map).flatMap_right _
  refine hentries.trans ?_
  rw [hmap, hlefts, map_map]
  exact (h.grouped.perm.filter _).map _

/-- The rows that a right row contributes. -/
def rowsOf (op : JoinOperator) (positions : Nat → Nat) (kl kr : Bool) (leftLen : Nat)
    (lefts : List Tuple) (r : Tuple) : List Tuple :=
  if (keyPartners op positions lefts r).isEmpty then
    if kr then [fullRightRow leftLen r] else []
  else outerRows positions op.filter (kl && kr) leftLen r (keyPartners op positions lefts r) ++
    lastRow positions op.filter (!kl && kr) leftLen r (keyPartners op positions lefts r)

theorem found_or_none (h : Holds op positions lefts map) (r : Tuple) :
    (found map (keyOf positions (op.on.map Prod.snd) r) (startProbe op positions r) = none ∧
      keyPartners op positions lefts r = []) ∨ ∃ s, Found op positions map r s := by
  cases hn : (keyOf positions (op.on.map Prod.snd) r).any isNull with
  | true =>
    refine .inl ⟨?_, keyPartners_of_null hn⟩
    rw [found, startProbe]
    exact if_pos hn
  | false =>
    cases hl : lookup listTest map (keyOf positions (op.on.map Prod.snd) r) with
    | some s => exact .inr ⟨s, hn, hl⟩
    | none =>
      refine .inl ⟨?_, ?_⟩
      · rw [found, hl]
        split <;> rfl
      · have hrows := h (keyOf positions (op.on.map Prod.snd) r)
        rw [rowsAt, hl] at hrows
        refine filter_eq_nil_iff.mpr fun l hl' hm => ?_
        have hno := filter_eq_nil_iff.mp hrows.symm l hl'
        simp only [keysMatch, Bool.and_eq_true] at hm
        exact hno hm.1.1

theorem Found.ne_nil (hf : Found op positions map r s)
    (hg : Grouped positions (op.on.map Prod.fst) tuples map) : s.tuples ≠ [] := by
  obtain ⟨k, hmem, -⟩ := exists_of_lookup hf.lookup
  exact hg.filled _ hmem

theorem Found.startProbe_eq (hf : Found op positions map r s) :
    startProbe op positions r = probing r 0 false false := by
  rw [startProbe, hf.null]
  rfl

/-- The rows of the right rows that are left, and then those of the map. -/
theorem yields_running {all : List Tuple}
    (hinit : (ofOperator op leftLen rightLen [] []).initError = none)
    (h : op.Evaluates arena.positions lefts all) (hsub : rights ⊆ all)
    (ht : Tracked op arena.positions kl lefts done map bits) :
    ∃ tail, Yields (nextTuple arena) (running op leftLen rightLen map
        (.ofKept kl kr leftLen rightLen bits) buf none rights)
        (rights.flatMap (rowsOf op arena.positions kl kr leftLen lefts) ++ tail) ∧
      tail.Perm (if kl then (lefts.filter (op.keptLeft arena.positions lefts
        (done ++ rights))).map (extended (rightLen + leftLen)) else []) := by
  induction rights generalizing done map bits buf with
  | nil =>
    refine ⟨_, yields_running_nil hinit, ?_⟩
    cases kl with
    | false => exact .refl _
    | true =>
      rw [append_nil]
      exact ht.dropped_perm _
  | cons r rights ih =>
    obtain ⟨hr, hsub⟩ := cons_subset.mp hsub
    have htake := @nextTuple_cons op arena leftLen rightLen map
      (.ofKept kl kr leftLen rightLen bits) buf rights r hinit (h.right r hr)
    have happend : done ++ r :: rights = (done ++ [r]) ++ rights := by simp
    rw [happend, flatMap_cons]
    rcases found_or_none ht.holds r with ⟨hnone, hkeys⟩ | ⟨s, hf⟩
    · obtain ⟨tail, htail, hperm⟩ := @ih map bits _ (done ++ [r]) hsub (ht.skip hkeys)
      refine ⟨tail, .of_next_eq ?_ htake, hperm⟩
      rw [append_assoc, rowsOf, hkeys]
      exact yields_unfound hinit hnone htail
    · have hlen : ∀ t ∈ s.tuples, t.1 < bits.len := by
        intro t hmem
        rw [ht.len]
        have hnum := ((hf.mem_iff ht.grouped).mp hmem).1
        exact (List.getElem?_eq_some_iff.mp (mem_numbered.mp hnum)).1
      have hok : ∀ t ∈ s.tuples,
          ∃ b, passes arena.positions op.filter t.2.values r.values = .ok b := by
        intro t hmem
        obtain ⟨hnum, hkeys⟩ := (hf.mem_iff ht.grouped).mp hmem
        exact h.filter t.2 (mem_of_getElem? (mem_numbered.mp hnum)) r hr hkeys
      obtain ⟨used, filted, hflags, hrows⟩ := @yields_probing op arena kl kr leftLen rightLen map
        bits _ rights r s.tuples [] false false _ _ hinit hf.lookup hlen hok
      obtain ⟨tail, htail, hperm⟩ := @ih _ _ (keyOf arena.positions (op.on.map Prod.snd) r)
        (done ++ [r]) hsub (ht.probe hf hflags)
      refine ⟨tail, .of_next_eq ?_ htake, hperm⟩
      have hne : (keyPartners op arena.positions lefts r).isEmpty = false := by
        rw [← hf.rows ht.holds]
        simpa using hf.ne_nil ht.grouped
      have hyields := hrows _ htail
      rw [Bool.not_false, Bool.and_true, hf.rows ht.holds, ← append_assoc] at hyields
      rw [append_assoc, rowsOf, hne, if_neg (by simp), hf.startProbe_eq]
      exact hyields

theorem tracked_build (h : op.Evaluates positions lefts rights) :
    ∃ map, buildRows positions (op.on.map Prod.fst) (lefts.map .ok) [] 0 =
        .ok (map, lefts.length) ∧
      Tracked op positions kl lefts [] map (.withCapacity lefts.length) := by
  obtain ⟨map, hmap, hrows⟩ := buildRows_ok h.left [] 0
  rw [Nat.zero_add] at hmap
  have hempty : Grouped positions (op.on.map Prod.fst) [] [] :=
    ⟨List.Pairwise.nil, by simp, by simp, .refl _⟩
  obtain ⟨hg, hf⟩ := buildRows_grouped h.left hempty (by simp [Fresh]) hmap
  refine ⟨map, hmap, hrows, hg, fun _ e he t _ => ?_, rfl, fun t _ => ?_⟩
  · rw [(hf e he).1, (hf e he).2]
    rfl
  · simp [RowBitmap.contains, RowBitmap.withCapacity]

/-- The first call reads the left rows and goes on as a call in the probe phase. -/
theorem nextTuple_build (hkeys : op.on ≠ []) (hty : op.joinType ≠ .cross)
    (h : op.Evaluates arena.positions lefts rights) :
    ∃ map, Tracked op arena.positions op.joinType.keepsLeft lefts [] map
        (.withCapacity lefts.length) ∧
      nextTuple arena (ofOperator op leftLen rightLen (lefts.map .ok) (rights.map .ok)) =
        nextTuple arena (running op leftLen rightLen map (.ofKept op.joinType.keepsLeft
          op.joinType.keepsRight leftLen rightLen (.withCapacity lefts.length)) [] none rights) := by
  obtain ⟨map, hmap, ht⟩ := tracked_build h
  have hinit := initError_eq_none leftLen rightLen hkeys hty
  have hinit' : (ofOperator op leftLen rightLen (lefts.map .ok) (rights.map .ok)).initError =
      none := hinit
  have hbuild : (ofOperator op leftLen rightLen (lefts.map .ok) (rights.map .ok)).initializeBuild
      arena.positions = .ok (running op leftLen rightLen map (.ofKept op.joinType.keepsLeft
        op.joinType.keepsRight leftLen rightLen (.withCapacity lefts.length)) [] none rights) := by
    rw [initializeBuild]
    refine bind_eq_ok.mpr ⟨_, hmap, ?_⟩
    exact bind_eq_ok.mpr ⟨_, JoinProbeStateImpl.ofType_eq hty _, rfl⟩
  refine ⟨map, ht, ?_⟩
  rw [nextTuple_none hinit .build [], nextTuple, hinit']
  dsimp only
  rw [hbuild, ok_bind]
  exact probeRows_atState ..

/-- The row that stands for a pair, or for a row without a partner. -/
def assembleTuple (leftLen rightLen : Nat) : Option Tuple × Option Tuple → Tuple
  | (some l, some r) => fullRow l r
  | (none, some r) => fullRightRow leftLen r
  | (some l, none) => ⟨l.pk, l.values ++ List.replicate rightLen .null⟩
  | (none, none) => ⟨none, List.replicate (leftLen + rightLen) .null⟩

theorem matched_keyPartners (positions : Nat → Nat) (r : Tuple) :
    matched positions op.filter r (keyPartners op positions lefts r) =
      (lefts.filter (op.partners positions · r)).map (fullRow · r) := by
  rw [matched, keyPartners, filter_filter]
  simp only [partners, Bool.and_comm]

theorem map_byRight (keepRight : Bool) (p : Tuple → Tuple → Bool) :
    (byRight keepRight p lefts rights).map (assembleTuple leftLen rightLen) =
      rights.flatMap fun r => (lefts.filter (p · r)).map (fullRow · r) ++
        if keepRight && (lefts.filter (p · r)).isEmpty then [fullRightRow leftLen r] else [] := by
  rw [byRight, map_flatMap]
  refine flatMap_congr fun r _ => ?_
  rw [map_append, map_map]
  cases keepRight && (lefts.filter (p · r)).isEmpty <;> rfl

/-- The rows beyond those of the join that a right row contributes. -/
def surplusOf (op : JoinOperator) (positions : Nat → Nat) (full : Bool) (leftLen : Nat)
    (lefts : List Tuple) (r : Tuple) : List Tuple :=
  if full then
    List.replicate (lefts.countP (op.rejects positions · r) -
      if lefts.any (op.partners positions · r) then 0 else 1) (fullRightRow leftLen r)
  else []

theorem outerRows_perm {filter : Option PlanExpression} {full : Bool} :
    (outerRows positions filter full leftLen r lefts).Perm
      (matched positions filter r lefts ++ if full then
        replicate (lefts.countP fun l => !accepts positions filter l r)
          (fullRightRow leftLen r) else []) := by
  induction lefts with
  | nil => cases full <;> rfl
  | cons l lefts ih =>
    rw [outerRows_cons]
    cases ha : accepts positions filter l r with
    | true => simpa [matched, ha] using ih
    | false =>
      cases full with
      | false => simpa [matched, ha] using ih
      | true =>
        simp only [matched, ha, Bool.false_eq_true, if_false, if_true, filter_cons,
          countP_cons, Bool.not_false, replicate_succ] at ih ⊢
        exact (ih.cons _).trans perm_middle.symm

theorem rowsOf_perm (op : JoinOperator) (positions : Nat → Nat) (kl kr : Bool) (leftLen : Nat)
    (lefts : List Tuple) (r : Tuple) :
    (rowsOf op positions kl kr leftLen lefts r).Perm
      (((lefts.filter (op.partners positions · r)).map (fullRow · r) ++
        if kr && (lefts.filter (op.partners positions · r)).isEmpty then
          [fullRightRow leftLen r] else []) ++
        surplusOf op positions (kl && kr) leftLen lefts r) := by
  have hmatched := @matched_keyPartners op lefts positions r
  have hcount : (keyPartners op positions lefts r).countP
      (fun l => !accepts positions op.filter l r) = lefts.countP (op.rejects positions · r) := by
    rw [keyPartners, countP_filter]
    simp only [rejects, Bool.and_comm]
  have hany : lefts.any (op.partners positions · r) =
      !(lefts.filter (op.partners positions · r)).isEmpty := by
    rw [Bool.eq_iff_iff]
    simp
  have hlast : (keyPartners op positions lefts r).any (accepts positions op.filter · r) =
      !(lefts.filter (op.partners positions · r)).isEmpty := by
    rw [← hany, keyPartners, any_filter]
    rfl
  rw [rowsOf, surplusOf, hany]
  cases hkeys : keyPartners op positions lefts r with
  | nil =>
    rw [hkeys] at hmatched hcount
    have hnil : lefts.filter (op.partners positions · r) = [] := map_eq_nil_iff.mp hmatched.symm
    rw [← hcount, hnil]
    cases kl <;> cases kr <;> simp
  | cons l ls =>
    rw [isEmpty_cons, if_neg (by simp), ← hkeys, append_assoc, ← hmatched, lastRow, hlast,
      Bool.not_not]
    refine (outerRows_perm.append_right _).trans ?_
    rw [hcount, append_assoc]
    refine .append_left _ ?_
    cases kr with
    | false => cases kl <;> exact .refl _
    | true =>
      cases kl with
      | false => simp
      | true =>
        cases hp : lefts.filter (op.partners positions · r) with
        | cons l' ls' => simp
        | nil =>
          have hl : l ∈ keyPartners op positions lefts r := by simp [hkeys]
          obtain ⟨hmem, hkm⟩ := mem_filter.mp hl
          have hno := filter_eq_nil_iff.mp hp l hmem
          rw [keysMatch_eq_or, Bool.not_eq_true _ |>.mp hno, Bool.false_or] at hkm
          have hpos : 0 < lefts.countP (op.rejects positions · r) :=
            countP_pos_iff.mpr ⟨l, hmem, hkm⟩
          obtain ⟨n, hn⟩ := Nat.exists_eq_succ_of_ne_zero (Nat.pos_iff_ne_zero.mp hpos)
          rw [hn]
          simp [replicate_succ]

theorem extended_eq (hw : l.values.length = leftLen) :
    extended (rightLen + leftLen) l = assembleTuple leftLen rightLen (some l, none) := by
  have hlen : rightLen + leftLen - l.values.length = rightLen := by omega
  rw [extended, hlen, take_of_length_le (by simp [hw, Nat.add_comm])]
  rfl

/-- The rows beyond those of the join. -/
def surplus (op : JoinOperator) (positions : Nat → Nat) (leftLen rightLen : Nat)
    (lefts rights : List Tuple) : List Tuple :=
  rights.flatMap (surplusOf op positions (op.joinType.keepsLeft && op.joinType.keepsRight) leftLen
    lefts) ++ if op.joinType.keepsLeft then
      (lefts.filter (op.resurfaces positions lefts rights)).map (extended (rightLen + leftLen))
    else []

theorem join_append_lone_perm (p : Tuple → Tuple → Bool) :
    (join false kr p lefts rights ++ if kl then loneLeft p lefts rights else []).Perm
      (join kl kr p lefts rights) := by
  cases kl with
  | false => simp
  | true => exact (join_keepLeft_perm kr).symm

/-- A hash join returns the rows of the join and its surplus. -/
theorem yields_surplus (hkeys : op.on ≠ []) (hty : op.joinType ≠ .cross)
    (h : op.Evaluates arena.positions lefts rights)
    (hw : op.joinType.keepsLeft = true → ∀ l ∈ lefts, l.values.length = leftLen) :
    ∃ rows, Yields (nextTuple arena)
        (ofOperator op leftLen rightLen (lefts.map .ok) (rights.map .ok)) rows ∧
      rows.Perm ((join op.joinType.keepsLeft op.joinType.keepsRight
          (op.partners arena.positions) lefts rights).map (assembleTuple leftLen rightLen) ++
        surplus op arena.positions leftLen rightLen lefts rights) := by
  obtain ⟨map, ht, hnext⟩ := @nextTuple_build op arena leftLen rightLen lefts rights hkeys hty h
  have hinit := initError_eq_none leftLen rightLen hkeys hty
  obtain ⟨tail, hrows, htail⟩ := @yields_running op arena _ op.joinType.keepsRight leftLen rightLen
    map _ [] lefts rights [] rights hinit h (fun _ hr => hr) ht
  refine ⟨_, hrows.of_next_eq hnext, ?_⟩
  have hright : (rights.flatMap (rowsOf op arena.positions op.joinType.keepsLeft
      op.joinType.keepsRight leftLen lefts)).Perm
      ((join false op.joinType.keepsRight (op.partners arena.positions) lefts rights).map
        (assembleTuple leftLen rightLen) ++ rights.flatMap (surplusOf op arena.positions
          (op.joinType.keepsLeft && op.joinType.keepsRight) leftLen lefts)) := by
    refine (Perm.flatMap_left _ fun r _ => rowsOf_perm op arena.positions _ _ leftLen lefts
      r).trans ((flatMap_append_perm ..).symm.trans (.append_right _ ?_))
    rw [← map_byRight]
    exact (byRight_perm _).map _
  have hleft : tail.Perm ((if op.joinType.keepsLeft then
        loneLeft (op.partners arena.positions) lefts rights else []).map
        (assembleTuple leftLen rightLen) ++ if op.joinType.keepsLeft then
      (lefts.filter (op.resurfaces arena.positions lefts rights)).map
        (extended (rightLen + leftLen)) else []) := by
    refine htail.trans ?_
    cases hkl : op.joinType.keepsLeft with
    | false => exact .refl _
    | true =>
      refine (filter_keptLeft_perm.map _).trans (.of_eq ?_)
      rw [map_append, if_pos rfl, if_pos rfl, loneLeft, map_map]
      congr 1
      exact map_congr_left fun l hl => extended_eq (hw hkl l (mem_of_mem_filter hl))
  refine (hright.append hleft).trans (.trans ?_ (((join_append_lone_perm _).map _).append_right _))
  rw [surplus, map_append, append_assoc, append_assoc]
  exact (perm_append_comm_assoc ..).append_left _

theorem surplus_eq_nil : surplus op positions leftLen rightLen lefts rights = [] ↔
    (op.joinType.keepsLeft = true →
      (∀ l ∈ lefts, op.resurfaces positions lefts rights l = false) ∧
      (op.joinType.keepsRight = true → ∀ r ∈ rights, op.repeats positions lefts r = false)) := by
  rw [surplus, append_eq_nil_iff, flatMap_eq_nil_iff]
  cases op.joinType.keepsLeft with
  | false => simp [surplusOf]
  | true =>
    simp only [if_true, map_eq_nil_iff, filter_eq_nil_iff, forall_const]
    rw [and_comm]
    refine and_congr (by simp) ?_
    cases op.joinType.keepsRight with
    | false => simp [surplusOf]
    | true =>
      simp only [surplusOf, repeats, Bool.and_self, if_true, replicate_eq_nil_iff,
        Nat.sub_eq_zero_iff_le, decide_eq_false_iff_not, Nat.not_lt, forall_const]

end HashJoin

namespace HashJoin

variable {op : JoinOperator} {arena : JoinArena} {leftLen : Nat} {lefts rights : List Tuple}
  {rightLen : Nat}

/-- An inner or right outer hash join returns the pairs of partners and, if it is right outer, each
right row without a partner extended with NULLs. -/
theorem yields_partners (hkeys : op.on ≠ [])
    (hty : op.joinType = .inner ∨ op.joinType = .rightOuter)
    (h : op.Evaluates arena.positions lefts rights) :
    ∃ rows, Yields (nextTuple arena)
        (ofOperator op leftLen rightLen (lefts.map .ok) (rights.map .ok)) rows ∧
      rows.Perm ((Join.join false op.joinType.keepsRight (op.partners arena.positions)
        lefts rights).map (assembleTuple leftLen rightLen)) := by
  have hcross : op.joinType ≠ .cross := by rcases hty with hty | hty <;> simp [hty]
  have hkl : op.joinType.keepsLeft = false := by rcases hty with hty | hty <;> rw [hty] <;> rfl
  obtain ⟨rows, hrows, hperm⟩ := @yields_surplus op arena leftLen rightLen lefts rights hkeys
    hcross h (by simp [hkl])
  rw [surplus_eq_nil.mpr (by simp [hkl]), append_nil, hkl] at hperm
  exact ⟨rows, hrows, hperm⟩

/-- A join of two one-row inputs without a condition. -/
def noKeys : JoinOperator := ⟨.inner, [], none, false⟩

/-- Positions that are all the first, and a map that returns its entries as they were stored. -/
def plainArena : JoinArena := ⟨fun _ => 0, id, fun _ => .refl _⟩

/-- Positions that are those the references name, and a map that returns its entries as they were
stored. -/
def directArena : JoinArena := ⟨id, id, List.Perm.refl⟩

theorem yields_partners_first_columns :
    ∃ rows, Yields (nextTuple plainArena) (ofOperator
        ⟨.rightOuter, [(.other [⟨0, 0⟩] fun vs => .ok (vs.headD .null),
          .other [⟨1, 1⟩] fun vs => .ok (vs.headD .null))], none, false⟩ 1 1
        [.ok ⟨none, [.int32 1]⟩, .ok ⟨none, [.null]⟩]
        [.ok ⟨none, [.int32 1]⟩, .ok ⟨none, [.null]⟩]) rows ∧
      rows.Perm [⟨none, [.int32 1, .int32 1]⟩, ⟨none, [.null, .null]⟩] := by
  refine @yields_partners ⟨.rightOuter, _, none, false⟩ plainArena 1
    [⟨none, [.int32 1]⟩, ⟨none, [.null]⟩] [⟨none, [.int32 1]⟩, ⟨none, [.null]⟩] 1 (by simp) (.inr rfl) ⟨?_, ?_, ?_⟩
  · intro l hl
    fin_cases hl <;> exact ⟨_, rfl⟩
  · intro r hr
    fin_cases hr <;> exact ⟨_, rfl⟩
  · exact fun l _ r _ _ => ⟨true, rfl⟩

/-- Without keys the executor refuses, although the two rows are partners. -/
theorem nextTuple_noKeys :
    nextTuple plainArena (ofOperator noKeys 0 0 [.ok ⟨none, []⟩] [.ok ⟨none, []⟩]) =
        .error (.error (.unsupportedStmt
          "`NestLoopJoin` should be used when there is no equivalent condition")) ∧
      noKeys.partners plainArena.positions ⟨none, []⟩ ⟨none, []⟩ = true :=
  ⟨rfl, rfl⟩

end HashJoin

end KiteSQL
