import KiteSQL.Lib.Iterate
import KiteSQL.Storage.RemoveRange

/-! The ranges of the three storage backends, each over the keys in their order. -/
namespace KiteSQL

open Iterate KeyRange Bound List

/-- How a backend opens a range and goes through it. -/
structure Backend (σ : Type) where
  range : Store → Bound Bytes → Bound Bytes → Result σ
  tryNext : σ → Result (Option KeyValue × σ)

/-- A cursor set to the first key that is not below `key`. -/
def Store.seek (store : Store) (key : Bytes) : List KeyValue :=
  store.toList.dropWhile fun e => !(compare key e.1).isLE

/-- The entries of a `BTreeMap` are collected at once. A map has a root from its first entry on,
also once all are removed; without one `range` returns nothing and does not check its bounds. -/
def memory (rooted : Bool) : Backend (List KeyValue) where
  range store min max := if rooted then store.range min max else .ok []
  tryNext
    | [] => .ok (none, [])
    | entry :: entries => .ok (some entry, entries)

/-- An iterator of RocksDB: it stands in front of `rest` and is valid below `upper` and, if a start
is set, on keys with the prefix of the start. -/
structure RawIterator where
  rest : List KeyValue
  upper : Option Bytes
  start : Option Bytes

def rocksdbFixedPrefixLen : Nat := 9

namespace RawIterator

def visible (it : RawIterator) (entry : KeyValue) : Bool :=
  (it.upper.all fun upper => (compare entry.1 upper).isLT) &&
    it.start.all fun start => entry.1.take rocksdbFixedPrefixLen = start

def item (it : RawIterator) : Option KeyValue := it.rest.head?.filter it.visible

def next (it : RawIterator) : RawIterator := { it with rest := it.rest.tail }

end RawIterator

open RawIterator

def Bound.value? : Bound Bytes → Option Bytes
  | .included value | .excluded value => some value
  | .unbounded => none

def prefixSameAsStart (min max : Bound Bytes) : Bool :=
  match min.value?, max.value? with
  | some min, some max =>
    rocksdbFixedPrefixLen ≤ ((min.zip max).takeWhile fun p => p.1 = p.2).length
  | _, _ => false

def iterateUpperBound : Bound Bytes → Option Bytes
  | .included bytes => some (bytes ++ [0])
  | .excluded bytes => some bytes
  | .unbounded => none

structure RocksIter where
  iter : RawIterator
  advanced : Bool
  done : Bool

namespace RocksIter

/-- A raw iterator after `seek`. -/
def sought (store : Store) (min max : Bound Bytes) (bytes : Bytes) : RawIterator where
  rest := store.seek bytes
  upper := iterateUpperBound max
  start := if prefixSameAsStart min max then some (bytes.take rocksdbFixedPrefixLen) else none

def rawIterator (store : Store) (min max : Bound Bytes) : RawIterator :=
  match min with
  | .included bytes => sought store min max bytes
  | .excluded bytes =>
    let iter := sought store min max bytes
    if iter.item.map Prod.fst = some bytes then iter.next else iter
  | .unbounded => ⟨store.toList, iterateUpperBound max, none⟩

def tryNext (it : RocksIter) : Result (Option KeyValue × RocksIter) :=
  if it.done then .ok (none, it)
  else
    let iter := if it.advanced then it.iter.next else it.iter
    match iter.item with
    | none => .ok (none, { it with iter := iter, done := true })
    | some entry => .ok (some entry, { it with iter := iter, advanced := true })

end RocksIter

def rocksdb : Backend RocksIter where
  range store min max := .ok ⟨RocksIter.rawIterator store min max, false, false⟩
  tryNext := RocksIter.tryNext

def withinUpperBound (key : Bytes) (max : Bound Bytes) : Bool :=
  match max with
  | .included max => compare key max ≠ .gt
  | .excluded max => compare key max = .lt
  | .unbounded => true

/-- `iter` goes on behind the entry the cursor was set to. -/
structure LmdbIter where
  iter : List KeyValue
  pending : Option KeyValue
  max : Bound Bytes
  done : Bool

namespace LmdbIter

def initialEntry (store : Store) (min max : Bound Bytes) : LmdbIter :=
  match min with
  | .unbounded => ⟨store.toList, none, max, false⟩
  | .included min =>
    match store.seek min with
    | entry :: iter => ⟨iter, some entry, max, false⟩
    | [] => ⟨[], none, max, true⟩
  | .excluded min =>
    match store.seek min with
    | entry :: iter =>
      if entry.1 = min then ⟨iter, none, max, false⟩ else ⟨iter, some entry, max, false⟩
    | [] => ⟨[], none, max, true⟩

def nextVisible (it : LmdbIter) : Option KeyValue × LmdbIter :=
  match it.pending, it.iter with
  | some entry, _ =>
    if withinUpperBound entry.1 it.max then (some entry, { it with pending := none })
    else (none, { it with pending := none, done := true })
  | none, entry :: iter =>
    if withinUpperBound entry.1 it.max then (some entry, { it with iter := iter })
    else (none, { it with iter := iter, done := true })
  | none, [] => (none, { it with done := true })

def tryNext (it : LmdbIter) : Result (Option KeyValue × LmdbIter) :=
  if it.done then .ok (none, it) else .ok it.nextVisible

end LmdbIter

def lmdb : Backend LmdbIter where
  range store min max := .ok (LmdbIter.initialEntry store min max)
  tryNext := LmdbIter.tryNext

namespace LmdbTransaction

def cursorSeek (store : Store) : Bound Bytes → Option KeyValue
  | .unbounded => store.toList.head?
  | .included min => (store.seek min).head?
  | .excluded min => (store.seek (min ++ [0])).head?

/-- The loop of `remove_range`: one key at a time, each search behind the key that was deleted. -/
def removeLoop (max : Bound Bytes) : Nat → Bound Bytes → Exec Unit
  | 0, _ => fun store => (.error .divergence, store)
  | fuel + 1, lower => fun store =>
    match cursorSeek store lower with
    | none => (.ok (), store)
    | some (key, _) =>
      if withinUpperBound key max then removeLoop max fuel (.excluded key) (store.erase key)
      else (.ok (), store)

def removeRange (min max : Bound Bytes) : Exec Unit := fun store =>
  removeLoop max (store.size + 1) min store

end LmdbTransaction

namespace Backend

variable {σ : Type}

/-- The next keys of an iterator, at most so many. -/
def collect (backend : Backend σ) : Nat → σ → Result (List Bytes)
  | 0, _ => .ok []
  | n + 1, iter => do
    match ← backend.tryNext iter with
    | (none, _) => return []
    | (some entry, iter) => return entry.1 :: (← collect backend n iter)

def dataKeys (backend : Backend σ) (min max : Bound Bytes) (lower : Option Bytes)
    (store : Store) : Result (List Bytes) := do
  backend.collect Transaction.deleteBatchSize
    (← backend.range store ((lower.map Bound.excluded).getD min) max)

/-- `remove_range` of a backend that does not have its own. -/
def removeRange (backend : Backend σ) (min max : Bound Bytes) : Exec Unit := fun store =>
  Batches.loop Transaction.deleteBatchSize (backend.dataKeys min max) some Transaction.remove
    .divergence (store.size + 1) none store

/-- The entries inside the bounds. -/
def inside (store : Store) (min max : Bound Bytes) : List KeyValue :=
  store.toList.filter fun entry => inRange min max entry.1

/-- The backend yields the entries inside the bounds. -/
def RangeExact (backend : Backend σ) (store : Store) (min max : Bound Bytes) : Prop :=
  ∃ iter, backend.range store min max = .ok iter ∧
    Yields backend.tryNext iter (inside store min max)

end Backend

open Backend

/-- The run removes what is inside the bounds and nothing else. -/
def RemovesExactly (run : Exec Unit) (store : Store) (min max : Bound Bytes) : Prop :=
  ∃ store', run store = (.ok (), store') ∧
    ∀ k, store'.contents k = if inRange min max k = true then none else store.contents k

variable {store : Store} {min max : Bound Bytes} {key k : Bytes} {entry : KeyValue}

theorem memory_rangeExact (h : isInverted min max = false) :
    (memory true).RangeExact store min max := by
  refine ⟨_, range_eq_ok.mpr ⟨h, rfl⟩, ?_⟩
  refine yields_of_owed (P := fun s l => s = l) ?_ ?_ rfl
  · rintro s rfl
    exact ⟨_, rfl⟩
  · rintro s a l rfl
    exact ⟨_, rfl, rfl⟩

theorem seek_eq (store : Store) (key : Bytes) :
    store.seek key = store.toList.filter fun e => (compare key e.1).isLE := by
  refine dropWhile_not_eq_filter Std.TreeMap.ordered_keys_toList fun a _ b _ hab ha => ?_
  exact Ordering.isLE_of_eq_lt (Std.TransCmp.lt_of_isLE_of_lt ha hab)

theorem seek_eq_admitsMin (store : Store) (key : Bytes) : store.seek key =
    store.toList.filter fun e => (included key).admitsMin e.1 :=
  seek_eq store key

theorem withinUpperBound_eq (key : Bytes) (max : Bound Bytes) :
    withinUpperBound key max = max.admitsMax key := by
  cases max with
  | included b =>
    simp only [withinUpperBound, admitsMax]
    cases compare key b <;> rfl
  | excluded b =>
    simp only [withinUpperBound, admitsMax]
    cases compare key b <;> rfl
  | unbounded => rfl

theorem admitsMax_of_lt (h : max.admitsMax k = true) (hlt : compare key k = .lt) :
    max.admitsMax key = true := by
  cases max with
  | included a => exact Ordering.isLE_of_eq_lt (Std.TransCmp.lt_of_lt_of_isLE hlt h)
  | excluded a =>
    have ha : compare k a = .lt := by simpa [admitsMax] using h
    simp [admitsMax, Std.TransCmp.lt_trans hlt ha]
  | unbounded => rfl

/-- The entries that a lower bound admits, up to the first one above the upper bound. -/
theorem takeWhile_admitsMax :
    (store.toList.filter fun e => min.admitsMin e.1).takeWhile (fun e => max.admitsMax e.1) =
      inside store min max := by
  rw [takeWhile_eq_filter (ascending_filter_toList (p := min.admitsMin))
    fun a _ b _ hab hb => admitsMax_of_lt hb hab, filter_filter, inside]
  exact filter_congr fun e _ => Bool.and_comm _ _

/-- Behind a key: what is left of the entries from it on without the entry of the key itself. -/
theorem filter_excluded (store : Store) (key : Bytes) :
    (store.toList.filter fun e => (excluded key).admitsMin e.1) =
      match store.seek key with
      | entry :: rest => if entry.1 = key then rest else entry :: rest
      | [] => [] := by
  have hsub : (store.toList.filter fun e => (excluded key).admitsMin e.1) =
      (store.seek key).filter fun e => (compare key e.1).isLT := by
    rw [seek_eq, filter_filter]
    refine filter_congr fun e _ => ?_
    cases h : compare key e.1 <;> simp [admitsMin, h]
  have hasc : (store.seek key).Pairwise fun a b => compare a.1 b.1 = .lt := by
    rw [seek_eq]
    exact ascending_filter_toList (p := fun k => (compare key k).isLE)
  have hle : ∀ e ∈ store.seek key, (compare key e.1).isLE = true := by
    intro e he
    rw [seek_eq] at he
    exact (mem_filter.mp he).2
  rw [hsub]
  cases hs : store.seek key with
  | nil => rfl
  | cons entry rest =>
    rw [hs] at hasc hle
    obtain ⟨hhead, -⟩ := pairwise_cons.mp hasc
    have hentry := hle entry (by simp)
    have hrest : ∀ e ∈ rest, (compare key e.1).isLT = true := fun e he => by
      rw [Std.TransCmp.lt_of_isLE_of_lt hentry (hhead e he)]
      rfl
    by_cases hk : entry.1 = key
    · rw [filter_cons_of_neg (by simp [hk]), filter_eq_self.mpr hrest]
      simp [hk]
    · have hlt : (compare key entry.1).isLT = true := by
        cases hc : compare key entry.1 with
        | lt => rfl
        | eq => exact absurd (Std.LawfulEqOrd.compare_eq_iff_eq.mp hc).symm hk
        | gt => simp [hc] at hentry
      rw [filter_cons_of_pos (p := fun e : KeyValue => (compare key e.1).isLT) hlt,
        filter_eq_self.mpr hrest]
      simp [hk]

namespace LmdbIter

/-- What an iterator has in front of it. -/
def entries (it : LmdbIter) : List KeyValue :=
  if it.done then [] else it.pending.toList ++ it.iter

theorem entries_initialEntry (max : Bound Bytes) : (initialEntry store min max).entries =
    store.toList.filter fun e => min.admitsMin e.1 := by
  cases min with
  | unbounded => simp [initialEntry, entries, admitsMin]
  | included b =>
    rw [initialEntry, ← seek_eq_admitsMin]
    cases store.seek b <;> rfl
  | excluded b =>
    rw [initialEntry, filter_excluded]
    cases store.seek b with
    | nil => rfl
    | cons entry rest =>
      dsimp only
      split <;> rfl

/-- An iterator in front of these entries. -/
def Before (max : Bound Bytes) (it : LmdbIter) (l : List KeyValue) : Prop :=
  it.entries = l ∧ it.max = max

variable {it : LmdbIter}

theorem tryNext_end (h : it.entries = []) : ∃ t, it.tryNext = .ok (none, t) := by
  obtain ⟨iter, pending, max, done⟩ := it
  cases done with
  | true => exact ⟨_, rfl⟩
  | false =>
    cases pending with
    | some e => cases h
    | none =>
      cases iter with
      | nil => exact ⟨_, rfl⟩
      | cons e iter => cases h

/-- The next entry is returned unless it is above the upper bound. -/
theorem tryNext_cons {l : List KeyValue} (h : it.entries = entry :: l) :
    it.tryNext = .ok (if it.max.admitsMax entry.1 then
        (some entry, { it with pending := none, iter := l })
      else (none, { it with pending := none, iter := l, done := true })) := by
  obtain ⟨iter, pending, _, done⟩ := it
  cases done with
  | true => cases h
  | false =>
    cases pending with
    | some e =>
      cases h
      rw [tryNext, nextVisible, ← withinUpperBound_eq]
      rfl
    | none =>
      cases iter with
      | nil => cases h
      | cons e iter =>
        cases h
        rw [tryNext, nextVisible, ← withinUpperBound_eq]
        rfl

theorem max_initialEntry : (initialEntry store min max).max = max := by
  cases min with
  | unbounded => rfl
  | included b =>
    rw [initialEntry]
    cases store.seek b <;> rfl
  | excluded b =>
    rw [initialEntry]
    cases store.seek b with
    | nil => rfl
    | cons e rest =>
      dsimp only
      split <;> rfl

end LmdbIter

theorem lmdb_rangeExact (store : Store) (min max : Bound Bytes) :
    lmdb.RangeExact store min max := by
  refine ⟨_, rfl, ?_⟩
  rw [← takeWhile_admitsMax, ← LmdbIter.entries_initialEntry max]
  refine yields_takeWhile (P := LmdbIter.Before max) (fun it h => LmdbIter.tryNext_end h.1) ?_ ?_
    ⟨rfl, LmdbIter.max_initialEntry⟩
  · rintro it entry l ⟨h, rfl⟩ hstop
    exact ⟨_, (LmdbIter.tryNext_cons h).trans (by rw [hstop]; rfl)⟩
  · rintro it entry l ⟨h, rfl⟩ hgo
    have hdone : it.done = false := by
      cases hd : it.done with
      | true => rw [LmdbIter.entries, hd] at h; cases h
      | false => rfl
    refine ⟨{ it with pending := none, iter := l },
      (LmdbIter.tryNext_cons h).trans (by rw [hgo]; rfl), ?_, rfl⟩
    simp [LmdbIter.entries, hdone]

namespace RocksIter

theorem not_lt_zero (x : UInt8) : compare x 0 ≠ .lt := by
  simp only [compare, compareOfLessAndEq, UInt8.not_lt_zero, if_false]
  split <;> simp

theorem upper_all (key : Bytes) (max : Bound Bytes) :
    ((iterateUpperBound max).all fun upper => (compare key upper).isLT) = max.admitsMax key := by
  cases max with
  | included b =>
    have hnext := compare_append_least not_lt_zero key b
    simp only [iterateUpperBound, Option.all_some, admitsMax]
    cases hc : compare key b <;> cases hn : compare key (b ++ [0]) <;> simp_all
  | excluded b => rfl
  | unbounded => rfl

variable {b : Bytes} {l : List KeyValue}

/-- Keys between two bounds with a long common prefix have the prefix of the start. -/
theorem take_eq_of_inRange (hmin : min.value? = some b) (hsame : prefixSameAsStart min max = true)
    (h : inRange min max key = true) :
    key.take rocksdbFixedPrefixLen = b.take rocksdbFixedPrefixLen := by
  obtain ⟨hlow, hup⟩ := Bool.and_eq_true_iff.mp h
  have hlow : (compare b key).isLE = true := by
    cases min with
    | included b' =>
      cases hmin
      exact hlow
    | excluded b' =>
      cases hmin
      change (compare b key).isLT = true at hlow
      cases hc : compare b key <;> simp_all
    | unbounded => cases hmin
  cases hmax : max.value? with
  | none => simp [prefixSameAsStart, hmin, hmax] at hsame
  | some c =>
    have hup : (compare key c).isLE = true := by
      cases max with
      | included c' =>
        cases hmax
        exact hup
      | excluded c' =>
        cases hmax
        change (compare key c).isLT = true at hup
        cases hc : compare key c <;> simp_all
      | unbounded => cases hmax
    obtain ⟨p, b', c', rfl, rfl, hlen⟩ := exists_common_prefix b c
    have hp : rocksdbFixedPrefixLen ≤ p.length := by
      rw [hlen]
      simpa [prefixSameAsStart, hmin, hmax] using hsame
    obtain ⟨rest, rfl⟩ := isPrefix_of_between hlow hup
    rw [take_append_of_le_length hp, take_append_of_le_length hp]

/-- Among the keys that the lower bound admits, the iterator sees those that the upper bound
admits. -/
theorem visible_sought (hmin : min.value? = some b) (h : min.admitsMin entry.1 = true)
    (rest : List KeyValue) :
    visible { sought store min max b with rest := rest } entry =
      max.admitsMax entry.1 := by
  rw [visible, sought, upper_all]
  cases hup : max.admitsMax entry.1 with
  | false => rfl
  | true =>
    cases hsame : prefixSameAsStart min max with
    | false => rfl
    | true =>
      have hin : inRange min max entry.1 = true := by simp [inRange, h, hup]
      have htake := take_eq_of_inRange hmin hsame hin
      simp [htake]

/-- The iterator that has returned an entry stands on it. -/
def Before (upper start : Option Bytes) (it : RocksIter) (l : List KeyValue) : Prop :=
  it.done = false ∧ (if it.advanced then it.iter.next else it.iter) = ⟨l, upper, start⟩

theorem tryNext_before {upper start : Option Bytes} {it : RocksIter} (h : Before upper start it l) :
    it.tryNext =
      match (RawIterator.mk l upper start).item with
      | none => .ok (none, { it with iter := ⟨l, upper, start⟩, done := true })
      | some entry => .ok (some entry, { it with iter := ⟨l, upper, start⟩, advanced := true }) := by
  rw [tryNext, h.1, if_neg (by simp)]
  dsimp only
  rw [h.2]

theorem yields_visible (raw : RawIterator) :
    Yields tryNext ⟨raw, false, false⟩ (raw.rest.takeWhile raw.visible) := by
  refine yields_takeWhile (P := Before raw.upper raw.start) ?_ ?_ ?_ ⟨rfl, rfl⟩
  · intro it h
    exact ⟨_, (tryNext_before h).trans rfl⟩
  · intro it entry l h hstop
    have hitem : (RawIterator.mk (entry :: l) raw.upper raw.start).item = none :=
      Option.filter_some_neg hstop
    exact ⟨_, (tryNext_before h).trans (by rw [hitem])⟩
  · intro it entry l h hgo
    have hitem : (RawIterator.mk (entry :: l) raw.upper raw.start).item = some entry :=
      Option.filter_some_pos hgo
    exact ⟨⟨⟨entry :: l, raw.upper, raw.start⟩, true, it.done⟩,
      (tryNext_before h).trans (by rw [hitem]), h.1, rfl⟩

/-- The entries the lower bound admits, seen through an iterator set to the bound. -/
theorem takeWhile_visible (hmin : min.value? = some b)
    (hl : (store.toList.filter fun e => min.admitsMin e.1) = l) :
    l.takeWhile (visible { sought store min max b with rest := l }) =
      inside store min max := by
  rw [← takeWhile_admitsMax, hl]
  refine takeWhile_congr fun e he => visible_sought hmin ?_ l
  rw [← hl] at he
  exact (mem_filter.mp he).2

/-- Nothing lies behind a key that is itself above the upper bound. -/
theorem inside_of_not_admitsMax (h : max.admitsMax b = false) :
    inside store (.excluded b) max = [] := by
  refine filter_eq_nil_iff.mpr fun e _ hin => ?_
  obtain ⟨hlow, hup⟩ := Bool.and_eq_true_iff.mp hin
  have hlt : compare b e.1 = .lt := by simpa [admitsMin] using hlow
  rw [admitsMax_of_lt hup hlt] at h
  cases h

theorem visible_sought_self (h : entry.1 = b) :
    (sought store min max b).visible entry = max.admitsMax b := by
  rw [visible, sought, upper_all, h]
  cases prefixSameAsStart min max <;> simp

theorem takeWhile_excluded (store : Store) (b : Bytes) (max : Bound Bytes) :
    (rawIterator store (.excluded b) max).rest.takeWhile
        (rawIterator store (.excluded b) max).visible =
      inside store (.excluded b) max := by
  have hrest := filter_excluded store b
  have hraw : rawIterator store (.excluded b) max =
      if (sought store (.excluded b) max b).item.map Prod.fst = some b then
        (sought store (.excluded b) max b).next
      else sought store (.excluded b) max b := rfl
  cases hs : store.seek b with
  | nil =>
    rw [hs] at hrest
    have hitem : (sought store (.excluded b) max b).item = none := by
      rw [RawIterator.item, sought, hs]
      rfl
    rw [hraw, hitem, if_neg (by simp), ← takeWhile_visible rfl hrest]
    simp [sought, hs]
  | cons e rest =>
    rw [hs] at hrest
    dsimp only at hrest
    have hhead : (sought store (.excluded b) max b).item =
        if (sought store (.excluded b) max b).visible e then some e else none := by
      rw [RawIterator.item, show (sought store (.excluded b) max b).rest = e :: rest from hs]
      rfl
    by_cases he : e.1 = b
    · rw [if_pos he] at hrest
      rw [visible_sought_self he] at hhead
      cases hmax : max.admitsMax b with
      | true =>
        rw [hraw, hhead, hmax, if_pos (by simp [he]), ← takeWhile_visible rfl hrest]
        simp [RawIterator.next, sought, hs]
      | false =>
        have hvisible : (sought store (.excluded b) max b).visible e = false :=
          (visible_sought_self he).trans hmax
        rw [hraw, hhead, hmax, if_neg (by simp), inside_of_not_admitsMax hmax,
          show (sought store (.excluded b) max b).rest = e :: rest from hs,
          takeWhile_cons_of_neg (by simp [hvisible])]
    · rw [if_neg he] at hrest
      have hne : (sought store (.excluded b) max b).item.map Prod.fst ≠ some b := by
        rw [hhead]
        split <;> simp [he]
      rw [hraw, if_neg hne, ← takeWhile_visible rfl hrest]
      simp [sought, hs]

theorem takeWhile_rawIterator :
    (rawIterator store min max).rest.takeWhile (rawIterator store min max).visible =
      inside store min max := by
  cases min with
  | unbounded =>
    have hall : (store.toList.filter fun e => unbounded.admitsMin e.1) = store.toList :=
      filter_eq_self.mpr fun _ _ => rfl
    rw [← takeWhile_admitsMax, hall]
    refine takeWhile_congr fun e _ => ?_
    rw [rawIterator, visible, upper_all]
    simp
  | included b => exact takeWhile_visible rfl (seek_eq_admitsMin store b).symm
  | excluded b => exact takeWhile_excluded store b max

end RocksIter

theorem rocksdb_rangeExact (store : Store) (min max : Bound Bytes) :
    rocksdb.RangeExact store min max := by
  refine ⟨_, rfl, ?_⟩
  rw [← RocksIter.takeWhile_rawIterator]
  exact RocksIter.yields_visible _

namespace Backend

variable {σ : Type} {backend : Backend σ} {it : σ} {l : List KeyValue}

theorem collect_eq (h : Yields backend.tryNext it l) (n : Nat) :
    backend.collect n it = .ok ((l.take n).map Prod.fst) := by
  induction n generalizing it l with
  | zero => rfl
  | succ n ih =>
    cases h with
    | done hn =>
      rw [collect, hn]
      rfl
    | more hn h =>
      rw [collect, hn, Result.ok_bind]
      dsimp only
      rw [ih h]
      rfl

/-- A backend whose ranges are exact collects the same batches as the map. -/
theorem dataKeys_eq (lower : Option Bytes)
    (h : backend.RangeExact store ((lower.map excluded).getD min) max)
    (hinv : isInverted ((lower.map excluded).getD min) max = false) :
    backend.dataKeys min max lower store = Transaction.dataKeys min max lower store := by
  obtain ⟨it, hit, hy⟩ := h
  have hr : store.range ((lower.map excluded).getD min) max = .ok (inside store _ max) :=
    range_eq_ok.mpr ⟨hinv, rfl⟩
  rw [dataKeys, hit, Result.ok_bind, collect_eq hy, Transaction.dataKeys, hr]
  rfl

theorem removeRange_exact
    (hb : ∀ store min max, isInverted min max = false → backend.RangeExact store min max)
    (hinv : isInverted min max = false) :
    RemovesExactly (backend.removeRange min max) store min max := by
  have h : store.range min max = .ok (inside store min max) := range_eq_ok.mpr ⟨hinv, rfl⟩
  have hp := Transaction.paged_dataKeys h
  refine Transaction.loop_removes h ⟨hp.size_pos, fun s hs => ?_, ?_, hp.step⟩
  · rw [dataKeys_eq none (hb s min max hinv) hinv]
    exact hp.first s hs
  · intro done entry key rest s hi hkey hs
    cases hkey
    have hin : inRange min max entry.1 = true := by
      have hmem : (entry.1, entry.2) ∈ inside store min max := by
        rw [hi]
        simp
      exact ((mem_range h).mp hmem).2
    have hinv' := isInverted_excluded (Bool.and_eq_true_iff.mp hin).2
    rw [dataKeys_eq (some entry.1) (hb s _ max hinv') hinv']
    exact hp.next done entry entry.1 rest s hi rfl hs

/-- Nothing is removed where nothing is, whatever the bounds. -/
theorem removeRange_empty (h : backend.RangeExact ∅ min max) :
    RemovesExactly (backend.removeRange min max) ∅ min max := by
  obtain ⟨it, hit, hy⟩ := h
  have hkeys : backend.dataKeys min max none ∅ = .ok [] := by
    rw [dataKeys, Option.map_none, Option.getD_none, hit, Result.ok_bind, collect_eq hy]
    rfl
  refine ⟨∅, ?_, fun k => ?_⟩
  · rw [removeRange, Batches.loop, Stateful.bind_of_ok (Stateful.inspect_eq.mpr ⟨hkeys, rfl⟩)]
    rfl
  · split <;> rfl

theorem mem_inside {v : Bytes} :
    (k, v) ∈ inside store min max ↔ store.contents k = some v ∧ inRange min max k = true :=
  mem_filter_toList

end Backend

namespace LmdbTransaction

theorem cursorSeek_eq (store : Store) (lower : Bound Bytes) :
    cursorSeek store lower = (store.toList.filter fun e => lower.admitsMin e.1).head? := by
  cases lower with
  | unbounded => exact congrArg head? (filter_eq_self.mpr fun _ _ => rfl).symm
  | included b => rw [cursorSeek, seek_eq_admitsMin]
  | excluded b =>
    rw [cursorSeek, seek_eq]
    refine congrArg head? (filter_congr fun e _ => ?_)
    have hnext := compare_append_least RocksIter.not_lt_zero e.1 b
    have hswap : compare b e.1 = (compare e.1 b).swap := Std.OrientedOrd.eq_swap
    have hswap' : compare (b ++ [0]) e.1 = (compare e.1 (b ++ [0])).swap := Std.OrientedOrd.eq_swap
    rw [admitsMin, hswap, hswap']
    cases hc : compare e.1 b <;> cases hn : compare e.1 (b ++ [0]) <;> simp_all

variable {rest : List KeyValue} {run : Exec Unit}

theorem removesExactly_nothing (h : inside store min max = [])
    (hrun : run store = (.ok (), store)) : RemovesExactly run store min max := by
  refine ⟨store, hrun, fun k => ?_⟩
  split
  · next hk =>
    cases hv : store.contents k with
    | none => rfl
    | some v =>
      have hmem := mem_inside.mpr ⟨hv, hk⟩
      rw [h] at hmem
      cases hmem
  · rfl

/-- What is left to remove behind an entry that was removed. -/
theorem inside_erase (h : inside store min max = entry :: rest) :
    inside (store.erase entry.1) (.excluded entry.1) max = rest := by
  have hin : inRange min max entry.1 = true :=
    (mem_inside (v := entry.2).mp (h ▸ mem_cons_self)).2
  refine filter_toList_after (h.trans (nil_append _).symm) (fun k => inRange_excluded hin)
    fun k hk => ?_
  have hlt := ((inRange_excluded hin).mp hk).1
  have hne : k ≠ entry.1 := fun he => not_lt_self _ (he ▸ hlt)
  have hcontents := congrFun (@Store.contents_erase store entry.1) k
  rwa [Function.update_of_ne hne] at hcontents

theorem inside_ascending {e : KeyValue} (h : inside store min max = entry :: rest)
    (he : e ∈ rest) : compare entry.1 e.1 = .lt := by
  have hasc : (inside store min max).Pairwise fun a b => compare a.1 b.1 = .lt :=
    ascending_filter_toList (p := inRange min max)
  rw [h] at hasc
  exact (pairwise_cons.mp hasc).1 e he

theorem removesExactly_cons {run' : Exec Unit} (hrun : run store = run' (store.erase entry.1))
    (h : inside store min max = entry :: rest)
    (h' : RemovesExactly run' (store.erase entry.1) (.excluded entry.1) max) :
    RemovesExactly run store min max := by
  have hin : inRange min max entry.1 = true :=
    (mem_inside (v := entry.2).mp (h ▸ mem_cons_self)).2
  obtain ⟨store', hrun', hk'⟩ := h'
  refine ⟨store', hrun.trans hrun', fun k => ?_⟩
  rw [hk' k, Store.contents_erase]
  by_cases hke : k = entry.1
  · subst hke
    simp [hin]
  · rw [Function.update_of_ne hke]
    by_cases hk : inRange min max k = true
    · rw [if_pos hk]
      split
      · rfl
      · next hnot =>
        cases hv : store.contents k with
        | none => rfl
        | some v =>
          have hmem := mem_inside.mpr ⟨hv, hk⟩
          rw [h] at hmem
          have hrest := (mem_cons.mp hmem).resolve_left fun he => hke (congrArg Prod.fst he)
          exact absurd ((inRange_excluded hin).mpr ⟨inside_ascending h hrest, hk⟩) hnot
    · rw [if_neg hk, if_neg fun hx => hk ((inRange_excluded hin).mp hx).2]

/-- The cursor stands on the first entry inside the bounds or the loop ends. -/
theorem removeLoop_succ (max lower : Bound Bytes) (fuel : Nat) (store : Store) :
    removeLoop max (fuel + 1) lower store =
      match (inside store lower max).head? with
      | none => (.ok (), store)
      | some entry => removeLoop max fuel (.excluded entry.1) (store.erase entry.1) := by
  rw [← takeWhile_admitsMax, head?_takeWhile, ← cursorSeek_eq]
  change (match cursorSeek store lower with
    | none => _
    | some (key, _) => _) = _
  cases cursorSeek store lower with
  | none => rfl
  | some e =>
    cases hin : max.admitsMax e.1 with
    | true =>
      rw [Option.filter_some_pos (p := fun e : KeyValue => max.admitsMax e.1) hin]
      exact if_pos ((withinUpperBound_eq e.1 max).trans hin)
    | false =>
      rw [Option.filter_some_neg (p := fun e : KeyValue => max.admitsMax e.1) (by simp [hin])]
      exact if_neg (by simp [withinUpperBound_eq, hin])

/-- The loop removes what is inside the bounds, an entry a step. -/
theorem removeLoop_removes {lower : Bound Bytes} {entries : List KeyValue} {fuel : Nat}
    (h : inside store lower max = entries) (hf : entries.length < fuel) :
    RemovesExactly (removeLoop max fuel lower) store lower max := by
  induction entries generalizing store lower fuel with
  | nil =>
    obtain ⟨fuel, rfl⟩ := Nat.exists_eq_succ_of_ne_zero (Nat.ne_of_gt hf)
    exact removesExactly_nothing h (by rw [removeLoop_succ, h]; rfl)
  | cons entry rest ih =>
    obtain ⟨fuel, rfl⟩ := Nat.exists_eq_succ_of_ne_zero (Nat.ne_of_gt (Nat.zero_lt_of_lt hf))
    exact removesExactly_cons (by rw [removeLoop_succ, h]; rfl)
      h (ih (inside_erase h) (Nat.lt_of_succ_lt_succ hf))

theorem removeRange_removes (store : Store) (min max : Bound Bytes) :
    RemovesExactly (removeRange min max) store min max := by
  have hlen : (inside store min max).length < store.size + 1 :=
    Nat.lt_succ_of_le ((length_filter_le _ _).trans_eq Std.TreeMap.length_toList)
  exact removeLoop_removes rfl hlen

end LmdbTransaction

def Bound.notAbove (min max : Bound Bytes) : Bool :=
  match min.value?, max.value? with
  | some min, some max => (compare min max).isLE
  | _, _ => true

theorem isInverted_eq_false_iff (h : notAbove min max = true) :
    isInverted min max = false ↔ ¬ ∃ k, min = .excluded k ∧ max = .excluded k := by
  cases min with
  | unbounded => simp [isInverted]
  | included a =>
    cases max with
    | unbounded => simp [isInverted]
    | included b | excluded b =>
      have h : (compare a b).isLE = true := h
      cases hc : compare a b <;> simp_all [isInverted]
  | excluded a =>
    cases max with
    | unbounded => simp [isInverted]
    | included b =>
      have h : (compare a b).isLE = true := h
      cases hc : compare a b <;> simp_all [isInverted]
    | excluded b =>
      have h : (compare a b).isLE = true := h
      have heq : compare a b = .eq ↔ b = a := Std.LawfulEqOrd.compare_eq_iff_eq.trans eq_comm
      cases hc : compare a b <;> simp_all [isInverted]

/-- The ranges of the backends have the same entries, those inside the bounds in ascending order,
and these are what `remove_range` deletes. -/
structure BackendsExact (rooted : Bool) (store : Store) (min max : Bound Bytes) : Prop where
  ascending : (Backend.inside store min max).Pairwise fun a b => compare a.1 b.1 = .lt
  inside : ∀ k v, (k, v) ∈ Backend.inside store min max ↔
    store.contents k = some v ∧ inRange min max k = true
  memory : (memory rooted).RangeExact store min max
  rocksdb : rocksdb.RangeExact store min max
  lmdb : lmdb.RangeExact store min max
  removeMemory : RemovesExactly ((KiteSQL.memory rooted).removeRange min max) store min max
  removeRocksdb : RemovesExactly (KiteSQL.rocksdb.removeRange min max) store min max
  removeLmdb : RemovesExactly (LmdbTransaction.removeRange min max) store min max

theorem backendsExact_iff {rooted : Bool} (hroot : rooted = false → store = ∅)
    (h : Bound.notAbove min max = true) : BackendsExact rooted store min max ↔
      rooted = false ∨ ¬ ∃ k, min = .excluded k ∧ max = .excluded k := by
  have hrocks := rocksdb_rangeExact store min max
  have hexact (hmemory : (memory rooted).RangeExact store min max)
      (hremove : RemovesExactly ((memory rooted).removeRange min max) store min max)
      (hremove' : RemovesExactly (rocksdb.removeRange min max) store min max) :
      BackendsExact rooted store min max :=
    ⟨ascending_filter_toList (p := inRange min max), fun _ _ => Backend.mem_inside, hmemory,
      hrocks, lmdb_rangeExact store min max, hremove, hremove',
      LmdbTransaction.removeRange_removes store min max⟩
  rw [← isInverted_eq_false_iff h]
  cases rooted with
  | false =>
    obtain rfl := hroot rfl
    have hmemory : (memory false).RangeExact ∅ min max := ⟨[], rfl, .done rfl⟩
    exact ⟨fun _ => .inl rfl,
      fun _ => hexact hmemory (removeRange_empty hmemory) (removeRange_empty hrocks)⟩
  | true =>
    constructor
    · rintro ⟨-, -, ⟨iter, hiter, -⟩, -⟩
      exact .inr (range_eq_ok.mp hiter).1
    · rintro (hfalse | hinv)
      · cases hfalse
      · exact hexact (memory_rangeExact hinv)
          (removeRange_exact (fun _ _ _ => memory_rangeExact) hinv)
          (removeRange_exact (fun _ _ _ _ => rocksdb_rangeExact _ _ _) hinv)

/-- A range from a key to a later key. -/
theorem backendsExact_oneKey :
    Bound.notAbove (.excluded [1]) (.excluded [2]) = true ∧
      BackendsExact true ((∅ : Store).insert [1, 0] [7]) (.excluded [1]) (.excluded [2]) := by
  refine ⟨by decide, (backendsExact_iff (by simp) (by decide)).mpr (.inr ?_)⟩
  rintro ⟨k, hk, hk'⟩
  cases hk
  cases hk'

/-- Behind a key and before the same key: two backends yield nothing and a map with an entry
panics. -/
theorem backends_differ_excluded :
    Bound.notAbove (.excluded [1]) (.excluded [1]) = true ∧
      (memory true).range ((∅ : Store).insert [1] [7]) (.excluded [1]) (.excluded [1]) =
        .error (.panic "range start is greater than range end in BTreeMap") ∧
      rocksdb.RangeExact ((∅ : Store).insert [1] [7]) (.excluded [1]) (.excluded [1]) ∧
      lmdb.RangeExact ((∅ : Store).insert [1] [7]) (.excluded [1]) (.excluded [1]) ∧
      Backend.inside ((∅ : Store).insert [1] [7]) (.excluded [1]) (.excluded [1]) = [] :=
  ⟨by decide, rfl, rocksdb_rangeExact _ _ _, lmdb_rangeExact _ _ _, rfl⟩

end KiteSQL
