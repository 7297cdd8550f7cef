import KiteSQL.Lib.KeyRange
import KiteSQL.Storage.IndexedTable
import KiteSQL.Storage.Metadata

/-! Removing a range of keys batch by batch removes precisely the keys in the range. -/
namespace KiteSQL

open Function Std KeyRange List Bound Stateful Batches

variable {store store' s t : Store} {min max : Bound Bytes} {key k bytes : Bytes}
  {iter done rest : List KeyValue} {entry : KeyValue}

/-- The key lies between the bounds. -/
def inRange (min max : Bound Bytes) (key : Bytes) : Bool := min.admitsMin key && max.admitsMax key

theorem range_eq_ok : store.range min max = .ok iter ↔
    isInverted min max = false ∧
      (store.toList.filter fun e => inRange min max e.1) = iter := by
  unfold Store.range
  split <;> simp_all [inRange]

theorem admitsMin_of_lt (h : min.admitsMin key = true) (hlt : compare key k = .lt) :
    min.admitsMin k = true := by
  cases min with
  | included a => exact Ordering.isLE_of_eq_lt (TransCmp.lt_of_isLE_of_lt h hlt)
  | excluded a =>
    have ha : compare a key = .lt := by simpa [admitsMin] using h
    simp [admitsMin, TransCmp.lt_trans ha hlt]
  | unbounded => rfl

theorem isInverted_excluded (h : max.admitsMax key = true) :
    isInverted (.excluded key) max = false := by
  cases max with
  | included b =>
    change (compare key b).isLE = true at h
    change (compare key b).isGT = false
    cases hc : compare key b <;> simp_all
  | excluded b =>
    change (compare key b).isLT = true at h
    change (compare key b).isGE = false
    cases hc : compare key b <;> simp_all
  | unbounded => rfl

/-- The keys of a range behind one of them. -/
theorem inRange_excluded (h : inRange min max key = true) :
    inRange (.excluded key) max k = true ↔ compare key k = .lt ∧ inRange min max k = true := by
  have hmin : min.admitsMin key = true := (Bool.and_eq_true_iff.mp h).1
  simp only [inRange, Bool.and_eq_true]
  constructor
  · rintro ⟨hlt, hmax⟩
    have hlt : compare key k = .lt := by simpa [admitsMin] using hlt
    exact ⟨hlt, admitsMin_of_lt hmin hlt, hmax⟩
  · rintro ⟨hlt, -, hmax⟩
    exact ⟨by simp [admitsMin, hlt], hmax⟩

/-- Going on behind an entry finds what was behind it, if nothing there was written. -/
theorem range_after (h : store.range min max = .ok (done ++ entry :: rest))
    (hs : ∀ k, compare entry.1 k = .lt → inRange min max k = true → s.contents k = store.contents k)
    : s.range (.excluded entry.1) max = .ok rest := by
  obtain ⟨-, hlist⟩ := range_eq_ok.mp h
  have hin : inRange min max entry.1 = true := by
    have hmem : (entry.1, entry.2) ∈ store.toList.filter fun e => inRange min max e.1 := by
      rw [hlist]
      simp
    exact (mem_filter_toList.mp hmem).2
  refine range_eq_ok.mpr ⟨isInverted_excluded (Bool.and_eq_true_iff.mp hin).2, ?_⟩
  refine filter_toList_after hlist (fun k => inRange_excluded hin) fun k hk => ?_
  obtain ⟨hlt, hk⟩ := (inRange_excluded hin).mp hk
  exact hs k hlt hk

theorem range_congr (h : ∀ k, inRange min max k = true → s.contents k = store.contents k)
    (hr : store.range min max = .ok iter) : s.range min max = .ok iter := by
  obtain ⟨hinv, rfl⟩ := range_eq_ok.mp hr
  refine range_eq_ok.mpr ⟨hinv, ?_⟩
  refine filter_toList_eq ascending_filter_toList fun k v => ?_
  rw [mem_filter_toList]
  constructor
  · rintro ⟨hv, hk⟩
    exact ⟨(h k hk).trans hv, hk⟩
  · rintro ⟨hv, hk⟩
    exact ⟨(h k hk).symm.trans hv, hk⟩

/-- The entries of a range stand in ascending order. -/
theorem lt_of_range (h : store.range min max = .ok (done ++ entry :: rest)) :
    (∀ e ∈ done, compare e.1 entry.1 = .lt) ∧ ∀ e ∈ rest, compare entry.1 e.1 = .lt := by
  obtain ⟨-, hlist⟩ := range_eq_ok.mp h
  have hasc := hlist ▸ ascending_filter_toList (m := store)
    (p := fun k => inRange min max k)
  obtain ⟨-, htail, hdone⟩ := pairwise_append.mp hasc
  exact ⟨fun e he => hdone e he entry (by simp), (pairwise_cons.mp htail).1⟩

theorem mem_range (h : store.range min max = .ok iter) :
    (k, bytes) ∈ iter ↔ store.contents k = some bytes ∧ inRange min max k = true := by
  obtain ⟨-, rfl⟩ := range_eq_ok.mp h
  exact mem_filter_toList

theorem length_range_le (h : store.range min max = .ok iter) : iter.length ≤ store.size := by
  obtain ⟨-, rfl⟩ := range_eq_ok.mp h
  rw [← TreeMap.length_toList]
  exact length_filter_le ..

namespace Transaction

theorem remove_eq_ok {u : Unit} : remove key s = (.ok u, t) ↔ s.erase key = t := by
  rw [remove, write_eq_ok]
  simp

theorem remove_eq (key : Bytes) (s : Store) : remove key s = (.ok (), s.erase key) := rfl

theorem set_eq (key bytes : Bytes) (s : Store) :
    set key bytes s = (.ok (), s.insert key bytes) := rfl

theorem contains_eq_ok {b : Bool} :
    contains key s = (.ok b, t) ↔ (s.contents key).isSome = b ∧ s = t := by
  rw [contains, inspect_eq, Except.ok.injEq, Store.contents, TreeMap.isSome_getElem?_eq_contains]

/-- The keys removed so far are gone and no other is. -/
def Erased (store : Store) (done : List KeyValue) (s : Store) : Prop :=
  ∀ k, s.contents k = if k ∈ done.map Prod.fst then none else store.contents k

theorem Erased.remove (h : Erased store done s) :
    Erased store (done ++ [entry]) (s.erase entry.1) := by
  intro k
  rw [Store.contents_erase]
  by_cases hk : k = entry.1
  · simp [hk]
  · have hmem : k ∈ (done ++ [entry]).map Prod.fst ↔ k ∈ done.map Prod.fst := by
      rw [map_append, mem_append]
      simp [hk]
    rw [update_of_ne hk, h k]
    simp only [hmem]

theorem paged_dataKeys (h : store.range min max = .ok iter) :
    Paged deleteBatchSize (dataKeys min max) some remove
      (fun entry : KeyValue => .ok entry.1) iter (Erased store) := by
  have hmap : ∀ l : List KeyValue,
      l.mapM (fun entry => (.ok entry.1 : Result Bytes)) = .ok (l.map Prod.fst) := by
    intro l
    exact mapM_pure
  refine ⟨by decide, fun s hs => ?_, ?_, ?_⟩
  · have hr : s.range min max = .ok iter := range_congr (fun k _ => by simpa using hs k) h
    rw [hmap, dataKeys]
    change (s.range min max >>= fun iter => _) = _
    rw [hr]
    rfl
  · intro done entry key rest s hi hkey hs
    cases hkey
    subst hi
    have hr : s.range (.excluded entry.1) max = .ok rest := by
      refine range_after h fun k hlt _ => ?_
      rw [hs k, if_neg]
      simp only [map_append, mem_append, mem_map, map_cons, map_nil, mem_singleton]
      rintro (⟨e, he, rfl⟩ | rfl)
      · exact not_lt_of_lt hlt ((lt_of_range h).1 e he)
      · exact not_lt_self _ hlt
    rw [hmap, dataKeys]
    change (s.range (.excluded entry.1) max >>= fun iter => _) = _
    rw [hr]
    rfl
  · intro done entry key rest s s' hi hs hkey hv
    cases hkey
    rw [← remove_eq_ok.mp hv]
    exact hs.remove

theorem forM_remove (keys : List Bytes) (s : Store) : ∃ t, (keys.forM remove) s = (.ok ⟨⟩, t) := by
  induction keys generalizing s with
  | nil => exact ⟨s, rfl⟩
  | cons key keys ih =>
    obtain ⟨t, ht⟩ := ih (s.erase key)
    exact ⟨t, bind_eq_ok.mpr ⟨⟨⟩, _, remove_eq_ok.mpr rfl, ht⟩⟩

/-- A loop that reads the keys of a range in batches ends, and what it leaves are the keys outside
of the range. -/
theorem loop_removes {read : Option Bytes → Store → Result (List Bytes)}
    (h : store.range min max = .ok iter)
    (hp : Paged deleteBatchSize read some remove
      (fun entry : KeyValue => .ok entry.1) iter (Erased store)) :
    ∃ store', loop deleteBatchSize read some remove .divergence (store.size + 1) none store =
        (.ok (), store') ∧
      ∀ k, store'.contents k = if inRange min max k = true then none else store.contents k := by
  have hstart : Erased store [] store := fun k => by simp
  obtain ⟨store', hrun⟩ := forM_remove (iter.map Prod.fst) store
  have hmap : iter.mapM (fun entry => (.ok entry.1 : Result Bytes)) = .ok (iter.map Prod.fst) :=
    mapM_pure
  refine ⟨store', (hp.loop_eq_ok_iff hstart ?_).mpr ⟨_, hmap, hrun⟩, fun k => ?_⟩
  · exact Nat.lt_succ_of_le (length_range_le h)
  · have hend := hp.batch (show iter = [] ++ (iter ++ []) by simp) hstart hmap hrun
    rw [hend k, nil_append]
    have hmem : k ∈ iter.map Prod.fst ↔
        inRange min max k = true ∧ (store.contents k).isSome = true := by
      rw [mem_map]
      constructor
      · rintro ⟨⟨k', v⟩, hkv, rfl⟩
        obtain ⟨hv, hk⟩ := (mem_range h).mp hkv
        exact ⟨hk, by simp [hv]⟩
      · rintro ⟨hk, hv⟩
        obtain ⟨v, hv⟩ := Option.isSome_iff_exists.mp hv
        exact ⟨(k, v), (mem_range h).mpr ⟨hv, hk⟩, rfl⟩
    by_cases hk : inRange min max k = true
    · rw [if_pos hk]
      split
      · rfl
      · next hn =>
        have hnone : ¬ (store.contents k).isSome = true := fun hs => hn (hmem.mpr ⟨hk, hs⟩)
        simpa using hnone
    · rw [if_neg hk, if_neg fun hin => hk (hmem.mp hin).1]

/-- The loop ends, and what is left are the keys outside of the range. -/
theorem removeRange_spec (hinv : isInverted min max = false) (store : Store) :
    ∃ store', removeRange min max store = (.ok (), store') ∧ ∀ k, store'.contents k =
      if inRange min max k = true then none else store.contents k := by
  have h : store.range min max = .ok (store.toList.filter fun e => inRange min max e.1) :=
    range_eq_ok.mpr ⟨hinv, rfl⟩
  exact loop_removes h (paged_dataKeys h)

end Transaction

end KiteSQL
