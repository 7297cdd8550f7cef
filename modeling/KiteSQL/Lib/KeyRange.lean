import Mathlib.Data.List.Sort
import Mathlib.Tactic

/-! The part of an ordered map whose keys lie in a range, and ranges of keys with a common
prefix. -/
namespace KeyRange

open Std List

section Map

variable {α β : Type} {cmp : α → α → Ordering} [TransCmp cmp] [LawfulEqCmp cmp]
  {m m₀ : TreeMap α β cmp} {p p₀ : α → Bool} {l done rest : List (α × β)} {entry : α × β}

theorem mem_filter_toList {k : α} {v : β} :
    (k, v) ∈ m.toList.filter (fun e => p e.1) ↔ m[k]? = some v ∧ p k = true := by
  rw [mem_filter, TreeMap.mem_toList_iff_getElem?_eq_some]

omit [LawfulEqCmp cmp] in
theorem ascending_filter_toList :
    (m.toList.filter fun e => p e.1).Pairwise fun a b => cmp a.1 b.1 = .lt :=
  TreeMap.ordered_keys_toList.filter _

omit [LawfulEqCmp cmp] in
theorem not_lt_of_lt {a b : α} (h : cmp a b = .lt) : cmp b a ≠ .lt := by
  intro hba
  have hgt := OrientedCmp.gt_iff_lt.mpr hba
  rw [h] at hgt
  cases hgt

omit [LawfulEqCmp cmp] in
theorem not_lt_self (a : α) : cmp a a ≠ .lt := by
  simp [ReflCmp.compare_self]

/-- Ascending lists with the same entries are the same. -/
theorem filter_toList_eq (h : l.Pairwise fun a b => cmp a.1 b.1 = .lt)
    (hmem : ∀ k v, (k, v) ∈ l ↔ m[k]? = some v ∧ p k = true) :
    (m.toList.filter fun e => p e.1) = l := by
  have hirrefl : Std.Irrefl fun a b : α × β => cmp a.1 b.1 = .lt :=
    ⟨fun a => not_lt_self a.1⟩
  have hantisymm : Std.Antisymm fun a b : α × β => cmp a.1 b.1 = .lt :=
    ⟨fun _ _ hab hba => absurd hba (not_lt_of_lt hab)⟩
  refine ascending_filter_toList.eq_of_mem_iff h fun a => ?_
  rw [hmem a.1 a.2, ← mem_filter_toList]

/-- What lies behind an entry stays what it was while the map changes before it. -/
theorem filter_toList_after (h : (m₀.toList.filter fun e => p₀ e.1) = done ++ entry :: rest)
    (hp : ∀ k, p k = true ↔ cmp entry.1 k = .lt ∧ p₀ k = true)
    (hm : ∀ k, p k = true → m[k]? = m₀[k]?) : (m.toList.filter fun e => p e.1) = rest := by
  have hasc : (done ++ entry :: rest).Pairwise fun a b => cmp a.1 b.1 = .lt :=
    h ▸ ascending_filter_toList
  obtain ⟨-, htail, hdone⟩ := pairwise_append.mp hasc
  obtain ⟨hhead, hrest⟩ := pairwise_cons.mp htail
  refine filter_toList_eq hrest fun k v => ?_
  have hmem : (k, v) ∈ done ++ entry :: rest ↔ m₀[k]? = some v ∧ p₀ k = true := by
    rw [← h, mem_filter_toList]
  constructor
  · intro hkv
    obtain ⟨hv, hk⟩ := hmem.mp (by simp [hkv])
    have hpk := (hp k).mpr ⟨hhead _ hkv, hk⟩
    exact ⟨(hm k hpk).trans hv, hpk⟩
  · rintro ⟨hv, hpk⟩
    obtain ⟨hlt, hk⟩ := (hp k).mp hpk
    rcases mem_append.mp (hmem.mpr ⟨(hm k hpk).symm.trans hv, hk⟩) with hin | hin
    · exact absurd (hdone _ hin entry (by simp)) (not_lt_of_lt hlt)
    · rcases mem_cons.mp hin with heq | hin
      · rw [← heq] at hlt
        exact absurd hlt (not_lt_self k)
      · exact hin

end Map

section Ascending

variable {α : Type} {r : α → α → Prop} {l : List α} {p : α → Bool}

/-- Where a test stays true once it is true, skipping up to the first success is choosing. -/
theorem dropWhile_not_eq_filter (h : l.Pairwise r)
    (hp : ∀ a ∈ l, ∀ b ∈ l, r a b → p a = true → p b = true) :
    l.dropWhile (fun a => !p a) = l.filter p := by
  induction l with
  | nil => rfl
  | cons a l ih =>
    obtain ⟨ha, hl⟩ := pairwise_cons.mp h
    cases hpa : p a with
    | false =>
      rw [dropWhile_cons_of_pos (by simp [hpa]), filter_cons_of_neg (by simp [hpa])]
      exact ih hl fun b hb c hc => hp b (by simp [hb]) c (by simp [hc])
    | true =>
      rw [dropWhile_cons_of_neg (by simp [hpa]), filter_cons_of_pos hpa,
        filter_eq_self.mpr fun b hb => hp a (by simp) b (by simp [hb]) (ha b hb) hpa]

theorem takeWhile_congr {q : α → Bool} (h : ∀ a ∈ l, p a = q a) :
    l.takeWhile p = l.takeWhile q := by
  induction l with
  | nil => rfl
  | cons a l ih =>
    rw [forall_mem_cons] at h
    rw [takeWhile_cons, takeWhile_cons, h.1, ih h.2]

/-- Where a test was true whenever it is true later, stopping at the first failure is choosing. -/
theorem takeWhile_eq_filter (h : l.Pairwise r)
    (hp : ∀ a ∈ l, ∀ b ∈ l, r a b → p b = true → p a = true) : l.takeWhile p = l.filter p := by
  induction l with
  | nil => rfl
  | cons a l ih =>
    obtain ⟨ha, hl⟩ := pairwise_cons.mp h
    cases hpa : p a with
    | true =>
      rw [takeWhile_cons_of_pos hpa, filter_cons_of_pos hpa,
        ih hl fun b hb c hc => hp b (by simp [hb]) c (by simp [hc])]
    | false =>
      rw [takeWhile_cons_of_neg (by simp [hpa]), filter_cons_of_neg (by simp [hpa])]
      refine (filter_eq_nil_iff.mpr fun b hb hpb => ?_).symm
      rw [hp a (by simp) b (by simp [hb]) (ha b hb) hpb] at hpa
      cases hpa

end Ascending

section Prefix

variable {β : Type} [Ord β] [TransOrd β] [LawfulEqOrd β]

omit [LawfulEqOrd β] in
theorem compare_append_left (p a b : List β) : compare (p ++ a) (p ++ b) = compare a b := by
  induction p with
  | nil => rfl
  | cons x p ih => rw [List.cons_append, List.cons_append, List.compare_cons_cons,
      ReflOrd.compare_self, ih, Ordering.eq_then]

omit [Ord β] [TransOrd β] [LawfulEqOrd β] in
/-- The common prefix of two lists. -/
theorem exists_common_prefix [DecidableEq β] (a b : List β) : ∃ p a' b', a = p ++ a' ∧ b = p ++ b' ∧
    p.length = ((a.zip b).takeWhile fun x => x.1 = x.2).length := by
  induction a generalizing b with
  | nil => exact ⟨[], [], b, rfl, rfl, rfl⟩
  | cons x a ih =>
    cases b with
    | nil => exact ⟨[], x :: a, [], rfl, rfl, rfl⟩
    | cons y b =>
      by_cases hxy : x = y
      · obtain ⟨p, a', b', rfl, rfl, hlen⟩ := ih b
        subst hxy
        exact ⟨x :: p, a', b', rfl, rfl, by simp [hlen]⟩
      · exact ⟨[], x :: a, y :: b, rfl, rfl, by simp [hxy]⟩

/-- What lies between two keys with a common prefix has that prefix. -/
theorem isPrefix_of_between {p a b key : List β} (ha : (compare (p ++ a) key).isLE = true)
    (hb : (compare key (p ++ b)).isLE = true) : p <+: key := by
  induction p generalizing key with
  | nil => exact List.nil_prefix
  | cons x p ih =>
    cases key with
    | nil => cases ha
    | cons y key =>
      rw [List.cons_append, List.compare_cons_cons] at ha hb
      have hxy : x = y := by
        rw [← LawfulEqOrd.compare_eq_iff_eq (a := x) (b := y)]
        cases hc : compare x y with
        | eq => rfl
        | gt => simp [hc] at ha
        | lt =>
          rw [OrientedOrd.eq_swap, hc] at hb
          simp at hb
      subst hxy
      rw [ReflOrd.compare_self, Ordering.eq_then] at ha hb
      exact cons_prefix_cons.mpr ⟨rfl, ih ha hb⟩

omit [LawfulEqOrd β] in
/-- With the least byte behind it a key is the next key. -/
theorem compare_append_least {z : β} (hz : ∀ x : β, compare x z ≠ .lt) (key k : List β) :
    compare key (k ++ [z]) = .lt ↔ compare key k ≠ .gt := by
  induction k generalizing key with
  | nil =>
    cases key with
    | nil => simp [List.compare_nil_cons]
    | cons y ys =>
      rw [List.nil_append, List.compare_cons_cons]
      have hy := hz y
      cases hc : compare y z with
      | lt => exact absurd hc hy
      | eq => cases ys <;> simp [List.compare_cons_nil]
      | gt => simp [List.compare_cons_nil]
  | cons x k ih =>
    cases key with
    | nil => simp [List.compare_nil_cons]
    | cons y ys =>
      rw [List.cons_append, List.compare_cons_cons, List.compare_cons_cons]
      cases compare y x with
      | lt => simp
      | eq => simpa using ih ys
      | gt => simp

end Prefix

end KeyRange
