import Mathlib.Tactic

/-! Stable sorts: sorted lists that keep the order of elements that tie. -/
namespace StableSort

open List

variable {α β : Type} {le : α → α → Bool} {l m n p q : List α} {runs : List (List α)} {x y : α}

/-- A total preorder given by a test. -/
structure Preorders (le : α → α → Bool) : Prop where
  trans : ∀ a b c, le a b = true → le b c = true → le a c = true
  total : ∀ a b, (le a b || le b a) = true

def ties (le : α → α → Bool) (a b : α) : Bool := le a b && le b a

theorem Preorders.refl (h : Preorders le) (a : α) : le a a = true := by
  simpa using h.total a a

theorem Preorders.of_not (h : Preorders le) (hn : le x y = false) : le y x = true := by
  simpa [hn] using h.total x y

theorem Preorders.ties_self (h : Preorders le) (a : α) : ties le a a = true := by
  simp [ties, h.refl]

/-- The comparison of keys in a transitive order is a total preorder. -/
theorem preorders_of_key [Ord β] [Std.TransOrd β] (key : α → β) :
    Preorders fun a b => (compare (key a) (key b)).isLE where
  trans a b c hab hbc := Std.TransCmp.isLE_trans hab hbc
  total a b := by
    have hswap : compare (key b) (key a) = (compare (key a) (key b)).swap :=
      Std.OrientedCmp.eq_swap
    rw [hswap]
    cases compare (key a) (key b) <;> rfl

/-- Runs that are sorted one by one and, read one after the other, keep the order of ties. -/
structure Sorts (le : α → α → Bool) (l : List α) (runs : List (List α)) : Prop where
  sorted : ∀ run ∈ runs, run.Pairwise (le · · = true)
  ties : ∀ a, runs.flatten.filter (ties le a) = l.filter (ties le a)

theorem mem_iff_of_ties (h : Preorders le)
    (he : ∀ a, m.filter (ties le a) = l.filter (ties le a)) (x : α) : x ∈ m ↔ x ∈ l := by
  have hx := he x
  constructor
  · intro hm
    have hf : x ∈ m.filter (ties le x) := mem_filter.mpr ⟨hm, h.ties_self x⟩
    rw [hx] at hf
    exact mem_of_mem_filter hf
  · intro hl
    have hf : x ∈ l.filter (ties le x) := mem_filter.mpr ⟨hl, h.ties_self x⟩
    rw [← hx] at hf
    exact mem_of_mem_filter hf

theorem eq_of_sorted_of_ties (h : Preorders le) (hl : l.Pairwise (le · · = true))
    (hm : m.Pairwise (le · · = true))
    (he : ∀ a, m.filter (ties le a) = l.filter (ties le a)) : l = m := by
  induction l generalizing m with
  | nil =>
    refine (eq_nil_iff_forall_not_mem.mpr fun x hx => ?_).symm
    simpa using (mem_iff_of_ties h he x).mp hx
  | cons x l ih =>
    obtain _ | ⟨y, m⟩ := m
    · simpa using (mem_iff_of_ties h he x).mpr (by simp)
    · have hxy : le x y = true := by
        rcases mem_cons.mp ((mem_iff_of_ties h he y).mp (by simp)) with rfl | hy
        · exact h.refl y
        · exact rel_of_pairwise_cons hl hy
      have hyx : le y x = true := by
        rcases mem_cons.mp ((mem_iff_of_ties h he x).mpr (by simp)) with rfl | hx
        · exact h.refl x
        · exact rel_of_pairwise_cons hm hx
      have hfirst := he x
      rw [filter_cons_of_pos (by simp [ties, hxy, hyx]),
        filter_cons_of_pos (h.ties_self x)] at hfirst
      obtain rfl : y = x := (cons.inj hfirst).1
      rw [ih hl.of_cons hm.of_cons fun a => ?_]
      have ha := he a
      rw [filter_cons, filter_cons] at ha
      split at ha
      · exact (cons.inj ha).2
      · exact ha

theorem pairwise_filter_ties (h : Preorders le) (a : α) (l : List α) :
    (l.filter (ties le a)).Pairwise (le · · = true) := by
  refine pairwise_of_forall_mem_list fun x hx y hy => ?_
  have hx := (mem_filter.mp hx).2
  have hy := (mem_filter.mp hy).2
  simp only [ties, Bool.and_eq_true] at hx hy
  exact h.trans x a y hx.2 hy.1

theorem sorts_mergeSort (h : Preorders le) (l : List α) : Sorts le l [l.mergeSort le] where
  sorted := by
    intro run hrun
    obtain rfl := mem_singleton.mp hrun
    exact pairwise_mergeSort h.trans h.total l
  ties := by
    intro a
    rw [flatten_singleton]
    have hsub := sublist_mergeSort h.trans h.total (pairwise_filter_ties h a l)
      filter_sublist
    have hf := hsub.filter (ties le a)
    rw [filter_filter] at hf
    simp only [Bool.and_self] at hf
    exact (hf.eq_of_length ((mergeSort_perm l le).filter _).length_eq.symm).symm

/-- One sorted run that keeps the order of ties is the merge sort of the list. -/
theorem Sorts.eq_mergeSort (hs : Sorts le l [m]) (h : Preorders le) : m = l.mergeSort le := by
  have ht := sorts_mergeSort h l
  refine eq_of_sorted_of_ties h (hs.sorted m (by simp)) (ht.sorted _ (by simp)) fun a => ?_
  have hm := hs.ties a
  have hl := ht.ties a
  rw [flatten_singleton] at hm hl
  rw [hm, hl]

/-- The order may be changed where it agrees on the elements of the list. -/
theorem mergeSort_congr {le' : α → α → Bool} (h : ∀ a ∈ l, ∀ b ∈ l, le a b = le' a b) :
    l.mergeSort le = l.mergeSort le' := by
  have hm := map_mergeSort (f := id) h
  simpa using hm

/-- A list is sorted by a test that orders its own elements. -/
theorem pairwise_mergeSort_of_mem
    (htrans : ∀ a ∈ l, ∀ b ∈ l, ∀ c ∈ l, le a b = true → le b c = true → le a c = true)
    (htotal : ∀ a ∈ l, ∀ b ∈ l, (le a b || le b a) = true) :
    (l.mergeSort le).Pairwise (le · · = true) := by
  have hmap := map_mergeSort (r := fun a b : {x // x ∈ l} => le a.1 b.1) (s := le)
    (f := Subtype.val) (l := l.attach) fun a _ b _ => rfl
  rw [attach_map_subtype_val] at hmap
  rw [← hmap, pairwise_map]
  exact pairwise_mergeSort (fun a b c => htrans a.1 a.2 b.1 b.2 c.1 c.2)
    (fun a b => htotal a.1 a.2 b.1 b.2) _

/-- Puts an element behind those that are not above it. -/
def place (le : α → α → Bool) (x : α) : List α → List α
  | [] => [x]
  | y :: l => if le y x then y :: place le x l else x :: y :: l

theorem mem_place : y ∈ place le x l ↔ y = x ∨ y ∈ l := by
  induction l with
  | nil => simp [place]
  | cons z l ih =>
    rw [place]
    split
    · simp only [mem_cons, ih]
      tauto
    · simp

theorem pairwise_place (h : Preorders le) (hl : l.Pairwise (le · · = true)) :
    (place le x l).Pairwise (le · · = true) := by
  induction l with
  | nil => simp [place]
  | cons y l ih =>
    obtain ⟨hy, hl⟩ := pairwise_cons.mp hl
    rw [place]
    split
    · next hyx =>
      refine pairwise_cons.mpr ⟨fun z hz => ?_, ih hl⟩
      rcases mem_place.mp hz with rfl | hz
      · exact hyx
      · exact hy z hz
    · next hyx =>
      have hxy := h.of_not (Bool.not_eq_true _ ▸ hyx)
      refine pairwise_cons.mpr ⟨fun z hz => ?_, pairwise_cons.mpr ⟨hy, hl⟩⟩
      rcases mem_cons.mp hz with rfl | hz
      · exact hxy
      · exact h.trans x y z hxy (hy z hz)

theorem filter_place (h : Preorders le) (hl : l.Pairwise (le · · = true)) (a : α) :
    (place le x l).filter (ties le a) = (l ++ [x]).filter (ties le a) := by
  induction l with
  | nil => rfl
  | cons y l ih =>
    obtain ⟨hy, hl⟩ := pairwise_cons.mp hl
    rw [place, cons_append]
    split
    · rw [filter_cons, filter_cons, ih hl]
    · next hyx =>
      by_cases hax : ties le a x = true
      · -- nothing from here on ties with an element that `x` ties with
        have hnone : (y :: l).filter (ties le a) = [] := by
          refine filter_eq_nil_iff.mpr fun z hz haz => hyx ?_
          simp only [ties, Bool.and_eq_true] at hax haz
          have hyz : le y z = true := by
            rcases mem_cons.mp hz with rfl | hz
            · exact h.refl z
            · exact hy z hz
          exact h.trans y a x (h.trans y z a hyz haz.2) hax.1
        rw [filter_cons_of_pos hax, ← cons_append, filter_append, hnone, filter_cons_of_pos hax]
        rfl
      · rw [filter_cons_of_neg hax, ← cons_append, filter_append,
          filter_cons_of_neg hax, filter_nil, append_nil]

/-- A new last element goes behind those it ties with. -/
theorem mergeSort_concat (h : Preorders le) (l : List α) (x : α) :
    (l ++ [x]).mergeSort le = place le x (l.mergeSort le) := by
  have hl := sorts_mergeSort h l
  have hsorted := hl.sorted (l.mergeSort le) (by simp)
  have hs : Sorts le (l ++ [x]) [place le x (l.mergeSort le)] := by
    refine ⟨fun run hrun => ?_, fun a => ?_⟩
    · obtain rfl := mem_singleton.mp hrun
      exact pairwise_place h hsorted
    · have ha := hl.ties a
      rw [flatten_singleton] at ha ⊢
      rw [filter_place h hsorted, filter_append, ha, filter_append]
  exact (hs.eq_mergeSort h).symm

/-- A sorted list of at most `k` elements takes in another one. -/
def keep (le : α → α → Bool) (k : Nat) (x : α) (l : List α) : List α :=
  if l.length < k then place le x l
  else
    match l.getLast? with
    | none => l
    | some last => if le last x then l else place le x l.dropLast

theorem take_place_of_le {k : Nat} (h : ∀ y ∈ l.take k, le y x = true) (hk : k ≤ l.length) :
    (place le x l).take k = l.take k := by
  induction l generalizing k with
  | nil =>
    obtain rfl : k = 0 := by simpa using hk
    rfl
  | cons y l ih =>
    cases k with
    | zero => rfl
    | succ k =>
      rw [place, if_pos (h y (by simp)), take_succ_cons, take_succ_cons,
        ih (fun z hz => h z (by simp [hz])) (by simpa using hk)]

theorem take_place_of_last {k : Nat} {last : α} (hk : k < l.length)
    (hlast : (l.take (k + 1)).getLast? = some last) (hx : le last x = false) :
    (place le x l).take (k + 1) = place le x (l.take k) := by
  induction l generalizing k with
  | nil => simp at hk
  | cons y l ih =>
    rw [place]
    cases k with
    | zero =>
      obtain rfl : y = last := by simpa using hlast
      simp [hx, place]
    | succ k =>
      rw [take_succ_cons, place]
      split
      · rw [take_succ_cons]
        congr 1
        refine ih (by simpa using hk) ?_
        have hne : l.take (k + 1) ≠ [] := by
          rw [← length_pos_iff]
          simp at hk ⊢
          omega
        rwa [take_succ_cons, getLast?_cons_of_ne_nil hne] at hlast
      · simp

theorem length_place : (place le x l).length = l.length + 1 := by
  induction l with
  | nil => rfl
  | cons y l ih =>
    rw [place]
    split
    · simp [ih]
    · simp

theorem le_getLast (h : Preorders le) {last : α} (hl : l.Pairwise (le · · = true))
    (hlast : l.getLast? = some last) (hy : y ∈ l) : le y last = true := by
  obtain ⟨pre, rfl⟩ := getLast?_eq_some_iff.mp hlast
  rcases mem_append.mp hy with hy | hy
  · exact (pairwise_append.mp hl).2.2 y hy last (by simp)
  · obtain rfl := mem_singleton.mp hy
    exact h.refl y

/-- Keeping the first elements of a sorted list is enough to take in another one. -/
theorem take_place (h : Preorders le) (hl : l.Pairwise (le · · = true)) (k : Nat) :
    (place le x l).take k = keep le k x (l.take k) := by
  rw [keep]
  split
  · next hlt =>
    have hlen : l.length < k := by simpa using hlt
    have hp : (place le x l).length ≤ k := by
      rw [length_place]
      omega
    rw [take_of_length_le hp, take_of_length_le hlen.le]
  · next hlt =>
    have hlen : k ≤ l.length := by
      simp only [length_take] at hlt
      omega
    cases k with
    | zero => rfl
    | succ k =>
      cases hlast : (l.take (k + 1)).getLast? with
      | none =>
        have hnil := getLast?_eq_none_iff.mp hlast
        have hzero := congrArg length hnil
        rw [length_take, length_nil] at hzero
        omega
      | some last =>
        dsimp only
        split
        · next hx =>
          refine take_place_of_le (fun y hy => ?_) hlen
          have hsub := hl.sublist (take_sublist (k + 1) l)
          exact h.trans y last x (le_getLast h hsub hlast hy) hx
        · next hx =>
          rw [take_place_of_last hlen hlast (by simpa using hx), dropLast_eq_take,
            length_take_of_le hlen, Nat.add_sub_cancel, take_take, Nat.min_eq_left (Nat.le_succ k)]

/-- The first elements of a stable sort, kept while the list is read. -/
theorem foldl_keep (h : Preorders le) (k : Nat) (l m : List α) :
    m.foldl (fun kept x => keep le k x kept) ((l.mergeSort le).take k) =
      ((l ++ m).mergeSort le).take k := by
  induction m generalizing l with
  | nil => simp
  | cons x m ih =>
    have hsorted := (sorts_mergeSort h l).sorted (l.mergeSort le) (by simp)
    rw [foldl_cons, ← take_place h hsorted, ← mergeSort_concat h, ih, append_assoc]
    rfl

/-- What a scan keeps that changes it only for a smaller element. -/
def least (le : α → α → Bool) : α → List α → α
  | m, [] => m
  | m, x :: l => least le (if le m x then m else x) l

/-- The first of the least elements. -/
def Leads (le : α → α → Bool) (m : α) (l : List α) : Prop :=
  ∃ p q, l = p ++ m :: q ∧ (∀ y ∈ p, le y m = false) ∧ ∀ y ∈ q, le m y = true

theorem Leads.mem {m : α} (h : Leads le m l) : m ∈ l := by
  obtain ⟨p, q, rfl, -, -⟩ := h
  simp

theorem Leads.below {m : α} (hm : Leads le m l) (h : Preorders le) (hy : y ∈ l) : le m y = true := by
  obtain ⟨p, q, rfl, hp, hq⟩ := hm
  rcases mem_append.mp hy with hy | hy
  · exact h.of_not (hp y hy)
  · rcases mem_cons.mp hy with rfl | hy
    · exact h.refl y
    · exact hq y hy

theorem Leads.concat {m : α} (hm : Leads le m l) (hx : le m x = true) : Leads le m (l ++ [x]) := by
  obtain ⟨p, q, rfl, hp, hq⟩ := hm
  refine ⟨p, q ++ [x], by simp, hp, fun y hy => ?_⟩
  rcases mem_append.mp hy with hy | hy
  · exact hq y hy
  · obtain rfl := mem_singleton.mp hy
    exact hx

theorem Leads.replace {m : α} (hm : Leads le m l) (h : Preorders le) (hx : le m x = false) :
    Leads le x (l ++ [x]) := by
  refine ⟨l, [], rfl, fun y hy => ?_, by simp⟩
  by_contra hyx
  have hmx := h.trans m y x (hm.below h hy) (by simpa using hyx)
  rw [hx] at hmx
  cases hmx

theorem leads_least (h : Preorders le) (m : α) (l : List α) : Leads le (least le m l) (m :: l) := by
  have hscan : ∀ (l pre : List α) (m : α), Leads le m pre → Leads le (least le m l) (pre ++ l) := by
    intro l
    induction l with
    | nil =>
      intro pre m hm
      rw [append_nil]
      exact hm
    | cons x l ih =>
      intro pre m hm
      rw [least, append_cons]
      cases hx : le m x with
      | true => exact ih _ _ (hm.concat hx)
      | false => exact ih _ _ (hm.replace h hx)
  exact hscan l [m] m ⟨[], [], rfl, by simp, by simp⟩

theorem Leads.unique {m m' : α} (hm : Leads le m l) (hm' : Leads le m' l) : m = m' := by
  obtain ⟨p, q, rfl, hp, hq⟩ := hm
  obtain ⟨p', q', heq, hp', hq'⟩ := hm'
  rcases append_eq_append_iff.mp heq with ⟨r, rfl, hr⟩ | ⟨r, rfl, hr⟩
  · cases r with
    | nil => simp_all
    | cons a r =>
      obtain ⟨rfl, rfl⟩ := cons.inj hr
      have hlt := hp' m (by simp)
      rw [hq m' (by simp)] at hlt
      cases hlt
  · cases r with
    | nil => simp_all
    | cons a r =>
      obtain ⟨rfl, rfl⟩ := cons.inj hr
      have hlt := hp m' (by simp)
      rw [hq' m (by simp)] at hlt
      cases hlt

theorem foldl_keep_one (m : α) (l : List α) :
    l.foldl (fun kept x => keep le 1 x kept) [m] = [least le m l] := by
  induction l generalizing m with
  | nil => rfl
  | cons x l ih =>
    have hkeep : keep le 1 x [m] = [if le m x then m else x] := by
      cases hx : le m x <;> simp [keep, place, hx]
    rw [foldl_cons, hkeep, ih, least]

end StableSort
