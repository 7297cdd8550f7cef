import Mathlib.Tactic

/-! Order-preserving, self-delimiting codes over lists compared lexicographically. -/
namespace LexCode

open List Ordering

/-- Pairs related alike by `<` and `=` compare alike. -/
theorem compare_eq_compare {γ δ : Type*} [LinearOrder γ] [LinearOrder δ] {x y : γ} {z w : δ}
    (hlt : x < y ↔ z < w) (heq : x = y ↔ z = w) : compare x y = compare z w := by
  rw [LinearOrder.compare_eq_compareOfLessAndEq, LinearOrder.compare_eq_compareOfLessAndEq]
  simp only [compareOfLessAndEq, hlt, heq]

section Delimiting
variable {β : Type*} {a b a' b' : List β}

/-- Equal concatenations split at the same place. -/
def Delimits (a b : List β) : Prop := ∀ s t, a ++ s = b ++ t → a = b ∧ s = t

end Delimiting

variable {β : Type*} [Ord β] {a b a' b' : List β} {o o' : Ordering}

/-- Code words `a` and `b` decide a comparison by `o`, whatever bytes follow either of them. -/
def Decides (a b : List β) (o : Ordering) : Prop :=
  ∀ s t, compare (a ++ s) (b ++ t) = o.then (compare s t)

theorem decides_nil : Decides ([] : List β) [] .eq := by
  intro s t
  simp

theorem Decides.append (h : Decides a b o) (h' : Decides a' b' o') :
    Decides (a ++ a') (b ++ b') (o.then o') := by
  intro s t
  rw [append_assoc, append_assoc, h, h', then_assoc]

theorem Decides.compare_eq (h : Decides a b o) : compare a b = o := by
  have := h [] []
  simpa using this

/-- Code words that compare by a strict order need not be read to their ends. -/
theorem decides_cons_of_ne {x y : β} (h : compare x y ≠ .eq) :
    Decides (x :: a) (y :: b) (compare x y) := by
  intro s t
  simp only [List.cons_append, List.compare_cons_cons]
  cases hc : compare x y <;> simp_all

theorem Decides.cons [Std.ReflOrd β] (x : β) (h : Decides a b o) : Decides (x :: a) (x :: b) o := by
  intro s t
  have hs := h s t
  simp only [List.cons_append, List.compare_cons_cons, Std.ReflOrd.compare_self]
  simpa using hs

theorem decides_singleton (x y : β) : Decides [x] [y] (compare x y) := by
  intro s t
  simp [List.compare_cons_cons]

theorem decides_of_length (h : a.length = b.length) : Decides a b (compare a b) := by
  induction a generalizing b with
  | nil =>
    rw [length_nil] at h
    rw [eq_nil_of_length_eq_zero h.symm]
    exact decides_nil
  | cons x a ih =>
    cases b with
    | nil => simp at h
    | cons y b =>
      rw [List.compare_cons_cons]
      exact (decides_singleton x y).append (ih (by simpa using h))

theorem compare_append_of_length_lt (h : a.length < b.length) (r : List β) :
    compare a (b ++ r) = compare a b := by
  induction a generalizing b with
  | nil =>
    cases b with
    | nil => simp at h
    | cons y b => simp
  | cons x a ih =>
    cases b with
    | nil => simp at h
    | cons y b =>
      rw [List.cons_append, List.compare_cons_cons, List.compare_cons_cons, ih (by simpa using h)]

section Padding
variable {z : β} (hz : ∀ y, compare z y ≠ .gt)

include hz

theorem compare_replicate_ne_gt (b : List β) : compare (replicate b.length z) b ≠ .gt := by
  induction b with
  | nil => simp
  | cons y b ih =>
    have hy := hz y
    rw [List.length_cons, List.replicate_succ, List.compare_cons_cons]
    cases h : compare z y <;> simp_all

theorem compare_replicate_pad_ne_gt {n : Nat} (h : b.length ≤ n) :
    compare (replicate n z) (b ++ replicate (n - b.length) z) ≠ .gt := by
  have hp := compare_replicate_ne_gt hz (b ++ replicate (n - b.length) z)
  rwa [length_append, length_replicate, Nat.add_sub_cancel' h] at hp

/-- Padding with a least element loses only the lengths. -/
theorem compare_pad [Std.OrientedOrd β] {n : Nat} (ha : a.length ≤ n) (hb : b.length ≤ n) :
    (compare (a ++ replicate (n - a.length) z) (b ++ replicate (n - b.length) z)).then
      (compare a.length b.length) = compare a b := by
  induction a generalizing b n with
  | nil =>
    have hp := compare_replicate_pad_ne_gt hz hb
    cases b with
    | nil => simp
    | cons y b =>
      have hl : compare 0 (y :: b).length = .lt := by simp [Nat.compare_eq_lt]
      rw [List.length_nil, List.nil_append, Nat.sub_zero, hl, List.compare_nil_cons]
      cases hc : compare (List.replicate n z)
        (y :: b ++ replicate (n - (y :: b).length) z) <;> simp_all
  | cons x a ih =>
    cases b with
    | nil =>
      have hp := compare_replicate_pad_ne_gt hz ha
      have hl : compare (x :: a).length 0 = .gt := by simp [Nat.compare_eq_gt]
      rw [List.length_nil, List.nil_append, Nat.sub_zero, hl, List.compare_cons_nil,
        Std.OrientedOrd.eq_swap]
      cases hc : compare (replicate n z)
        (x :: a ++ replicate (n - (x :: a).length) z) <;> simp_all
    | cons y b =>
      obtain ⟨m, rfl⟩ : ∃ m, n = m + 1 := ⟨n - 1, by simp at ha; omega⟩
      have hl : compare (x :: a).length (y :: b).length = compare a.length b.length := by
        simp [Nat.compare_eq_ite_lt]
      have hm := ih (b := b) (n := m) (by simpa using ha) (by simpa using hb)
      rw [hl, List.compare_cons_cons, ← hm]
      simp [List.compare_cons_cons, Ordering.then_assoc]

end Padding

theorem Decides.of_eq (h : Decides a b o) (he : o = o') : Decides a b o' := he ▸ h

/-- Code words that compare by a strict order may be continued in any way. -/
theorem Decides.append_of_ne (h : Decides a b o) (ho : o ≠ .eq) (u v : List β) :
    Decides (a ++ u) (b ++ v) o := by
  intro s t
  rw [append_assoc, append_assoc, h]
  cases o <;> simp_all

theorem Decides.symm [Std.OrientedOrd β] (h : Decides a b o) : Decides b a o.swap := by
  intro s t
  rw [Std.OrientedOrd.eq_swap, h, swap_then, ← Std.OrientedOrd.eq_swap]

/-- The order found by reading two code words in step, if they differ before either ends. -/
def verdict : List β → List β → Option Ordering
  | [], [] => some .eq
  | x :: a, y :: b =>
    match compare x y with
    | .eq => verdict a b
    | o => some o
  | [], _ :: _ => none
  | _ :: _, [] => none

theorem decides_of_verdict (h : verdict a b = some o) : Decides a b o := by
  fun_induction verdict a b with
  | case1 =>
    cases h
    exact decides_nil
  | case2 x a y b hc ih => exact ((decides_singleton x y).append (ih h)).of_eq (by simp [hc])
  | case3 x a y b hc =>
    cases h
    exact decides_cons_of_ne hc
  | case4 => cases h
  | case5 => cases h

theorem verdict_map {γ : Type*} [Ord γ] {f : β → γ}
    (hf : ∀ x y, compare (f x) (f y) = (compare x y).swap) (a b : List β) :
    verdict (a.map f) (b.map f) = (verdict a b).map Ordering.swap := by
  fun_induction verdict a b with
  | case1 => rfl
  | case2 x a y b hc ih => simp [verdict, hf, hc, ih]
  | case3 x a y b hc => cases h : compare x y <;> simp_all [verdict]
  | case4 => rfl
  | case5 => rfl

section Lawful
variable [Std.LawfulEqOrd β]

theorem Decides.eq_iff (h : Decides a b o) : a = b ↔ o = .eq := by
  rw [← h.compare_eq]
  exact Std.LawfulEqOrd.compare_eq_iff_eq.symm

theorem Decides.delimits (h : Decides a b o) : Delimits a b := by
  intro s t he
  have hc := h s t
  rw [he, Std.ReflOrd.compare_self] at hc
  have ho : o = .eq := (then_eq_eq.mp hc.symm).1
  have hab : a = b := h.eq_iff.mpr ho
  subst hab
  exact ⟨rfl, append_cancel_left he⟩

/-- Code words that are told apart from what follows them decide a comparison. -/
theorem Delimits.decides (h : Delimits a b) : Decides a b (compare a b) := by
  induction a generalizing b with
  | nil =>
    obtain ⟨hb, -⟩ := h b [] (by simp)
    subst hb
    exact decides_nil
  | cons x a ih =>
    cases b with
    | nil =>
      obtain ⟨ha, -⟩ := h [] (x :: a) (by simp)
      cases ha
    | cons y b =>
      rw [List.compare_cons_cons]
      cases hc : compare x y with
      | eq =>
        have hxy : x = y := Std.LawfulEqOrd.compare_eq_iff_eq.mp hc
        subst hxy
        have hab : Delimits a b := by
          intro s t he
          obtain ⟨hcons, hst⟩ := h s t (by rw [cons_append, cons_append, he])
          exact ⟨(cons.inj hcons).2, hst⟩
        rw [eq_then]
        exact (ih hab).cons x
      | _ =>
        have hne : compare x y ≠ .eq := by simp [hc]
        exact (decides_cons_of_ne hne).of_eq (by simp [hc])

/-- Code words that decide a comparison are told apart before either ends. -/
theorem Decides.verdict_eq (h : Decides a b o) : verdict a b = some o := by
  fun_induction verdict a b with
  | case1 => rw [← h.compare_eq, List.compare_nil_nil]
  | case2 x a y b hc ih =>
    refine ih fun s t => ?_
    have hs := h s t
    rwa [List.cons_append, List.cons_append, List.compare_cons_cons, hc, Ordering.eq_then] at hs
  | case3 x a y b hc =>
    rw [← h.compare_eq, List.compare_cons_cons]
    cases hxy : compare x y <;> simp_all
  | case4 y b =>
    obtain ⟨hnil, -⟩ := h.delimits (y :: b) [] (by simp)
    cases hnil
  | case5 x a =>
    obtain ⟨hnil, -⟩ := h.delimits [] (x :: a) (by simp)
    cases hnil

/-- Code words whose letters are exchanged by a map that reverses their order. -/
theorem Decides.map_swap {f : β → β} (hf : ∀ x y, compare (f x) (f y) = (compare x y).swap)
    (h : Decides a b o) : Decides (a.map f) (b.map f) o.swap := by
  refine decides_of_verdict ?_
  rw [verdict_map hf, h.verdict_eq, Option.map_some]

/-- A code word that is a prefix of another one is that code word. -/
theorem Decides.eq_of_isPrefix (h : Decides a b o) (hp : a <+: b) : a = b := by
  obtain ⟨r, hr⟩ := hp
  exact (h.delimits r [] (by simpa using hr)).1

end Lawful

end LexCode
