import KiteSQL.Lib.KeyedMap

/-! The elements of one list matched one for one with those of another. -/
namespace Matching

open KeyedMap List

variable {α κ : Type} {t : KeyTest α} {c : KeyTest κ} {key : α → κ} {p : α → Bool}
  {left right : List α} {a b : α} {l : List α} {m : List (α × Nat)}

/-- The elements of a first list that find no partner and those that do, and what is left of a
second list. -/
structure Outcome (α : Type) where
  unmatched : List α
  matched : List α
  rest : List α

def pairOff (t : KeyTest α) : List α → List α → Outcome α
  | [], right => ⟨[], [], right⟩
  | a :: left, right =>
    if right.any (t.same a) then
      let outcome := pairOff t left (right.eraseP (t.same a))
      { outcome with matched := a :: outcome.matched }
    else
      let outcome := pairOff t left right
      { outcome with unmatched := a :: outcome.unmatched }

theorem pairOff_of_any (h : right.any (t.same a) = true) : pairOff t (a :: left) right =
    ⟨(pairOff t left (right.eraseP (t.same a))).unmatched,
      a :: (pairOff t left (right.eraseP (t.same a))).matched,
      (pairOff t left (right.eraseP (t.same a))).rest⟩ := by
  rw [pairOff, if_pos h]

theorem pairOff_of_not_any (h : right.any (t.same a) = false) : pairOff t (a :: left) right =
    ⟨a :: (pairOff t left right).unmatched, (pairOff t left right).matched,
      (pairOff t left right).rest⟩ := by
  rw [pairOff, if_neg (by simp [h])]

/-- One element less of those that a test of the key accepts. -/
theorem countP_eraseP (hp : ∀ a b, t.same a b = true → p a = p b) (h : right.any (t.same a) = true)
    : right.countP p = (right.eraseP (t.same a)).countP p + if p a then 1 else 0 := by
  obtain ⟨x, hx, hax⟩ := any_eq_true.mp h
  obtain ⟨b, l, r, -, hab, hright, herase⟩ := exists_of_eraseP hx hax
  rw [herase, hright, countP_append, countP_append, countP_cons, hp a b hab]
  omega

/-- The matched elements and the others of a side make up that side. -/
theorem countP_sides (hp : ∀ a b, t.same a b = true → p a = p b) (left right : List α) :
    (pairOff t left right).unmatched.countP p + (pairOff t left right).matched.countP p =
        left.countP p ∧
      (pairOff t left right).matched.countP p + (pairOff t left right).rest.countP p =
        right.countP p := by
  induction left generalizing right with
  | nil => simp [pairOff]
  | cons a left ih =>
    cases h : right.any (t.same a) with
    | true =>
      have hih := ih (right.eraseP (t.same a))
      rw [pairOff_of_any h, countP_cons, countP_cons, countP_eraseP hp h]
      dsimp only
      omega
    | false =>
      have hih := ih right
      rw [pairOff_of_not_any h, countP_cons, countP_cons]
      dsimp only
      omega

theorem pairOff_perm (t : KeyTest α) (left right : List α) :
    ((pairOff t left right).unmatched ++ (pairOff t left right).matched).Perm left := by
  induction left generalizing right with
  | nil => exact .refl _
  | cons a left ih =>
    cases h : right.any (t.same a) with
    | true =>
      rw [pairOff_of_any h]
      exact perm_middle.trans ((ih _).cons a)
    | false =>
      rw [pairOff_of_not_any h]
      exact (ih right).cons a

theorem rest_sublist (t : KeyTest α) (left right : List α) :
    (pairOff t left right).rest.Sublist right := by
  induction left generalizing right with
  | nil => exact List.Sublist.refl right
  | cons a left ih =>
    cases h : right.any (t.same a) with
    | true =>
      rw [pairOff_of_any h]
      exact (ih _).trans eraseP_sublist
    | false =>
      rw [pairOff_of_not_any h]
      exact ih right

/-- No two elements that are left over could have been matched. -/
theorem not_same_of_left_over (ha : a ∈ (pairOff t left right).unmatched)
    (hb : b ∈ (pairOff t left right).rest) : t.same a b = false := by
  induction left generalizing right with
  | nil => cases ha
  | cons x left ih =>
    cases h : right.any (t.same x) with
    | true =>
      rw [pairOff_of_any h] at ha hb
      exact ih ha hb
    | false =>
      rw [pairOff_of_not_any h] at ha hb
      rcases mem_cons.mp ha with rfl | ha
      · have hnone := any_eq_false.mp h b ((rest_sublist t left right).subset hb)
        simpa using hnone
      · exact ih ha hb

theorem mem_left_of_unmatched (h : a ∈ (pairOff t left right).unmatched) : a ∈ left := by
  induction left generalizing right with
  | nil => cases h
  | cons x left ih =>
    cases hx : right.any (t.same x) with
    | true =>
      rw [pairOff_of_any hx] at h
      exact mem_cons_of_mem x (ih h)
    | false =>
      rw [pairOff_of_not_any hx] at h
      rcases mem_cons.mp h with rfl | h
      · exact mem_cons_self
      · exact mem_cons_of_mem x (ih h)

/-- What is left over of the elements that are the same as one of them is on one side only. -/
theorem countP_same (t : KeyTest α) (a : α) (left right : List α) :
    (pairOff t left right).unmatched.countP (t.same a) = 0 ∨
      (pairOff t left right).rest.countP (t.same a) = 0 := by
  by_contra h
  obtain ⟨hu, hr⟩ := not_or.mp h
  obtain ⟨x, hx, hax⟩ := countP_pos_iff.mp (Nat.pos_of_ne_zero hu)
  obtain ⟨y, hy, hay⟩ := countP_pos_iff.mp (Nat.pos_of_ne_zero hr)
  have hxy := not_same_of_left_over hx hy
  rw [← t.congr a x y hax, hay] at hxy
  cases hxy

/-- No key has an element that is more frequent in the first list and another that is more
frequent in the second one. -/
def OneSided (t : KeyTest α) (c : KeyTest κ) (key : α → κ) (left right : List α) : Prop :=
  ∀ a ∈ left, ∀ b ∈ right, c.same (key a) (key b) = true →
    right.countP (t.same a) < left.countP (t.same a) →
    right.countP (t.same b) ≤ left.countP (t.same b)

section Keyed

variable (hkey : ∀ a b, t.same a b = true → c.same (key a) (key b) = true)
include hkey

/-- For every key nothing is left over on one of the sides exactly for one-sided lists. -/
theorem left_over_iff :
    (∀ k, (pairOff t left right).unmatched.countP (fun a => c.same (key a) k) = 0 ∨
        (pairOff t left right).rest.countP (fun a => c.same (key a) k) = 0) ↔
      OneSided t c key left right := by
  have hsides := fun x => countP_sides (p := t.same x) (fun a b h => t.congr_right h x) left right
  constructor
  · intro h a _ b _ hab hlt
    have ha := hsides a
    have hb := hsides b
    rcases h (key b) with hnone | hnone
    · obtain ⟨x, hx, hax⟩ := countP_pos_iff.mp
        (show 0 < (pairOff t left right).unmatched.countP (t.same a) by omega)
      have hxb : c.same (key x) (key b) = true := by
        rw [← c.congr _ _ _ (hkey a x hax)]
        exact hab
      exact absurd hxb (countP_eq_zero.mp hnone x hx)
    · have hrest : (pairOff t left right).rest.countP (t.same b) = 0 := by
        refine countP_eq_zero.mpr fun y hy hby => ?_
        refine countP_eq_zero.mp hnone y hy ?_
        rw [c.symm]
        exact hkey b y hby
      omega
  · intro h k
    by_contra hboth
    obtain ⟨hu, hr⟩ := not_or.mp hboth
    obtain ⟨a, ha, hak⟩ := countP_pos_iff.mp (Nat.pos_of_ne_zero hu)
    obtain ⟨b, hb, hbk⟩ := countP_pos_iff.mp (Nat.pos_of_ne_zero hr)
    have hab : c.same (key a) (key b) = true := by
      rw [c.congr_right hbk]
      exact hak
    have hsa := hsides a
    have hsb := hsides b
    have hua := countP_pos_iff.mpr ⟨a, ha, t.refl a⟩
    have hrb := countP_pos_iff.mpr ⟨b, hb, t.refl b⟩
    have ha' := countP_same t a left right
    have hb' := countP_same t b left right
    have hle := h a (mem_left_of_unmatched ha) b ((rest_sublist t left right).subset hb) hab
      (by omega)
    omega

/-- The elements without a partner are as many of each key as the first list has more than the
second exactly for one-sided lists. -/
theorem countP_unmatched_iff :
    (∀ k, (pairOff t left right).unmatched.countP (fun a => c.same (key a) k) =
        left.countP (fun a => c.same (key a) k) - right.countP fun a => c.same (key a) k) ↔
      OneSided t c key left right := by
  rw [← left_over_iff hkey]
  refine forall_congr' fun k => ?_
  have hsides := countP_sides (fun a b h => c.congr _ _ k (hkey a b h)) left right
  omega

/-- The elements with a partner are as many of each key as both lists have exactly for one-sided
lists. -/
theorem countP_matched_iff :
    (∀ k, (pairOff t left right).matched.countP (fun a => c.same (key a) k) =
        min (left.countP fun a => c.same (key a) k) (right.countP fun a => c.same (key a) k)) ↔
      OneSided t c key left right := by
  rw [← left_over_iff hkey]
  refine forall_congr' fun k => ?_
  have hsides := countP_sides (fun a b h => c.congr _ _ k (hkey a b h)) left right
  omega

end Keyed

theorem eq_of_countP_le_one (h : l.countP p ≤ 1) (ha : a ∈ l) (hb : b ∈ l) (pa : p a = true)
    (pb : p b = true) : a = b := by
  rw [countP_eq_length_filter] at h
  have ha' := mem_filter.mpr ⟨ha, pa⟩
  have hb' := mem_filter.mpr ⟨hb, pb⟩
  match hf : l.filter p, h with
  | [], _ => simp [hf] at ha'
  | [x], _ =>
    rw [hf] at ha' hb'
    rw [mem_singleton.mp ha', mem_singleton.mp hb']

/-- Lists with at most one element of each key are one-sided exactly if elements with the same key
are the same. -/
theorem oneSided_iff_of_single (hkey : ∀ a b, t.same a b = true → c.same (key a) (key b) = true)
    (hl : ∀ k, left.countP (fun a => c.same (key a) k) ≤ 1)
    (hr : ∀ k, right.countP (fun a => c.same (key a) k) ≤ 1) :
    OneSided t c key left right ↔
      ∀ a ∈ left, ∀ b ∈ right, c.same (key a) (key b) = true → t.same a b = true := by
  have hpos : ∀ {l : List α} {x : α}, x ∈ l → 0 < l.countP (t.same x) := fun hx =>
    countP_pos_iff.mpr ⟨_, hx, t.refl _⟩
  constructor
  · intro h a ha b hb hab
    by_contra hne
    have hnone : right.countP (t.same a) = 0 := by
      refine countP_eq_zero.mpr fun y hy hay => hne ?_
      obtain rfl := eq_of_countP_le_one (hr (key b)) hy hb
        (by rw [← c.congr _ _ _ (hkey a y hay)]; exact hab) (c.refl _)
      exact hay
    have hle := h a ha b hb hab (by have := hpos ha; omega)
    have hb' := hpos hb
    obtain ⟨x, hx, hbx⟩ := countP_pos_iff.mp (show 0 < left.countP (t.same b) by omega)
    obtain rfl := eq_of_countP_le_one (hl (key b)) ha hx hab
      (by rw [← c.congr _ _ _ (hkey b x hbx)]; exact c.refl _)
    rw [t.symm] at hbx
    exact hne hbx
  · intro h a ha b hb hab hlt
    have hsame := h a ha b hb hab
    have := countP_pos_iff.mpr ⟨b, hb, hsame⟩
    have hle : left.countP (t.same a) ≤ left.countP fun x => c.same (key x) (key a) := by
      refine countP_mono_left fun x _ hax => ?_
      rw [c.symm]
      exact hkey a x hax
    have := hl (key a)
    omega

/-- A map that holds how often each element occurs in a list. -/
def Counts (t : KeyTest α) (m : List (α × Nat)) (l : List α) : Prop :=
  ∀ a, (lookup t m a).getD 0 = l.countP (t.same a)

theorem counts_nil (t : KeyTest α) : Counts t [] [] := fun _ => rfl

theorem Counts.upsert (h : Counts t m l) (a : α) :
    Counts t (upsert t 1 (· + 1) m a) (l ++ [a]) := by
  intro b
  rw [lookup_upsert, countP_append, ← h b, countP_singleton, t.symm b a]
  cases t.same a b with
  | false => simp
  | true => cases lookup t m b <;> simp

theorem Counts.any_eq (h : Counts t m l) (a : α) :
    l.any (t.same a) = decide (0 < (lookup t m a).getD 0) := by
  rw [h a, Bool.eq_iff_iff, decide_eq_true_iff, countP_pos_iff, any_eq_true]

theorem Counts.modify (h : Counts t m l) (ha : l.any (t.same a) = true) :
    Counts t (modify t (· - 1) m a) (l.eraseP (t.same a)) := by
  intro b
  have hcount := countP_eraseP (p := t.same b) (fun x y hxy => t.congr_right hxy b) ha
  rw [lookup_modify]
  have hb := h b
  rw [t.symm b a] at hcount
  cases hab : t.same a b with
  | false =>
    rw [hab] at hcount
    simp only [Bool.false_eq_true, if_false] at hcount ⊢
    omega
  | true =>
    rw [hab] at hcount
    simp only [if_true] at hcount ⊢
    cases hl : lookup t m b with
    | none =>
      rw [hl] at hb
      simp only [Option.getD_none] at hb
      omega
    | some n =>
      rw [hl] at hb
      simp only [Option.getD_some] at hb
      simp only [Option.map_some, Option.getD_some]
      omega

end Matching
