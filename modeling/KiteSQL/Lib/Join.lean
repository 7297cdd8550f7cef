import Mathlib.Tactic

/-! Joins of two lists on a relation between their elements, as bags of pairs. -/
namespace Join

open List

variable {α β : Type} {p : α → β → Bool} {f : α → Bool} {g : β → Bool} {a : α} {b : β}
  {l l₁ l₂ : List α} {r r₁ r₂ : List β} {q : α → β → Bool} {xs : List α}

/-- The pairs that match. -/
def pairs (p : α → β → Bool) (l : List α) (r : List β) : List (Option α × Option β) :=
  l.flatMap fun a => (r.filter (p a)).map fun b => (some a, some b)

/-- The elements of the left list without a partner. -/
def loneLeft (p : α → β → Bool) (l : List α) (r : List β) : List (Option α × Option β) :=
  (l.filter fun a => !r.any (p a)).map fun a => (some a, none)

/-- The elements of the right list without a partner. -/
def loneRight (p : α → β → Bool) (l : List α) (r : List β) : List (Option α × Option β) :=
  (r.filter fun b => !l.any (p · b)).map fun b => (none, some b)

/-- A join that keeps what it is told to keep of the elements without a partner. -/
def join (keepLeft keepRight : Bool) (p : α → β → Bool) (l : List α) (r : List β) :
    List (Option α × Option β) :=
  pairs p l r ++ ((if keepLeft then loneLeft p l r else []) ++
    (if keepRight then loneRight p l r else []))

theorem pairs_cons_left : pairs p (a :: l) r =
    ((r.filter (p a)).map fun b => (some a, some b)) ++ pairs p l r := rfl

theorem join_inner : join false false p l r = pairs p l r := by simp [join]

theorem join_leftOuter : join true false p l r = pairs p l r ++ loneLeft p l r := by simp [join]

theorem join_rightOuter : join false true p l r = pairs p l r ++ loneRight p l r := by
  simp [join]

theorem pairs_sublist (h : l₁.Sublist l₂) : (pairs p l₁ r).Sublist (pairs p l₂ r) := by
  induction h with
  | slnil => exact .refl _
  | cons a _ ih => exact ih.trans (sublist_append_right _ _)
  | cons_cons a _ ih => exact (Sublist.refl _).append ih

theorem pairs_sublist_right (h : r₁.Sublist r₂) : (pairs p l r₁).Sublist (pairs p l r₂) := by
  induction l with
  | nil => exact .refl _
  | cons a l ih => exact ((h.filter _).map _).append ih

theorem loneLeft_sublist (h : l₁.Sublist l₂) : (loneLeft p l₁ r).Sublist (loneLeft p l₂ r) :=
  (h.filter _).map _

theorem loneRight_sublist (h : r₁.Sublist r₂) : (loneRight p l r₁).Sublist (loneRight p l r₂) :=
  (h.filter _).map _

/-- Seen from the right list, the same pairs. -/
theorem pairs_swap : ((pairs (fun b a => p a b) r l).map Prod.swap).Perm (pairs p l r) := by
  induction l with
  | nil =>
    have hnil : pairs (fun b a => p a b) r ([] : List α) = [] := by
      simp [pairs]
    rw [hnil]
    rfl
  | cons a l ih =>
    rw [pairs_cons_left]
    refine .trans ?_ (ih.append_left _)
    clear ih
    induction r with
    | nil => exact .refl _
    | cons b r ihr =>
      rw [pairs_cons_left, pairs_cons_left, map_append, map_append]
      by_cases hb : p a b
      · rw [filter_cons_of_pos (by simpa using hb), filter_cons_of_pos hb]
        refine .trans (.append_left _ ihr) ?_
        simp only [map_cons, cons_append, Prod.swap_prod_mk]
        exact .cons _ (perm_append_comm_assoc _ _ _)
      · rw [filter_cons_of_neg (by simpa using hb), filter_cons_of_neg hb]
        exact .trans (.append_left _ ihr) (perm_append_comm_assoc _ _ _)

theorem loneRight_swap : (loneLeft (fun b a => p a b) r l).map Prod.swap = loneRight p l r := by
  simp [loneLeft, loneRight, Function.comp_def]

/-- Every element that is kept stands in some row of the join. -/
theorem length_le_leftOuter : l.length ≤ (join true false p l r).length := by
  rw [join_leftOuter]
  induction l with
  | nil => exact Nat.zero_le _
  | cons a l ih =>
    rw [pairs_cons_left]
    by_cases ha : r.any (p a)
    · obtain ⟨b, hb, hab⟩ := any_eq_true.mp ha
      have hpos : 0 < (r.filter (p a)).length :=
        length_pos_of_mem (mem_filter.mpr ⟨hb, hab⟩)
      have hlone : loneLeft p (a :: l) r = loneLeft p l r := by
        simp only [loneLeft, filter_cons, ha, Bool.not_true, Bool.false_eq_true, if_false]
      rw [hlone]
      simp only [length_cons, length_append, length_map] at ih ⊢
      omega
    · have hlone : loneLeft p (a :: l) r = (some a, none) :: loneLeft p l r := by
        simp only [loneLeft, filter_cons, ha, Bool.not_false, if_true, map_cons]
      rw [hlone]
      simp only [length_cons, length_append, length_map] at ih ⊢
      omega

theorem rightOuter_swap :
    ((join true false (fun b a => p a b) r l).map Prod.swap).Perm (join false true p l r) := by
  rw [join_leftOuter, join_rightOuter, map_append, loneRight_swap]
  exact pairs_swap.append_right _

theorem length_le_rightOuter : r.length ≤ (join false true p l r).length := by
  rw [← rightOuter_swap.length_eq, length_map]
  exact length_le_leftOuter

/-- Fewer elements of the side that is kept give fewer rows. -/
theorem leftOuter_sublist (h : l₁.Sublist l₂) :
    (join true false p l₁ r).Sublist (join true false p l₂ r) := by
  rw [join_leftOuter, join_leftOuter]
  exact (pairs_sublist h).append (loneLeft_sublist h)

theorem rightOuter_sublist (h : r₁.Sublist r₂) :
    (join false true p l r₁).Sublist (join false true p l r₂) := by
  rw [join_rightOuter, join_rightOuter]
  exact (pairs_sublist_right h).append (loneRight_sublist h)

/-- The rows of a join in the order in which the right elements are met. -/
def byRight (keepRight : Bool) (p : α → β → Bool) (l : List α) (r : List β) :
    List (Option α × Option β) :=
  r.flatMap fun b => ((l.filter (p · b)).map fun a => (some a, some b)) ++
    if keepRight && (l.filter (p · b)).isEmpty then [(none, some b)] else []

theorem pairs_cons_right : (pairs p l (b :: r)).Perm
    (((l.filter (p · b)).map fun a => (some a, some b)) ++ pairs p l r) := by
  refine pairs_swap.symm.trans ?_
  rw [pairs_cons_left, map_append, map_map]
  exact pairs_swap.append_left _

theorem loneRight_cons : loneRight p l (b :: r) =
    (if (l.filter (p · b)).isEmpty then [(none, some b)] else []) ++ loneRight p l r := by
  have hany : (l.filter (p · b)).isEmpty = !l.any (p · b) := by
    rw [Bool.eq_iff_iff]
    simp
  rw [hany, loneRight, filter_cons]
  cases l.any (p · b) <;> rfl

theorem byRight_perm (keepRight : Bool) :
    (byRight keepRight p l r).Perm (join false keepRight p l r) := by
  induction r with
  | nil => simp [byRight, join, pairs, loneRight]
  | cons b r ih =>
    have hcons : byRight keepRight p l (b :: r) =
        (((l.filter (p · b)).map fun a => (some a, some b)) ++
          if keepRight && (l.filter (p · b)).isEmpty then [(none, some b)] else []) ++
          byRight keepRight p l r := rfl
    rw [hcons]
    refine (ih.append_left _).trans ?_
    cases keepRight with
    | false =>
      rw [join_inner, join_inner]
      simpa using pairs_cons_right.symm
    | true =>
      rw [join_rightOuter, join_rightOuter, loneRight_cons, Bool.true_and]
      refine .trans ?_ (pairs_cons_right.symm.append_right _)
      rw [append_assoc, append_assoc]
      exact (perm_append_comm_assoc _ _ _).append_left _

/-- The rows of a join in the order in which the left elements are met. -/
def byLeft (keepLeft : Bool) (p : α → β → Bool) (l : List α) (r : List β) :
    List (Option α × Option β) :=
  l.flatMap fun a => ((r.filter (p a)).map fun b => (some a, some b)) ++
    if keepLeft && !r.any (p a) then [(some a, none)] else []

theorem byLeft_perm (keepLeft : Bool) :
    (byLeft keepLeft p l r).Perm (join keepLeft false p l r) := by
  have hlone : (l.flatMap fun a => if keepLeft && !r.any (p a) then
      [((some a, none) : Option α × Option β)] else []) =
      if keepLeft then loneLeft p l r else [] := by
    induction l with
    | nil => cases keepLeft <;> rfl
    | cons a l ih =>
      rw [flatMap_cons, ih, loneLeft, loneLeft, filter_cons]
      cases keepLeft with
      | false => rfl
      | true => cases r.any (p a) <;> rfl
  refine (flatMap_append_perm ..).symm.trans ?_
  rw [hlone]
  simp only [join, Bool.false_eq_true, if_false, append_nil]
  exact .refl _

/-- The pairs of a wider relation are those of the narrower one and the others. -/
theorem pairs_perm_of_imp (h : ∀ a ∈ l, ∀ b ∈ r, q a b = true → p a b = true) :
    (pairs p l r).Perm (pairs q l r ++ pairs (fun a b => p a b && !q a b) l r) := by
  refine .trans (Perm.flatMap_left _ fun a ha => ?_) (flatMap_append_perm ..).symm
  rw [← map_append]
  refine Perm.map _ ((filter_append_perm (q a) (r.filter (p a))).symm.trans (.of_eq ?_))
  rw [filter_filter, filter_filter]
  congr 1
  · refine filter_congr fun b hb => ?_
    cases hq : q a b with
    | false => rfl
    | true => rw [h a ha b hb hq]; rfl
  · simp only [Bool.and_comm]

theorem pairs_eq_nil : pairs p l r = [] ↔ ∀ a ∈ l, ∀ b ∈ r, p a b = false := by
  simp [pairs]

theorem sum_map_eq_of_le {f g : α → Nat} (hle : ∀ x ∈ xs, f x ≤ g x)
    (hsum : (xs.map f).sum = (xs.map g).sum) : ∀ x ∈ xs, f x = g x := by
  induction xs with
  | nil => simp
  | cons x xs ih =>
    rw [forall_mem_cons] at hle ⊢
    have htail : (xs.map f).sum ≤ (xs.map g).sum := sum_le_sum hle.2
    simp only [map_cons, sum_cons] at hsum
    have hhead := hle.1
    exact ⟨by omega, ih hle.2 (by omega)⟩

/-- Where parts of two equal bags can only lose items of a kind, they lose none. -/
theorem countP_eq_of_perm {γ : Type} {f g : α → List γ} {t : γ → Bool}
    (hperm : (xs.flatMap f).Perm (xs.flatMap g)) (hle : ∀ x ∈ xs, (f x).countP t ≤ (g x).countP t) :
    ∀ x ∈ xs, (f x).countP t = (g x).countP t := by
  refine sum_map_eq_of_le hle ?_
  have hcount := hperm.countP_eq t
  rwa [countP_flatMap, countP_flatMap] at hcount

theorem join_keepLeft_perm (keepRight : Bool) :
    (join true keepRight p l r).Perm (join false keepRight p l r ++ loneLeft p l r) := by
  cases keepRight with
  | false => simp [join]
  | true =>
    simp only [join, if_true, Bool.false_eq_true, if_false, nil_append, append_assoc]
    exact perm_append_comm.append_left _

theorem join_congr (kl kr : Bool) (h : ∀ a ∈ l, ∀ b ∈ r, p a b = q a b) :
    join kl kr p l r = join kl kr q l r := by
  have hpairs : pairs p l r = pairs q l r := by
    refine flatMap_congr fun a ha => ?_
    rw [filter_congr (h a ha)]
  have hleft : loneLeft p l r = loneLeft q l r := by
    refine congrArg (map _) (filter_congr fun a ha => ?_)
    rw [Bool.eq_iff_iff]
    simp +contextual [h a ha]
  have hright : loneRight p l r = loneRight q l r := by
    refine congrArg (map _) (filter_congr fun b hb => ?_)
    rw [Bool.eq_iff_iff]
    simp +contextual [h _ _ b hb]
  rw [join, join, hpairs, hleft, hright]

/-- A join of images is the image of a join. -/
theorem join_map {γ δ : Type} {q : γ → δ → Bool} (f : α → γ) (g : β → δ) (kl kr : Bool) :
    join kl kr q (l.map f) (r.map g) =
      (join kl kr (fun a b => q (f a) (g b)) l r).map (Prod.map (Option.map f) (Option.map g)) := by
  have hpairs : pairs q (l.map f) (r.map g) =
      (pairs (fun a b => q (f a) (g b)) l r).map (Prod.map (Option.map f) (Option.map g)) := by
    simp [pairs, flatMap_map, map_flatMap, filter_map, Function.comp_def]
  cases kl <;> cases kr <;>
    simp [join, hpairs, loneLeft, loneRight, filter_map, Function.comp_def]

end Join
