import Mathlib.Tactic

/-! Levels of weighted items in which a full level passes every other item up, and how far the
weighted ranks drift from the ranks of what was put in. -/
namespace Compactor

open List

variable {α : Type}

/-- Every other item, from the second one on if `odd`. -/
def everyOther (odd : Bool) (items : List α) : List α :=
  (items.zipIdx.filter fun item => item.2 % 2 = odd.toNat).map Prod.fst

/-- The weight of the items that satisfy a test, where each level weighs twice the one before. -/
def rank (p : α → Bool) : Nat → List (List α) → Nat
  | _, [] => 0
  | w, level :: levels => w * level.countP p + rank p (2 * w) levels

def weight (w : Nat) (levels : List (List α)) : Nat := rank (fun _ => true) w levels

/-- What a level keeps and what it passes up, where `Lower` are the tests that ranks are for. -/
structure Compacts (Lower : (α → Bool) → Prop) (capacity : Nat)
    (level retained promoted : List α) : Prop where
  length : level.length = retained.length + 2 * promoted.length
  full : capacity ≤ 2 * promoted.length
  above : ∀ p, Lower p → level.countP p ≤ retained.countP p + 2 * promoted.countP p + 1
  below : ∀ p, Lower p → retained.countP p + 2 * promoted.countP p ≤ level.countP p + 1

/-- Compactions from the first level up. -/
inductive Cascade (Lower : (α → Bool) → Prop) (capacity : Nat) :
    List (List α) → List (List α) → Prop where
  | stop (levels) : Cascade Lower capacity levels levels
  | top {level retained promoted levels} : Compacts Lower capacity level retained promoted →
      Cascade Lower capacity [promoted] levels → Cascade Lower capacity [level] (retained :: levels)
  | up {level retained promoted next rest levels} :
      Compacts Lower capacity level retained promoted →
      Cascade Lower capacity ((next ++ promoted) :: rest) levels →
      Cascade Lower capacity (level :: next :: rest) (retained :: levels)

/-- How far ranks may have drifted: `m` compactions of a level of weight `w` moved at least
`w * m * capacity` to the levels above it. -/
inductive Drift (capacity : Nat) : Nat → List (List α) → Nat → Prop where
  | top (w level) : Drift capacity w [level] 0
  | cons {w level levels e} (m : Nat) : w * m * capacity ≤ weight (2 * w) levels →
      Drift capacity (2 * w) levels e → Drift capacity w (level :: levels) (w * m + e)

variable {Lower : (α → Bool) → Prop} {capacity w e : Nat} {p : α → Bool}
  {level level' sorted retained promoted : List α} {levels levels' : List (List α)}

theorem everyOther_cons (odd : Bool) (x : α) (items : List α) :
    everyOther odd (x :: items) =
      if odd then everyOther false items else x :: everyOther true items := by
  have hshift : ∀ k : Nat, ∀ odd : Bool,
      ((items.zipIdx (k + 1)).filter fun item => item.2 % 2 = odd.toNat).map Prod.fst =
        ((items.zipIdx k).filter fun item => item.2 % 2 = (!odd).toNat).map Prod.fst := by
    intro k odd
    induction items generalizing k with
    | nil => rfl
    | cons y items ih =>
      have hparity : ((k + 1) % 2 = odd.toNat) ↔ (k % 2 = (!odd).toNat) := by
        cases odd <;> simp <;> omega
      rw [zipIdx_cons, zipIdx_cons, filter_cons, filter_cons]
      simp only [hparity]
      split <;> simp [ih]
  rw [everyOther, zipIdx_cons, filter_cons]
  cases odd with
  | false =>
    rw [if_pos (by rfl), map_cons, Nat.zero_add, hshift 0 false]
    rfl
  | true =>
    rw [if_neg (by simp), Nat.zero_add, hshift 0 true]
    rfl

/-- In a list whose items satisfy a test up to some place, half of them are passed up. -/
theorem countP_everyOther (odd : Bool) (h : level.Pairwise fun x y => p y = true → p x = true) :
    (everyOther odd level).countP p = (level.countP p + (!odd).toNat) / 2 := by
  induction level generalizing odd with
  | nil => cases odd <;> simp [everyOther]
  | cons x level ih =>
    obtain ⟨hx, hrest⟩ := pairwise_cons.mp h
    rw [everyOther_cons]
    cases hp : p x with
    | false =>
      have hnone : ∀ y ∈ level, ¬ p y = true := by
        intro y hy hpy
        rw [hx y hy hpy] at hp
        cases hp
      have hzero : level.countP p = 0 := countP_eq_zero.mpr hnone
      have ih := fun odd => ih odd hrest
      rw [hzero] at ih
      cases odd <;> simp [hp, hzero, ih]
    | true =>
      have ih := fun odd => ih odd hrest
      cases odd
      · simp [hp, ih]
        omega
      · simp [hp, ih]

theorem length_everyOther (odd : Bool) (items : List α) :
    (everyOther odd items).length = (items.length + (!odd).toNat) / 2 := by
  have h := countP_everyOther (p := fun _ => true) odd
    (pairwise_of_forall (l := items) fun _ _ _ => rfl)
  simpa using h

theorem mem_of_mem_everyOther {odd : Bool} {x : α} (h : x ∈ everyOther odd level) : x ∈ level := by
  obtain ⟨⟨y, k⟩, hy, rfl⟩ := mem_map.mp h
  exact fst_mem_of_mem_zipIdx (mem_of_mem_filter hy)

/-- A sorted level that keeps its last item if there is an odd number of them. -/
theorem compacts_sorted (odd : Bool)
    (hlower : ∀ p, Lower p → sorted.Pairwise fun x y => p y = true → p x = true)
    (hsplit : sorted = level' ++ retained) (heven : level'.length % 2 = 0)
    (hfull : capacity ≤ level'.length) (hperm : sorted.Perm level) :
    Compacts Lower capacity level retained (everyOther odd level') := by
  have hlen := length_everyOther odd level'
  have hbit : (!odd).toNat ≤ 1 := Bool.toNat_le _
  have hcount : ∀ p, Lower p → level.countP p = level'.countP p + retained.countP p ∧
      (everyOther odd level').countP p = (level'.countP p + (!odd).toNat) / 2 := by
    intro p hp
    have hpair := hlower p hp
    rw [hsplit] at hpair
    refine ⟨?_, countP_everyOther odd (pairwise_append.mp hpair).1⟩
    rw [← hperm.countP_eq, hsplit, countP_append]
  refine ⟨?_, by omega, fun p hp => ?_, fun p hp => ?_⟩
  · rw [← hperm.length_eq, hsplit, length_append, hlen]
    omega
  · have hp := hcount p hp
    omega
  · have hp := hcount p hp
    omega

theorem weight_cons (w : Nat) (level : List α) (levels : List (List α)) :
    weight w (level :: levels) = w * level.length + weight (2 * w) levels := by
  rw [weight, rank, countP_true, ← weight]

theorem rank_append_head (p : α → Bool) (w : Nat) :
    rank p w ((level ++ promoted) :: levels) =
      rank p w (level :: levels) + w * promoted.countP p := by
  rw [rank, rank, countP_append, Nat.mul_add]
  omega

/-- The first level does not matter for how far ranks may have drifted. -/
theorem Drift.head (h : Drift capacity w (level :: levels) e) (level' : List α) :
    Drift capacity w (level' :: levels) e := by
  cases h with
  | top => exact .top w level'
  | cons m hm h => exact .cons m hm h

/-- A drift is at most the weight of all items over the capacity, for each level but the last. -/
theorem Drift.mul_le (h : Drift capacity w levels e) :
    e * capacity ≤ (levels.length - 1) * weight w levels := by
  induction h with
  | top => simp
  | @cons w level levels e m hm h ih =>
    obtain ⟨next, rest, rfl⟩ : ∃ next rest, levels = next :: rest := by
      cases h <;> exact ⟨_, _, rfl⟩
    have hle : weight (2 * w) (next :: rest) ≤ weight w (level :: next :: rest) := by
      rw [weight_cons w level]
      omega
    calc (w * m + e) * capacity
        = w * m * capacity + e * capacity := Nat.add_mul _ _ _
      _ ≤ weight (2 * w) (next :: rest) +
          ((next :: rest).length - 1) * weight (2 * w) (next :: rest) := Nat.add_le_add hm ih
      _ = (next :: rest).length * weight (2 * w) (next :: rest) := by
        rw [length_cons, Nat.add_sub_cancel, Nat.add_mul rest.length, Nat.one_mul, Nat.add_comm]
      _ ≤ (next :: rest).length * weight w (level :: next :: rest) := Nat.mul_le_mul_left _ hle

section

variable (h : Compacts Lower capacity level retained promoted)
include h

/-- One compaction: its weight stays, and the ranks move by at most the weight of its level. -/
theorem Compacts.rank_le (hp : Lower p) :
    w * level.countP p ≤ w * retained.countP p + 2 * w * promoted.countP p + w ∧
      w * retained.countP p + 2 * w * promoted.countP p ≤ w * level.countP p + w := by
  have hsum : w * retained.countP p + 2 * w * promoted.countP p =
      w * (retained.countP p + 2 * promoted.countP p) := by ring
  have habove := Nat.mul_le_mul_left w (h.above p hp)
  have hbelow := Nat.mul_le_mul_left w (h.below p hp)
  rw [Nat.mul_add, Nat.mul_one] at habove
  rw [Nat.mul_add w (level.countP p), Nat.mul_one] at hbelow
  omega

/-- What a compaction passes up pays for one more compaction of its level. -/
theorem Compacts.pays {m x : Nat} (hm : w * m * capacity ≤ x) :
    w * (m + 1) * capacity ≤ x + 2 * w * promoted.length := by
  have hfull := Nat.mul_le_mul_left w h.full
  calc w * (m + 1) * capacity
      = w * m * capacity + w * capacity := by ring
    _ ≤ x + w * (2 * promoted.length) := Nat.add_le_add hm hfull
    _ = x + 2 * w * promoted.length := by ring

/-- One compaction below levels that took up what it passed to them. -/
theorem Compacts.drift (tail : List (List α)) (m : Nat) {e' : Nat}
    (hm : w * m * capacity ≤ weight (2 * w) tail) (hd : Drift capacity (2 * w) levels e')
    (hweight : weight (2 * w) levels = weight (2 * w) tail + 2 * w * promoted.length)
    (hrank : ∀ p, Lower p →
      rank p (2 * w) levels + e ≤ rank p (2 * w) tail + 2 * w * promoted.countP p + e' ∧
      rank p (2 * w) tail + 2 * w * promoted.countP p + e ≤ rank p (2 * w) levels + e') :
    Drift capacity w (retained :: levels) (w * (m + 1) + e') ∧
      weight w (retained :: levels) = weight w (level :: tail) ∧
      ∀ p, Lower p →
        rank p w (retained :: levels) + (w * m + e) ≤
            rank p w (level :: tail) + (w * (m + 1) + e') ∧
          rank p w (level :: tail) + (w * m + e) ≤
            rank p w (retained :: levels) + (w * (m + 1) + e') := by
  refine ⟨.cons (m + 1) ?_ hd, ?_, fun p hp => ?_⟩
  · rw [hweight]
    exact h.pays hm
  · have hlen : w * level.length = w * retained.length + 2 * w * promoted.length := by
      rw [h.length]
      ring
    rw [weight_cons, weight_cons, hweight, hlen]
    omega
  · have hmove := h.rank_le (w := w) hp
    have hp := hrank p hp
    rw [rank, rank, Nat.mul_add w m, Nat.mul_one]
    omega

end

/-- Compactions keep the weight and drift the ranks by no more than they account for. -/
theorem Cascade.drift (h : Cascade Lower capacity levels levels') (hd : Drift capacity w levels e) :
    ∃ e', Drift capacity w levels' e' ∧ weight w levels' = weight w levels ∧
      ∀ p, Lower p → rank p w levels' + e ≤ rank p w levels + e' ∧
        rank p w levels + e ≤ rank p w levels' + e' := by
  induction h generalizing w e with
  | stop levels => exact ⟨e, hd, rfl, fun p _ => ⟨Nat.le_refl _, Nat.le_refl _⟩⟩
  | @top level retained promoted levels hc _ ih =>
    obtain ⟨e', hd', hweight, hrank⟩ := ih (.top (2 * w) promoted)
    obtain rfl : e = 0 := by
      cases hd with
      | top => rfl
      | cons m hm h => cases h
    have hstep := hc.drift (e := 0) (w := w) [] 0 (by simp) hd'
      (by rw [hweight]; simp [weight, rank]) (by simpa [rank] using hrank)
    exact ⟨_, by simpa using hstep⟩
  | @up level retained promoted next rest levels hc _ ih =>
    cases hd with
    | @cons _ _ _ e m hm hd =>
      obtain ⟨e', hd', hweight, hrank⟩ := ih (hd.head (next ++ promoted))
      refine ⟨_, hc.drift (next :: rest) m hm hd' ?_ ?_⟩
      · rw [hweight, weight_cons, weight_cons, length_append, Nat.mul_add]
        omega
      · simpa only [rank_append_head] using hrank

end Compactor
