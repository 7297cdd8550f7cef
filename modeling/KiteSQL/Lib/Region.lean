import Mathlib.Tactic

/-! The parts of a map that key prefixes tell apart. -/
namespace Region

open Function

variable {α β : Type} [DecidableEq α] {p k : List α} {m : List α → Option β} {o : Option β} {b : β}

/-- The part of a map whose keys start with `p`. -/
def region (p : List α) (m : List α → Option β) (k : List α) : Option β :=
  if p <+: k then m k else none

theorem region_eq (h : p <+: k) : region p m k = m k := if_pos h

theorem region_eq_some : region p m k = some b ↔ p <+: k ∧ m k = some b := by
  unfold region
  split <;> simp_all

theorem region_update_of_mem (h : p <+: k) : region p (update m k o) = update (region p m) k o := by
  funext k'
  by_cases hk : k' = k
  · subst hk
    rw [region_eq h, update_self, update_self]
  · rw [update_of_ne hk, region, region, update_of_ne hk]

theorem region_update_of_not_mem (h : ¬ p <+: k) : region p (update m k o) = region p m := by
  funext k'
  unfold region
  split
  · next hk =>
    refine update_of_ne ?_ _ _
    rintro rfl
    exact h hk
  · rfl

end Region
