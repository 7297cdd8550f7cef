import Mathlib.Data.Prod.Lex
import Mathlib.Order.Interval.Set.LinearOrder
import Mathlib.Order.WithBot
import Mathlib.Tactic

/-! Linear orders, the places between their points, and points as the places right before them. -/

/-- The linear order of a lawful comparison. -/
@[reducible] def linearOrderOfOrd (α : Type) [Ord α] [Std.TransOrd α] [Std.LawfulEqOrd α] :
    LinearOrder α where
  le a b := (compare a b).isLE = true
  lt a b := compare a b = .lt
  le_refl a := by simp [Std.ReflCmp.compare_self]
  le_trans a b c := Std.TransCmp.isLE_trans
  lt_iff_le_not_ge a b := by
    have hswap : compare b a = (compare a b).swap := Std.OrientedCmp.eq_swap
    rw [hswap]
    cases compare a b <;> simp
  le_antisymm a b h h' := by
    have hswap : compare b a = (compare a b).swap := Std.OrientedCmp.eq_swap
    have heq : compare a b = .eq := by
      rw [hswap] at h'
      revert h h'
      cases compare a b <;> simp
    exact Std.LawfulEqCmp.eq_of_compare heq
  le_total a b := by
    have hswap : compare b a = (compare a b).swap := Std.OrientedCmp.eq_swap
    rw [hswap]
    cases compare a b <;> simp
  toDecidableLE := fun _ _ => inferInstanceAs (Decidable (_ = true))
  toOrd := inferInstance
  compare_eq_compareOfLessAndEq a b := by
    by_cases hlt : compare a b = .lt
    · exact hlt.trans (if_pos hlt).symm
    · by_cases heq : a = b
      · subst heq
        exact Std.ReflCmp.compare_self.trans ((if_neg hlt).trans (if_pos rfl)).symm
      · have hne : compare a b ≠ .eq := fun h => heq (Std.LawfulEqCmp.eq_of_compare h)
        have hgt : compare a b = .gt := by
          revert hlt hne
          cases compare a b <;> simp
        exact hgt.trans ((if_neg hlt).trans (if_neg heq)).symm

theorem StrictMono.compare_eq {α β : Type} [LinearOrder α] [LinearOrder β] {f : α → β}
    (hf : StrictMono f) (a b : α) : compare (f a) (f b) = compare a b := by
  rcases lt_trichotomy a b with h | rfl | h
  · rw [compare_lt_iff_lt.mpr h, compare_lt_iff_lt.mpr (hf h)]
  · rw [compare_eq_iff_eq.mpr rfl, compare_eq_iff_eq.mpr rfl]
  · rw [compare_gt_iff_gt.mpr h, compare_gt_iff_gt.mpr (hf h)]

/-- A place between points: before all of them, right before or right after one, or behind all. -/
abbrev Cut (α : Type) := WithBot (WithTop (α ×ₗ Bool))

namespace Cut

variable {α : Type} [LinearOrder α] {a b : α}

def before (a : α) : Cut α := ((toLex (a, false) : α ×ₗ Bool) : WithTop (α ×ₗ Bool))

def after (a : α) : Cut α := ((toLex (a, true) : α ×ₗ Bool) : WithTop (α ×ₗ Bool))

@[simp] theorem before_le_before : before a ≤ before b ↔ a ≤ b := by
  simp [before, Prod.Lex.toLex_le_toLex, ← le_iff_lt_or_eq]

@[simp] theorem before_le_after : before a ≤ after b ↔ a ≤ b := by
  simp [before, after, Prod.Lex.toLex_le_toLex, ← le_iff_lt_or_eq]

@[simp] theorem after_le_before : after a ≤ before b ↔ a < b := by
  simp [before, after, Prod.Lex.toLex_le_toLex]

@[simp] theorem after_le_after : after a ≤ after b ↔ a ≤ b := by
  simp [after, Prod.Lex.toLex_le_toLex, ← le_iff_lt_or_eq]

@[simp] theorem before_lt_before : before a < before b ↔ a < b := by
  rw [← not_le, before_le_before, not_le]

@[simp] theorem before_lt_after : before a < after b ↔ a ≤ b := by
  rw [← not_le, after_le_before, not_lt]

@[simp] theorem after_lt_before : after a < before b ↔ a < b := by
  rw [← not_le, before_le_after, not_le]

@[simp] theorem after_lt_after : after a < after b ↔ a < b := by
  rw [← not_le, after_le_after, not_le]

@[simp] theorem bot_lt_before : ⊥ < before a := WithBot.bot_lt_coe _

@[simp] theorem bot_lt_after : ⊥ < after a := WithBot.bot_lt_coe _

@[simp] theorem before_lt_top : before a < ⊤ := by
  simp [before, lt_top_iff_ne_top]

@[simp] theorem after_lt_top : after a < ⊤ := by
  simp [after, lt_top_iff_ne_top]

/-- There is no place between those before and after a point. -/
theorem after_le_iff {c : Cut α} : after a ≤ c ↔ before a < c := by
  induction c using WithBot.recBotCoe with
  | bot => simp [after, before]
  | coe c =>
    induction c using WithTop.recTopCoe with
    | top => exact ⟨fun _ => before_lt_top, fun _ => le_top⟩
    | coe c =>
      obtain ⟨b, d⟩ := c
      cases d
      · exact after_le_before.trans before_lt_before.symm
      · exact after_le_after.trans before_lt_after.symm

theorem mem_Ico_point {c : Cut α} : c ∈ Set.Ico (before a) (after a) ↔ c = before a := by
  rw [Set.mem_Ico, ← not_le, after_le_iff, not_lt, ← le_antisymm_iff, eq_comm]

theorem compare_before (a b : α) : compare (before a) (before b) = compare a b :=
  StrictMono.compare_eq (fun _ _ h => before_lt_before.mpr h) a b

theorem compare_after (a b : α) : compare (after a) (after b) = compare a b :=
  StrictMono.compare_eq (fun _ _ h => after_lt_after.mpr h) a b

theorem compare_before_after (a b : α) : compare (before a) (after b) = (compare a b).then .lt := by
  rcases lt_trichotomy a b with h | rfl | h
  · rw [compare_lt_iff_lt.mpr h, compare_lt_iff_lt.mpr (before_lt_after.mpr h.le)]
    rfl
  · rw [compare_eq_iff_eq.mpr rfl, compare_lt_iff_lt.mpr (before_lt_after.mpr le_rfl)]
    rfl
  · rw [compare_gt_iff_gt.mpr h, compare_gt_iff_gt.mpr (after_lt_before.mpr h)]
    rfl

theorem compare_after_before (a b : α) : compare (after a) (before b) = (compare a b).then .gt := by
  rw [Std.OrientedOrd.eq_swap, compare_before_after, Std.OrientedOrd.eq_swap (a := b)]
  cases compare a b <;> rfl

end Cut
