import KiteSQL.Lib.KeyedMap
import KiteSQL.Types.Typing

/-! The equality of values is an equivalence, as the keys of a hash map have to be. -/
namespace FloatBits

variable {F : FloatBits} {u v w : Nat}

theorem orderedCmp_congr (h : F.orderedCmp u v = .eq) : F.orderedCmp u w = F.orderedCmp v w := by
  unfold orderedCmp at h ⊢
  cases hu : F.isNan u <;> cases hv : F.isNan v <;> cases hw : F.isNan w <;> simp_all

end FloatBits

namespace KiteSQL.DataValue

variable {x y z : DataValue} {xs ys zs : List DataValue}

theorem eqList_self (ih : ∀ x ∈ xs, eq x x = true) : eqList xs xs = true := by
  induction xs with
  | nil => rfl
  | cons x xs ihx => simp_all [eqList]

theorem eq_self (x : DataValue) : eq x x = true := by
  induction x with
  | tuple xs ih => exact eqList_self ih
  | float32 u => simp [eq, FloatBits.orderedCmp_self]
  | float64 u => simp [eq, FloatBits.orderedCmp_self]
  | decimal d => simp [eq, Decimal.cmp_eq_iff]
  | _ => simp [eq]

theorem eqList_congr (ih : ∀ x ∈ xs, ∀ y z, eq x y = true → eq x z = eq y z)
    (h : eqList xs ys = true) : eqList xs zs = eqList ys zs := by
  induction xs generalizing ys zs with
  | nil =>
    cases ys with
    | nil => rfl
    | cons y ys => cases h
  | cons x xs ihx =>
    cases ys with
    | nil => cases h
    | cons y ys =>
      simp only [eqList, Bool.and_eq_true] at h
      cases zs with
      | nil => rfl
      | cons z zs =>
        rw [eqList, eqList, ih x (by simp) y z h.1, ihx (fun w hw => ih w (by simp [hw])) h.2]

theorem eq_congr (x y z : DataValue) (h : eq x y = true) : eq x z = eq y z := by
  induction x generalizing y z with
  | tuple xs ih =>
    cases y with
    | tuple ys =>
      cases z with
      | tuple zs => exact eqList_congr ih h
      | _ => rfl
    | _ => cases h
  | float32 u =>
    cases y with
    | float32 v =>
      cases z with
      | float32 w => simp only [eq, FloatBits.orderedCmp_congr (of_decide_eq_true h)]
      | _ => rfl
    | _ => cases h
  | float64 u =>
    cases y with
    | float64 v =>
      cases z with
      | float64 w => simp only [eq, FloatBits.orderedCmp_congr (of_decide_eq_true h)]
      | _ => rfl
    | _ => cases h
  | decimal d =>
    cases y with
    | decimal e =>
      cases z with
      | decimal g =>
        have hde : d.toRat = e.toRat := (Decimal.cmp_eq_iff d e).mp (of_decide_eq_true h)
        simp only [eq, Decimal.cmp_eq_iff, hde]
      | _ => rfl
    | _ => cases h
  | utf8 s ty u =>
    cases y with
    | utf8 s' ty' u' =>
      have hs : s = s' := of_decide_eq_true h
      subst hs
      cases z <;> rfl
    | _ => cases h
  | time32 v p =>
    cases y with
    | time32 v' p' =>
      have hv : v = v' := of_decide_eq_true h
      subst hv
      cases z <;> rfl
    | _ => cases h
  | time64 v p zone =>
    cases y with
    | time64 v' p' zone' =>
      have hv : v = v' := of_decide_eq_true h
      subst hv
      cases z <;> rfl
    | _ => cases h
  | parameter i ty =>
    cases y with
    | parameter j ty' =>
      obtain ⟨rfl, rfl⟩ := of_decide_eq_true h
      rfl
    | _ => cases h
  | null =>
    cases y with
    | null => rfl
    | _ => cases h
  | _ =>
    cases y with
    | _ => first | cases h | rw [of_decide_eq_true h]

/-- Lists of values as the keys of a hash map. -/
def listTest : KeyedMap.KeyTest (List DataValue) where
  same := eqList
  refl := fun _ => eqList_self fun x _ => eq_self x
  congr := fun _ _ _ h => eqList_congr (fun x _ => eq_congr x) h

theorem isNull_of_eq (h : eq x y = true) : x.isNull = y.isNull := by
  cases x <;> cases y <;> simp_all [eq, isNull]

theorem any_isNull_of_eqList (h : eqList xs ys = true) : xs.any isNull = ys.any isNull := by
  induction xs generalizing ys with
  | nil => cases ys <;> simp_all [eqList]
  | cons x xs ih =>
    cases ys with
    | nil => cases h
    | cons y ys =>
      simp only [eqList, Bool.and_eq_true] at h
      rw [List.any_cons, List.any_cons, isNull_of_eq h.1, ih h.2]

end KiteSQL.DataValue
