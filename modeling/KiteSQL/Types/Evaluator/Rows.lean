import KiteSQL.Lib.Truth
import KiteSQL.Types.ValueEq
import KiteSQL.Types.KeyOrder
import KiteSQL.Types.Evaluator.Defined

/-! Comparisons of rows against their meaning in a logic with NULL. -/
namespace KiteSQL

open List Bool

/-- A truth value as a value. -/
def DataValue.ofTruth : Option Bool → DataValue
  | some b => .boolean b
  | none => .null

namespace DataValue

variable {x y : DataValue} {xs ys : List DataValue} {t : LogicalType} {ts : List LogicalType}

theorem ofTruth_inj {s t : Option Bool} : ofTruth s = ofTruth t ↔ s = t := by
  cases s <;> cases t <;> simp [ofTruth]

/-- The comparison of two components for equality. -/
def sqlEq (x y : DataValue) : Option Bool :=
  if x.isNull || y.isNull then none else some (eq x y)

theorem nullsLast_of_eq (h : eq x y = true) : nullsLast x y (some .eq) = some .eq := by
  have hn := isNull_of_eq h
  cases hx : x.isNull with
  | true =>
    cases x <;> cases y <;> simp_all [isNull, nullsLast]
  | false => exact nullsLast_of_ne hx (hn ▸ hx)

theorem tuplePartialCmp_of_eqList (hx : Forall₂ Fits xs ts)
    (ih : ∀ x ∈ xs, ∀ t y, Fits x t → eq x y = true → partialCmp x y = some .eq)
    (h : eqList xs ys = true) : tuplePartialCmp xs ys false false = some .eq := by
  induction hx generalizing ys with
  | nil => cases ys <;> simp_all [eqList, tuplePartialCmp]
  | cons hx _ ihs =>
    cases ys with
    | nil => simp [eqList] at h
    | cons y ys =>
      rw [eqList, and_eq_true] at h
      have hcmp := ih _ mem_cons_self _ y hx h.1
      rw [tuplePartialCmp, hcmp, nullsLast_of_eq h.1]
      exact ihs (fun x hm => ih x (mem_cons_of_mem _ hm)) h.2

/-- Values of a type that are equal compare equal. -/
theorem Fits.partialCmp_of_eq (hx : Fits x t) (h : eq x y = true) : partialCmp x y = some .eq := by
  induction x generalizing t y with
  | tuple xs ih =>
    cases y with
    | tuple ys =>
      cases t with
      | tuple ts =>
        exact tuplePartialCmp_of_eqList (fits_tuple_iff.mp hx)
          (fun x hm t y hx h => ih x hm hx h) h
      | _ => cases hx
    | _ => simp [eq] at h
  | parameter => cases hx
  | _ => cases y <;> simp_all [eq, partialCmp]

theorem tuplePartialCmp_isSome (hx : Forall₂ Fits xs ts) (hy : Forall₂ Fits ys ts)
    (ih : ∀ x ∈ xs, ∀ t y, Fits x t → Fits y t → x.isNull = false → y.isNull = false →
      (partialCmp x y).isSome) : (tuplePartialCmp xs ys false false).isSome := by
  induction hx generalizing ys with
  | nil =>
    cases hy
    rfl
  | @cons x t xs ts hx _ ihs =>
    cases hy with
    | @cons y _ ys _ hy hys =>
      have hsome : (nullsLast x y (partialCmp x y)).isSome := by
        cases nx : x.isNull with
        | true =>
          cases x <;> simp [isNull] at nx
          cases y <;> rfl
        | false =>
          cases ny : y.isNull with
          | true =>
            cases y <;> simp [isNull] at ny
            rw [nullsLast_null_right nx]
            rfl
          | false =>
            rw [nullsLast_of_ne nx ny]
            exact ih x mem_cons_self t y hx hy nx ny
      have htail := ihs hys fun x hm => ih x (mem_cons_of_mem _ hm)
      rw [tuplePartialCmp]
      obtain ⟨o, ho⟩ := Option.isSome_iff_exists.mp hsome
      rw [ho]
      cases o <;> simp [htail]

/-- Values of a type that are not NULL can be compared. -/
theorem Fits.partialCmp_isSome (hx : Fits x t) (hy : Fits y t) (nx : x.isNull = false)
    (ny : y.isNull = false) : (partialCmp x y).isSome := by
  induction x generalizing t y with
  | tuple xs ih =>
    cases t with
    | tuple ts =>
      cases y with
      | tuple ys =>
        exact tuplePartialCmp_isSome (fits_tuple_iff.mp hx) (fits_tuple_iff.mp hy)
          fun x hm t y hx hy nx ny => ih x hm hx hy nx ny
      | null => simp [isNull] at ny
      | _ => cases hy
    | _ => cases hx
  | null => simp [isNull] at nx
  | parameter => cases hx
  | _ => cases hx <;> cases hy <;> simp_all [isNull, partialCmp]

section Typed

variable (hx : Forall₂ Fits xs ts) (hy : Forall₂ Fits ys ts)
include hx hy

end Typed

end DataValue

open DataValue

end KiteSQL
