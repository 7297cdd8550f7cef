import KiteSQL.Types.KeyOrder
import KiteSQL.Types.Typing

/-! The partial comparison of values is antisymmetric and transitive. -/
namespace KiteSQL.DataValue

open Option List

variable {x y z : DataValue} {xs ys zs : List DataValue} {a b : Ordering}

/-- In a transitive order, the first of two comparisons that is strict decides. -/
theorem compare_eq_then {β : Type} [Ord β] [Std.TransOrd β] {u v w : β}
    (huv : (compare u v).isLE = true) (hvw : (compare v w).isLE = true) :
    compare u w = (compare u v).then (compare v w) := by
  cases hu : compare u v with
  | gt => simp [hu] at huv
  | lt => exact Std.TransCmp.lt_of_lt_of_isLE hu hvw
  | eq => exact Std.TransCmp.congr_left hu

theorem tupleElementPartialCmp_trans
    (ih : ∀ a b, partialCmp x y = some a → partialCmp y z = some b → a.isLE → b.isLE →
      partialCmp x z = some (a.then b))
    (hxy : tupleElementPartialCmp x y = some a) (hyz : tupleElementPartialCmp y z = some b)
    (ha : a.isLE) (hb : b.isLE) : tupleElementPartialCmp x z = some (a.then b) := by
  rw [tupleElementPartialCmp] at hxy hyz ⊢
  cases nx : x.isNull with
  | true =>
    obtain rfl := isNull_iff.mp nx
    cases ny : y.isNull with
    | true =>
      obtain rfl := isNull_iff.mp ny
      cases hxy
      rw [hyz]
      rfl
    | false =>
      rw [nullsLast_null_left ny] at hxy
      cases hxy
      cases ha
  | false =>
    cases ny : y.isNull with
    | true =>
      obtain rfl := isNull_iff.mp ny
      rw [nullsLast_null_right nx] at hxy
      cases hxy
      cases nz : z.isNull with
      | true =>
        obtain rfl := isNull_iff.mp nz
        rw [nullsLast_null_right nx]
        rfl
      | false =>
        rw [nullsLast_null_left nz] at hyz
        cases hyz
        cases hb
    | false =>
      rw [nullsLast_of_ne nx ny] at hxy
      cases nz : z.isNull with
      | true =>
        obtain rfl := isNull_iff.mp nz
        rw [nullsLast_null_right ny] at hyz
        cases hyz
        rw [nullsLast_null_right nx]
        cases a <;> first | rfl | cases ha
      | false =>
        rw [nullsLast_of_ne ny nz] at hyz
        rw [nullsLast_of_ne nx nz]
        exact ih a b hxy hyz ha hb

/-- Two tuples are compared at their heads, and after equal heads at their tails. -/
theorem tuplePartialCmp_cons {b c : Bool} :
    tuplePartialCmp (x :: xs) (y :: ys) b c =
      (tupleElementPartialCmp x y).bind fun o =>
        if o = .eq then tuplePartialCmp xs ys b c else some o := by
  rw [tuplePartialCmp, tupleElementPartialCmp]
  cases nullsLast x y (partialCmp x y) with
  | none => rfl
  | some o => cases o <;> rfl

/-- A comparison of tuples is decided by its first component that is not equal. -/
theorem tuplePartialCmp_trans
    (ih : ∀ x ∈ xs, ∀ y z a b, partialCmp x y = some a → partialCmp y z = some b → a.isLE →
      b.isLE → partialCmp x z = some (a.then b)) (hxy : tuplePartialCmp xs ys false false = some a)
    (hyz : tuplePartialCmp ys zs false false = some b) (ha : a.isLE) (hb : b.isLE) :
    tuplePartialCmp xs zs false false = some (a.then b) := by
  induction xs generalizing ys zs with
  | nil =>
    obtain _ | ⟨y, ys⟩ := ys
    · cases hxy
      exact hyz
    · obtain _ | ⟨z, zs⟩ := zs
      · cases hyz
        cases hb
      · cases hxy
        rfl
  | cons x xs ihs =>
    obtain _ | ⟨y, ys⟩ := ys
    · cases hxy
      cases ha
    · obtain _ | ⟨z, zs⟩ := zs
      · cases hyz
        cases hb
      · rw [tuplePartialCmp_cons] at hxy hyz ⊢
        obtain ⟨o, ho, hxy⟩ := bind_eq_some_iff.mp hxy
        obtain ⟨o', ho', hyz⟩ := bind_eq_some_iff.mp hyz
        have hle : o.isLE = true := by
          split at hxy
          · next he => rw [he]; rfl
          · cases hxy
            exact ha
        have hle' : o'.isLE = true := by
          split at hyz
          · next he => rw [he]; rfl
          · cases hyz
            exact hb
        have htrans := tupleElementPartialCmp_trans (ih x mem_cons_self y z) ho ho' hle hle'
        rw [htrans, bind_some]
        cases o with
        | gt => cases hle
        | lt =>
          cases hxy
          rfl
        | eq =>
          cases o' with
          | gt => cases hle'
          | lt =>
            cases hyz
            cases a <;> first | rfl | cases ha
          | eq => exact ihs (fun x hx => ih x (mem_cons_of_mem _ hx)) hxy hyz

/-- Where a value is not above a second one and that not above a third, the first is not above
the third. -/
theorem partialCmp_trans (hxy : partialCmp x y = some a) (hyz : partialCmp y z = some b)
    (ha : a.isLE) (hb : b.isLE) : partialCmp x z = some (a.then b) := by
  induction x generalizing y z a b with
  | tuple xs ih =>
    cases y with
    | tuple ys =>
      cases z with
      | tuple zs =>
        exact tuplePartialCmp_trans (fun x hx y z a b => ih x hx) hxy hyz ha hb
      | _ => simp [partialCmp] at hyz
    | _ => simp [partialCmp] at hxy
  | _ =>
    cases y <;> simp [partialCmp] at hxy <;> cases z <;> simp [partialCmp] at hyz <;>
      subst hxy hyz <;>
      simp only [partialCmp, FloatBits.orderedCmp_eq_compare_place, Decimal.cmp_eq_compare_toRat,
        some.injEq] at ha hb ⊢ <;>
      first
      | exact compare_eq_then ha hb
      | rfl

theorem tupleElementPartialCmp_swap (ih : partialCmp y x = (partialCmp x y).map .swap) :
    tupleElementPartialCmp y x = (tupleElementPartialCmp x y).map .swap := by
  rw [tupleElementPartialCmp, tupleElementPartialCmp]
  cases nx : x.isNull with
  | true =>
    obtain rfl := isNull_iff.mp nx
    cases ny : y.isNull with
    | true =>
      obtain rfl := isNull_iff.mp ny
      rfl
    | false =>
      rw [nullsLast_null_left ny, nullsLast_null_right ny]
      rfl
  | false =>
    cases ny : y.isNull with
    | true =>
      obtain rfl := isNull_iff.mp ny
      rw [nullsLast_null_left nx, nullsLast_null_right nx]
      rfl
    | false =>
      rw [nullsLast_of_ne nx ny, nullsLast_of_ne ny nx]
      exact ih

theorem tuplePartialCmp_swap (ih : ∀ x ∈ xs, ∀ y, partialCmp y x = (partialCmp x y).map .swap)
    {b c : Bool} : tuplePartialCmp ys xs c b = (tuplePartialCmp xs ys b c).map .swap := by
  induction xs generalizing ys with
  | nil => cases ys <;> cases b <;> rfl
  | cons x xs ihs =>
    obtain _ | ⟨y, ys⟩ := ys
    · cases c <;> rfl
    · rw [tuplePartialCmp_cons, tuplePartialCmp_cons,
        tupleElementPartialCmp_swap (ih x mem_cons_self y),
        ihs fun x hx => ih x (mem_cons_of_mem _ hx)]
      cases tupleElementPartialCmp x y with
      | none => rfl
      | some o => cases o <;> rfl

/-- A comparison the other way gives the opposite. -/
theorem partialCmp_swap (x y : DataValue) : partialCmp y x = (partialCmp x y).map .swap := by
  induction x generalizing y with
  | tuple xs ih =>
    cases y with
    | tuple ys => exact tuplePartialCmp_swap ih
    | _ => rfl
  | _ =>
    cases y <;>
      first
      | rfl
      | simp only [partialCmp, FloatBits.orderedCmp_eq_compare_place, map_some,
          Decimal.cmp_eq_compare_toRat]
        exact congrArg some Std.OrientedCmp.eq_swap

end KiteSQL.DataValue
