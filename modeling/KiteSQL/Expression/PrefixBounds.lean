import KiteSQL.Expression.RangeSet
import KiteSQL.Types.PartialOrder

/-! The keys of an index that a scope has, where a bound stands for all keys that it begins. -/
namespace KiteSQL

namespace DataValue

/-- A key of several columns is compared by the columns that the other value gives. -/
def keyCmp : DataValue → DataValue → Option Ordering
  | .tuple key, .tuple values => tuplePartialCmp (key.take values.length) values false false
  | key, value => tupleElementPartialCmp key value

/-- The place behind the keys that a value begins, or the one before them, as a key that compares
with the value by `order` sees it. -/
def side (behind : Bool) (order : Option Ordering) : Option Ordering :=
  order.map (·.then (if behind then .lt else .gt))

/-- A key behind the second place is behind the first one, and a key before the first place is
before the second one. -/
def Leads (s t : Bool) (order order' : Option Ordering) : Prop :=
  (side t order' = some .gt → side s order = some .gt) ∧
    (side s order = some .lt → side t order' = some .lt)

variable {v w key : DataValue} {vs ws : List DataValue} {s t : Bool} {o : Ordering}

/-- Where a strict order is seen, it is seen from both sides. -/
theorem leads_of_strict {order order' : Option Ordering}
    (h : (∀ o ≠ .lt, order' = some o → order = some .gt) ∧
      ∀ o ≠ .gt, order = some o → order' = some .lt) : Leads s t order order' := by
  revert h
  rcases order with _ | _ | _ | _ <;> rcases order' with _ | _ | _ | _ <;> simp [Leads, side]

theorem leads_self (h : s = true → t = true) (order : Option Ordering) : Leads s t order order := by
  cases s <;> cases t <;> rcases order with _ | _ | _ | _ <;> simp_all [Leads, side]

section Elements

variable {x y z : DataValue} {a b : Ordering}

theorem elementCmp_swap (h : tupleElementPartialCmp x y = some o) :
    tupleElementPartialCmp y x = some o.swap := by
  rw [tupleElementPartialCmp_swap (partialCmp_swap x y), h]
  rfl

theorem elementCmp_trans (hxy : tupleElementPartialCmp x y = some a)
    (hyz : tupleElementPartialCmp y z = some b) (ha : a.isLE) (hb : b.isLE) :
    tupleElementPartialCmp x z = some (a.then b) :=
  tupleElementPartialCmp_trans (fun _ _ => partialCmp_trans) hxy hyz ha hb

end Elements

theorem elementCmp_strict (h : tupleElementPartialCmp v w = some .lt) (x : DataValue) :
    (∀ o ≠ .lt, tupleElementPartialCmp x w = some o → tupleElementPartialCmp x v = some .gt) ∧
      ∀ o ≠ .gt, tupleElementPartialCmp x v = some o → tupleElementPartialCmp x w = some .lt := by
  constructor
  · intro o ho hx
    exact elementCmp_swap (elementCmp_trans h (elementCmp_swap hx) rfl (by cases o <;> simp_all))
  · intro o ho hx
    rw [elementCmp_trans hx h (by cases o <;> simp_all) rfl]
    cases o <;> first | rfl | exact absurd rfl ho

theorem elementCmp_congr (h : tupleElementPartialCmp v w = some .eq) (x : DataValue) :
    tupleElementPartialCmp x v = tupleElementPartialCmp x w := by
  have hle : ∀ {a b o}, tupleElementPartialCmp a b = some .eq →
      tupleElementPartialCmp x a = some o → tupleElementPartialCmp x b = some o := by
    intro a b o hab hx
    cases o with
    | gt =>
      exact elementCmp_swap (elementCmp_trans (elementCmp_swap hab) (elementCmp_swap hx) rfl rfl)
    | _ => exact elementCmp_trans hx hab rfl rfl
  exact Option.ext fun o => ⟨hle h, hle (elementCmp_swap h)⟩

theorem keyCmp_cons (x v : DataValue) (key vs : List DataValue) :
    keyCmp (.tuple (x :: key)) (.tuple (v :: vs)) =
      (tupleElementPartialCmp x v).bind fun o =>
        if o = .eq then keyCmp (.tuple key) (.tuple vs) else some o := by
  rw [keyCmp, List.length_cons, List.take_succ_cons, tuplePartialCmp_cons]
  rfl

/-- The columns that two tuples share decide, then the sides of the shorter one. -/
theorem tuplePartialCmp_keys (h : tuplePartialCmp vs ws s t = some o) (key : List DataValue) :
    (o = .eq → keyCmp (.tuple key) (.tuple vs) = keyCmp (.tuple key) (.tuple ws)) ∧
    (o = .lt → Leads s t (keyCmp (.tuple key) (.tuple vs)) (keyCmp (.tuple key) (.tuple ws))) := by
  induction vs generalizing ws key with
  | nil =>
    obtain _ | ⟨w, ws⟩ := ws
    · cases h
      exact ⟨fun _ => rfl, by simp⟩
    · cases s <;> cases h <;> simp [Leads, keyCmp, tuplePartialCmp, side]
  | cons v vs ih =>
    obtain _ | ⟨w, ws⟩ := ws
    · cases t <;> cases h <;> simp [Leads, keyCmp, tuplePartialCmp, side]
    · rw [tuplePartialCmp_cons] at h
      obtain ⟨p, hp, h⟩ := Option.bind_eq_some_iff.mp h
      obtain _ | ⟨x, key⟩ := key
      · simp [Leads, keyCmp, tuplePartialCmp, side]
      · rw [keyCmp_cons, keyCmp_cons]
        cases p with
        | gt =>
          cases h
          simp
        | eq =>
          rw [elementCmp_congr hp x]
          obtain ⟨heq, hlt⟩ := ih h key
          refine ⟨fun ho => by rw [heq ho], fun ho => ?_⟩
          rcases tupleElementPartialCmp x w with _ | _ | _ | _
          · simp [Leads, side]
          · simp [Leads, side]
          · exact hlt ho
          · simp [Leads, side]
        | lt =>
          cases h
          refine ⟨by simp, fun _ => leads_of_strict ⟨fun o ho hx => ?_, fun o ho hx => ?_⟩⟩
          · obtain ⟨p, hp', -⟩ := Option.bind_eq_some_iff.mp hx
            have hne : p ≠ .lt := by
              rintro rfl
              simp_all
            rw [(elementCmp_strict hp x).1 p hne hp']
            rfl
          · obtain ⟨p, hp', -⟩ := Option.bind_eq_some_iff.mp hx
            have hne : p ≠ .gt := by
              rintro rfl
              simp_all
            rw [(elementCmp_strict hp x).2 p hne hp']
            rfl

/-- Beside tuples only NULL is compared, and found greater. -/
theorem tupleElementPartialCmp_tuple (h : ∀ vs, v ≠ .tuple vs) (vs : List DataValue) :
    tupleElementPartialCmp v (.tuple vs) = (if v.isNull then some .gt else none) ∧
      tupleElementPartialCmp (.tuple vs) v = if v.isNull then some .lt else none := by
  cases v with
  | tuple vs => exact absurd rfl (h vs)
  | _ => exact ⟨rfl, rfl⟩

theorem keyCmp_of_ne (h : ∀ vs ws, key = .tuple vs → v ≠ .tuple ws) :
    keyCmp key v = tupleElementPartialCmp key v := by
  unfold keyCmp
  split
  · exact absurd rfl (h _ _ rfl)
  · rfl

theorem rangeValueCmp_of_ne (h : ∀ vs ws, v = .tuple vs → w ≠ .tuple ws) :
    Bound.rangeValueCmp v w s t = tupleElementPartialCmp v w := by
  cases v <;> cases w <;> first | rfl | exact absurd rfl (h _ _ rfl)

/-- Places that are found in one order are passed by every key in that order. -/
theorem rangeValueCmp_keys (h : Bound.rangeValueCmp v w s t = some o) (key : DataValue) :
    (o = .eq → keyCmp key v = keyCmp key w) ∧
      (o = .lt → Leads s t (keyCmp key v) (keyCmp key w)) := by
  by_cases hv : ∃ vs, v = .tuple vs
  · obtain ⟨vs, rfl⟩ := hv
    by_cases hw : ∃ ws, w = .tuple ws
    · obtain ⟨ws, rfl⟩ := hw
      by_cases hk : ∃ ks, key = .tuple ks
      · obtain ⟨ks, rfl⟩ := hk
        exact tuplePartialCmp_keys h ks
      · rw [keyCmp_of_ne fun ks _ hks => absurd ⟨ks, hks⟩ hk,
          keyCmp_of_ne fun ks _ hks => absurd ⟨ks, hks⟩ hk,
          (tupleElementPartialCmp_tuple (not_exists.mp hk) vs).1,
          (tupleElementPartialCmp_tuple (not_exists.mp hk) ws).1]
        cases key.isNull <;> simp [Leads, side]
    · -- Every tuple is before NULL, which alone is compared with tuples.
      have hne := not_exists.mp hw
      rw [rangeValueCmp_of_ne fun _ ws _ => hne ws, (tupleElementPartialCmp_tuple hne vs).2] at h
      obtain ⟨hnull, rfl⟩ : w.isNull = true ∧ .lt = o := by simpa using h
      obtain rfl := isNull_iff.mp hnull
      rw [keyCmp_of_ne fun _ ws _ => hne ws]
      cases key <;> simp [Leads, side, tupleElementPartialCmp, nullsLast, keyCmp]
  · have hne := not_exists.mp hv
    rw [rangeValueCmp_of_ne fun vs _ hvs => absurd hvs (hne vs)] at h
    by_cases hw : ∃ ws, w = .tuple ws
    · obtain ⟨ws, rfl⟩ := hw
      rw [(tupleElementPartialCmp_tuple hne ws).1] at h
      obtain ⟨-, rfl⟩ : v.isNull = true ∧ .gt = o := by simpa using h
      simp
    · rw [keyCmp_of_ne fun _ ws _ => hne ws, keyCmp_of_ne fun _ ws _ => not_exists.mp hw ws]
      refine ⟨?_, ?_⟩ <;> rintro rfl
      · exact elementCmp_congr h key
      · exact leads_of_strict (elementCmp_strict h key)

end DataValue

namespace Bound

open DataValue

theorem rangeValueCmp_leads {v w : DataValue} {s t : Bool} {o : Ordering}
    (h : rangeValueCmp v w s t = some o) (key : DataValue)
    (ho : o = .lt ∨ o = .eq ∧ (s = true → t = true)) :
    Leads s t (keyCmp key v) (keyCmp key w) := by
  obtain ⟨heq, hlt⟩ := rangeValueCmp_keys h key
  obtain ho | ⟨ho, hst⟩ := ho
  · exact hlt ho
  · rw [heq ho]
    exact leads_self hst _

variable {l r : Bound DataValue} {key : DataValue} {a b : Bool} {o : Ordering}

/-- The value of a bound, and whether the bound is behind the keys that the value begins. -/
def place (isUpper : Bool) : Bound DataValue → Option (DataValue × Bool)
  | .included value => some (value, isUpper)
  | .excluded value => some (value, !isUpper)
  | .unbounded => none

/-- The key is on the side of the bound where the bounded keys are. -/
def Keeps (isUpper : Bool) (bound : Bound DataValue) (key : DataValue) : Prop :=
  ∀ p ∈ bound.place isUpper, side p.2 (keyCmp key p.1) = some (if isUpper then .lt else .gt)

theorem has_scope_iff {min max : Bound DataValue} :
    (Range.scope min max).has (keyCmp key) = true ↔ Keeps false min key ∧ Keeps true max key := by
  rw [Range.has, Bool.and_eq_true]
  refine and_congr ?_ ?_
  · cases min with
    | unbounded => simp [startsBefore, Keeps, place]
    | _ v =>
      simp only [startsBefore, Keeps, place, Option.mem_def, Option.some.injEq, forall_eq', side]
      rcases keyCmp key v with _ | _ | _ | _ <;> simp
  · cases max with
    | unbounded => simp [endsBehind, Keeps, place]
    | _ v =>
      simp only [endsBehind, Keeps, place, Option.mem_def, Option.some.injEq, forall_eq', side]
      rcases keyCmp key v with _ | _ | _ | _ <;> simp

theorem boundCompared_leads (h : boundCompared l r a b = some o) (ho : o = .lt ∨ o = .eq ∧ a = b)
    (key : DataValue) :
    ∀ p ∈ l.place a, ∀ q ∈ r.place b, Leads p.2 q.2 (keyCmp key p.1) (keyCmp key q.1) := by
  cases l with
  | unbounded => simp [place]
  | included v =>
    cases r with
    | unbounded => simp [place]
    | included w =>
      simp only [place, Option.mem_def, Option.some.injEq, forall_eq']
      exact rangeValueCmp_leads h key (ho.imp_right (And.imp_right (by rintro rfl; simp)))
    | excluded w =>
      obtain ⟨p, hp, rfl⟩ := Option.map_eq_some_iff.mp h
      simp only [place, Option.mem_def, Option.some.injEq, forall_eq']
      refine rangeValueCmp_leads hp key ?_
      cases p <;> cases a <;> cases b <;> simp_all [isMinThenReverse]
  | excluded v =>
    cases r with
    | unbounded => simp [place]
    | excluded w =>
      simp only [place, Option.mem_def, Option.some.injEq, forall_eq']
      exact rangeValueCmp_leads h key (ho.imp_right (And.imp_right (by rintro rfl; simp)))
    | included w =>
      obtain ⟨p, hp, rfl⟩ := Option.map_eq_some_iff.mp h
      simp only [place, Option.mem_def, Option.some.injEq, forall_eq']
      refine rangeValueCmp_leads hp key ?_
      cases p <;> cases a <;> cases b <;> simp_all [isMinThenReverse]

theorem rangeValueCmp_comm (v w : DataValue) (s t : Bool) :
    rangeValueCmp w v t s = (rangeValueCmp v w s t).map .swap := by
  by_cases h : ∃ vs ws, v = .tuple vs ∧ w = .tuple ws
  · obtain ⟨vs, ws, rfl, rfl⟩ := h
    exact tuplePartialCmp_swap fun x _ y => partialCmp_swap x y
  · rw [rangeValueCmp_of_ne fun vs ws hv hw => h ⟨vs, ws, hv, hw⟩,
      rangeValueCmp_of_ne fun ws vs hw hv => h ⟨vs, ws, hv, hw⟩,
      tupleElementPartialCmp_swap (partialCmp_swap v w)]

theorem boundCompared_comm (l r : Bound DataValue) (a b : Bool) :
    boundCompared r l b a = (boundCompared l r a b).map .swap := by
  have hmap : ∀ v w s t tie, (rangeValueCmp w v t s).map (·.then tie) =
      ((rangeValueCmp v w s t).map (·.then tie.swap)).map .swap := by
    intro v w s t tie
    rw [rangeValueCmp_comm v w]
    rcases rangeValueCmp v w s t with _ | _ | _ | _ <;> cases tie <;> rfl
  cases l with
  | unbounded => cases r <;> cases a <;> cases b <;> rfl
  | included v =>
    cases r with
    | unbounded => cases a <;> cases b <;> rfl
    | included w => exact rangeValueCmp_comm v w _ _
    | excluded w => cases a <;> cases b <;> exact hmap v w _ _ _
  | excluded v =>
    cases r with
    | unbounded => cases a <;> cases b <;> rfl
    | included w => cases a <;> cases b <;> exact hmap v w _ _ _
    | excluded w => exact rangeValueCmp_comm v w _ _

/-- The tighter of two bounds keeps the keys that both keep. -/
theorem keeps_tighter (h : boundCompared l r a a = some o) (key : DataValue) :
    Keeps a (if o = (if a then .lt else .gt) then l else r) key ↔
      Keeps a l key ∧ Keeps a r key := by
  have hlt : ∀ {l r o}, boundCompared l r a a = some o → o ≠ .gt →
      if a then Keeps a l key → Keeps a r key else Keeps a r key → Keeps a l key := by
    intro l r o h ho
    have hleads := boundCompared_leads h (by cases o <;> simp_all) key
    cases a with
    | false =>
      intro hr p hp
      cases hq : r.place false with
      | none => cases l <;> cases r <;> simp_all [place, boundCompared, isMinThenReverse]
      | some q => exact (hleads p hp q hq).1 (hr q hq)
    | true =>
      intro hl q hq
      cases hp : l.place true with
      | none => cases l <;> cases r <;> simp_all [place, boundCompared, isMinThenReverse]
      | some p => exact (hleads p hp q hq).2 (hl p hp)
  have hcomm := (boundCompared_comm l r a a).trans (congrArg _ h)
  cases a <;> cases o <;> simp only [reduceCtorEq, if_true, if_false, Bool.false_eq_true,
    iff_self_and, iff_and_self] <;>
    first
    | exact hlt h (by decide)
    | exact hlt hcomm (by decide)

theorem not_between (h : boundCompared l r false true = some .gt)
    (hl : Keeps false l key) (hr : Keeps true r key) : False := by
  have hcomm := (boundCompared_comm l r false true).trans (congrArg _ h)
  cases hp : l.place false with
  | none => cases l <;> cases r <;> simp_all [place, boundCompared, isMinThenReverse]
  | some p =>
    cases hq : r.place true with
    | none => cases l <;> cases r <;> simp_all [place, boundCompared, isMinThenReverse]
    | some q =>
      have hgt := (boundCompared_leads hcomm (.inl rfl) key q hq p hp).1 (hl p hp)
      rw [hr q hq] at hgt
      cases hgt

end Bound

namespace Range

open KiteSQL.Bound DataValue

/-- The range has the key of an index. -/
def hasKey (range : Range) (key : DataValue) : Bool := range.has (keyCmp key)

variable {leftMin leftMax rightMin rightMax min max : Bound DataValue} {range : Range}
  {key v : DataValue}

theorem hasKey_scope_iff :
    (scope min max).hasKey key = true ↔ Keeps false min key ∧ Keeps true max key :=
  has_scope_iff

/-- A scope whose ends meet at an included value has the keys that the value begins. -/
theorem hasKey_eq_of_meet (h : boundCompared (.included v) max false true = some .eq) :
    (Range.eq v).hasKey key = (scope (.included v) max).hasKey key := by
  cases max with
  | unbounded => simp [boundCompared, isMinThenReverse] at h
  | included w =>
    simp only [hasKey, has, startsBefore, endsBehind, (rangeValueCmp_keys h key).1 rfl]
    rcases keyCmp key w with _ | _ | _ | _ <;> simp
  | excluded w =>
    obtain ⟨o, -, ho⟩ := Option.map_eq_some_iff.mp h
    cases o <;> cases ho

/-- A scope whose ends meet at an excluded value has no key. -/
theorem not_hasKey_of_meet (h : boundCompared (.excluded v) max false true = some .eq) :
    (scope (.excluded v) max).hasKey key = false := by
  cases max with
  | unbounded => simp [boundCompared, isMinThenReverse] at h
  | included w =>
    obtain ⟨o, -, ho⟩ := Option.map_eq_some_iff.mp h
    cases o <;> cases ho
  | excluded w =>
    simp only [hasKey, has, startsBefore, endsBehind, (rangeValueCmp_keys h key).1 rfl]
    rcases keyCmp key w with _ | _ | _ | _ <;> simp

/-- The later start and the earlier end. -/
theorem hasKey_tighter {minOrder maxOrder : Ordering}
    (hmin : boundCompared leftMin rightMin false false = some minOrder)
    (hmax : boundCompared leftMax rightMax true true = some maxOrder) :
    (scope (if minOrder = .gt then leftMin else rightMin)
        (if maxOrder = .lt then leftMax else rightMax)).hasKey key = true ↔
      (scope leftMin leftMax).hasKey key = true ∧ (scope rightMin rightMax).hasKey key = true := by
  have hlow := keeps_tighter hmin key
  have hupp := keeps_tighter hmax key
  simp only [if_true, if_false, Bool.false_eq_true] at hlow hupp
  simp only [hasKey_scope_iff, hlow, hupp]
  exact and_and_and_comm

/-- The conjunction of two scopes has exactly the keys that both of them have. -/
theorem andScopeMerge_hasKey
    (h : andScopeMerge leftMin leftMax rightMin rightMax = .ok range) (key : DataValue) :
    range.hasKey key = true ↔
      (scope leftMin leftMax).hasKey key = true ∧ (scope rightMin rightMax).hasKey key = true := by
  unfold andScopeMerge at h
  split at h
  · next minOrder maxOrder hmin hmax =>
    rw [← hasKey_tighter hmin hmax]
    dsimp only at h
    generalize (if minOrder = .gt then leftMin else rightMin) = min at h ⊢
    generalize (if maxOrder = .lt then leftMax else rightMax) = max at h ⊢
    cases hcmp : boundCompared min max false true with
    | none =>
      rw [hcmp] at h
      cases h
      rfl
    | some o =>
      rw [hcmp] at h
      cases o with
      | lt =>
        cases h
        rfl
      | gt =>
        cases h
        rw [hasKey_scope_iff]
        exact ⟨nofun, fun hkeep => (not_between hcmp hkeep.1 hkeep.2).elim⟩
      | eq =>
        cases min with
        | unbounded =>
          cases max with
          | unbounded =>
            cases h
            rfl
          | _ => simp [boundCompared, isMinThenReverse] at hcmp
        | included v =>
          cases h
          rw [hasKey_eq_of_meet hcmp]
        | excluded v =>
          cases h
          rw [not_hasKey_of_meet hcmp]
          exact Iff.rfl
  · cases h

/-- From the keys that begin with 1 up to those that begin with (1, 5), and behind (1, 2). -/
theorem andScopeMerge_hasKey_within :
    ∃ range, andScopeMerge (.included (.tuple [.int32 1])) (.included (.tuple [.int32 1, .int32 5]))
        (.excluded (.tuple [.int32 1, .int32 2])) .unbounded = .ok range ∧
      range.hasKey (.tuple [.int32 1, .int32 5, .null]) = true ∧
      range.hasKey (.tuple [.int32 1, .int32 2, .null]) = false := by
  have h : andScopeMerge (.included (.tuple [.int32 1])) (.included (.tuple [.int32 1, .int32 5]))
      (.excluded (.tuple [.int32 1, .int32 2])) .unbounded =
      .ok (.scope (.excluded (.tuple [.int32 1, .int32 2]))
        (.included (.tuple [.int32 1, .int32 5]))) := rfl
  refine ⟨_, h, (andScopeMerge_hasKey h _).mpr (by decide), ?_⟩
  rw [Bool.eq_false_iff, Ne, andScopeMerge_hasKey h]
  decide

end Range

end KiteSQL
