import KiteSQL.Types.KeyOrder

/-! Times of day packed into one word, and the comparison evaluators over them. -/
namespace KiteSQL.DataValue

open LexCode

def oneSecToNano : UInt32 := 1000000000

def oneDayToSec : UInt32 := 86400

/-- `1000000000 / 10_u32.pow(precision)`, whose power overflows past nine digits. -/
def unitNanos (precision : UInt64) : Result UInt32 :=
  if precision ≤ 9 then .ok (1000000000 / 10 ^ precision.toNat)
  else .error (.panic "attempt to multiply with overflow")

/-- How many low bits the seconds take. -/
def timeShift (precision : UInt64) : UInt32 :=
  if precision = 1 then 28
  else if precision = 2 then 25
  else if precision = 3 then 22
  else if precision = 4 then 18
  else 31

def packTime (secs nanos : UInt32) (precision : UInt64) : Result UInt32 :=
  if ¬ nanos ≤ oneSecToNano then
    .error (.panic "assertion failed: nanos <= ONE_SEC_TO_NANO")
  else if ¬ secs ≤ oneDayToSec then
    .error (.panic "assertion failed: secs <= ONE_DAY_TO_SEC")
  else do
    let scaledNanos := nanos / (← unitNanos precision)
    return (scaledNanos <<< timeShift precision) ||| secs

def unpackTime (combined : UInt32) (precision : UInt64) : Result (UInt32 × UInt32) := do
  let scaledNanos := combined >>> timeShift precision
  let secs := combined &&& (((1 : UInt32) <<< timeShift precision) - 1)
  return (secs, scaledNanos * (← unitNanos precision))

/-- The comparison evaluators look at the seconds before the fraction. -/
def timeOrderBinary (isOrder : Ordering → Bool) (left right : DataValue) : Result DataValue :=
  match left, right with
  | .time32 v1 p1, .time32 v2 p2 => do
    let (v1, n1) ← unpackTime v1 p1
    let (v2, n2) ← unpackTime v2 p2
    return .boolean (isOrder ((compare v1 v2).then (compare n1 n2)))
  | .time32 _ _, .null | .null, .time32 _ _ | .null, .null => .ok .null
  | _, _ => .error .undefinedBehavior

def timeGtBinaryEval : DataValue → DataValue → Result DataValue := timeOrderBinary Ordering.isGT

def timeGtEqBinaryEval : DataValue → DataValue → Result DataValue := timeOrderBinary Ordering.isGE

def timeLtBinaryEval : DataValue → DataValue → Result DataValue := timeOrderBinary Ordering.isLT

def timeLtEqBinaryEval : DataValue → DataValue → Result DataValue := timeOrderBinary Ordering.isLE

def timeEqBinaryEval : DataValue → DataValue → Result DataValue := timeOrderBinary Ordering.isEq

def timeNotEqBinaryEval (left right : DataValue) : Result DataValue := do
  match ← timeEqBinaryEval left right with
  | .boolean value => return .boolean (!value)
  | value => return value

variable {precision : UInt64} {secs nanos combined v w : UInt32} {o : Ordering}

/-- Where a packed time is split, and the unit of its upper part. -/
structure Split (precision : UInt64) (k u : Nat) : Prop where
  shift : (timeShift precision).toNat = k
  unit : ∃ w, unitNanos precision = .ok w ∧ w.toNat = u
  lt : k < 32
  pos : 0 < u

/-- What packing relies on: the seconds fit below the shift and the fraction above it. -/
structure Layout (precision : UInt64) (k u : Nat) : Prop extends Split precision k u where
  secs : 86400 < 2 ^ k
  nanos : (1000000000 / u + 1) * 2 ^ k ≤ 2 ^ 32

theorem precision_cases (h : precision ≤ 4) :
    precision = 0 ∨ precision = 1 ∨ precision = 2 ∨ precision = 3 ∨ precision = 4 := by
  have hp : precision.toNat ≤ 4 := UInt64.le_iff_toNat_le.mp h
  simp only [← UInt64.toNat_inj]
  simp
  omega

theorem layout_of_le (h : precision ≤ 4) :
    ∃ k, Layout precision k (10 ^ (9 - precision.toNat)) := by
  rcases precision_cases h with rfl | rfl | rfl | rfl | rfl
  · exact ⟨31, ⟨rfl, ⟨_, rfl, rfl⟩, by decide, by decide⟩, by decide, by decide⟩
  · exact ⟨28, ⟨rfl, ⟨_, rfl, rfl⟩, by decide, by decide⟩, by decide, by decide⟩
  · exact ⟨25, ⟨rfl, ⟨_, rfl, rfl⟩, by decide, by decide⟩, by decide, by decide⟩
  · exact ⟨22, ⟨rfl, ⟨_, rfl, rfl⟩, by decide, by decide⟩, by decide, by decide⟩
  · exact ⟨18, ⟨rfl, ⟨_, rfl, rfl⟩, by decide, by decide⟩, by decide, by decide⟩

variable {k u : Nat}

theorem toNat_packTime (hl : Layout precision k u) (hs : secs ≤ oneDayToSec)
    (hn : nanos ≤ oneSecToNano) :
    ∃ v, packTime secs nanos precision = .ok v ∧
      v.toNat = nanos.toNat / u * 2 ^ k + secs.toNat := by
  obtain ⟨w, hw, rfl⟩ := hl.unit
  obtain rfl := hl.shift
  have hs' : secs.toNat ≤ 86400 := UInt32.le_iff_toNat_le.mp hs
  have hn' : nanos.toNat ≤ 1000000000 := UInt32.le_iff_toNat_le.mp hn
  refine ⟨((nanos / w) <<< timeShift precision) ||| secs, ?_, ?_⟩
  · rw [packTime, if_neg (not_not.mpr hn), if_neg (not_not.mpr hs), hw]
    rfl
  · have hlt := hl.secs
    have hdiv : nanos.toNat / w.toNat ≤ 1000000000 / w.toNat := Nat.div_le_div_right hn'
    have hmul := Nat.mul_le_mul_right (2 ^ (timeShift precision).toNat) hdiv
    have hfit := hl.nanos
    rw [Nat.add_mul, Nat.one_mul] at hfit
    rw [UInt32.toNat_or, UInt32.toNat_shiftLeft, UInt32.toNat_div,
      Nat.mod_eq_of_lt hl.lt, Nat.shiftLeft_eq, Nat.mod_eq_of_lt (by omega), ← Nat.shiftLeft_eq,
      ← Nat.shiftLeft_add_eq_or_of_lt (by omega), Nat.shiftLeft_eq]

theorem unpackTime_spec (hl : Split precision k u) (v : UInt32) :
    ∃ secs nanos, unpackTime v precision = .ok (secs, nanos) ∧ secs.toNat = v.toNat % 2 ^ k ∧
      nanos.toNat = v.toNat / 2 ^ k * u % 2 ^ 32 := by
  obtain ⟨w, hw, rfl⟩ := hl.unit
  obtain rfl := hl.shift
  refine ⟨_, _, by rw [unpackTime, hw]; rfl, ?_, ?_⟩
  · have hone : 1 ≤ 2 ^ (timeShift precision).toNat := Nat.one_le_two_pow
    have hmask : ((1 : UInt32) <<< timeShift precision - 1).toNat =
        2 ^ (timeShift precision).toNat - 1 := by
      have hpow : ((1 : UInt32) <<< timeShift precision).toNat =
          2 ^ (timeShift precision).toNat := by
        rw [UInt32.toNat_shiftLeft, Nat.mod_eq_of_lt hl.lt, UInt32.toNat_one, Nat.one_shiftLeft,
          Nat.mod_eq_of_lt (Nat.pow_lt_pow_right (by decide) hl.lt)]
      rw [UInt32.toNat_sub_of_le _ _ (by rw [UInt32.le_iff_toNat_le, hpow]; exact hone), hpow]
      rfl
    rw [UInt32.toNat_and, hmask, Nat.and_two_pow_sub_one_eq_mod]
  · rw [UInt32.toNat_mul, UInt32.toNat_shiftRight, Nat.mod_eq_of_lt hl.lt,
      Nat.shiftRight_eq_div_pow]

/-- Up to nine digits no fraction overflows its word. -/
theorem split_of_le (h : precision ≤ 9) :
    ∃ k u, Split precision k u ∧ 2 ^ (32 - k) * u ≤ 2 ^ 32 := by
  have hp : precision.toNat ≤ 9 := UInt64.le_iff_toNat_le.mp h
  have hc : precision = 0 ∨ precision = 1 ∨ precision = 2 ∨ precision = 3 ∨ precision = 4 ∨
      precision = 5 ∨ precision = 6 ∨ precision = 7 ∨ precision = 8 ∨ precision = 9 := by
    simp only [← UInt64.toNat_inj]
    simp
    omega
  rcases hc with rfl | rfl | rfl | rfl | rfl | rfl | rfl | rfl | rfl | rfl
  · exact ⟨31, _, ⟨rfl, ⟨_, rfl, rfl⟩, by decide, by decide⟩, by decide⟩
  · exact ⟨28, _, ⟨rfl, ⟨_, rfl, rfl⟩, by decide, by decide⟩, by decide⟩
  · exact ⟨25, _, ⟨rfl, ⟨_, rfl, rfl⟩, by decide, by decide⟩, by decide⟩
  · exact ⟨22, _, ⟨rfl, ⟨_, rfl, rfl⟩, by decide, by decide⟩, by decide⟩
  · exact ⟨18, _, ⟨rfl, ⟨_, rfl, rfl⟩, by decide, by decide⟩, by decide⟩
  · exact ⟨31, _, ⟨rfl, ⟨_, rfl, rfl⟩, by decide, by decide⟩, by decide⟩
  · exact ⟨31, _, ⟨rfl, ⟨_, rfl, rfl⟩, by decide, by decide⟩, by decide⟩
  · exact ⟨31, _, ⟨rfl, ⟨_, rfl, rfl⟩, by decide, by decide⟩, by decide⟩
  · exact ⟨31, _, ⟨rfl, ⟨_, rfl, rfl⟩, by decide, by decide⟩, by decide⟩
  · exact ⟨31, _, ⟨rfl, ⟨_, rfl, rfl⟩, by decide, by decide⟩, by decide⟩

/-- The two parts of a packed word are read without loss where no fraction overflows. -/
theorem unpackTime_read (hsplit : Split precision k u) (hfit : 2 ^ (32 - k) * u ≤ 2 ^ 32)
    (v : UInt32) :
    ∃ s n, unpackTime v precision = .ok (s, n) ∧ s.toNat = v.toNat % 2 ^ k ∧
      n.toNat = v.toNat / 2 ^ k * u := by
  obtain ⟨s, n, hv, hs, hn⟩ := unpackTime_spec hsplit v
  refine ⟨s, n, hv, hs, hn.trans (Nat.mod_eq_of_lt ?_)⟩
  have hpow : 2 ^ 32 = 2 ^ (32 - k) * 2 ^ k := by
    rw [← Nat.pow_add, Nat.sub_add_cancel hsplit.lt.le]
  have hdiv : v.toNat / 2 ^ k < 2 ^ (32 - k) := by
    rw [Nat.div_lt_iff_lt_mul (Nat.two_pow_pos k), ← hpow]
    exact v.toNat_lt
  exact lt_of_lt_of_le (Nat.mul_lt_mul_of_pos_right hdiv hsplit.pos) hfit

/-- A packed time is known by its seconds and its fraction. -/
theorem unpackTime_inj (h : precision ≤ 9) {s n : UInt32} (hv : unpackTime v precision = .ok (s, n))
    (hw : unpackTime w precision = .ok (s, n)) : v = w := by
  obtain ⟨k, u, hsplit, hfit⟩ := split_of_le h
  have hread : ∀ x : UInt32, unpackTime x precision = .ok (s, n) →
      s.toNat = x.toNat % 2 ^ k ∧ n.toNat = x.toNat / 2 ^ k * u := by
    intro x hx
    obtain ⟨s', n', hx', hs, hn⟩ := unpackTime_read hsplit hfit x
    rw [hx] at hx'
    cases hx'
    exact ⟨hs, hn⟩
  obtain ⟨hs, hn⟩ := hread v hv
  obtain ⟨hs', hn'⟩ := hread w hw
  have hdiv := Nat.eq_of_mul_eq_mul_right hsplit.pos (hn.symm.trans hn')
  rw [← UInt32.toNat_inj, ← Nat.div_add_mod v.toNat (2 ^ k), ← Nat.div_add_mod w.toNat (2 ^ k),
    hdiv, ← hs, ← hs']

/-- The packed word orders times by their fraction first. -/
theorem compare_fields {a b x y : Nat} (ha : a < 2 ^ k) (hb : b < 2 ^ k) :
    compare (x * 2 ^ k + a) (y * 2 ^ k + b) = (compare x y).then (compare a b) := by
  rcases lt_trichotomy x y with h | rfl | h
  · have hm := Nat.mul_le_mul_right (2 ^ k) (show x + 1 ≤ y from h)
    rw [Nat.add_mul, Nat.one_mul] at hm
    rw [compare_lt_iff_lt.mpr h, compare_lt_iff_lt.mpr (by omega)]
    rfl
  · rw [compare_eq_iff_eq.mpr rfl]
    simp only [Nat.compare_eq_ite_lt, Nat.add_lt_add_iff_left, Ordering.then]
  · have hm := Nat.mul_le_mul_right (2 ^ k) (show y + 1 ≤ x from h)
    rw [Nat.add_mul, Nat.one_mul] at hm
    rw [compare_gt_iff_gt.mpr h, compare_gt_iff_gt.mpr (by omega)]
    rfl

theorem compare_mul_right {x y : Nat} (hu : 0 < u) : compare (x * u) (y * u) = compare x y := by
  simp only [Nat.compare_eq_ite_lt, Nat.mul_lt_mul_right hu]

theorem lex_comm_iff {a b x y : Nat} :
    (compare x y).then (compare a b) = (compare a b).then (compare x y) ↔
      a = b ∨ x = y ∨ (a < b ↔ x < y) := by
  rcases lt_trichotomy a b with h | rfl | h <;> rcases lt_trichotomy x y with h' | rfl | h'
  all_goals simp [Nat.compare_eq_ite_lt, Ordering.then, *, Nat.lt_asymm, Nat.ne_of_lt, Nat.ne_of_gt]

/-- The comparison evaluators, the partial order of values and the order of keys give one
answer. -/
def OrdersAgree (x y : DataValue) : Prop :=
  ∃ o a b, partialCmp x y = some o ∧ memcomparableEncode x = .ok a ∧
    memcomparableEncode y = .ok b ∧ compare a b = o ∧
    timeLtBinaryEval x y = .ok (.boolean o.isLT) ∧
    timeGtBinaryEval x y = .ok (.boolean o.isGT) ∧
    timeEqBinaryEval x y = .ok (.boolean o.isEq)

variable {s₁ s₂ n₁ n₂ v₁ v₂ : UInt32}

/-- Unpacking gives back the seconds and the fraction cut to the precision. -/
theorem unpackTime_packTime (hl : Layout precision k u) (hs : secs ≤ oneDayToSec)
    (hn : nanos ≤ oneSecToNano) (h : packTime secs nanos precision = .ok v) :
    ∃ n, unpackTime v precision = .ok (secs, n) ∧ n.toNat = nanos.toNat / u * u := by
  obtain ⟨v', hv', hv⟩ := toNat_packTime hl hs hn
  rw [h] at hv'
  cases hv'
  obtain ⟨s, n, hu, hs', hn'⟩ := unpackTime_spec hl.toSplit v
  have hlt : secs.toNat < 2 ^ k := lt_of_le_of_lt (UInt32.le_iff_toNat_le.mp hs) hl.secs
  have hmod : v.toNat % 2 ^ k = secs.toNat := by
    rw [hv, Nat.mul_comm, Nat.mul_add_mod, Nat.mod_eq_of_lt hlt]
  have hdiv : v.toNat / 2 ^ k = nanos.toNat / u := by
    rw [hv, Nat.mul_comm, Nat.mul_add_div (Nat.two_pow_pos k), Nat.div_eq_of_lt hlt, Nat.add_zero]
  have hle : nanos.toNat / u * u ≤ nanos.toNat := Nat.div_mul_le_self _ _
  have hn32 := UInt32.toNat_lt nanos
  rw [hmod, UInt32.toNat_inj] at hs'
  subst hs'
  refine ⟨n, hu, ?_⟩
  rw [hn', hdiv, Nat.mod_eq_of_lt (by omega)]

/-- The evaluators order packed times by their seconds first. -/
theorem timeOrderBinary_packed (hl : Layout precision k u) (isOrder : Ordering → Bool)
    (hs₁ : s₁ ≤ oneDayToSec) (hs₂ : s₂ ≤ oneDayToSec) (hn₁ : n₁ ≤ oneSecToNano)
    (hn₂ : n₂ ≤ oneSecToNano) (h₁ : packTime s₁ n₁ precision = .ok v₁)
    (h₂ : packTime s₂ n₂ precision = .ok v₂) :
    timeOrderBinary isOrder (.time32 v₁ precision) (.time32 v₂ precision) =
      .ok (.boolean (isOrder ((compare s₁.toNat s₂.toNat).then
        (compare (n₁.toNat / u) (n₂.toNat / u))))) := by
  obtain ⟨m₁, hu₁, hm₁⟩ := unpackTime_packTime hl hs₁ hn₁ h₁
  obtain ⟨m₂, hu₂, hm₂⟩ := unpackTime_packTime hl hs₂ hn₂ h₂
  simp only [timeOrderBinary, hu₁, hu₂, Result.ok_bind, Result.pure_eq, compare_uInt32, hm₁, hm₂,
    compare_mul_right hl.pos]

theorem ordersAgree_iff {c : Ordering}
    (he : ∀ isOrder, timeOrderBinary isOrder (.time32 v₁ precision) (.time32 v₂ precision) =
      .ok (.boolean (isOrder c))) :
    OrdersAgree (.time32 v₁ precision) (.time32 v₂ precision) ↔ compare v₁ v₂ = c := by
  have hf := fun v => Fits.time32 v precision (some precision)
  obtain ⟨a, b, o, ha, hb, ho, hd⟩ := (hf v₁).agree (hf v₂) rfl
  obtain rfl : compare v₁ v₂ = o := by
    simpa [tupleElementPartialCmp, nullsLast, partialCmp] using ho
  constructor
  · rintro ⟨o, -, -, ho, -, -, -, hlt, hgt, -⟩
    simp only [partialCmp, Option.some.injEq] at ho
    subst ho
    simp only [timeLtBinaryEval, timeGtBinaryEval, he, Except.ok.injEq, boolean.injEq] at hlt hgt
    revert hlt hgt
    cases compare v₁ v₂ <;> cases c <;> simp
  · rintro rfl
    exact ⟨_, a, b, rfl, ha, hb, hd.compare_eq, he _, he _, he _⟩

/-- The three orders agree on two times exactly when their seconds or their truncated fractions
are equal or both are ordered alike. -/
theorem time_ordersAgree_iff (hp : precision ≤ 4) (hs₁ : s₁ ≤ oneDayToSec)
    (hs₂ : s₂ ≤ oneDayToSec) (hn₁ : n₁ ≤ oneSecToNano) (hn₂ : n₂ ≤ oneSecToNano) :
    ∃ v₁ v₂, packTime s₁ n₁ precision = .ok v₁ ∧ packTime s₂ n₂ precision = .ok v₂ ∧
      (OrdersAgree (.time32 v₁ precision) (.time32 v₂ precision) ↔
        s₁ = s₂ ∨
        n₁.toNat / 10 ^ (9 - precision.toNat) = n₂.toNat / 10 ^ (9 - precision.toNat) ∨
        (s₁ < s₂ ↔
          n₁.toNat / 10 ^ (9 - precision.toNat) < n₂.toNat / 10 ^ (9 - precision.toNat))) := by
  obtain ⟨k, hl⟩ := layout_of_le hp
  obtain ⟨v₁, h₁, hv₁⟩ := toNat_packTime hl hs₁ hn₁
  obtain ⟨v₂, h₂, hv₂⟩ := toNat_packTime hl hs₂ hn₂
  refine ⟨v₁, v₂, h₁, h₂, ?_⟩
  have hlt : ∀ {s : UInt32}, s ≤ oneDayToSec → s.toNat < 2 ^ k := fun hs =>
    lt_of_le_of_lt (UInt32.le_iff_toNat_le.mp hs) hl.secs
  rw [ordersAgree_iff fun isOrder =>
    timeOrderBinary_packed hl isOrder hs₁ hs₂ hn₁ hn₂ h₁ h₂, compare_uInt32, hv₁, hv₂,
    compare_fields (hlt hs₁) (hlt hs₂), lex_comm_iff, UInt32.toNat_inj, ← UInt32.lt_iff_toNat_lt]

theorem time_ordersAgree_whole_seconds :
    ∃ v₁ v₂, packTime 1 0 3 = .ok v₁ ∧ packTime 2 0 3 = .ok v₂ ∧
      OrdersAgree (.time32 v₁ 3) (.time32 v₂ 3) := by
  obtain ⟨v₁, v₂, h₁, h₂, h⟩ := @time_ordersAgree_iff 3 1 2 0 0 (by decide)
    (by decide) (by decide) (by decide) (by decide)
  exact ⟨v₁, v₂, h₁, h₂, h.mpr (by decide)⟩

/-- Half a second packs to a larger word, and so to a larger key, than one second. -/
theorem time_orders_half_second :
    packTime 0 500000000 1 = .ok 0x50000000 ∧ packTime 1 0 1 = .ok 1 ∧
      timeLtBinaryEval (.time32 0x50000000 1) (.time32 1 1) = .ok (.boolean true) ∧
      partialCmp (.time32 0x50000000 1) (.time32 1 1) = some .gt ∧
      ∃ a b, memcomparableEncode (.time32 0x50000000 1) = .ok a ∧
        memcomparableEncode (.time32 1 1) = .ok b ∧ compare a b = .gt := by
  exact ⟨rfl, rfl, rfl, rfl, _, _, rfl, rfl, by decide⟩

end KiteSQL.DataValue
