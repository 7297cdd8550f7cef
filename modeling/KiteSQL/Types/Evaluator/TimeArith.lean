import KiteSQL.Types.Evaluator.Typed

/-! Sums, differences and casts of times of day against arithmetic on nanoseconds. -/
namespace KiteSQL.DataValue

open Result UInt32

/-- The value is a TIME of the precision whose seconds and fraction, each within its range, are that
many nanoseconds after midnight. -/
def IsTime (v : DataValue) (precision : UInt64) (t : Nat) : Prop :=
  ∃ w secs nanos, v = .time32 w precision ∧ unpackTime w precision = .ok (secs, nanos) ∧
    secs.toNat < 86400 ∧ nanos.toNat < 10 ^ 9 ∧ t = secs.toNat * 10 ^ 9 + nanos.toNat

/-- The nanoseconds of a day. -/
def dayNanos : Nat := 86400 * 10 ^ 9

/-- The sum of two times is their time, or NULL if it does not lie within the day. -/
def AddsExactly (x y : DataValue) (precision : UInt64) (t u : Nat) : Prop :=
  (t + u < dayNanos → ∃ r, timePlusBinaryEval x y = .ok r ∧ IsTime r precision (t + u)) ∧
    (dayNanos ≤ t + u → timePlusBinaryEval x y = .ok .null)

/-- The difference of two times is their time, or NULL if the first one is before the second. -/
def SubtractsExactly (x y : DataValue) (precision : UInt64) (t u : Nat) : Prop :=
  (u ≤ t → ∃ r, timeMinusBinaryEval x y = .ok r ∧ IsTime r precision (t - u)) ∧
    (t < u → timeMinusBinaryEval x y = .ok .null)

/-- What the sum gets wrong: fractions that make a whole second, and the first second of the next
day. -/
def MissedCarry (t u : Nat) : Prop :=
  t % 10 ^ 9 + u % 10 ^ 9 = 10 ^ 9 ∧ t / 10 ^ 9 + u / 10 ^ 9 ≤ 86400 ∨
    t % 10 ^ 9 + u % 10 ^ 9 ≠ 10 ^ 9 ∧ (t + u) / 10 ^ 9 = 86400

instance (t u : Nat) : Decidable (MissedCarry t u) := inferInstanceAs (Decidable (_ ∨ _))

/-- What the difference gets wrong: there is no second to borrow. -/
def MissedBorrow (t u : Nat) : Prop := t < u % 10 ^ 9

instance (t u : Nat) : Decidable (MissedBorrow t u) := inferInstanceAs (Decidable (_ < _))

variable {p q precision : UInt64} {v x y : DataValue} {t u k : Nat}
  {secs nanos less s₁ s₂ n₁ n₂ w : UInt32} {s f k' n U : Nat}

/-- Up to four digits the two parts of a packed word are read without loss. -/
theorem unpackTime_of_le (hp : p ≤ 4) (hl : Layout p k (10 ^ (9 - p.toNat))) (w : UInt32) :
    ∃ secs nanos, unpackTime w p = .ok (secs, nanos) ∧ secs.toNat = w.toNat % 2 ^ k ∧
      nanos.toNat = w.toNat / 2 ^ k * 10 ^ (9 - p.toNat) := by
  obtain ⟨k', u', hsplit, hfit⟩ := split_of_le (UInt64.le_trans hp (by decide))
  obtain ⟨a, ha, hau⟩ := hl.unit
  obtain ⟨b, hb, hbu⟩ := hsplit.unit
  have hk : k = k' := hl.shift.symm.trans hsplit.shift
  have hab : a = b := by
    rw [ha] at hb
    exact Except.ok.inj hb
  subst hk hab
  obtain rfl := hau.symm.trans hbu
  exact unpackTime_read hsplit hfit w

theorem unpackTime_dvd (hp : p ≤ 4) (h : unpackTime w p = .ok (secs, nanos)) :
    10 ^ (9 - p.toNat) ∣ nanos.toNat := by
  obtain ⟨k, hl⟩ := layout_of_le hp
  obtain ⟨secs', nanos', hw, -, hn⟩ := unpackTime_of_le hp hl w
  rw [h] at hw
  cases hw
  exact ⟨_, hn.trans (Nat.mul_comm _ _)⟩

theorem isTime_iff (h : unpackTime w p = .ok (secs, nanos)) :
    IsTime (.time32 w p) p t ↔
      secs.toNat < 86400 ∧ nanos.toNat < 10 ^ 9 ∧ t = secs.toNat * 10 ^ 9 + nanos.toNat := by
  constructor
  · rintro ⟨w', secs', nanos', hw, hu, hs, hn, ht⟩
    cases hw
    rw [h] at hu
    cases hu
    exact ⟨hs, hn, ht⟩
  · rintro ⟨hs, hn, ht⟩
    exact ⟨w, secs, nanos, rfl, h, hs, hn, ht⟩

/-- A fraction of no more digits than the precision has is packed without loss. -/
theorem packTime_of_dvd (hp : p ≤ 4) (hs : secs.toNat ≤ 86400) (hn : nanos.toNat ≤ 10 ^ 9)
    (hd : 10 ^ (9 - p.toNat) ∣ nanos.toNat) :
    ∃ w, packTime secs nanos p = .ok w ∧ unpackTime w p = .ok (secs, nanos) := by
  obtain ⟨k, hl⟩ := layout_of_le hp
  have hs' : secs ≤ oneDayToSec := UInt32.le_iff_toNat_le.mpr hs
  have hn' : nanos ≤ oneSecToNano := by
    rw [UInt32.le_iff_toNat_le, oneSecToNano_toNat]
    exact hn
  obtain ⟨w, hw, -⟩ := toNat_packTime hl hs' hn'
  obtain ⟨n, hu, hnu⟩ := unpackTime_packTime hl hs' hn' hw
  rw [Nat.div_mul_cancel hd, UInt32.toNat_inj] at hnu
  subst hnu
  exact ⟨w, hw, hu⟩

theorem addSecs_of_lt (s₁ s₂ : UInt32) (h : s₁.toNat + s₂.toNat < 2 ^ 32) :
    addSecs s₁ s₂ = .ok (s₁ + s₂) ∧ (s₁ + s₂).toNat = s₁.toNat + s₂.toNat := by
  have hadd : (s₁ + s₂).toNat = s₁.toNat + s₂.toNat := by
    rw [UInt32.toNat_add, Nat.mod_eq_of_lt h]
  refine ⟨?_, hadd⟩
  rw [addSecs, if_neg]
  rw [lt_iff_toNat_lt, hadd]
  omega

/-- One second is carried from a fraction of more than a second, none from exactly one. -/
theorem carrySecs_spec (hs : secs.toNat < 86400) (hn : nanos.toNat < 2 * 10 ^ 9) :
    ∃ s n, carrySecs secs nanos = .ok (s, n) ∧
      (nanos.toNat ≤ 10 ^ 9 ∧ s.toNat = secs.toNat ∧ n.toNat = nanos.toNat ∨
        10 ^ 9 < nanos.toNat ∧ s.toNat = secs.toNat + 1 ∧ n.toNat + 10 ^ 9 = nanos.toNat) := by
  have hone := oneSecToNano_toNat
  by_cases hlt : oneSecToNano < nanos
  · have hlt' := lt_iff_toNat_lt.mp hlt
    have hsub : (nanos - oneSecToNano).toNat = nanos.toNat - 10 ^ 9 := by
      rw [UInt32.toNat_sub_of_le _ _ (UInt32.le_of_lt hlt), hone]
      rfl
    have hstop : ¬ oneSecToNano < nanos - oneSecToNano := by
      rw [lt_iff_toNat_lt, hsub]
      omega
    obtain ⟨hadd, hadd'⟩ := addSecs_of_lt secs 1 (by rw [toNat_one]; omega)
    refine ⟨secs + 1, nanos - oneSecToNano, ?_, .inr ⟨by omega, ?_, ?_⟩⟩
    · rw [carrySecs, if_pos hlt, hadd, ok_bind, carrySecs, if_neg hstop]
    · rw [hadd', toNat_one]
    · omega
  · refine ⟨secs, nanos, ?_, .inl ⟨?_, rfl, rfl⟩⟩
    · rw [carrySecs, if_neg hlt]
    · rw [lt_iff_toNat_lt] at hlt
      omega

/-- At most one second is borrowed, and a subtraction overflows if there is none. -/
theorem borrowSecs_spec (secs : UInt32) (hn : nanos.toNat < 10 ^ 9) (hl : less.toNat < 10 ^ 9) :
    less.toNat ≤ nanos.toNat ∧ borrowSecs secs nanos less = .ok (secs, nanos) ∨
      nanos.toNat < less.toNat ∧
        (secs.toNat = 0 ∧
            borrowSecs secs nanos less = .error (.panic "attempt to subtract with overflow") ∨
          ∃ s n, borrowSecs secs nanos less = .ok (s, n) ∧ s.toNat + 1 = secs.toNat ∧
            n.toNat = nanos.toNat + 10 ^ 9) := by
  have hone := oneSecToNano_toNat
  by_cases hlt : nanos < less
  · refine .inr ⟨lt_iff_toNat_lt.mp hlt, ?_⟩
    by_cases hs : secs < 1
    · refine .inl ⟨?_, ?_⟩
      · rw [lt_iff_toNat_lt, toNat_one] at hs
        omega
      · have hb : borrowSec secs nanos = .error (.panic "attempt to subtract with overflow") := by
          rw [borrowSec, subSecs, if_pos hs]
          rfl
        rw [borrowSecs, if_pos hlt]
        split
        · next h => exact absurd (hb.symm.trans h) (by simp)
        · next h => exact hb ▸ h ▸ rfl
    · obtain ⟨hadd, haddNat⟩ := addSecs_of_lt nanos oneSecToNano (by omega)
      have hb : borrowSec secs nanos = .ok (secs - 1, nanos + oneSecToNano) := by
        rw [borrowSec, subSecs, if_neg hs, hadd]
        rfl
      have hle : (1 : UInt32) ≤ secs := UInt32.not_lt.mp hs
      have hpos : 1 ≤ secs.toNat := by simpa using UInt32.le_iff_toNat_le.mp hle
      have hstop : ¬ nanos + oneSecToNano < less := by
        rw [lt_iff_toNat_lt, haddNat]
        omega
      refine .inr ⟨secs - 1, nanos + oneSecToNano, ?_, ?_, ?_⟩
      · rw [borrowSecs, if_pos hlt]
        split
        · next h =>
          rw [hb] at h
          cases h
          rw [borrowSecs, if_neg hstop]
        · next h => exact absurd (hb.symm.trans h) (by simp)
      · rw [UInt32.toNat_sub_of_le _ _ hle, UInt32.toNat_one]
        omega
      · rw [haddNat, hone]
        rfl
  · refine .inl ⟨?_, ?_⟩
    · rw [lt_iff_toNat_lt] at hlt
      omega
    · rw [borrowSecs, if_neg hlt]

theorem toNat_max (p q : UInt64) : (max p q).toNat = max p.toNat q.toNat := by
  change (if p ≤ q then q else p).toNat = _
  by_cases h : p ≤ q
  · rw [if_pos h, Nat.max_eq_right (UInt64.le_iff_toNat_le.mp h)]
  · rw [if_neg h]
    rw [UInt64.le_iff_toNat_le] at h
    omega

theorem greater_eq_max (p q : UInt64) : (if p < q then q else p) = max p q := by
  rw [← UInt64.toNat_inj, toNat_max]
  by_cases h : p < q
  · rw [if_pos h]
    have := UInt64.lt_iff_toNat_lt.mp h
    omega
  · rw [if_neg h]
    rw [UInt64.lt_iff_toNat_lt] at h
    omega

theorem max_le_four (hp : p ≤ 4) (hq : q ≤ 4) : max p q ≤ 4 := by
  rw [UInt64.le_iff_toNat_le] at *
  rw [toNat_max]
  exact max_le hp hq

section Evaluation

variable {w₁ w₂ : UInt32} (hp : p ≤ 4) (hq : q ≤ 4) (h₁ : unpackTime w₁ p = .ok (s₁, n₁))
  (h₂ : unpackTime w₂ q = .ok (s₂, n₂))
include hp hq h₁ h₂

theorem unpackTime_dvd_max :
    10 ^ (9 - (max p q).toNat) ∣ n₁.toNat ∧ 10 ^ (9 - (max p q).toNat) ∣ n₂.toNat := by
  rw [toNat_max]
  refine ⟨(Nat.pow_dvd_pow 10 ?_).trans (unpackTime_dvd hp h₁),
    (Nat.pow_dvd_pow 10 ?_).trans (unpackTime_dvd hq h₂)⟩
  · have := Nat.le_max_left p.toNat q.toNat
    omega
  · have := Nat.le_max_right p.toNat q.toNat
    omega

variable (hs₁ : s₁.toNat < 86400) (hs₂ : s₂.toNat < 86400) (hn₁ : n₁.toNat < 10 ^ 9)
  (hn₂ : n₂.toNat < 10 ^ 9)
include hs₁ hs₂ hn₁ hn₂

/-- What the source computes for a sum, in whole numbers. -/
theorem timePlusBinaryEval_spec :
    ∃ s n : UInt32,
      (n₁.toNat + n₂.toNat ≤ 10 ^ 9 ∧ s.toNat = s₁.toNat + s₂.toNat ∧
          n.toNat = n₁.toNat + n₂.toNat ∨
        10 ^ 9 < n₁.toNat + n₂.toNat ∧ s.toNat = s₁.toNat + 1 + s₂.toNat ∧
          n.toNat + 10 ^ 9 = n₁.toNat + n₂.toNat) ∧
      (86400 < s.toNat ∧ timePlusBinaryEval (.time32 w₁ p) (.time32 w₂ q) = .ok .null ∨
        s.toNat ≤ 86400 ∧ ∃ w, unpackTime w (max p q) = .ok (s, n) ∧
          timePlusBinaryEval (.time32 w₁ p) (.time32 w₂ q) = .ok (.time32 w (max p q))) := by
  obtain ⟨hadd, haddNat⟩ := addSecs_of_lt n₁ n₂ (by omega)
  obtain ⟨c, n, hcarry, hc⟩ := carrySecs_spec hs₁ (haddNat.trans_lt (by omega))
  rw [haddNat] at hc
  obtain ⟨hsum, hsumNat⟩ := addSecs_of_lt c s₂ (by omega)
  have heval : timePlusBinaryEval (.time32 w₁ p) (.time32 w₂ q) =
      if c + s₂ > oneDayToSec then .ok .null
      else (packTime (c + s₂) n (max p q)).bind fun w => .ok (.time32 w (max p q)) := by
    simp only [timePlusBinaryEval, nullableBinary, time32?, h₁, h₂, hadd, hcarry, hsum,
      ok_bind, gt_iff_lt, greater_eq_max]
    rfl
  refine ⟨c + s₂, n, by omega, ?_⟩
  by_cases hday : c + s₂ > oneDayToSec
  · exact .inl ⟨UInt32.lt_iff_toNat_lt.mp hday, heval.trans (if_pos hday)⟩
  · have hle : (c + s₂).toNat ≤ 86400 := UInt32.le_iff_toNat_le.mp (UInt32.not_lt.mp hday)
    have hdvd : 10 ^ (9 - (max p q).toNat) ∣ n.toNat := by
      obtain ⟨hd₁, hd₂⟩ := unpackTime_dvd_max hp hq h₁ h₂
      have hd := Nat.dvd_add hd₁ hd₂
      rcases hc with ⟨-, -, hn⟩ | ⟨-, -, hn⟩
      · rwa [hn]
      · rw [← hn] at hd
        exact (Nat.dvd_add_left (Nat.pow_dvd_pow 10 (Nat.sub_le 9 _))).mp hd
    obtain ⟨w, hw, hu⟩ := packTime_of_dvd (max_le_four hp hq) hle (by omega) hdvd
    refine .inr ⟨hle, w, hu, ?_⟩
    rw [heval, if_neg hday, hw]
    rfl

omit hs₂ in
/-- What the source computes for a difference, in whole numbers. -/
theorem timeMinusBinaryEval_spec :
    n₁.toNat < n₂.toNat ∧ s₁.toNat = 0 ∧ timeMinusBinaryEval (.time32 w₁ p) (.time32 w₂ q) =
        .error (.panic "attempt to subtract with overflow") ∨
      ∃ b m : UInt32, b.toNat * 10 ^ 9 + m.toNat = s₁.toNat * 10 ^ 9 + n₁.toNat ∧
        n₂.toNat ≤ m.toNat ∧ m.toNat < n₂.toNat + 10 ^ 9 ∧
        (b.toNat < s₂.toNat ∧ timeMinusBinaryEval (.time32 w₁ p) (.time32 w₂ q) = .ok .null ∨
          s₂.toNat ≤ b.toNat ∧ ∃ s n w : UInt32, unpackTime w (max p q) = .ok (s, n) ∧
            s.toNat = b.toNat - s₂.toNat ∧ n.toNat = m.toNat - n₂.toNat ∧
            timeMinusBinaryEval (.time32 w₁ p) (.time32 w₂ q) = .ok (.time32 w (max p q))) := by
  have hrest : ∀ b m : UInt32, borrowSecs s₁ n₁ n₂ = .ok (b, m) → b.toNat ≤ 86400 →
      n₂.toNat ≤ m.toNat → m.toNat < n₂.toNat + 10 ^ 9 →
      10 ^ (9 - (max p q).toNat) ∣ m.toNat →
      b.toNat < s₂.toNat ∧ timeMinusBinaryEval (.time32 w₁ p) (.time32 w₂ q) = .ok .null ∨
        s₂.toNat ≤ b.toNat ∧ ∃ s n w : UInt32, unpackTime w (max p q) = .ok (s, n) ∧
          s.toNat = b.toNat - s₂.toNat ∧ n.toNat = m.toNat - n₂.toNat ∧
          timeMinusBinaryEval (.time32 w₁ p) (.time32 w₂ q) = .ok (.time32 w (max p q)) := by
    intro b m hborrow hb hle hlt hdvd
    have heval : timeMinusBinaryEval (.time32 w₁ p) (.time32 w₂ q) =
        if b < s₂ then .ok .null
        else (packTime (b - s₂) (m - n₂) (max p q)).bind fun w => .ok (.time32 w (max p q)) := by
      simp only [timeMinusBinaryEval, nullableBinary, time32?, h₁, h₂, hborrow, ok_bind,
        gt_iff_lt, greater_eq_max]
      rfl
    by_cases hbs : b < s₂
    · exact .inl ⟨UInt32.lt_iff_toNat_lt.mp hbs, heval.trans (if_pos hbs)⟩
    · have hsub := UInt32.toNat_sub_of_le _ _ (UInt32.not_lt.mp hbs)
      have hsubN := UInt32.toNat_sub_of_le _ _ (UInt32.le_iff_toNat_le.mpr hle)
      have hd := Nat.dvd_sub hdvd (unpackTime_dvd_max hp hq h₁ h₂).2
      obtain ⟨w, hw, hu⟩ := packTime_of_dvd (max_le_four hp hq) (hsub.trans_le (by omega))
        (hsubN.trans_le (by omega)) (hsubN ▸ hd)
      refine .inr ⟨UInt32.le_iff_toNat_le.mp (UInt32.not_lt.mp hbs), _, _, w, hu, hsub, hsubN, ?_⟩
      rw [heval, if_neg hbs, hw]
      rfl
  have hd₁ := (unpackTime_dvd_max hp hq h₁ h₂).1
  rcases borrowSecs_spec s₁ hn₁ hn₂ with ⟨hle, hb⟩ | ⟨hlt, ⟨hs, hb⟩ | ⟨b, m, hb, hs, hm⟩⟩
  · exact .inr ⟨s₁, n₁, rfl, hle, by omega, hrest _ _ hb (by omega) hle (by omega) hd₁⟩
  · refine .inl ⟨hlt, hs, ?_⟩
    simp only [timeMinusBinaryEval, nullableBinary, time32?, h₁, h₂, hb, ok_bind]
    rfl
  · have hd := Nat.dvd_add hd₁ (Nat.pow_dvd_pow 10 (Nat.sub_le 9 (max p q).toNat))
    refine .inr ⟨b, m, by omega, by omega, by omega, ?_⟩
    exact hrest b m hb (by omega) (by omega) (by omega) (hm ▸ hd)

end Evaluation

theorem not_isTime_null : ¬ IsTime .null p t := by
  rintro ⟨w, secs, nanos, hw, -⟩
  cases hw

theorem div_mod_nanos (hn : n < 10 ^ 9) :
    (s * 10 ^ 9 + n) / 10 ^ 9 = s ∧ (s * 10 ^ 9 + n) % 10 ^ 9 = n := by
  omega

/-- Sums of times are exact unless a carry is missed. -/
theorem addsExactly_iff (hp : p ≤ 4) (hq : q ≤ 4) (hx : IsTime x p t) (hy : IsTime y q u) :
    AddsExactly x y (max p q) t u ↔ ¬ MissedCarry t u := by
  obtain ⟨w₁, s₁, n₁, rfl, h₁, hs₁, hn₁, rfl⟩ := hx
  obtain ⟨w₂, s₂, n₂, rfl, h₂, hs₂, hn₂, rfl⟩ := hy
  obtain ⟨s, n, hsum, heval⟩ := timePlusBinaryEval_spec hp hq h₁ h₂ hs₁ hs₂ hn₁ hn₂
  obtain ⟨hd₁, hm₁⟩ := div_mod_nanos (s := s₁.toNat) hn₁
  obtain ⟨hd₂, hm₂⟩ := div_mod_nanos (s := s₂.toNat) hn₂
  rw [AddsExactly, MissedCarry, dayNanos, hd₁, hm₁, hd₂, hm₂]
  rcases heval with ⟨hday, heval⟩ | ⟨hday, w, hw, heval⟩
  · simp only [heval, Except.ok.injEq, exists_eq_left', not_isTime_null, imp_true_iff, and_true,
      imp_false]
    omega
  · simp only [heval, Except.ok.injEq, exists_eq_left', isTime_iff hw, reduceCtorEq, imp_false]
    omega

/-- Differences of times are exact unless a borrow is missed. -/
theorem subtractsExactly_iff (hp : p ≤ 4) (hq : q ≤ 4) (hx : IsTime x p t) (hy : IsTime y q u) :
    SubtractsExactly x y (max p q) t u ↔ ¬ MissedBorrow t u := by
  obtain ⟨w₁, s₁, n₁, rfl, h₁, hs₁, hn₁, rfl⟩ := hx
  obtain ⟨w₂, s₂, n₂, rfl, h₂, -, hn₂, rfl⟩ := hy
  rw [SubtractsExactly, MissedBorrow, (div_mod_nanos hn₂).2]
  rcases timeMinusBinaryEval_spec hp hq h₁ h₂ hs₁ hn₁ hn₂ with
    ⟨hlt, hs, heval⟩ | ⟨b, m, hb, hle, hlt, ⟨hbs, heval⟩ | ⟨hbs, s, n, w, hw, hs, hn, heval⟩⟩
  · simp only [heval, reduceCtorEq, false_and, exists_false, imp_false]
    omega
  · simp only [heval, Except.ok.injEq, exists_eq_left', not_isTime_null, imp_true_iff, and_true,
      imp_false]
    omega
  · simp only [heval, Except.ok.injEq, exists_eq_left', isTime_iff hw, reduceCtorEq, imp_false]
    omega

/-- Times are added and subtracted exactly iff no carry and no borrow is missed. -/
theorem time_arithmetic_iff (hp : p ≤ 4) (hq : q ≤ 4) (hx : IsTime x p t) (hy : IsTime y q u) :
    AddsExactly x y (max p q) t u ∧ SubtractsExactly x y (max p q) t u ↔
      ¬ MissedCarry t u ∧ ¬ MissedBorrow t u := by
  rw [addsExactly_iff hp hq hx hy, subtractsExactly_iff hp hq hx hy]

/-- Half a second taken twice is kept as a fraction of a whole second, and midnight has no second
for half a second to be borrowed from. -/
theorem half_second_inexact :
    IsTime (.time32 0 1) 1 0 ∧ IsTime (.time32 1342177280 1) 1 500000000 ∧
      ¬ AddsExactly (.time32 1342177280 1) (.time32 1342177280 1) 1 500000000 500000000 ∧
      ¬ SubtractsExactly (.time32 0 1) (.time32 1342177280 1) 1 0 500000000 := by
  have hzero : IsTime (.time32 0 1) 1 0 := ⟨0, 0, 0, rfl, rfl, by decide, by decide, rfl⟩
  have hhalf : IsTime (.time32 1342177280 1) 1 500000000 :=
    ⟨1342177280, 0, 500000000, rfl, rfl, by decide, by decide, rfl⟩
  refine ⟨hzero, hhalf, ?_, ?_⟩
  · intro h
    exact (addsExactly_iff (by decide) (by decide) hhalf hhalf).mp h (by decide)
  · intro h
    exact (subtractsExactly_iff (by decide) (by decide) hzero hhalf).mp h (by decide)

/-- One and a half seconds and a fifth of a second. -/
theorem second_and_half_exact :
    AddsExactly (.time32 1342177281 1) (.time32 536870912 1) 1 1500000000 200000000 ∧
      SubtractsExactly (.time32 1342177281 1) (.time32 536870912 1) 1 1500000000 200000000 := by
  have hx : IsTime (.time32 1342177281 1) 1 1500000000 :=
    ⟨1342177281, 1, 500000000, rfl, rfl, by decide, by decide, rfl⟩
  have hy : IsTime (.time32 536870912 1) 1 200000000 :=
    ⟨536870912, 0, 200000000, rfl, rfl, by decide, by decide, rfl⟩
  exact (time_arithmetic_iff (by decide) (by decide) hx hy).mpr
    ⟨by decide, by decide⟩

/-- The cast keeps the packed word and changes only the precision it is read with. -/
def time32ToTimeCastEval (precision : Option UInt64) : DataValue → Result DataValue
  | .null => .ok .null
  | .time32 value _ => .ok (.time32 value (precision.getD 0))
  | _ => .error .undefinedBehavior

/-- The cast keeps the seconds and cuts the fraction to the digits of the precision. -/
def CastsExactly (v : DataValue) (precision : Option UInt64) (t : Nat) : Prop :=
  ∃ r, time32ToTimeCastEval precision v = .ok r ∧
    IsTime r (precision.getD 0)
      (t / 10 ^ (9 - (precision.getD 0).toNat) * 10 ^ (9 - (precision.getD 0).toNat))

/-- The layouts of two precisions agree on the fraction: there is none, or it is one of a few of
four digits that the shorter layout reads as its first digits. -/
def SameLayout (p q : UInt64) (t : Nat) : Prop :=
  p = q ∨ t % 10 ^ 9 = 0 ∨
    p = 4 ∧ q = 3 ∧ t % 10 ^ 9 = 16 * 10 ^ 5 ∨
    p = 4 ∧ q = 2 ∧ (t % 10 ^ 9 = 128 * 10 ^ 5 ∨ t % 10 ^ 9 = 256 * 10 ^ 5 ∨
      t % 10 ^ 9 = 384 * 10 ^ 5) ∨
    p = 4 ∧ q = 1 ∧ 1024 * 10 ^ 5 ∣ t % 10 ^ 9

instance (p q : UInt64) (t : Nat) : Decidable (SameLayout p q t) :=
  inferInstanceAs (Decidable (_ ∨ _))

/-- Reading a word under another split leaves the lower part alone iff the upper part is a whole
number there. -/
theorem reread_spec (hk : 17 ≤ k) (hk' : 17 ≤ k') (hs : s < 86400) :
    (f * 2 ^ k + s) / 2 ^ k' = f * 2 ^ k / 2 ^ k' ∧
      (f * 2 ^ k + s) % 2 ^ k' = f * 2 ^ k % 2 ^ k' + s ∧
      (f * 2 ^ k % 2 ^ k' + s < 86400 → f * 2 ^ k % 2 ^ k' = 0) := by
  obtain ⟨a, rfl⟩ := Nat.exists_eq_add_of_le hk
  obtain ⟨b, rfl⟩ := Nat.exists_eq_add_of_le hk'
  have hmod : f * 2 ^ (17 + a) % 2 ^ (17 + b) = 2 ^ 17 * (f * 2 ^ a % 2 ^ b) := by
    rw [Nat.pow_add, Nat.pow_add, Nat.mul_left_comm, Nat.mul_mod_mul_left]
  have hlt : f * 2 ^ a % 2 ^ b < 2 ^ b := Nat.mod_lt _ (Nat.two_pow_pos b)
  have hpow : 2 ^ (17 + b) = 2 ^ 17 * 2 ^ b := Nat.pow_add 2 17 b
  have hsum : f * 2 ^ (17 + a) % 2 ^ (17 + b) + s < 2 ^ (17 + b) := by
    rw [hmod, hpow]
    omega
  have hdm := Nat.div_add_mod (f * 2 ^ (17 + a)) (2 ^ (17 + b))
  have hsplit : f * 2 ^ (17 + a) + s = 2 ^ (17 + b) * (f * 2 ^ (17 + a) / 2 ^ (17 + b)) +
      (f * 2 ^ (17 + a) % 2 ^ (17 + b) + s) := by
    omega
  refine ⟨?_, ?_, ?_⟩
  · rw [hsplit, Nat.mul_add_div (Nat.two_pow_pos _), Nat.div_eq_of_lt hsum, Nat.add_zero]
  · rw [hsplit, Nat.mul_add_mod, Nat.mod_eq_of_lt hsum]
  · rw [hmod]
    omega

theorem truncate_nanos (hU : U ∣ 10 ^ 9) (hpos : 0 < U) :
    (s * 10 ^ 9 + n) / U * U = s * 10 ^ 9 + n / U * U := by
  obtain ⟨c, hc⟩ := hU
  rw [hc, Nat.mul_left_comm, Nat.mul_add_div hpos, Nat.add_mul, Nat.mul_comm]

theorem Layout.le_shift (hl : Layout p k U) : 17 ≤ k := by
  by_contra hk
  have hle : 2 ^ k ≤ 2 ^ 16 := Nat.pow_le_pow_right (by decide) (by omega)
  have := hl.secs
  omega

/-- The law of the cast in terms of the two layouts. -/
theorem castsExactly_layout {target : Option UInt64} (hq : target.getD 0 ≤ 4)
    (hl : Layout p k (10 ^ (9 - p.toNat)))
    (hl' : Layout (target.getD 0) k' (10 ^ (9 - (target.getD 0).toNat)))
    (hw : w.toNat = f * 2 ^ k + s) (hs : s < 86400) (hf : f * 10 ^ (9 - p.toNat) < 10 ^ 9) :
    CastsExactly (.time32 w p) target (s * 10 ^ 9 + f * 10 ^ (9 - p.toNat)) ↔
      f * 2 ^ k % 2 ^ k' = 0 ∧ f * 2 ^ k / 2 ^ k' =
        f * 10 ^ (9 - p.toNat) / 10 ^ (9 - (target.getD 0).toNat) := by
  have hcast : CastsExactly (.time32 w p) target (s * 10 ^ 9 + f * 10 ^ (9 - p.toNat)) ↔
      IsTime (.time32 w (target.getD 0)) (target.getD 0) ((s * 10 ^ 9 + f * 10 ^ (9 - p.toNat)) /
        10 ^ (9 - (target.getD 0).toNat) * 10 ^ (9 - (target.getD 0).toNat)) := by
    simp [CastsExactly, time32ToTimeCastEval]
  rw [hcast]
  generalize target.getD 0 = q at *
  obtain ⟨secs, nanos, hu, hsecs, hnanos⟩ := unpackTime_of_le hq hl' w
  obtain ⟨hdiv, hmod, hzero⟩ := reread_spec (f := f) hl.le_shift hl'.le_shift hs
  rw [isTime_iff hu, hsecs, hnanos, hw, hdiv, hmod,
    truncate_nanos (Nat.pow_dvd_pow 10 (Nat.sub_le 9 _)) hl'.pos]
  constructor
  · rintro ⟨hlt, -, heq⟩
    have hz := hzero hlt
    refine ⟨hz, ?_⟩
    rw [hz, Nat.zero_add] at heq
    exact (Nat.eq_of_mul_eq_mul_right hl'.pos (Nat.add_left_cancel heq)).symm
  · rintro ⟨hz, heq⟩
    rw [hz, heq, Nat.zero_add]
    exact ⟨hs, lt_of_le_of_lt (Nat.div_mul_le_self _ _) hf, rfl⟩

/-- The two layouts agree on a fraction iff it is one of those listed. -/
theorem sameLayout_iff (hp : p ≤ 4) (hq : q ≤ 4) (hl : Layout p k (10 ^ (9 - p.toNat)))
    (hl' : Layout q k' (10 ^ (9 - q.toNat))) (hf : f * 10 ^ (9 - p.toNat) < 10 ^ 9) :
    SameLayout p q (s * 10 ^ 9 + f * 10 ^ (9 - p.toNat)) ↔
      f * 2 ^ k % 2 ^ k' = 0 ∧
        f * 2 ^ k / 2 ^ k' = f * 10 ^ (9 - p.toNat) / 10 ^ (9 - q.toNat) := by
  rw [SameLayout, (div_mod_nanos hf).2, ← hl.shift, ← hl'.shift]
  rcases precision_cases hp with rfl | rfl | rfl | rfl | rfl <;>
    rcases precision_cases hq with rfl | rfl | rfl | rfl | rfl <;>
    simp [timeShift] at hf ⊢ <;> omega

/-- A cast of a time to the digits of another precision is exact iff the two layouts agree on its
fraction; a cast to more digits and back gives the time again, and exact casts keep the order. -/
theorem time_cast_iff {target : Option UInt64} (hp : p ≤ 4) (hq : target.getD 0 ≤ 4)
    (hv : IsTime v p t) :
    (CastsExactly v target t ↔ SameLayout p (target.getD 0) t) ∧
      (∃ r, time32ToTimeCastEval target v = .ok r ∧ time32ToTimeCastEval (some p) r = .ok v) ∧
      ∀ y u, IsTime y p u → SameLayout p (target.getD 0) t → SameLayout p (target.getD 0) u →
        t ≤ u → ∃ r r' t' u', time32ToTimeCastEval target v = .ok r ∧
          time32ToTimeCastEval target y = .ok r' ∧ IsTime r (target.getD 0) t' ∧
          IsTime r' (target.getD 0) u' ∧ t' ≤ u' := by
  have hexact : ∀ x n, IsTime x p n →
      (CastsExactly x target n ↔ SameLayout p (target.getD 0) n) := by
    rintro x n ⟨w, secs, nanos, rfl, hu, hs, hn, rfl⟩
    obtain ⟨k, hl⟩ := layout_of_le hp
    obtain ⟨k', hl'⟩ := layout_of_le hq
    obtain ⟨secs', nanos', hu', hsecs, hnanos⟩ := unpackTime_of_le hp hl w
    rw [hu] at hu'
    cases hu'
    have hw : w.toNat = w.toNat / 2 ^ k * 2 ^ k + secs.toNat := by
      rw [hsecs, Nat.mul_comm, Nat.div_add_mod]
    rw [hnanos] at hn ⊢
    rw [castsExactly_layout hq hl hl' hw hs hn, sameLayout_iff hp hq hl hl' hn]
  refine ⟨hexact v t hv, ?_, ?_⟩
  · obtain ⟨w, -, -, rfl, -⟩ := hv
    exact ⟨_, rfl, rfl⟩
  · intro y u hy hsv hsy hle
    obtain ⟨r, hr, hrt⟩ := (hexact v t hv).mpr hsv
    obtain ⟨r', hr', hrt'⟩ := (hexact y u hy).mpr hsy
    exact ⟨r, r', _, _, hr, hr', hrt, hrt', Nat.mul_le_mul_right _ (Nat.div_le_div_right hle)⟩

/-- Half a second of one digit is read with two digits as forty hundredths. -/
theorem half_second_cast_inexact :
    IsTime (.time32 1342177280 1) 1 500000000 ∧
      time32ToTimeCastEval (some 2) (.time32 1342177280 1) = .ok (.time32 1342177280 2) ∧
      IsTime (.time32 1342177280 2) 2 400000000 ∧
      ¬ CastsExactly (.time32 1342177280 1) (some 2) 500000000 := by
  refine ⟨⟨_, 0, 500000000, rfl, rfl, by decide, by decide, rfl⟩, rfl,
    ⟨_, 0, 400000000, rfl, rfl, by decide, by decide, rfl⟩, ?_⟩
  rintro ⟨r, hr, hread⟩
  cases hr
  have hu : unpackTime 1342177280 2 = .ok (0, 400000000) := rfl
  have heq := ((isTime_iff hu).mp hread).2.2
  revert heq
  decide

/-- A time of whole seconds is cast exactly. -/
theorem whole_second_cast_exact :
    CastsExactly (.time32 3600 1) (some 2) 3600000000000 :=
  (time_cast_iff (by decide) (by decide)
    ⟨3600, 3600, 0, rfl, rfl, by decide, by decide, rfl⟩).1.mpr (by decide)

end KiteSQL.DataValue
