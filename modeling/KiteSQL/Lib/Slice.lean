import KiteSQL.Lib.Iterate

/-! The part of a list that an offset and an optional limit leave. -/
namespace List

variable {α : Type} {l m r : List α} {a : α} {offset : Nat} {limit : Option Nat}

def slice (offset : Nat) (limit : Option Nat) (l : List α) : List α :=
  match limit with
  | none => l.drop offset
  | some n => (l.drop offset).take n

theorem slice_limit_zero : l.slice offset (some 0) = [] := by
  simp [slice]

theorem slice_of_length_le (h : l.length ≤ offset) : l.slice offset limit = [] := by
  cases limit <;> simp [slice, h]

theorem slice_of_drop (h : l.drop offset = a :: r) (hl : limit ≠ some 0) :
    l.slice offset limit = a :: r.slice 0 (limit.map (· - 1)) := by
  cases limit with
  | none => simp [slice, h]
  | some n =>
    obtain ⟨n, rfl⟩ : ∃ k, n = k + 1 := ⟨n - 1, by simp at hl; omega⟩
    simp [slice, h]

theorem map_slice {β : Type} {f : α → β} :
    (l.slice offset limit).map f = (l.map f).slice offset limit := by
  cases limit <;> simp [slice, map_drop, map_take]

theorem length_slice : (l.slice offset limit).length =
    match limit with
    | none => l.length - offset
    | some n => min n (l.length - offset) := by
  cases limit <;> simp [slice]

theorem slice_sublist : (l.slice offset limit).Sublist l := by
  cases limit with
  | none => exact drop_sublist offset l
  | some n => exact (take_sublist n _).trans (drop_sublist offset l)

theorem slice_zero_of_length_le (h : ∀ n, limit = some n → l.length ≤ n) : l.slice 0 limit = l := by
  cases limit with
  | none => rfl
  | some n => exact take_of_length_le (h n rfl)

theorem slice_zero_idem : (l.slice 0 limit).slice 0 limit = l.slice 0 limit := by
  cases limit <;> simp [slice]

theorem iterate_slice_sublist (offset : Nat) (limit : Option Nat) (n : Nat) :
    ((slice offset limit)^[n] l).Sublist l := by
  induction n with
  | zero => exact .refl l
  | succ n ih =>
    rw [Function.iterate_succ_apply']
    exact slice_sublist.trans ih

theorem iterate_slice_zero (n : Nat) : (slice 0 limit)^[n + 1] l = l.slice 0 limit := by
  induction n with
  | zero => rfl
  | succ n ih => rw [Function.iterate_succ_apply', ih, slice_zero_idem]

theorem length_iterate_slice_le (offset : Nat) (limit : Option Nat) (n : Nat) (l : List α) :
    ((slice offset limit)^[n + 1] l).length ≤ l.length - offset := by
  have hsub : ((slice offset limit)^[n] l).length ≤ l.length :=
    (iterate_slice_sublist offset limit n).length_le
  rw [Function.iterate_succ_apply', length_slice]
  cases limit with
  | none => exact Nat.sub_le_sub_right hsub offset
  | some m => exact (Nat.min_le_right _ _).trans (Nat.sub_le_sub_right hsub offset)

/-- The limit that one limit and then an offset with a second limit leave together. -/
def composeLimit (inner : Option Nat) (offset : Nat) (outer : Option Nat) : Option Nat :=
  match inner, outer with
  | none, outer => outer
  | some m, none => some (m - offset)
  | some m, some n => some (min (m - offset) n)

theorem slice_slice (o₁ o₂ : Nat) (m₁ m₂ : Option Nat) :
    (l.slice o₁ m₁).slice o₂ m₂ = l.slice (o₁ + o₂) (composeLimit m₁ o₂ m₂) := by
  cases m₁ <;> cases m₂ <;> simp [slice, composeLimit, drop_take, take_take, Nat.min_comm]

/-- Two parts that are equally long for lists of every length are the same part, or both are
empty. -/
theorem slice_lengths {a : α} {o₁ o₂ : Nat} {m₁ m₂ : Option Nat}
    (h : ∀ n, ((replicate n a).slice o₁ m₁).length = ((replicate n a).slice o₂ m₂).length) :
    (o₁, m₁) = (o₂, m₂) ∨ (m₁ = some 0 ∧ m₂ = some 0) := by
  simp only [length_slice, length_replicate] at h
  cases m₁ with
  | none =>
    cases m₂ with
    | none =>
      have := h (o₁ + o₂ + 1)
      dsimp only at this
      rw [show o₁ = o₂ by omega]
      exact .inl rfl
    | some k =>
      have := h (o₁ + o₂ + k + 1)
      dsimp only at this
      omega
  | some j =>
    cases m₂ with
    | none =>
      have := h (o₁ + o₂ + j + 1)
      dsimp only at this
      omega
    | some k =>
      have hfar := h (o₁ + o₂ + j + k + 1)
      have hfirst := h (o₁ + 1)
      have hsecond := h (o₂ + 1)
      dsimp only at hfar hfirst hsecond
      have hjk : j = k := by omega
      subst hjk
      by_cases hj : j = 0
      · exact .inr ⟨by rw [hj], by rw [hj]⟩
      · rw [show o₁ = o₂ by omega]
        exact .inl rfl

theorem slice_prefix_append (l m : List α) :
    l.slice offset limit <+: (l ++ m).slice offset limit := by
  have hd : l.drop offset <+: (l ++ m).drop offset := by
    rw [drop_append]
    exact prefix_append _ _
  cases limit with
  | none => exact hd
  | some n => exact hd.take n

/-- More rows at the end do not matter when there are none, when the limit is reached before them
or when the offset passes them all. -/
theorem slice_eq_slice_append_iff : l.slice offset limit = (l ++ m).slice offset limit ↔
    m = [] ∨ (∃ n, limit = some n ∧ (n = 0 ∨ offset + n ≤ l.length)) ∨
      l.length + m.length ≤ offset := by
  have hp : l.slice offset limit <+: (l ++ m).slice offset limit := slice_prefix_append l m
  have he : l.slice offset limit = (l ++ m).slice offset limit ↔
      (l.slice offset limit).length = ((l ++ m).slice offset limit).length :=
    ⟨congrArg length, hp.eq_of_length⟩
  rw [he, length_slice, length_slice, length_append, ← length_eq_zero_iff]
  cases limit with
  | none =>
    simp only [reduceCtorEq, false_and, exists_false, false_or]
    omega
  | some n =>
    simp only [Option.some.injEq, exists_eq_left']
    omega

end List

namespace Iterate

variable {σ α ε : Type} {next : σ → Except ε (Option α × σ)}
  {R : σ → List α → Nat → Option Nat → Prop} {s : σ} {l : List α} {offset : Nat}
  {limit : Option Nat}

/-- An iterator that ends at its limit and otherwise returns the item after its offset yields the
part of its items that the two leave. -/
theorem yields_slice
    (hend : ∀ s l offset limit, R s l offset limit → limit = some 0 ∨ l.length ≤ offset →
      ∃ t, next s = .ok (none, t))
    (hnext : ∀ s l offset limit a r, R s l offset limit → limit ≠ some 0 →
      l.drop offset = a :: r → ∃ t, next s = .ok (some a, t) ∧ R t r 0 (limit.map (· - 1)))
    (h : R s l offset limit) : Yields next s (l.slice offset limit) := by
  induction hn : l.length using Nat.strong_induction_on generalizing s l offset limit with
  | _ n ih =>
    by_cases hlimit : limit = some 0
    · obtain ⟨t, ht⟩ := hend s l offset limit h (.inl hlimit)
      rw [hlimit, List.slice_limit_zero]
      exact .done ht
    · cases hd : l.drop offset with
      | nil =>
        have hlen : l.length ≤ offset := List.drop_eq_nil_iff.mp hd
        obtain ⟨t, ht⟩ := hend s l offset limit h (.inr hlen)
        rw [List.slice_of_length_le hlen]
        exact .done ht
      | cons a r =>
        obtain ⟨t, ht, hr⟩ := hnext s l offset limit a r h hlimit hd
        have hlen := congrArg List.length hd
        rw [List.length_drop, List.length_cons] at hlen
        rw [List.slice_of_drop hd hlimit]
        exact .more ht (ih r.length (by omega) hr rfl)

end Iterate
