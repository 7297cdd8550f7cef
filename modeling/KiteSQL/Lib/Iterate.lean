import Mathlib.Tactic

/-! Iterators as fallible step functions: the states they reach and the items they yield. -/
namespace Iterate

variable {σ α ε : Type} {next : σ → Except ε (Option α × σ)} {s t u : σ} {a : α} {l m : List α}
  {P : σ → List α → Prop}

/-- The states an iterator passes through while it yields items. -/
inductive Reaches (next : σ → Except ε (Option α × σ)) : σ → σ → Prop
  | refl (s : σ) : Reaches next s s
  | step {s t u : σ} {a : α} : next s = .ok (some a, t) → Reaches next t u → Reaches next s u

/-- The items an iterator yields until it first reports that there is none. -/
inductive Yields (next : σ → Except ε (Option α × σ)) : σ → List α → Prop
  | done {s t : σ} : next s = .ok (none, t) → Yields next s []
  | more {s t : σ} {a : α} {l : List α} :
      next s = .ok (some a, t) → Yields next t l → Yields next s (a :: l)

/-- The items an iterator yields on its way to a state. -/
inductive Emits (next : σ → Except ε (Option α × σ)) : σ → List α → σ → Prop
  | nil (s : σ) : Emits next s [] s
  | cons {s t u : σ} {a : α} {l : List α} :
      next s = .ok (some a, t) → Emits next t l u → Emits next s (a :: l) u

theorem Emits.append (h : Emits next s l t) (h' : Emits next t m u) : Emits next s (l ++ m) u := by
  induction h with
  | nil => exact h'
  | cons hn _ ih => exact .cons hn (ih h')

theorem Emits.yields (h : Emits next s l t) (h' : Yields next t m) : Yields next s (l ++ m) := by
  induction h with
  | nil => exact h'
  | cons hn _ ih => exact .more hn (ih h')

/-- What every step keeps holds in every state reached. -/
theorem Reaches.invariant {P : σ → Prop} (h : Reaches next s t)
    (hstep : ∀ s a t, P s → next s = .ok (some a, t) → P t) (hs : P s) : P t := by
  induction h with
  | refl => exact hs
  | step hn _ ih => exact ih (hstep _ _ _ hs hn)

/-- An iterator whose every call returns the next of the items it owes yields them all. -/
theorem yields_of_owed (hend : ∀ s, P s [] → ∃ t, next s = .ok (none, t))
    (hnext : ∀ s a l, P s (a :: l) → ∃ t, next s = .ok (some a, t) ∧ P t l) (h : P s l) :
    Yields next s l := by
  induction l generalizing s with
  | nil =>
    obtain ⟨t, ht⟩ := hend s h
    exact .done ht
  | cons a l ih =>
    obtain ⟨t, ht, hp⟩ := hnext s a l h
    exact .more ht (ih hp)

/-- An iterator that ends at the first item that fails a test yields the items up to it. -/
theorem yields_takeWhile {p : α → Bool} (hend : ∀ s, P s [] → ∃ t, next s = .ok (none, t))
    (hstop : ∀ s a l, P s (a :: l) → p a = false → ∃ t, next s = .ok (none, t))
    (hnext : ∀ s a l, P s (a :: l) → p a = true → ∃ t, next s = .ok (some a, t) ∧ P t l) (h : P s l)
    : Yields next s (l.takeWhile p) := by
  induction l generalizing s with
  | nil =>
    obtain ⟨t, ht⟩ := hend s h
    exact .done ht
  | cons a l ih =>
    cases ha : p a with
    | false =>
      obtain ⟨t, ht⟩ := hstop s a l h ha
      rw [List.takeWhile_cons_of_neg (by simp [ha])]
      exact .done ht
    | true =>
      obtain ⟨t, ht, hp⟩ := hnext s a l h ha
      rw [List.takeWhile_cons_of_pos ha]
      exact .more ht (ih hp)

theorem Yields.of_next_eq (h : Yields next t l) (he : next s = next t) : Yields next s l := by
  cases h with
  | done hn => exact .done (he.trans hn)
  | more hn hl => exact .more (he.trans hn) hl

theorem Yields.unique (h : Yields next s l) (h' : Yields next s m) : l = m := by
  induction h generalizing m with
  | done hn =>
    cases h' with
    | done => rfl
    | more hn' => simp [hn] at hn'
  | more hn _ ih =>
    cases h' with
    | done hn' => simp [hn] at hn'
    | more hn' h' =>
      rw [hn] at hn'
      cases hn'
      rw [ih h']

end Iterate
