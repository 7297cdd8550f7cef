import Mathlib.Tactic

/-! Computations that write to a state and may fail. What was written before a failure stays. -/

/-- The outcome of a computation and the state it leaves, also when it fails. -/
def Stateful (σ ε α : Type) := σ → Except ε α × σ

namespace Stateful

open List

variable {σ ε α β γ ι τ : Type}

instance : Monad (Stateful σ ε) where
  pure a := fun s => (.ok a, s)
  bind x f := fun s =>
    match x s with
    | (.ok a, t) => f a t
    | (.error e, t) => (.error e, t)

instance : MonadLift (Except ε) (Stateful σ ε) where
  monadLift x := fun s => (x, s)

/-- A write that fails without an effect. -/
def write (f : σ → Except ε σ) : Stateful σ ε Unit := fun s =>
  match f s with
  | .ok t => (.ok (), t)
  | .error e => (.error e, s)

/-- A look at the state. -/
def inspect (f : σ → Except ε α) : Stateful σ ε α := fun s => (f s, s)

variable {x : Stateful σ ε α} {f : α → Stateful σ ε β} {a : α} {b : β} {s s' : σ} {e : ε} {t : σ}
  {y o : Except ε α} {g : σ → Except ε σ}

theorem bind_eq_ok : (x >>= f) s = (.ok b, s') ↔ ∃ a t, x s = (.ok a, t) ∧ f a t = (.ok b, s') := by
  change (match x s with
    | (.ok a, t) => f a t
    | (.error e, t) => (.error e, t)) = _ ↔ _
  obtain ⟨_ | a, t⟩ := x s <;> simp

theorem bind_eq_error :
    (x >>= f) s = (.error e, s') ↔
      x s = (.error e, s') ∨ ∃ a t, x s = (.ok a, t) ∧ f a t = (.error e, s') := by
  change (match x s with
    | (.ok a, t) => f a t
    | (.error e, t) => (.error e, t)) = _ ↔ _
  obtain ⟨_ | a, t⟩ := x s <;> simp

theorem bind_of_ok (h : x s = (.ok a, t)) : (x >>= f) s = f a t := by
  change (match x s with
    | (.ok a, t) => f a t
    | (.error e, t) => (.error e, t)) = _
  rw [h]

theorem bind_of_error (h : x s = (.error e, t)) : (x >>= f) s = (.error e, t) := by
  change (match x s with
    | (.ok a, t) => f a t
    | (.error e, t) => (.error e, t)) = _
  rw [h]

theorem snd_bind_pure (x : Stateful σ ε α) (s : σ) : ((x >>= fun _ => pure ()) s).2 = (x s).2 := by
  cases h : x s with
  | mk o t =>
    cases o with
    | error e => rw [bind_of_error h]
    | ok a =>
      rw [bind_of_ok h]
      rfl

theorem pure_eq_ok {a' : α} : (pure a : Stateful σ ε α) s = (.ok a', s') ↔ a = a' ∧ s = s' := by
  change ((.ok a, s) : Except ε α × σ) = _ ↔ _
  simp

theorem bind_pure_eq_ok {g : α → β} :
    (x >>= fun a => pure (g a)) s = (.ok b, s') ↔ ∃ a, x s = (.ok a, s') ∧ g a = b := by
  rw [bind_eq_ok]
  simp only [pure_eq_ok]
  constructor
  · rintro ⟨a, _, h, hb, rfl⟩
    exact ⟨a, h, hb⟩
  · rintro ⟨a, h, hb⟩
    exact ⟨a, s', h, hb, rfl⟩

theorem pure_ne_error : (pure a : Stateful σ ε α) s ≠ (.error e, s') := by
  change ((.ok a, s) : Except ε α × σ) ≠ _
  simp

theorem liftM_eq : (liftM y : Stateful σ ε α) s = (o, s') ↔ y = o ∧ s = s' := by
  change ((y, s) : Except ε α × σ) = _ ↔ _
  simp

theorem liftM_bind_eq_ok :
    ((liftM y : Stateful σ ε α) >>= f) s = (.ok b, s') ↔
      ∃ a, y = .ok a ∧ f a s = (.ok b, s') := by
  rw [bind_eq_ok]
  simp only [liftM_eq]
  constructor
  · rintro ⟨a, _, ⟨hy, rfl⟩, h⟩
    exact ⟨a, hy, h⟩
  · rintro ⟨a, hy, h⟩
    exact ⟨a, s, ⟨hy, rfl⟩, h⟩

theorem inspect_eq {g : σ → Except ε α} : inspect g s = (o, s') ↔ g s = o ∧ s = s' := by
  simp [inspect]

theorem write_eq_ok {u : Unit} : write g s = (.ok u, s') ↔ g s = .ok s' := by
  unfold write
  cases g s <;> simp

theorem write_eq_error : write g s = (.error e, s') ↔ g s = .error e ∧ s = s' := by
  unfold write
  cases g s <;> simp

section Fold

variable {g : β → γ → Stateful σ ε β} {c : γ} {l : List γ} {b' : β} {I : List γ → σ → Prop}

theorem foldlM_cons_eq_ok (h : ((c :: l).foldlM g b) s = (.ok b', s')) :
    ∃ d t, g b c s = (.ok d, t) ∧ (l.foldlM g d) t = (.ok b', s') := by
  rw [foldlM_cons] at h
  exact bind_eq_ok.mp h

/-- What every step keeps of the items still to come, a loop keeps to its end. -/
theorem foldlM_rest (h : (l.foldlM g b) s = (.ok b', s'))
    (hstep : ∀ c l b s d t, I (c :: l) s → g b c s = (.ok d, t) → I l t) (hs : I l s) :
    I [] s' := by
  induction l generalizing b s with
  | nil =>
    obtain ⟨-, rfl⟩ := pure_eq_ok.mp h
    exact hs
  | cons c l ih =>
    obtain ⟨d, t, ht, hl⟩ := foldlM_cons_eq_ok h
    exact ih hl (hstep c l b s d t hs ht)

/-- A loop whose harmless items keep `I`, and whose first harmful one leads to `F`, which lasts. -/
theorem foldlM_dichotomy {F : List γ → σ → Prop} {C : γ → Prop}
    (h : (l.foldlM g b) s = (.ok b', s'))
    (hgood : ∀ c l b s d t, I (c :: l) s → g b c s = (.ok d, t) → C c → I l t)
    (hbad : ∀ c l b s d t, I (c :: l) s → g b c s = (.ok d, t) → ¬ C c → F l t)
    (hkeep : ∀ c l b s d t, F (c :: l) s → g b c s = (.ok d, t) → F l t) (hs : I l s) :
    (∀ c ∈ l, C c) ∧ I [] s' ∨ (∃ c ∈ l, ¬ C c) ∧ F [] s' := by
  induction l generalizing b s with
  | nil =>
    obtain ⟨-, rfl⟩ := pure_eq_ok.mp h
    exact Or.inl ⟨by simp, hs⟩
  | cons c l ih =>
    obtain ⟨d, t, ht, hl⟩ := foldlM_cons_eq_ok h
    by_cases hc : C c
    · rcases ih hl (hgood c l b s d t hs ht hc) with ⟨hall, hi⟩ | ⟨⟨x, hx, hxc⟩, hf⟩
      · exact Or.inl ⟨by simpa [hc] using hall, hi⟩
      · exact Or.inr ⟨⟨x, by simp [hx], hxc⟩, hf⟩
    · refine Or.inr ⟨⟨c, by simp, hc⟩, ?_⟩
      exact foldlM_rest hl hkeep (hbad c l b s d t hs ht hc)

/-- A loop that fails ran through the items before the one that failed. -/
theorem foldlM_eq_error (h : (l.foldlM g b) s = (.error e, s')) :
    ∃ pre c post d t, l = pre ++ c :: post ∧ (pre.foldlM g b) s = (.ok d, t) ∧
      g d c t = (.error e, s') := by
  induction l generalizing b s with
  | nil => exact absurd h pure_ne_error
  | cons c l ih =>
    rw [foldlM_cons] at h
    rcases bind_eq_error.mp h with h | ⟨d, t, ht, h⟩
    · exact ⟨[], c, l, b, s, rfl, rfl, h⟩
    · obtain ⟨pre, x, post, d', t', rfl, hpre, hx⟩ := ih h
      refine ⟨c :: pre, x, post, d', t', rfl, ?_, hx⟩
      rw [foldlM_cons]
      exact bind_eq_ok.mpr ⟨d, t, ht, hpre⟩

/-- A loop in which every step adds a row under a new key adds one row for each item. -/
theorem foldlM_inserts {K R : Type} [DecidableEq K] {V : σ → K → Option R} {W : γ → K × R → Prop}
    (h : (l.foldlM g b) s = (.ok b', s'))
    (hstep : ∀ c ∈ l, ∀ b s d t, g b c s = (.ok d, t) → ∃ k r, W c (k, r) ∧ V s k = none ∧
      V t = Function.update (V s) k (some r)) :
    ∃ rows, List.Forall₂ W l rows ∧ (rows.map Prod.fst).Nodup ∧
      (∀ row ∈ rows, V s row.1 = none) ∧
      ∀ k r, V s' k = some r ↔ V s k = some r ∨ (k, r) ∈ rows := by
  induction l generalizing b s with
  | nil =>
    obtain ⟨-, rfl⟩ := pure_eq_ok.mp h
    exact ⟨[], .nil, by simp, by simp, by simp⟩
  | cons c l ih =>
    obtain ⟨d, t, ht, hl⟩ := foldlM_cons_eq_ok h
    rw [forall_mem_cons] at hstep
    obtain ⟨k, r, hw, hfree, hrows⟩ := hstep.1 b s d t ht
    obtain ⟨rows, hall, hnodup, habsent, hiff⟩ := ih hl hstep.2
    have hne : ∀ row ∈ rows, row.1 ≠ k := by
      rintro row hmem rfl
      have hnone := habsent row hmem
      rw [hrows, Function.update_self] at hnone
      cases hnone
    refine ⟨(k, r) :: rows, .cons hw hall, ?_, ?_, fun x b => ?_⟩
    · refine nodup_cons.mpr ⟨fun hmem => ?_, hnodup⟩
      obtain ⟨row, hrow, he⟩ := mem_map.mp hmem
      exact hne row hrow he
    · rw [forall_mem_cons]
      refine ⟨hfree, fun row hmem => ?_⟩
      have hnone := habsent row hmem
      rwa [hrows, Function.update_of_ne (hne row hmem)] at hnone
    · rw [hiff, hrows, mem_cons, Prod.mk.injEq]
      by_cases hx : x = k
      · subst hx
        rw [Function.update_self, hfree]
        simp [eq_comm]
      · rw [Function.update_of_ne hx]
        simp [hx]

end Fold

section ForM

variable {g : γ → Stateful σ ε PUnit} {c : γ} {l : List γ} {u : PUnit}

theorem forM_cons_eq_ok (h : ((c :: l).forM g) s = (.ok u, s')) :
    ∃ t, g c s = (.ok ⟨⟩, t) ∧ (l.forM g) t = (.ok u, s') := by
  obtain ⟨_, t, ht, hl⟩ := bind_eq_ok.mp h
  exact ⟨t, ht, hl⟩

theorem forM_nil_eq_ok (h : (([] : List γ).forM g) s = (.ok u, s')) : s = s' :=
  (pure_eq_ok.mp h).2

/-- A loop that fails ran through the items before the one that failed. -/
theorem forM_eq_error (h : (l.forM g) s = (.error e, s')) :
    ∃ pre c post t, l = pre ++ c :: post ∧ (pre.forM g) s = (.ok ⟨⟩, t) ∧
      g c t = (.error e, s') := by
  induction l generalizing s with
  | nil => exact absurd h pure_ne_error
  | cons c l ih =>
    rcases bind_eq_error.mp h with h | ⟨_, t, ht, h⟩
    · exact ⟨[], c, l, s, rfl, rfl, h⟩
    · obtain ⟨pre, x, post, t', rfl, hpre, hx⟩ := ih h
      exact ⟨c :: pre, x, post, t', rfl, bind_eq_ok.mpr ⟨⟨⟩, t, ht, hpre⟩, hx⟩

variable {V : ι → σ → τ} {p : γ → ι}

theorem forM_view {i : ι} (h : (l.forM g) s = (.ok u, s'))
    (hlocal : ∀ s c s', c ∈ l → g c s = (.ok ⟨⟩, s') → V i s' = V i s) : V i s' = V i s := by
  induction l generalizing s with
  | nil => rw [forM_nil_eq_ok h]
  | cons c l ih =>
    obtain ⟨t, ht, hl⟩ := forM_cons_eq_ok h
    rw [ih hl fun s x s' hx => hlocal s x s' (by simp [hx]), hlocal s c t (by simp) ht]

/-- Every step of a loop over different parts finds its part as it was at the start and leaves it
as it is at the end. -/
theorem forM_step (h : (l.forM g) s = (.ok u, s'))
    (hlocal : ∀ i s c s', c ∈ l → g c s = (.ok ⟨⟩, s') → i ≠ p c → V i s' = V i s)
    (hnodup : (l.map p).Nodup) (hc : c ∈ l) :
    ∃ t t', g c t = (.ok ⟨⟩, t') ∧ V (p c) t = V (p c) s ∧
      V (p c) s' = V (p c) t' := by
  induction l generalizing s with
  | nil => simp at hc
  | cons b l ih =>
    obtain ⟨t, ht, hl⟩ := forM_cons_eq_ok h
    rw [map_cons, nodup_cons] at hnodup
    have htail := fun i s x s' (hx : x ∈ l) => hlocal i s x s' (by simp [hx])
    rcases mem_cons.mp hc with rfl | hc
    · refine ⟨s, t, ht, rfl, forM_view hl fun s x s' hx hg => htail _ s x s' hx hg fun he => ?_⟩
      exact hnodup.1 (mem_map.mpr ⟨x, hx, he.symm⟩)
    · obtain ⟨v, v', hv, hs, hs'⟩ := ih hl htail hnodup.2 hc
      refine ⟨v, v', hv, hs.trans (hlocal _ s b t (by simp) ht fun he => ?_), hs'⟩
      exact hnodup.1 (mem_map.mpr ⟨c, hc, he⟩)

end ForM

section Relates

variable {R : σ → σ → Prop} {l : List γ}

/-- Whatever the outcome, the states before and after are related. -/
def Relates (R : σ → σ → Prop) (x : Stateful σ ε α) : Prop := ∀ s, R s (x s).2

theorem Relates.apply (h : Relates R x) (hx : x s = (o, s')) : R s s' := by
  have hs := h s
  rwa [hx] at hs

theorem relates_pure (hr : ∀ s, R s s) (a : α) : Relates R (pure a : Stateful σ ε α) :=
  fun s => hr s

theorem relates_liftM (hr : ∀ s, R s s) (y : Except ε α) : Relates R (liftM y : Stateful σ ε α) :=
  fun s => hr s

theorem relates_write (hr : ∀ s, R s s) (hg : ∀ s t, g s = .ok t → R s t) :
    Relates R (write g) := by
  intro s
  unfold write
  cases h : g s with
  | error e => exact hr s
  | ok t => exact hg s t h

theorem Relates.bind (ht : ∀ {s t u}, R s t → R t u → R s u) (hx : Relates R x)
    (hf : ∀ a, Relates R (f a)) : Relates R (x >>= f) := by
  intro s
  change R s (match x s with
    | (.ok a, t) => f a t
    | (.error e, t) => (.error e, t)).2
  have hs := hx s
  revert hs
  obtain ⟨_ | a, t⟩ := x s
  · exact id
  · exact fun hs => ht hs (hf a t)

theorem relates_foldlM (hr : ∀ s, R s s) (ht : ∀ {s t u}, R s t → R t u → R s u)
    {g : β → γ → Stateful σ ε β} (hg : ∀ b, ∀ c ∈ l, Relates R (g b c)) (b : β) :
    Relates R (l.foldlM g b) := by
  induction l generalizing b with
  | nil => exact relates_pure hr b
  | cons c l ih =>
    rw [foldlM_cons]
    exact (hg b c (by simp)).bind ht fun d => ih (fun b c hc => hg b c (by simp [hc])) d

theorem relates_forM (hr : ∀ s, R s s) (ht : ∀ {s t u}, R s t → R t u → R s u)
    {g : γ → Stateful σ ε PUnit} (hg : ∀ c ∈ l, Relates R (g c)) : Relates R (l.forM g) := by
  induction l with
  | nil => exact relates_pure hr _
  | cons c l ih =>
    exact (hg c (by simp)).bind ht fun _ => ih fun c hc => hg c (by simp [hc])

end Relates

end Stateful
