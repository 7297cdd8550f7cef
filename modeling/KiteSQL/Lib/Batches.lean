import KiteSQL.Lib.Stateful
import KiteSQL.Lib.Traverse

/-! Loops that read a sequence batch by batch, each batch after the last item of the one before. -/
namespace Batches

open Traverse Stateful List

variable {σ ε κ ρ α : Type}

/-- Where the batch after these items starts. -/
def startAfter (key : α → Option κ) (batch : List α) : Option κ := batch.getLast?.bind key

/-- Reads a batch, visits its items and goes on after the last one, unless the batch was short. -/
def loop (size : Nat) (read : Option κ → σ → Except ε (List α)) (key : α → Option κ)
    (visit : α → Stateful σ ε PUnit) (divergence : ε) : Nat → Option κ → Stateful σ ε PUnit
  | 0, _ => liftM (.error divergence : Except ε PUnit)
  | fuel + 1, start => do
    let batch ← Stateful.inspect (read start)
    if batch.isEmpty then pure ⟨⟩
    else do
      batch.forM visit
      if batch.length < size then pure ⟨⟩
      else loop size read key visit divergence fuel (startAfter key batch)

/-- Reading goes on behind the items that were visited, whatever the visits wrote. -/
structure Paged (size : Nat) (read : Option κ → σ → Except ε (List α)) (key : α → Option κ)
    (visit : α → Stateful σ ε PUnit) (decode : ρ → Except ε α) (items : List ρ)
    (I : List ρ → σ → Prop) : Prop where
  size_pos : 0 < size
  first : ∀ s, I [] s → read none s = (items.take size).mapM decode
  next : ∀ done r x rest s, items = done ++ r :: rest → decode r = .ok x → I (done ++ [r]) s →
    read (key x) s = (rest.take size).mapM decode
  step : ∀ done r x rest s s', items = done ++ r :: rest → I done s → decode r = .ok x →
    visit x s = (.ok ⟨⟩, s') → I (done ++ [r]) s'

variable {size : Nat} {read : Option κ → σ → Except ε (List α)} {key : α → Option κ}
  {visit : α → Stateful σ ε PUnit} {decode : ρ → Except ε α} {items : List ρ}
  {I : List ρ → σ → Prop} {divergence : ε} {done rest page : List ρ} {xs : List α} {s s' : σ}
  {fuel : Nat} {start : Option κ}

/-- Visiting a batch keeps the invariant. -/
theorem Paged.batch (h : Paged size read key visit decode items I)
    (hi : items = done ++ (page ++ rest)) (hs : I done s) (hx : page.mapM decode = .ok xs)
    (hv : (xs.forM visit) s = (.ok ⟨⟩, s')) : I (done ++ page) s' := by
  induction page generalizing done s xs with
  | nil =>
    cases hx
    rw [← forM_nil_eq_ok hv, append_nil]
    exact hs
  | cons r page ih =>
    obtain ⟨x, xs, hr, hxs, rfl⟩ := mapM_cons_eq_ok.mp hx
    obtain ⟨t, ht, hv⟩ := forM_cons_eq_ok hv
    have hstep := h.step done r x (page ++ rest) s t hi hs hr ht
    have hrest := ih (by rw [hi]; simp) hstep hxs hv
    rwa [append_assoc] at hrest

/-- Where a loop stands that has visited these items. -/
def Reached (decode : ρ → Except ε α) (key : α → Option κ) (done : List ρ) (start : Option κ) :
    Prop :=
  done = [] ∧ start = none ∨ ∃ before r x, done = before ++ [r] ∧ decode r = .ok x ∧ start = key x

theorem Paged.read_eq (h : Paged size read key visit decode items I)
    (hi : items = done ++ rest) (hs : I done s) (hr : Reached decode key done start) :
    read start s = (rest.take size).mapM decode := by
  obtain ⟨rfl, rfl⟩ | ⟨before, r, x, rfl, hx, rfl⟩ := hr
  · subst hi
    exact h.first s hs
  · exact h.next before r x rest s (by rw [hi]; simp) hx hs

/-- After a batch that is not empty the loop stands at the batch's last item. -/
theorem reached_batch (hx : page.mapM decode = .ok xs) (hne : page ≠ []) :
    Reached decode key (done ++ page) (startAfter key xs) := by
  obtain ⟨before, r, rfl⟩ := eq_nil_or_concat page |>.resolve_left hne
  rw [concat_eq_append] at hx ⊢
  obtain ⟨ys, y, hys, hy, rfl⟩ := mapM_concat_eq_ok.mp hx
  refine Or.inr ⟨done ++ before, r, y, by simp, hy, ?_⟩
  simp [startAfter]

theorem forM_append_eq_ok {ys : List α} : ((xs ++ ys).forM visit) s = (.ok ⟨⟩, s') ↔
    ∃ t, (xs.forM visit) s = (.ok ⟨⟩, t) ∧ (ys.forM visit) t = (.ok ⟨⟩, s') := by
  induction xs generalizing s with
  | nil =>
    constructor
    · intro h
      exact ⟨s, rfl, h⟩
    · rintro ⟨t, ht, h⟩
      rw [forM_nil_eq_ok ht]
      exact h
  | cons x xs ih =>
    constructor
    · intro h
      obtain ⟨u, hu, h⟩ := forM_cons_eq_ok h
      obtain ⟨t, ht, h⟩ := ih.mp h
      exact ⟨t, bind_eq_ok.mpr ⟨⟨⟩, u, hu, ht⟩, h⟩
    · rintro ⟨t, ht, h⟩
      obtain ⟨u, hu, ht⟩ := forM_cons_eq_ok ht
      exact bind_eq_ok.mpr ⟨⟨⟩, u, hu, ih.mpr ⟨t, ht, h⟩⟩

theorem Paged.loop_from_iff (h : Paged size read key visit decode items I)
    (hi : items = done ++ rest) (hs : I done s) (hr : Reached decode key done start)
    (hfuel : rest.length < fuel) :
    loop size read key visit divergence fuel start s = (.ok ⟨⟩, s') ↔
      ∃ xs, rest.mapM decode = .ok xs ∧ (xs.forM visit) s = (.ok ⟨⟩, s') := by
  induction fuel generalizing done rest start s with
  | zero => omega
  | succ fuel ih =>
    have hread := h.read_eq hi hs hr
    have hsplit : (rest.take size) ++ (rest.drop size) = rest := take_append_drop ..
    have hsize := h.size_pos
    rw [loop, bind_eq_ok]
    simp only [inspect_eq, hread]
    constructor
    · rintro ⟨ys, _, ⟨hys, rfl⟩, hbody⟩
      have hlen := length_of_mapM hys
      rw [length_take] at hlen
      split at hbody
      · next hempty =>
        rw [List.isEmpty_iff] at hempty
        subst hempty
        obtain rfl : rest = [] := length_eq_zero_iff.mp (by
          rw [length_nil] at hlen
          omega)
        obtain ⟨-, rfl⟩ := pure_eq_ok.mp hbody
        exact ⟨[], rfl, rfl⟩
      · next hne =>
        obtain ⟨_, t, hvisit, hbody⟩ := bind_eq_ok.mp hbody
        split at hbody
        · next hshort =>
          obtain ⟨-, rfl⟩ := pure_eq_ok.mp hbody
          rw [take_of_length_le (by omega)] at hys
          exact ⟨ys, hys, hvisit⟩
        · next hfull =>
          have hbatch : rest.take size ≠ [] := by
            intro he
            rw [he] at hys
            cases hys
            simp at hne
          have hdrop : (rest.drop size).length < fuel := by
            rw [length_drop]
            omega
          obtain ⟨zs, hzs, hv⟩ := (ih (by rw [append_assoc, hsplit, hi])
            (h.batch (by rw [hsplit, hi]) hs hys hvisit) (reached_batch hys hbatch) hdrop).mp hbody
          refine ⟨ys ++ zs, ?_, forM_append_eq_ok.mpr ⟨t, hvisit, hv⟩⟩
          rw [← hsplit]
          exact mapM_append_eq_ok.mpr ⟨ys, zs, hys, hzs, rfl⟩
    · rintro ⟨xs, hxs, hall⟩
      rw [← hsplit] at hxs
      obtain ⟨ys, zs, hys, hzs, rfl⟩ := mapM_append_eq_ok.mp hxs
      obtain ⟨t, hvisit, hv⟩ := forM_append_eq_ok.mp hall
      have hlen := length_of_mapM hys
      have hlen' := length_of_mapM hzs
      rw [length_take] at hlen
      rw [length_drop] at hlen'
      refine ⟨ys, s, ⟨hys, rfl⟩, ?_⟩
      split
      · next hempty =>
        rw [List.isEmpty_iff] at hempty
        subst hempty
        obtain rfl : zs = [] := length_eq_zero_iff.mp (by
          rw [length_nil] at hlen
          omega)
        rw [forM_nil_eq_ok hvisit]
        exact pure_eq_ok.mpr ⟨rfl, forM_nil_eq_ok hv⟩
      · next hne =>
        refine bind_eq_ok.mpr ⟨⟨⟩, t, hvisit, ?_⟩
        split
        · next hshort =>
          obtain rfl : zs = [] := length_eq_zero_iff.mp (by omega)
          exact hv
        · next hfull =>
          have hbatch : rest.take size ≠ [] := by
            intro he
            rw [he] at hys
            cases hys
            simp at hne
          have hdrop : (rest.drop size).length < fuel := by
            rw [length_drop]
            omega
          exact (ih (by rw [append_assoc, hsplit, hi])
            (h.batch (by rw [hsplit, hi]) hs hys hvisit) (reached_batch hys hbatch) hdrop).mpr
            ⟨zs, hzs, hv⟩

/-- A loop in batches succeeds when, and only when, one pass over all items does, and leaves the
same state. -/
theorem Paged.loop_eq_ok_iff (h : Paged size read key visit decode items I) (hs : I [] s)
    (hfuel : items.length < fuel) :
    loop size read key visit divergence fuel none s = (.ok ⟨⟩, s') ↔
      ∃ xs, items.mapM decode = .ok xs ∧ (xs.forM visit) s = (.ok ⟨⟩, s') :=
  h.loop_from_iff rfl hs (Or.inl ⟨rfl, rfl⟩) hfuel

end Batches
