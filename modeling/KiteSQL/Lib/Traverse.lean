import Mathlib.Tactic

/-! Computing a result for each item of a list, up to the first that has none. -/
namespace Traverse

open List

variable {ε ρ α : Type} {f : ρ → Except ε α} {rs : List ρ} {xs : List α} {x : α} {r : ρ}
  {rs' : List ρ} {R : ρ → α → Prop}

theorem mapM_cons_eq_ok : (r :: rs).mapM f = .ok xs ↔
    ∃ y ys, f r = .ok y ∧ rs.mapM f = .ok ys ∧ xs = y :: ys := by
  rw [mapM_cons]
  constructor
  · intro h
    cases hy : f r with
    | error e =>
      rw [hy] at h
      cases h
    | ok y =>
      cases hys : rs.mapM f with
      | error e =>
        rw [hy, hys] at h
        cases h
      | ok ys =>
        rw [hy, hys] at h
        cases h
        exact ⟨y, ys, rfl, rfl, rfl⟩
  · rintro ⟨y, ys, hy, hys, rfl⟩
    rw [hy, hys]
    rfl

theorem mapM_append_eq_ok : (rs ++ rs').mapM f = .ok xs ↔
    ∃ ys zs, rs.mapM f = .ok ys ∧ rs'.mapM f = .ok zs ∧ xs = ys ++ zs := by
  induction rs generalizing xs with
  | nil => simp [pure, Except.pure]
  | cons r rs ih =>
    rw [cons_append, mapM_cons_eq_ok]
    constructor
    · rintro ⟨y, ws, hy, hws, rfl⟩
      obtain ⟨ys, zs, hys, hzs, rfl⟩ := ih.mp hws
      exact ⟨y :: ys, zs, mapM_cons_eq_ok.mpr ⟨y, ys, hy, hys, rfl⟩, hzs, rfl⟩
    · rintro ⟨ws, zs, hws, hzs, rfl⟩
      obtain ⟨y, ys, hy, hys, rfl⟩ := mapM_cons_eq_ok.mp hws
      exact ⟨y, ys ++ zs, hy, ih.mpr ⟨ys, zs, hys, hzs, rfl⟩, rfl⟩

theorem length_of_mapM (h : rs.mapM f = .ok xs) : xs.length = rs.length := by
  induction rs generalizing xs with
  | nil =>
    cases h
    rfl
  | cons r rs ih =>
    obtain ⟨y, ys, -, hys, rfl⟩ := mapM_cons_eq_ok.mp h
    rw [length_cons, length_cons, ih hys]

theorem mapM_concat_eq_ok : (rs ++ [r]).mapM f = .ok xs ↔
    ∃ ys y, rs.mapM f = .ok ys ∧ f r = .ok y ∧ xs = ys ++ [y] := by
  rw [mapM_append_eq_ok]
  constructor
  · rintro ⟨ys, ws, hys, hws, rfl⟩
    obtain ⟨y, zs, hy, hzs, rfl⟩ := mapM_cons_eq_ok.mp hws
    cases hzs
    exact ⟨ys, y, hys, hy, rfl⟩
  · rintro ⟨ys, y, hys, hy, rfl⟩
    exact ⟨ys, [y], hys, mapM_cons_eq_ok.mpr ⟨y, [], hy, rfl, rfl⟩, rfl⟩

theorem exists_mapM_iff : (∃ ys, rs.mapM f = .ok ys) ↔ ∀ r ∈ rs, ∃ y, f r = .ok y := by
  induction rs with
  | nil => simp [pure, Except.pure]
  | cons r rs ih =>
    simp only [mapM_cons_eq_ok, mem_cons, forall_eq_or_imp, ← ih]
    constructor
    · rintro ⟨ys, y, zs, hy, hzs, -⟩
      exact ⟨⟨y, hy⟩, zs, hzs⟩
    · rintro ⟨⟨y, hy⟩, zs, hzs⟩
      exact ⟨y :: zs, y, zs, hy, hzs, rfl⟩

theorem forall₂_of_mapM (h : rs.mapM f = .ok xs) : Forall₂ (fun r x => f r = .ok x) rs xs := by
  induction rs generalizing xs with
  | nil =>
    cases h
    exact .nil
  | cons r rs ih =>
    obtain ⟨y, ys, hy, hys, rfl⟩ := mapM_cons_eq_ok.mp h
    exact .cons hy (ih hys)

theorem exists_getElem?_of_forall₂ {i : Nat} (h : Forall₂ R rs xs) (hi : rs[i]? = some r) :
    ∃ x, xs[i]? = some x ∧ R r x := by
  induction h generalizing i with
  | nil => simp at hi
  | cons hx _ ih =>
    cases i with
    | zero =>
      cases hi
      exact ⟨_, rfl, hx⟩
    | succ i =>
      obtain ⟨x, hx, hr⟩ := ih hi
      exact ⟨x, hx, hr⟩

theorem mapM_eq_map {g : ρ → α} (h : rs.mapM f = .ok xs) (hg : ∀ r x, f r = .ok x → g r = x) :
    xs = rs.map g := by
  induction rs generalizing xs with
  | nil =>
    cases h
    rfl
  | cons r rs ih =>
    obtain ⟨y, ys, hy, hys, rfl⟩ := mapM_cons_eq_ok.mp h
    rw [map_cons, hg r y hy, ih hys]

theorem exists_of_mem_forall₂ (h : Forall₂ R rs xs) (hx : x ∈ xs) : ∃ r ∈ rs, R r x := by
  induction h with
  | nil => simp at hx
  | cons hr _ ih =>
    rcases mem_cons.mp hx with rfl | hx
    · exact ⟨_, by simp, hr⟩
    · obtain ⟨r, hmem, hr⟩ := ih hx
      exact ⟨r, by simp [hmem], hr⟩

theorem exists_of_mem_mapM (h : rs.mapM f = .ok xs) (hx : x ∈ xs) : ∃ r ∈ rs, f r = .ok x :=
  exists_of_mem_forall₂ (R := fun r x => f r = .ok x) (forall₂_of_mapM h) hx

/-- The results of the same items in another order. -/
theorem mapM_perm (h : rs.mapM f = .ok xs) (hp : rs'.Perm rs) :
    ∃ ys, rs'.mapM f = .ok ys ∧ ys.Perm xs := by
  induction hp generalizing xs with
  | nil => exact ⟨xs, h, .refl _⟩
  | cons r _ ih =>
    obtain ⟨y, ys, hy, hys, rfl⟩ := mapM_cons_eq_ok.mp h
    obtain ⟨zs, hzs, hperm⟩ := ih hys
    exact ⟨y :: zs, mapM_cons_eq_ok.mpr ⟨y, zs, hy, hzs, rfl⟩, hperm.cons y⟩
  | swap r r' rs =>
    obtain ⟨y, ys, hy, hys, rfl⟩ := mapM_cons_eq_ok.mp h
    obtain ⟨z, zs, hz, hzs, rfl⟩ := mapM_cons_eq_ok.mp hys
    exact ⟨z :: y :: zs, mapM_cons_eq_ok.mpr ⟨z, y :: zs, hz,
      mapM_cons_eq_ok.mpr ⟨y, zs, hy, hzs, rfl⟩, rfl⟩, .swap y z zs⟩
  | trans _ _ ih ih' =>
    obtain ⟨ys, hys, hperm⟩ := ih' h
    obtain ⟨zs, hzs, hperm'⟩ := ih hys
    exact ⟨zs, hzs, hperm'.trans hperm⟩

theorem mapM_congr {g : ρ → Except ε α} (h : ∀ r ∈ rs, f r = g r) : rs.mapM f = rs.mapM g := by
  induction rs with
  | nil => rfl
  | cons r rs ih =>
    rw [forall_mem_cons] at h
    rw [mapM_cons, mapM_cons, h.1, ih h.2]

/-- A test that cannot be made does not hold. -/
def holds : Except ε Bool → Bool
  | .ok b => b
  | .error _ => false

/-- The items that pass a test, when the test can be made on all of them. -/
def filter (test : ρ → Except ε Bool) (rs : List ρ) : Except ε (List ρ) := do
  let _ ← rs.mapM test
  return rs.filter fun r => holds (test r)

end Traverse
