import Mathlib.Tactic

/-! Maps as lists of entries, looked up with a test that says which keys are the same. -/
namespace KeyedMap

open List

/-- A test that is an equivalence of keys. -/
structure KeyTest (κ : Type) where
  same : κ → κ → Bool
  refl : ∀ a, same a a = true
  congr : ∀ a b c, same a b = true → same a c = same b c

variable {κ σ : Type} {t : KeyTest κ} {m : List (κ × σ)} {k k' : κ} {new : σ} {f : σ → σ}

def lookup (t : KeyTest κ) : List (κ × σ) → κ → Option σ
  | [], _ => none
  | (k', s) :: m, k => if t.same k' k then some s else lookup t m k

/-- Changes what is stored for a key, if anything is. -/
def modify (t : KeyTest κ) (f : σ → σ) : List (κ × σ) → κ → List (κ × σ)
  | [], _ => []
  | (k', s) :: m, k => if t.same k' k then (k', f s) :: m else (k', s) :: modify t f m k

/-- Changes what is stored for a key, or stores something new. -/
def upsert (t : KeyTest κ) (new : σ) (f : σ → σ) : List (κ × σ) → κ → List (κ × σ)
  | [], k => [(k, new)]
  | (k', s) :: m, k => if t.same k' k then (k', f s) :: m else (k', s) :: upsert t new f m k

theorem KeyTest.symm (t : KeyTest κ) (a b : κ) : t.same a b = t.same b a := by
  cases h : t.same a b with
  | true => rw [← t.congr a b a h, t.refl]
  | false =>
    cases h' : t.same b a with
    | true => rw [← t.congr b a b h', t.refl] at h; cases h
    | false => rfl

theorem KeyTest.equivalence (t : KeyTest κ) : Equivalence fun a b => t.same a b = true where
  refl := t.refl
  symm := fun {a b} h => (t.symm b a).trans h
  trans := fun {a b c} hab hbc => (t.congr a b c hab).trans hbc

/-- A third key is the same as both or as neither of two that are the same. -/
theorem KeyTest.congr_right (t : KeyTest κ) {a b : κ} (h : t.same a b = true) (c : κ) :
    t.same c a = t.same c b := by
  rw [t.symm c a, t.symm c b, t.congr a b c h]

theorem lookup_congr (h : t.same k k' = true) : lookup t m k = lookup t m k' := by
  induction m with
  | nil => rfl
  | cons e m ih => rw [lookup, lookup, t.congr_right h, ih]

/-- Where the first entry of the key is changed by `f`, a lookup of the key changes by `g`. -/
theorem lookup_changed {m' : List (κ × σ)} {k₀ : κ} {s : σ} {g : Option σ → Option σ}
    (hg : ∀ s, g (some s) = some (f s))
    (ih : lookup t m' k' = if t.same k k' then g (lookup t m k') else lookup t m k') :
    lookup t (if t.same k₀ k then (k₀, f s) :: m else (k₀, s) :: m') k' =
      if t.same k k' then g (lookup t ((k₀, s) :: m) k') else lookup t ((k₀, s) :: m) k' := by
  cases h₀ : t.same k₀ k with
  | true =>
    rw [if_pos rfl, lookup, lookup, t.congr k₀ k k' h₀]
    cases t.same k k' <;> simp [hg]
  | false =>
    rw [if_neg (by simp), lookup, lookup, ih]
    cases h : t.same k k' with
    | true =>
      rw [t.congr_right h] at h₀
      simp [h₀]
    | false => simp

theorem lookup_modify : lookup t (modify t f m k) k' =
    if t.same k k' then (lookup t m k').map f else lookup t m k' := by
  induction m with
  | nil => simp [modify, lookup]
  | cons e m ih => exact lookup_changed (fun _ => rfl) ih

theorem lookup_upsert : lookup t (upsert t new f m k) k' =
    if t.same k k' then some (((lookup t m k').map f).getD new) else lookup t m k' := by
  induction m with
  | nil => simp [upsert, lookup]
  | cons e m ih =>
    exact lookup_changed (g := fun found => some ((found.map f).getD new)) (fun _ => rfl) ih

/-- No two entries have the same key. -/
def Distinct (t : KeyTest κ) (m : List (κ × σ)) : Prop :=
  m.Pairwise fun a b => t.same a.1 b.1 = false

theorem modify_eq_map (hd : Distinct t m) :
    modify t f m k = m.map fun e => if t.same e.1 k then (e.1, f e.2) else e := by
  induction m with
  | nil => rfl
  | cons e m ih =>
    obtain ⟨k₀, s⟩ := e
    obtain ⟨hhead, hd⟩ := pairwise_cons.mp hd
    rw [modify, map_cons]
    cases h₀ : t.same k₀ k with
    | false => rw [if_neg (by simp), if_neg (by simp), ih hd]
    | true =>
      have hrest : m.map (fun e => if t.same e.1 k then (e.1, f e.2) else e) = m := by
        refine (map_congr_left fun e he => ?_).trans (map_id m)
        rw [t.symm e.1 k, ← t.congr k₀ k e.1 h₀, hhead e he]
        rfl
      rw [if_pos rfl, if_pos rfl, hrest]

theorem modify_modify {g : σ → σ} : modify t g (modify t f m k) k = modify t (g ∘ f) m k := by
  induction m with
  | nil => rfl
  | cons e m ih =>
    obtain ⟨k₀, s⟩ := e
    rw [modify, modify]
    cases h₀ : t.same k₀ k with
    | false => rw [if_neg (by simp), if_neg (by simp), modify, h₀, if_neg (by simp), ih]
    | true => rw [if_pos rfl, if_pos rfl, modify, h₀, if_pos rfl]; rfl

theorem exists_of_lookup {s : σ} (h : lookup t m k = some s) :
    ∃ k₀, (k₀, s) ∈ m ∧ t.same k₀ k = true := by
  induction m with
  | nil => cases h
  | cons e m ih =>
    obtain ⟨k₀, s₀⟩ := e
    rw [lookup] at h
    cases h₀ : t.same k₀ k with
    | true =>
      rw [h₀, if_pos rfl] at h
      cases h
      exact ⟨k₀, by simp, h₀⟩
    | false =>
      rw [h₀, if_neg (by simp)] at h
      obtain ⟨k₁, hmem, h₁⟩ := ih h
      exact ⟨k₁, by simp [hmem], h₁⟩

theorem lookup_of_mem (hd : Distinct t m) {e : κ × σ} (he : e ∈ m) (hk : t.same e.1 k = true) :
    lookup t m k = some e.2 := by
  induction m with
  | nil => cases he
  | cons e₀ m ih =>
    obtain ⟨hhead, hd⟩ := pairwise_cons.mp hd
    rw [lookup]
    rcases mem_cons.mp he with rfl | he
    · rw [hk, if_pos rfl]
    · have hne : t.same e₀.1 k = false := by rw [← t.congr_right hk, hhead e he]
      rw [hne, if_neg (by simp), ih hd he]

/-- What holds of the changed entries and of the others holds after an upsert. -/
theorem forall_upsert {P : κ × σ → Prop} (hm : ∀ e ∈ m, P e)
    (hf : ∀ e ∈ m, t.same e.1 k = true → P (e.1, f e.2)) (hnew : P (k, new)) :
    ∀ e ∈ upsert t new f m k, P e := by
  induction m with
  | nil => simpa [upsert] using hnew
  | cons e₀ m ih =>
    obtain ⟨k₀, s₀⟩ := e₀
    rw [forall_mem_cons] at hm hf
    rw [upsert]
    cases h₀ : t.same k₀ k with
    | true => exact forall_mem_cons.mpr ⟨hf.1 h₀, hm.2⟩
    | false => exact forall_mem_cons.mpr ⟨hm.1, ih hm.2 hf.2⟩

theorem Distinct.upsert (hd : Distinct t m) : Distinct t (upsert t new f m k) := by
  induction m with
  | nil => exact pairwise_singleton _ _
  | cons e₀ m ih =>
    obtain ⟨k₀, s₀⟩ := e₀
    obtain ⟨hhead, hd⟩ := pairwise_cons.mp hd
    rw [KeyedMap.upsert]
    cases h₀ : t.same k₀ k with
    | true => exact pairwise_cons.mpr ⟨hhead, hd⟩
    | false =>
      refine pairwise_cons.mpr ⟨?_, ih hd⟩
      exact forall_upsert hhead (fun e he _ => hhead e he) h₀

/-- An upsert that adds an item to what is stored adds it to all that is stored. -/
theorem upsert_flatMap_perm {α : Type} {items : σ → List α} {a : α}
    (hf : ∀ s, items (f s) = items s ++ [a]) (hnew : items new = [a]) :
    ((upsert t new f m k).flatMap fun e => items e.2).Perm
      ((m.flatMap fun e => items e.2) ++ [a]) := by
  induction m with
  | nil => simp [upsert, hnew]
  | cons e₀ m ih =>
    obtain ⟨k₀, s₀⟩ := e₀
    rw [upsert]
    cases t.same k₀ k with
    | true =>
      simp only [if_true, flatMap_cons, hf, append_assoc]
      exact perm_append_comm.append_left _
    | false =>
      simp only [Bool.false_eq_true, if_false, flatMap_cons, append_assoc]
      exact ih.append_left _

end KeyedMap
