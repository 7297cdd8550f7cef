import KiteSQL.Lib.KeyedMap

/-! Rows grouped by a key, and the runs of rows of one key. -/
namespace Grouping

open KeyedMap List

variable {α κ : Type} {t : KeyTest κ} {key : α → κ} {k k' : κ} {keys : List κ} {row x : α}
  {rows before after members : List α} {g : κ × List α} {done : List (κ × List α)}

/-- The keys of a list, each at its first occurrence. -/
def firsts (t : KeyTest κ) (keys : List κ) : List κ :=
  keys.foldl (fun seen k => if seen.any (t.same · k) then seen else seen ++ [k]) []

/-- The rows of each key, in the order in which the keys first occur. -/
def groups (t : KeyTest κ) (key : α → κ) (rows : List α) : List (κ × List α) :=
  (firsts t (rows.map key)).map fun k => (k, rows.filter fun row => t.same k (key row))

/-- The run that has been read so far, and the runs that follow. -/
def runsFrom (t : KeyTest κ) (key : α → κ) (k : κ) (members : List α) :
    List α → List (κ × List α)
  | [] => [(k, members)]
  | row :: rows =>
    if t.same k (key row) then runsFrom t key k (members ++ [row]) rows
    else (k, members) :: runsFrom t key (key row) [row] rows

/-- The runs of rows with the same key, each with the key of its first row. -/
def runs (t : KeyTest κ) (key : α → κ) : List α → List (κ × List α)
  | [] => []
  | row :: rows => runsFrom t key (key row) [row] rows

/-- The rows of one key stand together. -/
def Contiguous (t : KeyTest κ) (key : α → κ) (rows : List α) : Prop :=
  ∀ a b c, [a, b, c].Sublist rows → t.same (key a) (key c) = true → t.same (key a) (key b) = true

theorem firsts_concat : firsts t (keys ++ [k]) =
    if (firsts t keys).any (t.same · k) then firsts t keys else firsts t keys ++ [k] := by
  rw [firsts, foldl_append]
  rfl

theorem mem_of_mem_firsts (h : k ∈ firsts t keys) : k ∈ keys := by
  induction keys using reverseRecOn with
  | nil => cases h
  | append_singleton keys k₀ ih =>
    rw [firsts_concat] at h
    split at h
    · exact mem_append_left _ (ih h)
    · rcases mem_append.mp h with h | h
      · exact mem_append_left _ (ih h)
      · exact mem_append_right _ h

theorem exists_firsts (h : k ∈ keys) : ∃ k' ∈ firsts t keys, t.same k' k = true := by
  induction keys using reverseRecOn with
  | nil => cases h
  | append_singleton keys k₀ ih =>
    rw [firsts_concat]
    rcases mem_append.mp h with h | h
    · obtain ⟨k', hk', hsame⟩ := ih h
      split
      · exact ⟨k', hk', hsame⟩
      · exact ⟨k', mem_append_left _ hk', hsame⟩
    · obtain rfl := mem_singleton.mp h
      split
      · next hany =>
        obtain ⟨k', hk', hsame⟩ := any_eq_true.mp hany
        exact ⟨k', hk', hsame⟩
      · exact ⟨k, by simp, t.refl k⟩

theorem pairwise_firsts (keys : List κ) :
    (firsts t keys).Pairwise fun a b => t.same a b = false := by
  induction keys using reverseRecOn with
  | nil => exact .nil
  | append_singleton keys k ih =>
    rw [firsts_concat]
    split
    · exact ih
    · next hany =>
      refine pairwise_append.mpr ⟨ih, pairwise_singleton _ _, fun a ha b hb => ?_⟩
      obtain rfl := mem_singleton.mp hb
      simpa using fun hsame => hany (any_eq_true.mpr ⟨a, ha, hsame⟩)

theorem firsts_append (keys more : List κ) : firsts t keys <+: firsts t (keys ++ more) := by
  induction more using reverseRecOn with
  | nil => rw [append_nil]
  | append_singleton more k ih =>
    rw [← append_assoc, firsts_concat]
    split
    · exact ih
    · exact ih.trans (prefix_append _ _)

theorem countP_le_one_of_pairwise {l : List α}
    (h : l.Pairwise fun a b => t.same (key a) (key b) = false) (k : κ) : l.countP (fun a => t.same (key a) k) ≤ 1 := by
  induction l with
  | nil => simp
  | cons a l ih =>
    obtain ⟨hhead, htail⟩ := pairwise_cons.mp h
    rw [countP_cons]
    cases ha : t.same (key a) k with
    | false => simpa using ih htail
    | true =>
      have hnone : l.countP (fun a => t.same (key a) k) = 0 := by
        refine countP_eq_zero.mpr fun b hb hbk => ?_
        have hab := hhead b hb
        rw [t.congr_right hbk, ha] at hab
        cases hab
      simp [hnone]

theorem distinct_groups (t : KeyTest κ) (key : α → κ) (rows : List α) : Distinct t (groups t key rows) := by
  rw [Distinct, groups, pairwise_map]
  exact pairwise_firsts _

theorem key_of_mem_groups (h : g ∈ groups t key rows) : ∃ row ∈ rows, key row = g.1 := by
  obtain ⟨k, hk, rfl⟩ := mem_map.mp h
  exact mem_map.mp (mem_of_mem_firsts hk)

/-- Every row is in the group of its key. -/
theorem exists_group (t : KeyTest κ) (key : α → κ) (h : row ∈ rows) :
    ∃ g ∈ groups t key rows, t.same g.1 (key row) = true := by
  obtain ⟨k, hk, hsame⟩ := exists_firsts (t := t) (mem_map_of_mem (f := key) h)
  exact ⟨_, mem_map_of_mem hk, hsame⟩

/-- The groups of a part of the rows grow with more rows. -/
theorem exists_group_append (h : g ∈ groups t key rows) (more : List α) :
    ∃ g' ∈ groups t key (rows ++ more), g'.1 = g.1 ∧ g.2 <+: g'.2 := by
  obtain ⟨k, hk, rfl⟩ := mem_map.mp h
  have hk' : k ∈ firsts t ((rows ++ more).map key) := by
    rw [map_append]
    exact (firsts_append _ _).subset hk
  refine ⟨_, mem_map_of_mem hk', rfl, ?_⟩
  rw [filter_append]
  exact prefix_append _ _

/-- One more row goes to its group or starts one. -/
theorem groups_concat (t : KeyTest κ) (key : α → κ) (rows : List α) (x : α) :
    groups t key (rows ++ [x]) = upsert t [x] (· ++ [x]) (groups t key rows) (key x) := by
  rw [groups, groups, map_append, map_singleton, firsts_concat]
  have hnew : (firsts t (rows.map key)).any (t.same · (key x)) = false →
      rows.filter (fun row => t.same (key x) (key row)) = [] := by
    intro hany
    refine filter_eq_nil_iff.mpr fun row hrow hsame => ?_
    obtain ⟨k, hk, hsame'⟩ := exists_firsts (t := t) (mem_map_of_mem (f := key) hrow)
    rw [t.symm, ← t.congr _ _ _ hsame'] at hsame
    exact any_eq_false.mp hany k hk hsame
  have hd := pairwise_firsts (t := t) (rows.map key)
  generalize firsts t (rows.map key) = ks at hnew hd
  induction ks with
  | nil =>
    have hnone : [].any (t.same · (key x)) = false := rfl
    rw [hnone, if_neg (by simp), nil_append, map_singleton, filter_append, hnew rfl,
      filter_singleton, t.refl]
    rfl
  | cons k ks ih =>
    obtain ⟨hhead, hd⟩ := pairwise_cons.mp hd
    rw [map_cons, upsert]
    cases hsame : t.same k (key x) with
    | true =>
      have hrest : ks.map (fun k => (k, (rows ++ [x]).filter fun row => t.same k (key row))) =
          ks.map fun k => (k, rows.filter fun row => t.same k (key row)) := by
        refine map_congr_left fun k' hk' => ?_
        have hother : t.same k' (key x) = false := by
          rw [t.symm, ← t.congr k (key x) k' hsame, hhead k' hk']
        simp [hother]
      rw [any_cons, hsame, Bool.true_or, if_pos rfl, if_pos rfl, map_cons, hrest]
      simp [hsame]
    | false =>
      have ih := ih (fun hany => hnew (by rw [any_cons, hsame, Bool.false_or, hany])) hd
      rw [any_cons, hsame, Bool.false_or, if_neg Bool.false_ne_true, ← ih]
      cases hany : ks.any (t.same · (key x)) with
      | true => simp [hsame]
      | false => simp [hsame]

theorem upsert_append {σ : Type} {new : σ} {f : σ → σ} {m m' : List (κ × σ)}
    (h : ∀ e ∈ m, t.same e.1 k = false) : upsert t new f (m ++ m') k = m ++ upsert t new f m' k := by
  induction m with
  | nil => rfl
  | cons e m ih =>
    rw [cons_append, upsert, h e (by simp), if_neg (by simp), ih fun e he => h e (by simp [he])]
    rfl

/-- Behind the last row of a run no row of an earlier run follows. -/
theorem Contiguous.not_same (h : Contiguous t key (before ++ row :: x :: after))
    (hx : t.same (key row) (key x) = false) :
    ∀ a ∈ before ++ [row], t.same (key a) (key x) = false := by
  intro a ha
  rcases mem_append.mp ha with ha | ha
  · cases hsame : t.same (key a) (key x) with
    | false => rfl
    | true =>
      have hsub : [a, row, x].Sublist (before ++ row :: x :: after) :=
        List.Sublist.append (singleton_sublist.mpr ha)
          (.cons_cons row (.cons_cons x (nil_sublist after)))
      have hrow := h a row x hsub hsame
      rw [t.congr _ _ _ hrow, hx] at hsame
      cases hsame
  · obtain rfl := mem_singleton.mp ha
    exact hx

/-- In contiguous rows the groups are the runs. -/
theorem groups_append_eq_runs (hg : groups t key (before ++ [row]) = done ++ [(k, members)])
    (hrow : t.same k (key row) = true) (h : Contiguous t key (before ++ row :: rows)) :
    groups t key (before ++ row :: rows) = done ++ runsFrom t key k members rows := by
  induction rows generalizing before row done k members with
  | nil => exact hg
  | cons x rows ih =>
    have hconcat := groups_concat t key (before ++ [row]) x
    have hd := distinct_groups t key (before ++ [row])
    rw [hg] at hconcat hd
    have hassoc : before ++ row :: x :: rows = (before ++ [row]) ++ x :: rows := by simp
    rw [runsFrom]
    cases hsame : t.same k (key x) with
    | true =>
      have hdone : ∀ e ∈ done, t.same e.1 (key x) = false := by
        intro e he
        rw [← t.congr_right hsame]
        exact (pairwise_append.mp hd).2.2 e he (k, members) (by simp)
      rw [upsert_append hdone, upsert, hsame, if_pos rfl] at hconcat
      rw [if_pos rfl, hassoc]
      exact ih hconcat hsame (hassoc ▸ h)
    | false =>
      have hnot := h.not_same (by rwa [← t.congr k _ _ hrow])
      have hdone : ∀ e ∈ done ++ [(k, members)], t.same e.1 (key x) = false := by
        intro e he
        rw [← hg] at he
        obtain ⟨a, ha, hka⟩ := key_of_mem_groups he
        rw [← hka]
        exact hnot a ha
      rw [← append_nil (done ++ [(k, members)]), upsert_append hdone, upsert] at hconcat
      rw [if_neg (by simp), hassoc, ih hconcat (t.refl _) (hassoc ▸ h), append_assoc]
      rfl

theorem groups_eq_runs (h : Contiguous t key rows) : groups t key rows = runs t key rows := by
  cases rows with
  | nil => rfl
  | cons row rows =>
    have hone : groups t key ([] ++ [row]) = [] ++ [(key row, [row])] := by
      rw [groups_concat]
      rfl
    exact groups_append_eq_runs hone (t.refl _) h

/-- The run that is read only grows. -/
theorem runsFrom_eq_cons (t : KeyTest κ) (key : α → κ) (k : κ) (members rows : List α) :
    ∃ more later, runsFrom t key k members rows = (k, members ++ more) :: later := by
  induction rows generalizing members with
  | nil => exact ⟨[], [], by simp [runsFrom]⟩
  | cons row rows ih =>
    rw [runsFrom]
    split
    · obtain ⟨more, later, h⟩ := ih (members ++ [row])
      exact ⟨row :: more, later, by simpa using h⟩
    · exact ⟨[], _, by rw [append_nil]⟩

end Grouping
