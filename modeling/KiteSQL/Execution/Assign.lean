import KiteSQL.Execution.RowWrites

/-! The assignment loop of UPDATE. -/
namespace KiteSQL.Update

open List Tuple Traverse Result

variable {exprs : List (ColumnId × ScalarExpression)} {column : ColumnCatalog}
  {columns : List ColumnCatalog} {values values' : List DataValue} {v : DataValue} {i j : Nat}
  {expr : ScalarExpression} {table : TableCatalog} {index : IndexMeta}

theorem exprOf_eq_none_iff :
    exprOf exprs column = none ↔ ∀ columnId, column.id = some columnId →
      isUpdated exprs columnId = false := by
  unfold exprOf isUpdated
  cases column.id with
  | none => simp
  | some columnId =>
    rw [Option.bind_some, lookup_eq_none_iff]
    constructor
    · rintro h _ ⟨⟩
      rw [any_eq_false]
      intro p hp he
      have hne := h p (mem_reverse.mpr hp)
      simp only [decide_eq_true_eq] at he
      simp [he] at hne
    · intro h p hp
      have hne := any_eq_false.mp (h columnId rfl) p (mem_reverse.mp hp)
      rw [decide_eq_true_eq] at hne
      simpa using fun he : columnId = p.1 => hne he.symm

theorem valueAt_congr (h : values'[j]? = values[j]?) :
    Tuple.valueAt values' j = Tuple.valueAt values j := by
  rw [Tuple.valueAt, h, Tuple.valueAt]

theorem setValue_eq_ok (h : setValue values i v = .ok values') :
    i < values.length ∧ values' = values.set i v := by
  unfold setValue at h
  split at h
  · next hi =>
    cases h
    exact ⟨hi, rfl⟩
  · cases h

theorem assign_cons_none (he : exprOf exprs column = none) :
    assign exprs i (column :: columns) values = assign exprs (i + 1) columns values := by
  rw [assign, he]

theorem assign_cons_some (he : exprOf exprs column = some expr)
    (h : assign exprs i (column :: columns) values = .ok values') :
    ∃ v, expr.eval values = .ok v ∧ i < values.length ∧
      assign exprs (i + 1) columns (values.set i v) = .ok values' := by
  rw [assign, he] at h
  obtain ⟨v, ws, hv, hws, h⟩ := bind_bind_eq_ok.mp h
  obtain ⟨hi, rfl⟩ := setValue_eq_ok hws
  exact ⟨v, hv, hi, h⟩

theorem assign_cons_eq (he : exprOf exprs column = some expr) (hv : expr.eval values = .ok v)
    (hi : i < values.length) :
    assign exprs i (column :: columns) values = assign exprs (i + 1) columns (values.set i v) := by
  rw [assign, he]
  dsimp only
  rw [hv, ok_bind, setValue, if_pos hi, ok_bind]

section

variable (h : assign exprs i columns values = .ok values')
include h

theorem length_assign : values'.length = values.length := by
  induction columns generalizing i values with
  | nil =>
    cases h
    rfl
  | cons column columns ih =>
    cases he : exprOf exprs column with
    | none =>
      rw [assign_cons_none he] at h
      exact ih h
    | some expr =>
      obtain ⟨v, -, -, h⟩ := assign_cons_some he h
      rw [ih h, length_set]

/-- Positions before the loop and columns that are not assigned keep their values. -/
theorem getElem?_assign (hj : ∀ c, i ≤ j → columns[j - i]? = some c → exprOf exprs c = none) :
    values'[j]? = values[j]? := by
  induction columns generalizing i values with
  | nil =>
    cases h
    rfl
  | cons column columns ih =>
    have htail : ∀ c, i + 1 ≤ j → columns[j - (i + 1)]? = some c → exprOf exprs c = none := by
      intro c hle hc
      refine hj c (by omega) ?_
      rw [show j - i = j - (i + 1) + 1 by omega]
      exact hc
    cases he : exprOf exprs column with
    | none =>
      rw [assign_cons_none he] at h
      exact ih h htail
    | some expr =>
      obtain ⟨v, -, -, h⟩ := assign_cons_some he h
      have hne : i ≠ j := by
        rintro rfl
        have hnone := hj column le_rfl (by simp)
        rw [he] at hnone
        cases hnone
      rw [ih h htail, getElem?_set_ne hne]

/-- An assigned column has the value of its expression over the row as the assignments before it
left it. -/
theorem assign_at (hc : columns[j]? = some column) (he : exprOf exprs column = some expr) :
    ∃ row v, assign exprs i (columns.take j) values = .ok row ∧ expr.eval row = .ok v ∧
      values'[i + j]? = some v := by
  induction columns generalizing i j values with
  | nil => cases hc
  | cons c columns ih =>
    cases j with
    | zero =>
      cases hc
      obtain ⟨v, hv, hi, h⟩ := assign_cons_some he h
      refine ⟨values, v, rfl, hv, ?_⟩
      rw [getElem?_assign h fun c hle => absurd hle (by omega), Nat.add_zero, getElem?_set_self hi]
    | succ j =>
      rw [show i + (j + 1) = i + 1 + j by omega, take_succ_cons]
      cases hec : exprOf exprs c with
      | none =>
        rw [assign_cons_none hec] at h ⊢
        exact ih h hc
      | some e =>
        obtain ⟨w, hw, hi, h⟩ := assign_cons_some hec h
        rw [assign_cons_eq hec hw hi]
        exact ih h hc

end

/-- An index over columns that are not assigned has the same values before and after. -/
theorem rowValues_assign (h : assign exprs 0 table.columns values = .ok values')
    (hi : index.columnIds.any (isUpdated exprs) = false) :
    index.rowValues table values' = index.rowValues table values := by
  unfold IndexMeta.rowValues
  cases hex : index.columnExprs table with
  | error e => rfl
  | ok positions =>
    rw [ok_bind, ok_bind]
    refine mapM_congr fun j hj => ?_
    obtain ⟨columnId, hmem, column, hc, hid⟩ := TableCatalog.mem_columnExprs hex hj
    rw [valueAt_congr (getElem?_assign h fun c _ hc' => ?_)]
    rw [Nat.sub_zero, hc] at hc'
    cases hc'
    rw [exprOf_eq_none_iff, hid]
    rintro _ ⟨⟩
    simpa using any_eq_false.mp hi columnId hmem

/-- The primary key stays when none of its columns is assigned. -/
theorem primaryProjection_assign (h : assign exprs 0 table.columns values = .ok values')
    (hpk : updatesPrimaryKey ⟨table.columns, table.primaryKeyIndices, []⟩ exprs = false) :
    primaryProjection table.primaryKeyIndices values' =
      primaryProjection table.primaryKeyIndices values := by
  have hat : ∀ j ∈ table.primaryKeyIndices,
      Tuple.valueAt values' j = Tuple.valueAt values j := by
    intro j hj
    refine valueAt_congr (getElem?_assign h fun c _ hc => ?_)
    rw [Nat.sub_zero] at hc
    have hnot := any_eq_false.mp hpk j hj
    rw [hc, Option.bind_some] at hnot
    rw [exprOf_eq_none_iff]
    intro columnId hid
    simpa [hid] using hnot
  unfold primaryProjection
  rw [mapM_congr hat]
  split
  · rfl
  · cases hi : table.primaryKeyIndices with
    | nil => rfl
    | cons j js => exact hat j (by simp [hi])

theorem forall₂_set {α β : Type} {R : α → β → Prop} {xs : List α} {ys : List β} {x : α}
    (h : Forall₂ R xs ys) (hx : ∀ y, ys[i]? = some y → R x y) : Forall₂ R (xs.set i x) ys := by
  induction h generalizing i with
  | nil => exact .nil
  | cons hxy hrest ih =>
    cases i with
    | zero => exact .cons (hx _ rfl) hrest
    | succ i => exact .cons hxy (ih hx)

/-- What holds of the values before and of every value assigned to such a row holds of the values
after. -/
theorem forall₂_assign {P : DataValue → ColumnCatalog → Prop} {all : List ColumnCatalog}
    (h : assign exprs i columns values = .ok values') (hcols : columns = all.drop i)
    (hv : Forall₂ P values all)
    (hexpr : ∀ c ∈ all, ∀ e row v, exprOf exprs c = some e → Forall₂ P row all →
      e.eval row = .ok v → P v c) :
    Forall₂ P values' all := by
  induction columns generalizing i values with
  | nil =>
    cases h
    exact hv
  | cons column columns ih =>
    have hat : all[i]? = some column := by
      rw [← head?_drop, ← hcols]
      rfl
    have htail : columns = all.drop (i + 1) := by
      rw [← tail_drop, ← hcols]
      rfl
    cases he : exprOf exprs column with
    | none =>
      rw [assign_cons_none he] at h
      exact ih h htail hv
    | some expr =>
      obtain ⟨v, hev, -, h⟩ := assign_cons_some he h
      refine ih h htail (forall₂_set hv fun c hc => ?_)
      rw [hat] at hc
      cases hc
      exact hexpr column (mem_of_getElem? hat) expr values v he hv hev

variable {op : Update}

/-- The expression that a column gets is one of those assigned to it. -/
theorem mem_of_exprOf (hw : table.WellFormed) (hex : op.exprsMap = .ok exprs)
    (hcols : ∀ assignment ∈ op.valueExprs, assignment.1 ∈ table.columns)
    (hc : column ∈ table.columns) (he : exprOf exprs column = some expr) :
    (column, expr) ∈ op.valueExprs := by
  unfold exprOf at he
  obtain ⟨columnId, hid, hl⟩ := Option.bind_eq_some_iff.mp he
  have hmem : (columnId, expr) ∈ exprs := by
    rw [lookup_eq_some_iff] at hl
    obtain ⟨l₁, l₂, hl, -⟩ := hl
    rw [← mem_reverse, hl]
    simp
  obtain ⟨⟨column', expr'⟩, hin, hx⟩ := exists_of_mem_mapM hex hmem
  dsimp only at hx
  split at hx
  · next columnId' hid' =>
    cases hx
    rwa [← inj_on_of_nodup_map hw.columnIds (hcols _ hin) hc (by rw [hid, hid'])]
  · cases hx

/-- An assigned expression was cast to the type of its column. -/
theorem returnType_of_exprOf (hw : table.WellFormed) (hex : op.exprsMap = .ok exprs)
    (hcols : ∀ assignment ∈ op.valueExprs, assignment.1 ∈ table.columns)
    (hc : column ∈ table.columns) (he : exprOf exprs column = some expr) :
    expr.returnType = column.datatype :=
  op.bound _ (mem_of_exprOf hw hex hcols hc he)

/-- A column that is assigned gets an expression. -/
theorem exprOf_of_mem (hex : op.exprsMap = .ok exprs) (hmem : (column, expr) ∈ op.valueExprs) :
    ∃ last, exprOf exprs column = some last := by
  rw [← Option.ne_none_iff_exists', ne_eq, exprOf_eq_none_iff]
  intro hnone
  obtain ⟨⟨columnId, expr'⟩, hin, hx⟩ := exists_of_mem_forall₂ (forall₂_of_mapM hex).flip hmem
  dsimp only at hx
  split at hx
  · next hid =>
    cases hx
    have hfree := any_eq_false.mp (hnone columnId hid) _ hin
    simp at hfree
  · cases hx

end KiteSQL.Update
