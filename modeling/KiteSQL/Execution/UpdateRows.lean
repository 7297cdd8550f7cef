import KiteSQL.Execution.Constraints
import KiteSQL.Execution.UpdateExact

/-! The rows that an UPDATE leaves, and what its assignments give them. -/
namespace KiteSQL

open TableCodec Function TableCatalog List ColumnCatalog DecimalLayout Stateful DataValue Insert

variable {α β : Type} {R : α → β → Prop} {xs : List α} {ys : List β}

theorem forall₂_of_getElem? (hlen : xs.length = ys.length)
    (h : ∀ (j : Nat) x y, xs[j]? = some x → ys[j]? = some y → R x y) : Forall₂ R xs ys :=
  forall₂_iff_get.mpr ⟨hlen, fun _ hx hy =>
    h _ _ _ (getElem?_eq_getElem hx) (getElem?_eq_getElem hy)⟩

theorem getElem?_of_forall₂ {j : Nat} {x : α} {y : β} (h : List.Forall₂ R xs ys)
    (hx : xs[j]? = some x) (hy : ys[j]? = some y) : R x y := by
  obtain ⟨hxl, rfl⟩ := List.getElem?_eq_some_iff.mp hx
  obtain ⟨hyl, rfl⟩ := List.getElem?_eq_some_iff.mp hy
  exact h.get hxl hyl

/-- What holds of the values of a row as they are read back. -/
theorem forall₂_keptAll_iff {P : DataValue → ColumnCatalog → Prop} {values : List DataValue}
    {columns : List ColumnCatalog} (hlen : values.length = columns.length) :
    Forall₂ P (Tuple.keptAll values (columns.map datatype)) columns ↔
      Forall₂ (fun v column => P (v.kept column.datatype) column) values columns := by
  induction columns generalizing values with
  | nil =>
    rw [length_eq_zero_iff.mp hlen]
    exact ⟨fun _ => .nil, fun _ => .nil⟩
  | cons column columns ih =>
    cases values with
    | nil => cases hlen
    | cons v values =>
      rw [map_cons, Tuple.keptAll, forall₂_cons, forall₂_cons, ih (Nat.succ.inj hlen)]

/-- A value that a column admits is admitted as it is read back. -/
theorem ColumnCatalog.Admits.kept {v : DataValue} {column : ColumnCatalog} (h : Admits v column)
    (hv : HasType v column.datatype) : Admits (v.kept column.datatype) column := by
  refine ⟨?_, fun hnull => h.2 ?_⟩
  · rw [hv.kept]
    exact checkLen_stored h.1
  · rwa [isNull_kept] at hnull

namespace Update

variable {op : Update} {exprs : List (ColumnId × ScalarExpression)} {table : TableCatalog}
  {columns : List ColumnCatalog} {values values' old row : List DataValue} {i : Nat}

/-- Assigns the columns from position `i` on, every expression evaluated on the old row. -/
def assignAtOnce (exprs : List (ColumnId × ScalarExpression)) (old : List DataValue) :
    Nat → List ColumnCatalog → List DataValue → Result (List DataValue)
  | _, [], values => .ok values
  | i, column :: columns, values =>
    match exprOf exprs column with
    | none => assignAtOnce exprs old (i + 1) columns values
    | some expr => do
      let value ← expr.eval old
      assignAtOnce exprs old (i + 1) columns (← setValue values i value)

/-- When no expression sees the assignments before it, the loop assigns at once. -/
theorem assignAtOnce_of_assign (h : assign exprs i columns values = .ok values')
    (hsame : ∀ (j : Nat) c e row, columns[j]? = some c → exprOf exprs c = some e →
      assign exprs i (columns.take j) values = .ok row → e.eval row = e.eval old) :
    assignAtOnce exprs old i columns values = .ok values' := by
  induction columns generalizing i values with
  | nil => exact h
  | cons column columns ih =>
    cases he : exprOf exprs column with
    | none =>
      rw [assign_cons_none he] at h
      rw [assignAtOnce, he]
      refine ih h fun j c e row hc hec hrow => hsame (j + 1) c e row hc hec ?_
      rw [take_succ_cons, assign_cons_none he, hrow]
    | some expr =>
      obtain ⟨v, hv, hi, h⟩ := assign_cons_some he h
      have hold := hsame 0 column expr values rfl he rfl
      rw [assignAtOnce, he]
      dsimp only
      rw [← hold, hv, Result.ok_bind, setValue, if_pos hi, Result.ok_bind]
      refine ih h fun j c e row hc hec hrow => hsame (j + 1) c e row hc hec ?_
      rw [take_succ_cons, assign_cons_eq he hv hi, hrow]

theorem assignAtOnce_take {j : Nat}
    (hsame : ∀ m < j, ∀ c e row, columns[m]? = some c → exprOf exprs c = some e →
      assign exprs i (columns.take m) values = .ok row → e.eval row = e.eval old)
    (hrow : assign exprs i (columns.take j) values = .ok row) :
    assignAtOnce exprs old i (columns.take j) values = .ok row := by
  refine assignAtOnce_of_assign hrow fun m c e row' hc he hrow' => ?_
  have hm : m < j := by
    have hlt := (List.getElem?_eq_some_iff.mp hc).1
    rw [List.length_take] at hlt
    omega
  rw [getElem?_take_of_lt hm] at hc
  rw [take_take, Nat.min_eq_left (by omega)] at hrow'
  exact hsame m hm c e row' hc he hrow'

/-- The same with the assignments before an expression made at once. -/
theorem eval_of_atOnce
    (hsame : ∀ (j : Nat) c e row, columns[j]? = some c → exprOf exprs c = some e →
      assignAtOnce exprs old i (columns.take j) values = .ok row → e.eval row = e.eval old)
    (j : Nat) (c : ColumnCatalog) (e : ScalarExpression) (row : List DataValue)
    (hc : columns[j]? = some c) (he : exprOf exprs c = some e)
    (hrow : assign exprs i (columns.take j) values = .ok row) : e.eval row = e.eval old := by
  induction j using Nat.strong_induction_on generalizing c e row with
  | _ j ih => exact hsame j c e row hc he (assignAtOnce_take ih hrow)

/-- Every assigned column has the value of its expression on the old row. -/
def Simultaneous (op : Update) (table : TableCatalog) (old new : List DataValue) : Prop :=
  ∀ (j : Nat) c e, (c, e) ∈ op.valueExprs → table.columns[j]? = some c →
    ∃ v, e.eval old = .ok v ∧ new[j]? = some v

/-- For every assignment, the last expression for its column gives, on the row in which the
columns before it are assigned already, the value that the assignment has on the old row. -/
def Undisturbed (op : Update) (table : TableCatalog)
    (exprs : List (ColumnId × ScalarExpression)) (old : List DataValue) : Prop :=
  ∀ (j : Nat) c e, (c, e) ∈ op.valueExprs → table.columns[j]? = some c → ∃ last row,
    exprOf exprs c = some last ∧
    assignAtOnce exprs old 0 (table.columns.take j) old = .ok row ∧ last.eval row = e.eval old

/-- Undisturbed expressions give in the loop what they give on the old row. -/
theorem Undisturbed.eval_eq (hund : op.Undisturbed table exprs old) (hw : table.WellFormed)
    (hex : op.exprsMap = .ok exprs)
    (hcols : ∀ assignment ∈ op.valueExprs, assignment.1 ∈ table.columns) :
    ∀ (j : Nat) c e row, table.columns[j]? = some c → exprOf exprs c = some e →
      assign exprs 0 (table.columns.take j) old = .ok row → e.eval row = e.eval old := by
  refine eval_of_atOnce fun j c e row hc he hrow => ?_
  have hmem := mem_of_exprOf hw hex hcols (mem_of_getElem? hc) he
  obtain ⟨last, row', hlast, hrow', heval⟩ := hund j c e hmem hc
  rw [he] at hlast
  cases hlast
  rw [hrow] at hrow'
  cases hrow'
  exact heval

theorem simultaneous_iff (hw : table.WellFormed) (hex : op.exprsMap = .ok exprs)
    (hcols : ∀ assignment ∈ op.valueExprs, assignment.1 ∈ table.columns)
    (h : assign exprs 0 table.columns old = .ok values) :
    op.Simultaneous table old values ↔ op.Undisturbed table exprs old := by
  have hat := fun j c e (hc : table.columns[j]? = some c) (he : exprOf exprs c = some e) =>
    assign_at h hc he
  simp only [Nat.zero_add] at hat
  constructor
  · intro hsim
    have hsame : ∀ (j : Nat) c e row, table.columns[j]? = some c → exprOf exprs c = some e →
        assign exprs 0 (table.columns.take j) old = .ok row → e.eval row = e.eval old := by
      intro j c e row hc he hrow
      obtain ⟨row', v, hrow', hv, hval⟩ := hat j c e hc he
      rw [hrow] at hrow'
      cases hrow'
      obtain ⟨w, hold, hw'⟩ := hsim j c e (mem_of_exprOf hw hex hcols (mem_of_getElem? hc) he) hc
      rw [hval] at hw'
      cases hw'
      exact hv.trans hold.symm
    intro j c e hmem hc
    obtain ⟨last, hlast⟩ := exprOf_of_mem hex hmem
    obtain ⟨row, v, hrow, hv, hval⟩ := hat j c last hc hlast
    obtain ⟨w, hold, hw'⟩ := hsim j c e hmem hc
    rw [hval] at hw'
    cases hw'
    exact ⟨last, row, hlast, assignAtOnce_take (fun m _ => hsame m) hrow, hv.trans hold.symm⟩
  · intro hund j c e hmem hc
    have hsame := hund.eval_eq hw hex hcols
    obtain ⟨last, row, hlast, hrow, heval⟩ := hund j c e hmem hc
    obtain ⟨row', v, hrow', hv, hval⟩ := hat j c last hc hlast
    rw [assignAtOnce_take (fun m _ => hsame m) hrow'] at hrow
    cases hrow
    exact ⟨v, heval.symm.trans hv, hval⟩

/-- The values of a row, as they are read back, respect the columns. -/
def Respected (table : TableCatalog) (row : List DataValue) : Prop :=
  Forall₂ (fun v column => Admits (v.kept column.datatype) column) row table.columns

/-- Every expression of the SET list gives values that its column admits on the row. -/
def GivesAdmitted (op : Update) (row : List DataValue) : Prop :=
  ∀ c e v, (c, e) ∈ op.valueExprs → e.eval row = .ok v → Admits (v.kept c.datatype) c

theorem respected_of_admits (htyped : Forall₂ HasType old table.columnTypes)
    (hold : Forall₂ Admits old table.columns) : Respected table old := by
  rw [forall₂_columnTypes] at htyped
  refine forall₂_of_getElem? hold.length_eq fun j v c hv hc => ?_
  have hty := getElem?_of_forall₂ htyped hv hc
  exact (getElem?_of_forall₂ hold hv hc).kept hty

/-- When the assigned values are those of the old row, the new row is respected exactly if they
are admitted. -/
theorem respected_iff (hw : table.WellFormed) (hold : Respected table old)
    (h : assign exprs 0 table.columns old = .ok values)
    (hcols : ∀ assignment ∈ op.valueExprs, assignment.1 ∈ table.columns)
    (hex : op.exprsMap = .ok exprs) (hsim : op.Simultaneous table old values) :
    Respected table values ↔ op.GivesAdmitted old := by
  have hlen : values.length = table.columns.length := (length_assign h).trans hold.length_eq
  constructor
  · intro hall c e v hmem hv
    obtain ⟨j, hc⟩ := List.mem_iff_getElem?.mp (hcols _ hmem)
    obtain ⟨w, hw, hval⟩ := hsim j c e hmem hc
    rw [hv] at hw
    cases hw
    have hadm := getElem?_of_forall₂ hall hval hc
    exact hadm
  · intro hadm
    refine forall₂_of_getElem? hlen fun j v c hval hc => ?_
    by_cases hmem : ∃ e, (c, e) ∈ op.valueExprs
    · obtain ⟨e, hmem⟩ := hmem
      obtain ⟨w, hw, hval'⟩ := hsim j c e hmem hc
      rw [hval] at hval'
      cases hval'
      exact hadm c e v hmem hw
    · have hsame : values[j]? = old[j]? := getElem?_assign h fun c' _ hc' => by
        rw [Nat.sub_zero, hc] at hc'
        cases hc'
        exact Option.eq_none_iff_forall_ne_some.mpr fun e he =>
          hmem ⟨e, mem_of_exprOf hw hex hcols (mem_of_getElem? hc) he⟩
      rw [hsame] at hval
      have hadm' := getElem?_of_forall₂ hold hval hc
      exact hadm'

section Run

variable [DecimalLayout] {store store' : Store} {templates : List (IndexMeta × List Nat)}
  {ss : List TupleValueSerializableImpl} {input : List (Result Tuple)} {n : Nat} {result : Tuple}

/-- The row that an UPDATE makes of a delivered one. -/
structure Rewrites (op : Update) (table : TableCatalog)
    (exprs : List (ColumnId × ScalarExpression)) (old values : List DataValue)
    (k bytes : Bytes) : Prop where
  assigned : assign exprs 0 op.inputSchema old = .ok values
  key : ∃ newPk, Tuple.primaryProjection table.primaryKeyIndices values = .ok newPk ∧
    rowKey table.name newPk = .ok k
  stores : table.Stores values bytes

/-- Every row after an UPDATE was there before or is one that it made. -/
theorem Ready.row_cases (hr : Ready op table exprs templates ss)
    (hitems : ∀ item ∈ input, op.Short exprs item ∧ Typed table item)
    (h : (input.foldlM (op.updateRow table.name
      ⟨table.columns, table.primaryKeyIndices, templates⟩ ss exprs) 0) store = (.ok n, store')) :
    ∀ k bytes, store'.space table.name none k = some bytes →
      store.space table.name none k = some bytes ∨ ∃ tuple id values, .ok tuple ∈ input ∧
        tuple.pk = some id ∧ Rewrites op table exprs tuple.values values k bytes := by
  refine (foldlM_rest (I := fun rest s => (∀ item ∈ rest, item ∈ input) ∧
    ∀ k bytes, s.space table.name none k = some bytes →
      store.space table.name none k = some bytes ∨ ∃ tuple id values, .ok tuple ∈ input ∧
        tuple.pk = some id ∧ Rewrites op table exprs tuple.values values k bytes) h ?_
    ⟨fun _ hmem => hmem, fun _ _ hrow => Or.inl hrow⟩).2
  rintro item rest n s m t ⟨hrest, hrows⟩ hstep
  rw [forall_mem_cons] at hrest
  refine ⟨hrest.2, fun k bytes hk => ?_⟩
  obtain ⟨tuple, rfl, ⟨-, rfl⟩ | ⟨oldPk, hpk, hrow⟩⟩ := updateRow_cases hstep
  · exact hrows k bytes hk
  obtain ⟨hshort, htyped⟩ := hitems _ hrest.1
  obtain ⟨k₁, hk₁⟩ := (htyped tuple oldPk rfl hpk).1
  obtain ⟨values, newPk, k', bytes', hv, hnew, hk', hst, hupd⟩ :=
    hr.rewriteRow hshort htyped hpk hk₁ hrow
  rw [hupd.rows] at hk
  rcases IndexedRows.update_eq_some_iff.mp hk with ⟨rfl, ⟨⟩⟩ | ⟨hkk, hk⟩
  · exact Or.inr ⟨tuple, oldPk, values, hrest.1, hpk, hv, ⟨newPk, hnew, hk'⟩, hst⟩
  · by_cases hkk₁ : k = k₁
    · subst hkk₁
      rw [update_self] at hk
      cases hk
    · rw [update_of_ne hkk₁] at hk
      exact hrows k bytes hk

/-- Every row that an UPDATE was given is there afterwards as it made it. -/
theorem Ready.new_row (hr : Ready op table exprs templates ss) (hd : Delivered table store input)
    (hshort : ∀ item ∈ input, op.Short exprs item)
    (h : (input.foldlM (op.updateRow table.name
      ⟨table.columns, table.primaryKeyIndices, templates⟩ ss exprs) 0) store = (.ok n, store')) :
    ∀ tuple id, .ok tuple ∈ input → tuple.pk = some id → ∃ values k bytes,
      Rewrites op table exprs tuple.values values k bytes ∧
        store'.space table.name none k = some bytes := by
  have hrun := foldlM_rest (I := fun rest s => Delivered table s rest ∧
    (∀ item ∈ rest, op.Short exprs item) ∧
    ∀ tuple id, .ok tuple ∈ input → tuple.pk = some id → .ok tuple ∈ rest ∨
      ∃ values k bytes, Rewrites op table exprs tuple.values values k bytes ∧
        s.space table.name none k = some bytes ∧
        ∀ item ∈ rest, itemKey table.name item ≠ some k) h ?_
    ⟨hd, hshort, fun _ _ hmem _ => Or.inl hmem⟩
  · intro tuple id hmem hpk
    rcases hrun.2.2 tuple id hmem hpk with hnil | ⟨values, k, bytes, hrw, hrow, -⟩
    · cases hnil
    · exact ⟨values, k, bytes, hrw, hrow⟩
  rintro item rest n s m t ⟨hdel, hsh, hdone⟩ hstep
  rw [forall_mem_cons] at hsh
  obtain ⟨tuple, rfl, ⟨hnone, rfl⟩ | ⟨oldPk, hpk, hrow⟩⟩ := updateRow_cases hstep
  · refine ⟨hdel.tail, hsh.2, fun tuple₁ id hmem hpk => ?_⟩
    rcases hdone tuple₁ id hmem hpk with hrest | ⟨values, k, bytes, hrw, hrow, hothers⟩
    · rcases mem_cons.mp hrest with heq | hrest
      · cases heq
        rw [hnone] at hpk
        cases hpk
      · exact Or.inl hrest
    · exact Or.inr ⟨values, k, bytes, hrw, hrow, fun item hi => hothers item (by simp [hi])⟩
  obtain ⟨k₁, r, hk₁, -, -⟩ := hdel.rows tuple oldPk (by simp) hpk
  obtain ⟨values, newPk, k', bytes, hv, hnew, hk', hst, hupd⟩ :=
    hr.rewriteRow hsh.1 (typed_of_delivered hdel (by simp)) hpk hk₁ hrow
  refine ⟨delivered_after_update hdel hpk hk₁ hupd, hsh.2, fun tuple₁ id hmem hpk₁ => ?_⟩
  rcases hdone tuple₁ id hmem hpk₁ with hrest | ⟨values₁, k, bytes₁, hrw, hrow₁, hothers⟩
  · rcases mem_cons.mp hrest with heq | hrest
    · cases heq
      refine Or.inr ⟨values, k', bytes, ⟨hv, ⟨newPk, hnew, hk'⟩, hst⟩, ?_,
        hupd.others hdel hpk hk₁⟩
      rw [hupd.rows, update_self]
    · exact Or.inl hrest
  · refine Or.inr ⟨values₁, k, bytes₁, hrw, (hupd.row_stays hrow₁ ?_).2,
      fun item hi => hothers item (by simp [hi])⟩
    rintro rfl
    exact hothers _ (by simp) (itemKey_eq hpk hk₁)

/-- The item is a row that respects the columns of the table. -/
def Respects (table : TableCatalog) (item : Result Tuple) : Prop :=
  Typed table item ∧ ∀ tuple id, item = .ok tuple → tuple.pk = some id →
    List.Forall₂ ColumnCatalog.Admits tuple.values table.columns

/-- An UPDATE of rows that respect their columns keeps the constraints when each SET expression
gives an admitted value on every row that respects the columns. Where no expression is disturbed
and the rows come once and as they are stored, it keeps them exactly if each gives an admitted
value on the rows as they were. -/
theorem nextTuple_rowsAdmitted (hw : table.WellFormed) (hschema : op.inputSchema = table.columns)
    (hcols : ∀ assignment ∈ op.valueExprs, assignment.1 ∈ table.columns)
    (hex : op.exprsMap = .ok exprs) (hshort : ∀ item ∈ input, op.Short exprs item)
    (hitems : ∀ item ∈ input, Respects table item) (hadm : table.RowsAdmitted store)
    (h : op.nextTuple (some table) input store = (.ok result, store')) :
    ((∀ row, Respected table row → op.GivesAdmitted row) → table.RowsAdmitted store') ∧
      ((∀ tuple id, .ok tuple ∈ input → tuple.pk = some id →
          op.Undisturbed table exprs tuple.values) → Delivered table store input →
        (table.RowsAdmitted store' ↔ ∀ tuple id, .ok tuple ∈ input → tuple.pk = some id →
          op.GivesAdmitted tuple.values)) := by
  obtain ⟨exprs', n, hex', hrun⟩ := nextTuple_eq_ok h
  rw [hex] at hex'
  cases hex'
  obtain ⟨templates, ss, ht, hss, hloop⟩ := updateTable_eq_ok hrun
  have hr := ready hw hschema hcols hex ht hss
  have hold : ∀ tuple id, .ok tuple ∈ input → tuple.pk = some id → Respected table tuple.values :=
    fun tuple id hmem hpk => respected_of_admits ((hitems _ hmem).1 tuple id rfl hpk).2
      ((hitems _ hmem).2 tuple id rfl hpk)
  have hcases := hr.row_cases (fun item hmem => ⟨hshort item hmem, (hitems item hmem).1⟩) hloop
  -- the rows that were there are admitted, so only the rewritten ones count
  have hrows : (∀ tuple id values k bytes, .ok tuple ∈ input → tuple.pk = some id →
      Rewrites op table exprs tuple.values values k bytes → Respected table values) →
      table.RowsAdmitted store' := by
    intro hnew k bytes hrow
    rcases hcases k bytes hrow with hrow | ⟨tuple, id, values, hmem, hpk, hrw⟩
    · exact hadm k bytes hrow
    · have hres := hnew tuple id values k bytes hmem hpk hrw
      exact ⟨_, hrw.stores.read, (forall₂_keptAll_iff hres.length_eq).mpr hres⟩
  constructor
  · intro hall
    refine hrows fun tuple id values k bytes hmem hpk hrw => ?_
    refine forall₂_assign (hschema ▸ hrw.assigned) rfl (hold tuple id hmem hpk) ?_
    intro c hc e row v he hrow hv
    exact hall row hrow c e v (mem_of_exprOf hw hex hcols hc he) hv
  · intro hund hd
    have hiff : ∀ tuple id values k bytes, .ok tuple ∈ input → tuple.pk = some id →
        Rewrites op table exprs tuple.values values k bytes →
        (Respected table values ↔ op.GivesAdmitted tuple.values) := by
      intro tuple id values k bytes hmem hpk hrw
      have hrun : assign exprs 0 table.columns tuple.values = .ok values := hschema ▸ hrw.assigned
      exact respected_iff hw (hold tuple id hmem hpk) hrun hcols hex
        ((simultaneous_iff hw hex hcols hrun).mpr (hund tuple id hmem hpk))
    constructor
    · intro hadm' tuple id hmem hpk
      obtain ⟨values, k, bytes, hrw, hrow⟩ := hr.new_row hd hshort hloop tuple id hmem hpk
      obtain ⟨vs, hvs, hadmits⟩ := hadm' k bytes hrow
      rw [hrw.stores.read] at hvs
      cases hvs
      have hlen : values.length = table.columns.length :=
        (length_assign (hschema ▸ hrw.assigned)).trans (hold tuple id hmem hpk).length_eq
      exact (hiff tuple id values k bytes hmem hpk hrw).mp ((forall₂_keptAll_iff hlen).mp hadmits)
    · exact fun hall => hrows fun tuple id values k bytes hmem hpk hrw =>
        (hiff tuple id values k bytes hmem hpk hrw).mpr (hall tuple id hmem hpk)

end Run

/-- An integer column. -/
def integerColumn (name : String) (id : ColumnId) (nullable : Bool) (primary : Option Nat) :
    ColumnCatalog :=
  ⟨⟨name, .table id "t" false⟩, nullable, ⟨.integer, primary, false, none⟩⟩

/-- A table with a key, a NOT NULL column and a nullable one. -/
def triples : TableCatalog where
  name := "t"
  columns := [integerColumn "k" 1 false (some 0), integerColumn "a" 2 false none,
    integerColumn "b" 3 true none]
  indexes := [⟨0, [1], .integer, .integer, "pk_index", .primaryKey false⟩]

/-- The value of an integer column. -/
def columnRef (i : Nat) : ScalarExpression where
  returnType := .integer
  eval row := Tuple.valueAt row i
  declares _ value _ := by cases value <;> trivial

def fiveLiteral : ScalarExpression where
  returnType := .integer
  eval _ := .ok (.int32 5)
  declares _ value _ := by cases value <;> trivial

def nullLiteral : ScalarExpression where
  returnType := .sqlNull
  eval _ := .ok .null
  declares _ value _ := by cases value <;> trivial

/-- `INSERT INTO t VALUES (1, 10, 20)` into the empty table. -/
def oneTriple : Store :=
  (@Insert.nextTuple .refusing .flagsFirst ⟨triples.columns, false, false⟩ (some triples)
    [.ok ⟨none, [.int32 1, .int32 10, .int32 20]⟩] ∅).2

/-- The scan of the table. -/
def scanned : List (Result Tuple) := [.ok ⟨some (.int32 1), [.int32 1, .int32 10, .int32 20]⟩]

theorem admits_triple : Forall₂ Admits [.int32 1, .int32 10, .int32 20] triples.columns :=
  .cons ⟨rfl, nofun⟩ (.cons ⟨rfl, nofun⟩ (.cons ⟨rfl, nofun⟩ .nil))

/-- `UPDATE t SET a = b, b = 5` -/
def setBoth : Update := @Update.bind .refusing triples.columns
  [(integerColumn "a" 2 false none, columnRef 2), (integerColumn "b" 3 true none, fiveLiteral)]

/-- `UPDATE t SET a = NULL` -/
def setNull : Update := @Update.bind .refusing triples.columns
  [(integerColumn "a" 2 false none, nullLiteral)]

theorem triples_wellFormed : triples.WellFormed := by
  constructor <;> decide

theorem oneTriple_admitted : @TableCatalog.RowsAdmitted .flagsFirst triples oneTriple := by
  let _ := flagsFirst
  let _ := Conversions.refusing
  have hrun : insertTable ⟨triples.columns, false, false⟩ triples
      [.ok ⟨none, [.int32 1, .int32 10, .int32 20]⟩] ∅ = (.ok 1, oneTriple) := rfl
  obtain ⟨templates, ss, ht, hs, hloop⟩ := insertTable_eq_ok hrun
  obtain ⟨_, _, hstep, hnil⟩ := foldlM_cons_eq_ok hloop
  obtain ⟨-, rfl⟩ := pure_eq_ok.mp hnil
  obtain ⟨tuple, values, id, k, bytes, hitem, hvalues, -, -, hst, hrow⟩ :=
    insertRow_spec triples_wellFormed ht hs (fun tuple values hitem hvalues => by
      cases hitem
      cases hvalues
      simp [writtenLen]) hstep
  cases hitem
  cases hvalues
  exact (rowsAdmitted_empty triples).update hrow.rows hst.read admits_triple

theorem scanned_delivered : @Delivered .flagsFirst triples oneTriple scanned := by
  let _ := flagsFirst
  refine ⟨fun tuple id hmem hpk => ?_, nodup_singleton _⟩
  cases mem_singleton.mp hmem
  cases hpk
  exact ⟨_, _, rfl, rfl, rfl⟩

theorem scanned_short
    (h : ∀ values, assign exprs 0 op.inputSchema [.int32 1, .int32 10, .int32 20] = .ok values →
      ∀ v ∈ values, v.writtenLen < 2 ^ 32) : ∀ item ∈ scanned, op.Short exprs item := by
  intro item hmem tuple values hitem hvalues
  cases mem_singleton.mp hmem
  cases hitem
  exact h values hvalues

theorem setBoth_assigned : ∀ assignment ∈ setBoth.valueExprs, assignment.1 ∈ triples.columns := by
  intro assignment hmem
  rcases mem_pair.mp hmem with rfl | rfl
  · exact mem_cons_of_mem _ mem_cons_self
  · exact mem_cons_of_mem _ (mem_cons_of_mem _ (mem_singleton_self _))

/-- The assignment that reads `b` comes before the one that sets it. -/
theorem setBoth_undisturbed : setBoth.Undisturbed triples [(2, columnRef 2), (3, fiveLiteral)]
    [.int32 1, .int32 10, .int32 20] := by
  intro j c e hmem hc
  rcases mem_pair.mp hmem with heq | heq <;> cases heq <;> rcases j with _ | _ | _ | j
  · exact absurd (congrArg (Option.map ColumnCatalog.id) hc) (by decide)
  · exact ⟨columnRef 2, _, rfl, rfl, rfl⟩
  · exact absurd (congrArg (Option.map ColumnCatalog.id) hc) (by decide)
  · cases hc
  · exact absurd (congrArg (Option.map ColumnCatalog.id) hc) (by decide)
  · exact absurd (congrArg (Option.map ColumnCatalog.id) hc) (by decide)
  · exact ⟨fiveLiteral, _, rfl, rfl, rfl⟩
  · cases hc

theorem scanned_respects : ∀ item ∈ scanned, Respects triples item := by
  let _ := flagsFirst
  intro item hmem
  refine ⟨typed_of_delivered scanned_delivered hmem, ?_⟩
  rintro tuple id rfl -
  cases mem_singleton.mp hmem
  exact admits_triple

theorem set_column_admitted :
    ∃ result store', @nextTuple .flagsFirst setBoth (some triples) scanned oneTriple =
        (.ok result, store') ∧
      @TableCatalog.RowsAdmitted .flagsFirst triples store' := by
  let _ := DecimalLayout.flagsFirst
  have hrun : setBoth.nextTuple (some triples) scanned oneTriple =
      (.ok (buildResult "1"), (setBoth.nextTuple (some triples) scanned oneTriple).2) := rfl
  refine ⟨_, _, hrun, ((nextTuple_rowsAdmitted triples_wellFormed rfl setBoth_assigned rfl
    (scanned_short ?_) scanned_respects oneTriple_admitted hrun).2 ?_ scanned_delivered).mpr ?_⟩
  · rintro values ⟨⟩
    simp [DataValue.writtenLen]
  · intro tuple id hmem hpk
    cases mem_singleton.mp hmem
    exact setBoth_undisturbed
  · intro tuple id hmem hpk c e v hset hv
    cases mem_singleton.mp hmem
    rcases mem_pair.mp hset with heq | heq <;> cases heq <;> cases hv <;>
      exact ⟨rfl, fun h => by cases h⟩

/-- `SET a = NULL` puts a NULL into a NOT NULL column. -/
theorem set_null_stored :
    ∃ result store', @TableCatalog.RowsAdmitted .flagsFirst triples oneTriple ∧
      @Delivered .flagsFirst triples oneTriple scanned ∧
      @nextTuple .flagsFirst setNull (some triples) scanned oneTriple = (.ok result, store') ∧
      ¬ @TableCatalog.RowsAdmitted .flagsFirst triples store' := by
  let _ := DecimalLayout.flagsFirst
  refine ⟨_, _, oneTriple_admitted, scanned_delivered, rfl, fun hadm => ?_⟩
  obtain ⟨k, bytes, -, hrow, hread⟩ : ∃ k bytes, rowKey "t" (.int32 1) = .ok k ∧
      (setNull.nextTuple (some triples) scanned oneTriple).2.space "t" none k = some bytes ∧
      triples.readRow bytes = .ok [.int32 1, .null, .int32 20] := ⟨_, _, rfl, rfl, rfl⟩
  obtain ⟨vs, hvs, hall⟩ := hadm k bytes hrow
  rw [hread] at hvs
  cases hvs
  obtain ⟨-, hnull⟩ := (forall₂_cons.mp (forall₂_cons.mp hall).2).1
  exact absurd (hnull rfl) (by decide)

section Simultaneous

variable [DecimalLayout] {store store' : Store} {input : List (Result Tuple)} {result : Tuple}

/-- After an UPDATE each of its rows has a new one, in which the assigned columns have the values
of their expressions on the old row when, and only when, no expression is disturbed. -/
theorem nextTuple_simultaneous_iff (hw : table.WellFormed)
    (hschema : op.inputSchema = table.columns)
    (hcols : ∀ assignment ∈ op.valueExprs, assignment.1 ∈ table.columns)
    (hex : op.exprsMap = .ok exprs) (hshort : ∀ item ∈ input, op.Short exprs item)
    (hd : Delivered table store input)
    (h : op.nextTuple (some table) input store = (.ok result, store')) :
    ∀ tuple id, .ok tuple ∈ input → tuple.pk = some id → ∃ values k bytes,
      Rewrites op table exprs tuple.values values k bytes ∧
      store'.space table.name none k = some bytes ∧
      (op.Simultaneous table tuple.values values ↔
        op.Undisturbed table exprs tuple.values) := by
  obtain ⟨exprs', n, hex', hrun⟩ := nextTuple_eq_ok h
  rw [hex] at hex'
  cases hex'
  obtain ⟨templates, ss, ht, hss, hloop⟩ := updateTable_eq_ok hrun
  have hr := ready hw hschema hcols hex ht hss
  intro tuple id hmem hpk
  obtain ⟨values, k, bytes, hrw, hrow⟩ := hr.new_row hd hshort hloop tuple id hmem hpk
  exact ⟨values, k, bytes, hrw, hrow, simultaneous_iff hw hex hcols (hschema ▸ hrw.assigned)⟩

end Simultaneous

theorem set_column_simultaneous :
    ∃ result store' values k bytes,
      @nextTuple .flagsFirst setBoth (some triples) scanned oneTriple = (.ok result, store') ∧
      store'.space "t" none k = some bytes ∧
      setBoth.Simultaneous triples [.int32 1, .int32 10, .int32 20] values := by
  let _ := DecimalLayout.flagsFirst
  have hrun : setBoth.nextTuple (some triples) scanned oneTriple =
      (.ok (buildResult "1"), (setBoth.nextTuple (some triples) scanned oneTriple).2) := rfl
  have hshort : ∀ item ∈ scanned, setBoth.Short [(2, columnRef 2), (3, fiveLiteral)] item :=
    scanned_short (by
      rintro values ⟨⟩
      simp [DataValue.writtenLen])
  obtain ⟨values, k, bytes, -, hrow, hiff⟩ := nextTuple_simultaneous_iff triples_wellFormed rfl
    setBoth_assigned rfl hshort scanned_delivered hrun _ _ (mem_singleton_self _) rfl
  exact ⟨_, _, values, k, bytes, hrun, hrow, hiff.mpr setBoth_undisturbed⟩

/-- `UPDATE t SET a = b, b = a` -/
def swap : Update := @Update.bind .refusing triples.columns
  [(integerColumn "a" 2 false none, columnRef 2), (integerColumn "b" 3 true none, columnRef 1)]

/-- The swap gives both columns the old value of `b`. -/
theorem swap_not_simultaneous :
    ∃ result store' k bytes, @Delivered .flagsFirst triples oneTriple scanned ∧
      @nextTuple .flagsFirst swap (some triples) scanned oneTriple = (.ok result, store') ∧
      rowKey "t" (.int32 1) = .ok k ∧ store'.space "t" none k = some bytes ∧
      @TableCatalog.readRow .flagsFirst triples bytes =
        .ok [.int32 1, .int32 20, .int32 20] ∧
      ¬ swap.Simultaneous triples [.int32 1, .int32 10, .int32 20]
        [.int32 1, .int32 20, .int32 20] := by
  refine ⟨_, _, _, _, scanned_delivered, rfl, rfl, rfl, rfl, fun hsim => ?_⟩
  obtain ⟨v, hv, hnew⟩ := hsim 2 _ _ (mem_cons_of_mem _ (mem_singleton_self _)) rfl
  cases hv
  cases hnew

end Update

end KiteSQL
