import KiteSQL.Execution.InsertExact

/-! The NOT NULL and length constraints of stored rows. -/
namespace KiteSQL

open DataValue

variable {v : DataValue} {t : LogicalType} {column : ColumnCatalog}

theorem checkLen_eq_ok : v.checkLen t = .ok () ↔ v.isOverLen t = false := by
  unfold checkLen
  cases v.isOverLen t <;> simp

theorem checkStringLen_trimEnd {value : String} {len : Nat} {unit : CharLengthUnits}
    (h : checkStringLen value len unit = false) :
    checkStringLen (trimEnd value) len unit = false := by
  obtain ⟨k, hk, hb⟩ := trimEnd_lengths value
  cases unit <;> simp only [checkStringLen, gt_iff_lt, decide_eq_false_iff_not, not_lt]
    at h ⊢ <;> omega

/-- A text that fits a column fits it without its trailing spaces. -/
theorem checkLen_stored (h : v.checkLen t = .ok ()) : (v.stored t).checkLen t = .ok () := by
  rw [checkLen_eq_ok] at h ⊢
  cases t with
  | char len unit =>
    cases v with
    | utf8 value ty u =>
      cases ty <;> cases u <;> cases unit <;>
        simp_all [stored, isOverLen, checkStringLen_trimEnd]
    | _ => exact h
  | _ => cases v <;> exact h

theorem isNull_kept (v : DataValue) (t : LogicalType) : (v.kept t).isNull = v.isNull := by
  cases v <;> cases t <;> rfl

namespace TableCatalog

variable [DecimalLayout]

/-- Every stored row respects the NOT NULL flags and the declared lengths of its columns. -/
def RowsAdmitted (table : TableCatalog) (store : Store) : Prop :=
  ∀ key bytes, store.space table.name none key = some bytes → ∃ values,
    table.readRow bytes = .ok values ∧ List.Forall₂ ColumnCatalog.Admits values table.columns

theorem rowsAdmitted_empty (table : TableCatalog) : table.RowsAdmitted ∅ := by
  intro k bytes hrow
  rw [Store.space_empty] at hrow
  cases hrow

/-- Writing a row that respects the columns keeps the constraints. -/
theorem RowsAdmitted.update {table : TableCatalog} {store store' : Store} {k bytes : Bytes}
    {values : List DataValue} (h : table.RowsAdmitted store)
    (hrows : store'.space table.name none =
      Function.update (store.space table.name none) k (some bytes))
    (hread : table.readRow bytes = .ok values)
    (hv : List.Forall₂ ColumnCatalog.Admits values table.columns) : table.RowsAdmitted store' := by
  intro x b hx
  rw [hrows] at hx
  rcases IndexedRows.update_eq_some_iff.mp hx with ⟨rfl, ⟨⟩⟩ | ⟨hxk, hx⟩
  · exact ⟨values, hread, hv⟩
  · exact h x b hx

end TableCatalog

end KiteSQL
