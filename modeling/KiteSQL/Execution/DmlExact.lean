import KiteSQL.Execution.Frame
import KiteSQL.Execution.UpdateExact
import KiteSQL.Lib.Runs

/-! Writing statements over a catalog of tables. -/
namespace KiteSQL

open TableCodec Function IndexedRows TableCatalog List

/-- A writing statement with what its input plan delivers. -/
inductive Dml where
  | insert (op : Insert) (input : List (Result Tuple))
  | update (op : Update) (input : List (Result Tuple))
  | delete (input : List (Result Tuple))

namespace Dml

section Run

variable [DecimalLayout] [Conversions]

def run (table : TableCatalog) : Dml → Exec Tuple
  | .insert op input => op.nextTuple (some table) input
  | .update op input => op.nextTuple (some table) input
  | .delete input => Delete.nextTuple (some table) input

/-- An INSERT without OVERWRITE, or an UPDATE or DELETE of rows as they are in the store; no text
is longer than a length field can say. -/
def Admissible (table : TableCatalog) (store : Store) : Dml → Prop
  | .insert op input => op.isOverwrite = false ∧ ∀ item ∈ input, op.Short table item
  | .update op input => op.inputSchema = table.columns ∧
    (∀ assignment ∈ op.valueExprs, assignment.1 ∈ table.columns) ∧
    Delivered table store input ∧
    ∀ exprs, op.exprsMap = .ok exprs → ∀ item ∈ input, op.Short exprs item
  | .delete input => Delivered table store input

/-- No written row loses trailing spaces in its primary key, and no UPDATE replaces a NaN in an
index column by a NaN of other bits next to equal values. -/
def Harmless (table : TableCatalog) : Dml → Prop
  | .insert op input => ∀ item ∈ input, op.KeepsKeys table item
  | .update op input =>
    ∀ exprs, op.exprsMap = .ok exprs → ∀ item ∈ input, op.Harmless table exprs item
  | .delete _ => True

variable {table : TableCatalog} {store store' : Store} {stmt : Dml} {result : Tuple}

theorem touches_run (table : TableCatalog) (stmt : Dml) : Touches table.name (stmt.run table) := by
  cases stmt with
  | insert op input => exact (op.touches_insertTable input).bind fun _ => touches_pure _
  | update op input =>
    exact (touches_liftM _).bind fun exprs =>
      (op.touches_updateTable exprs input).bind fun _ => touches_pure _
  | delete input => exact (Delete.touches_deleteTable input).bind fun _ => touches_pure _

theorem table_sound_iff (hw : table.WellFormed) (hchar : table.CharFree)
    (hadm : stmt.Admissible table store) (hsound : table.Sound store)
    (h : stmt.run table store = (.ok result, store')) :
    table.Sound store' ↔ stmt.Harmless table := by
  cases stmt with
  | insert op input =>
    obtain ⟨ho, hshort⟩ := hadm
    obtain ⟨n, hrun, -⟩ := Stateful.bind_pure_eq_ok.mp h
    exact op.insertTable_sound_iff hw hchar ho hshort hsound hrun
  | update op input =>
    obtain ⟨hschema, hassigned, hd, hshort⟩ := hadm
    obtain ⟨exprs, n, hex, hrun⟩ := Update.nextTuple_eq_ok h
    rw [op.updateTable_sound_iff hw hchar hschema hassigned hex hd (hshort exprs hex) hsound hrun]
    refine ⟨fun hall exprs' hex' => ?_, fun hall => hall exprs hex⟩
    rw [hex] at hex'
    cases hex'
    exact hall
  | delete input =>
    obtain ⟨n, hrun, -⟩ := Stateful.bind_pure_eq_ok.mp h
    exact ⟨fun _ => trivial, fun _ => Delete.deleteTable_sound hw hadm hsound hrun⟩

/-- A statement leaves the tables of other name hashes sound. -/
theorem sound_of_hash_ne {other : TableCatalog}
    (hhash : hashBytes other.name ≠ hashBytes table.name) (hsound : other.Sound store)
    (h : stmt.run table store = (.ok result, store')) : other.Sound store' :=
  hsound.of_space (space_of_agreeOutside ((touches_run table stmt).apply h) hhash)

/-- After a writing statement all tables are sound again when, and only when, the statement is
harmless. -/
theorem catalog_sound_iff {catalog : List TableCatalog} (hmem : table ∈ catalog)
    (hhash : ∀ other ∈ catalog, other ≠ table → hashBytes other.name ≠ hashBytes table.name)
    (hw : table.WellFormed) (hchar : table.CharFree) (hadm : stmt.Admissible table store)
    (hsound : ∀ table ∈ catalog, table.Sound store)
    (h : stmt.run table store = (.ok result, store')) :
    (∀ table ∈ catalog, table.Sound store') ↔ stmt.Harmless table := by
  rw [← table_sound_iff hw hchar hadm (hsound table hmem) h]
  refine ⟨fun hall => hall table hmem, fun hown other hother => ?_⟩
  by_cases he : other = table
  · rw [he]
    exact hown
  · exact sound_of_hash_ne (hhash other hother he) (hsound other hother) h

/-- A statement on a table, if it succeeds. -/
def step (store : Store) (stmt : TableCatalog × Dml) : Option (Store × Tuple) :=
  match stmt.2.run stmt.1 store with
  | (.ok result, store') => some (store', result)
  | (.error _, _) => none

/-- Any number of harmless statements over the tables of a catalog leaves all tables sound. -/
theorem runs_sound {catalog : List TableCatalog} {log : Runs.Log (TableCatalog × Dml) Tuple}
    (hwf : ∀ table ∈ catalog, table.WellFormed ∧ table.CharFree)
    (hhash : ∀ table ∈ catalog, ∀ other ∈ catalog, other ≠ table →
      hashBytes other.name ≠ hashBytes table.name)
    (hsound : ∀ table ∈ catalog, table.Sound store)
    (hrun : Runs.Run step (fun store stmt => stmt.1 ∈ catalog ∧ stmt.2.Admissible stmt.1 store ∧
      stmt.2.Harmless stmt.1) store log store') : ∀ table ∈ catalog, table.Sound store' := by
  refine hrun.invariant (P := fun _ store => ∀ table ∈ catalog, table.Sound store) hsound ?_
  rintro log s ⟨table, stmt⟩ s' r hs ⟨hmem, hadm, hharmless⟩ hstep other hother
  have hstmt : stmt.run table s = (.ok r, s') := by
    unfold step at hstep
    split at hstep <;> simp_all
  by_cases he : other = table
  · subst he
    obtain ⟨hw, hchar⟩ := hwf other hmem
    exact (table_sound_iff hw hchar hadm (hs other hmem) hstmt).mpr hharmless
  · exact sound_of_hash_ne (hhash table hmem other hother he) (hs other hother) hstmt

end Run

end Dml

/-- A table with a primary key and an index over a column of floats. -/
def floatIndexed : TableCatalog where
  name := "t"
  columns := [⟨⟨"a", .table 1 "t" false⟩, false, ⟨.integer, some 0, false, none⟩⟩,
    ⟨⟨"d", .table 2 "t" false⟩, true, ⟨.double, none, false, none⟩⟩]
  indexes := [⟨0, [1], .integer, .integer, "pk_index", .primaryKey false⟩,
    ⟨1, [2], .integer, .double, "i", .normal⟩]

/-- The expression `-d`. -/
def negated : ScalarExpression where
  returnType := .double
  eval := fun
    | [_, .float64 u] => .ok (.float64 (u ^^^ 0x8000000000000000))
    | _ => .error (.error .invalidType)
  declares _ value _ := by cases value <;> trivial

namespace Dml

def insertFloat (u : UInt64) : Dml :=
  .insert ⟨floatIndexed.columns, false, false⟩ [.ok ⟨none, [.int32 1, .float64 u]⟩]

/-- `UPDATE t SET d = -d` over the row that was inserted. -/
def negateFloat (u : UInt64) : Dml :=
  .update (@Update.bind .refusing floatIndexed.columns
      [(⟨⟨"d", .table 2 "t" false⟩, true, ⟨.double, none, false, none⟩⟩, negated)])
    [.ok ⟨some (.int32 1), [.int32 1, .float64 u]⟩]

/-- `DELETE` of the row that was inserted. -/
def deleteFloat (u : UInt64) : Dml :=
  .delete [.ok ⟨some (.int32 1), [.int32 1, .float64 u]⟩]

def withFloat (u : UInt64) : Store :=
  ((@Dml.run .flagsFirst .refusing floatIndexed (insertFloat u)) ∅).2

/-- A second table of the same columns. -/
def otherTable : TableCatalog := { floatIndexed with name := "u" }

/-- A row in either table. -/
def inBoth (u : UInt64) : Store :=
  ((@Dml.run .flagsFirst .refusing otherTable (insertFloat u)) (withFloat u)).2

theorem wellFormed_named (name : String) :
    ({ floatIndexed with name := name } : TableCatalog).WellFormed := by
  constructor
  · exact (by decide : (floatIndexed.columns.map (·.id)).Nodup)
  · exact (by decide : (floatIndexed.indexes.map (·.id)).Nodup)

theorem charFree_named (name : String) :
    ({ floatIndexed with name := name } : TableCatalog).CharFree := by
  intro index hi hp types ht len unit
  simp only [floatIndexed, mem_cons, not_mem_nil, or_false] at hi
  rcases hi with rfl | rfl
  · cases hp
  · cases ht
    simp [TableCatalog.columnTypes, floatIndexed, ColumnCatalog.datatype]

theorem floatIndexed_wellFormed : floatIndexed.WellFormed := wellFormed_named "t"

theorem floatIndexed_charFree : floatIndexed.CharFree := charFree_named "t"

theorem admissible_insertFloat (name : String) (u : UInt64) (store : Store) :
    @Admissible .flagsFirst .refusing { floatIndexed with name := name } store
      (insertFloat u) := by
  refine ⟨rfl, fun item hmem tuple values hitem hvalues => ?_⟩
  rw [mem_singleton.mp hmem] at hitem
  cases hitem
  cases hvalues
  simp [DataValue.writtenLen]

theorem harmless_insertFloat (name : String) (u : UInt64) :
    @Harmless .refusing { floatIndexed with name := name } (insertFloat u) := by
  intro item hmem tuple values hitem hvalues
  rw [mem_singleton.mp hmem] at hitem
  cases hitem
  cases hvalues
  rintro i hi v hv
  obtain rfl : i = 0 := by simpa [primaryKeyIndices, floatIndexed] using hi
  cases hv
  trivial

theorem admissible_negateFloat {u : UInt64} {store : Store}
    (hrow : ∃ k r, rowKey "t" (.int32 1) = .ok k ∧ store.space "t" none k = some r ∧
      @TableCatalog.readRow .flagsFirst floatIndexed r = .ok [.int32 1, .float64 u]) :
    @Admissible .flagsFirst .refusing floatIndexed store (negateFloat u) := by
  let _ := DecimalLayout.flagsFirst
  refine ⟨rfl, ?_, ⟨fun tuple id hmem hpk => ?_, ?_⟩, ?_⟩
  · intro assignment hmem
    cases List.mem_singleton.mp hmem
    exact List.mem_cons_of_mem _ (List.mem_singleton_self _)
  · cases List.mem_singleton.mp hmem
    cases hpk
    exact hrow
  · exact List.nodup_singleton _
  · intro exprs hex item hmem tuple values hitem hvalues
    cases hex
    rw [List.mem_singleton.mp hmem] at hitem
    cases hitem
    cases hvalues
    simp [DataValue.writtenLen]

/-- A float that differs from its negation is no NaN. -/
theorem harmless_negateFloat {u : UInt64}
    (hne : DataValue.eqList [.float64 u] [.float64 (u ^^^ 0x8000000000000000)] = false) :
    @Harmless .refusing floatIndexed (negateFloat u) := by
  intro exprs hex item hmem tuple oldPk values newPk hitem hpk hvalues hnew
  cases hex
  rw [List.mem_singleton.mp hmem] at hitem
  cases hitem
  cases hvalues
  refine ⟨?_, fun _ index hi hp ws ws' hws hws' heq => ?_⟩
  · rintro i hi v hv
    obtain rfl : i = 0 := by simpa [primaryKeyIndices, floatIndexed] using hi
    cases hv
    trivial
  · simp only [floatIndexed, mem_cons, not_mem_nil, or_false] at hi
    rcases hi with rfl | rfl
    · cases hp
    · cases hws
      cases hws'
      cases hne.symm.trans heq

theorem hash_ne_of_both : ∀ table ∈ [floatIndexed, otherTable],
    ∀ other ∈ [floatIndexed, otherTable], other ≠ table →
      hashBytes other.name ≠ hashBytes table.name := by
  have hne : hashBytes "u" ≠ hashBytes "t" := by decide
  simp only [mem_cons, not_mem_nil, or_false]
  rintro table (rfl | rfl) other (rfl | rfl) h
  · exact absurd rfl h
  · exact hne
  · exact hne.symm
  · exact absurd rfl h

/-- The bits of the float `1.0`. -/
def one : UInt64 := 0x3ff0000000000000

theorem sound_withFloat {u : UInt64}
    (h : (@run .flagsFirst .refusing floatIndexed (insertFloat u)) ∅ =
      (.ok (buildResult "1"), withFloat u)) :
    @TableCatalog.Sound .flagsFirst floatIndexed (withFloat u) := by
  let _ := DecimalLayout.flagsFirst
  let _ := Conversions.refusing
  exact (table_sound_iff floatIndexed_wellFormed floatIndexed_charFree
    (admissible_insertFloat "t" u ∅) (sound_empty floatIndexed) h).mpr (harmless_insertFloat "t" u)

theorem sound_inBoth : ∀ table ∈ [floatIndexed, otherTable],
    @TableCatalog.Sound .flagsFirst table (inBoth one) := by
  let _ := DecimalLayout.flagsFirst
  let _ := Conversions.refusing
  have hfirst : run floatIndexed (insertFloat one) ∅ = (.ok (buildResult "1"), withFloat one) := rfl
  have hempty : otherTable.Sound (withFloat one) :=
    sound_of_hash_ne (by decide) (sound_empty otherTable) hfirst
  have hinsert : run otherTable (insertFloat one) (withFloat one) =
    (.ok (buildResult "1"), inBoth one) := rfl
  simp only [mem_cons, not_mem_nil, or_false]
  rintro table (rfl | rfl)
  · exact sound_of_hash_ne (by decide) (sound_withFloat hfirst) hinsert
  · exact (table_sound_iff (wellFormed_named "u") (charFree_named "u")
      (admissible_insertFloat "u" one _) hempty hinsert).mpr (harmless_insertFloat "u" one)

/-- The store after `UPDATE t SET d = -d`. -/
def afterUpdate : Store :=
  ((@Dml.run .flagsFirst .refusing floatIndexed (negateFloat one)) (inBoth one)).2

theorem catalog_sound_after_update :
    ∃ result, (@run .flagsFirst .refusing floatIndexed (negateFloat one)) (inBoth one) =
        (.ok result, afterUpdate) ∧
      ∀ table ∈ [floatIndexed, otherTable], @TableCatalog.Sound .flagsFirst table afterUpdate := by
  let _ := DecimalLayout.flagsFirst
  let _ := Conversions.refusing
  have hrun : run floatIndexed (negateFloat one) (inBoth one) =
    (.ok (buildResult "1"), afterUpdate) := rfl
  refine ⟨_, hrun, ?_⟩
  exact (catalog_sound_iff mem_cons_self (hash_ne_of_both _ mem_cons_self)
    floatIndexed_wellFormed floatIndexed_charFree (admissible_negateFloat ⟨_, _, rfl, rfl, rfl⟩)
    sound_inBoth hrun).mpr (harmless_negateFloat rfl)

/-- An UPDATE of the first table and then a DELETE from the second. -/
theorem runs_sound_update_delete :
    ∃ store', (@run .flagsFirst .refusing otherTable (deleteFloat one)) afterUpdate =
        (.ok (buildResult "1"), store') ∧
      ∀ table ∈ [floatIndexed, otherTable], @TableCatalog.Sound .flagsFirst table store' := by
  let _ := DecimalLayout.flagsFirst
  let _ := Conversions.refusing
  have hdelivered : Admissible otherTable afterUpdate (deleteFloat one) := by
    refine ⟨fun tuple id hmem hpk => ?_, nodup_singleton _⟩
    cases mem_singleton.mp hmem
    cases hpk
    exact ⟨_, _, rfl, rfl, rfl⟩
  refine ⟨_, rfl, runs_sound ?_ hash_ne_of_both sound_inBoth (Runs.Run.start.step
    (e := (floatIndexed, negateFloat one)) (r := buildResult "1")
    ⟨mem_cons_self, admissible_negateFloat ⟨_, _, rfl, rfl, rfl⟩, harmless_negateFloat rfl⟩ rfl
    |>.step (e := (otherTable, deleteFloat one)) (r := buildResult "1")
      ⟨by simp, hdelivered, trivial⟩ rfl)⟩
  simp only [mem_cons, not_mem_nil, or_false, forall_eq_or_imp, forall_eq]
  exact ⟨⟨floatIndexed_wellFormed, floatIndexed_charFree⟩, wellFormed_named "u", charFree_named "u"⟩

/-- The quiet NaN that a text `NaN` is read as. -/
def quietNan : UInt64 := 0x7ff8000000000000

/-- Negating an indexed NaN leaves its index entry behind: the NaNs compare equal, but their
encodings differ. -/
theorem update_negated_nan :
    ∃ result store', @TableCatalog.Sound .flagsFirst floatIndexed (withFloat quietNan) ∧
      @Admissible .flagsFirst .refusing floatIndexed (withFloat quietNan)
        (negateFloat quietNan) ∧
      (@run .flagsFirst .refusing floatIndexed (negateFloat quietNan)) (withFloat quietNan) =
        (.ok result, store') ∧
      ¬ @TableCatalog.Sound .flagsFirst floatIndexed store' := by
  let _ := DecimalLayout.flagsFirst
  let _ := Conversions.refusing
  have hsound : floatIndexed.Sound (withFloat quietNan) := sound_withFloat rfl
  have hadm : Admissible floatIndexed (withFloat quietNan) (negateFloat quietNan) :=
    admissible_negateFloat ⟨_, _, rfl, rfl, rfl⟩
  have hupdate : run floatIndexed (negateFloat quietNan) (withFloat quietNan) =
      (.ok (buildResult "1"),
        (run floatIndexed (negateFloat quietNan) (withFloat quietNan)).2) := rfl
  refine ⟨buildResult "1", _, hsound, hadm, hupdate, ?_⟩
  rw [table_sound_iff floatIndexed_wellFormed floatIndexed_charFree hadm hsound hupdate]
  intro hharmless
  obtain ⟨-, hnan⟩ := hharmless _ rfl _ (List.mem_singleton_self _) _ _ _ _ rfl rfl rfl rfl
  have hkeep := hnan rfl _ (List.mem_cons_of_mem _ (List.mem_singleton_self _)) rfl _ _ rfl rfl
    rfl
  exact absurd hkeep (by decide)

end Dml

end KiteSQL
