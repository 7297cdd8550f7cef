import KiteSQL.Execution.RowWrites

/-! A writing statement changes keys of its own table only. -/
namespace KiteSQL

open TableCodec Function Stateful Store

/-- The stores differ at most in keys of one table. -/
def Store.AgreeOutside (tableName : String) (store store' : Store) : Prop :=
  ∀ key, ¬ hashBytes tableName <+: key → store'.contents key = store.contents key

variable {tableName : String} {store store' : Store} {key : Bytes} {o : Option Bytes}

theorem Store.agreeOutside_refl (store : Store) : AgreeOutside tableName store store :=
  fun _ _ => rfl

theorem Store.AgreeOutside.trans {store'' : Store} (h : AgreeOutside tableName store store')
    (h' : AgreeOutside tableName store' store'') : AgreeOutside tableName store store'' :=
  fun key hk => (h' key hk).trans (h key hk)

theorem isPrefix_hash (part : Option UInt32) :
    hashBytes tableName <+: spacePrefix tableName part := by
  cases part <;> simp [spacePrefix, tuplePrefix, indexPrefix, writeKeyPrefix, List.append_assoc]

theorem Store.WritesAt.agrees {part : Option UInt32} (h : WritesAt tableName part store store') :
    AgreeOutside tableName store store' := by
  obtain ⟨key, written, hk, hs⟩ := h
  intro x hx
  rw [hs, update_of_ne]
  rintro rfl
  exact hx ((isPrefix_hash part).trans hk)

/-- Tables whose names have different hashes share no keys. -/
theorem space_of_agreeOutside {other : String} (h : AgreeOutside tableName store store')
    (hne : hashBytes other ≠ hashBytes tableName) (part : Option UInt32) :
    store'.space other part = store.space other part := by
  funext x
  unfold space Region.region
  split
  · next hx =>
    refine h x fun hx' => hne ?_
    have hp := List.prefix_of_prefix_length_le ((isPrefix_hash part).trans hx) hx' (by simp)
    exact hp.eq_of_length (by simp)
  · rfl

theorem removeTuple_agrees {id : DataValue} (h : store.removeTuple tableName id = .ok store') :
    AgreeOutside tableName store store' := by
  obtain ⟨k, hk, hs⟩ := removeTuple_eq_ok h
  exact WritesAt.agrees ⟨_, _, isPrefix_rowKey hk, hs⟩

/-- Whatever the outcome, the computation writes to keys of one table only. -/
def Touches {α : Type} (tableName : String) (x : Exec α) : Prop :=
  Stateful.Relates (Store.AgreeOutside tableName) x

section Touches

variable {α β : Type} {x : Exec α} {f : α → Exec β} {l : List α}

theorem touches_pure (a : α) : Touches tableName (pure a) :=
  relates_pure agreeOutside_refl a

theorem touches_liftM (y : Result α) : Touches tableName (liftM y : Exec α) :=
  relates_liftM agreeOutside_refl y

theorem touches_write {g : Store → Result Store}
    (hg : ∀ s t, g s = .ok t → AgreeOutside tableName s t) : Touches tableName (write g) :=
  relates_write agreeOutside_refl hg

theorem Touches.bind (hx : Touches tableName x) (hf : ∀ a, Touches tableName (f a)) :
    Touches tableName (x >>= f) :=
  Stateful.Relates.bind AgreeOutside.trans hx hf

theorem touches_forM {g : α → Exec PUnit} (hg : ∀ a, Touches tableName (g a)) :
    Touches tableName (l.forM g) :=
  relates_forM agreeOutside_refl AgreeOutside.trans fun a _ => hg a

theorem touches_foldlM {g : β → α → Exec β} (hg : ∀ b a, Touches tableName (g b a)) (b : β) :
    Touches tableName (l.foldlM g b) :=
  relates_foldlM agreeOutside_refl AgreeOutside.trans (fun b a _ => hg b a) b

end Touches

variable [DecimalLayout] {index : Index} {id : DataValue} {ss : List TupleValueSerializableImpl}
  {snapshot : DmlTableSnapshot}

theorem appendTuple_agrees {tuple : Tuple} {isOverwrite : Bool}
    (h : store.appendTuple tableName tuple ss isOverwrite = .ok store') :
    AgreeOutside tableName store store' := by
  obtain ⟨id, k, bytes, -, -, hk, -, -, hs⟩ := appendTuple_eq_ok h
  exact WritesAt.agrees ⟨_, _, isPrefix_rowKey hk, hs⟩

variable {table : TableCatalog}

theorem Insert.touches_writeRow {op : Insert} {values : List DataValue} :
    Touches tableName (op.writeRow tableName snapshot ss values) := by
  refine (touches_liftM _).bind fun id => .bind (touches_forM fun template => ?_) fun _ =>
    touches_write fun s t => appendTuple_agrees
  exact (touches_liftM _).bind fun ws => touches_write fun s t h => (addIndex_writesAt h).agrees

theorem Insert.touches_insertTable [Conversions] (op : Insert) (input : List (Result Tuple)) :
    Touches table.name (op.insertTable table input) := by
  refine (touches_liftM _).bind fun snapshot => ?_
  split
  · exact touches_liftM _
  · refine (touches_liftM _).bind fun ss => touches_foldlM (fun n item => ?_) 0
    exact (touches_liftM _).bind fun tuple => (touches_liftM _).bind fun values =>
      touches_writeRow.bind fun _ => touches_pure _

theorem Update.touches_rewriteRow {op : Update} {exprs : List (ColumnId × ScalarExpression)}
    {oldPk : DataValue} {oldValues : List DataValue} :
    Touches tableName (op.rewriteRow tableName snapshot ss exprs oldPk oldValues) := by
  refine (touches_liftM _).bind fun old => (touches_liftM _).bind fun values =>
    (touches_liftM _).bind fun newPk => .bind (touches_write fun s t h => ?_) fun _ =>
    .bind (touches_forM fun x => ?_) fun _ => touches_write fun s t => appendTuple_agrees
  · split at h
    · exact removeTuple_agrees h
    · cases h
      exact agreeOutside_refl s
  · refine (touches_liftM _).bind fun ws => ?_
    split
    · exact touches_pure _
    · exact (touches_write fun s t h => (delIndex_writesAt h).agrees).bind fun _ =>
        touches_write fun s t h => (addIndex_writesAt h).agrees

theorem Update.touches_updateTable (op : Update) (exprs : List (ColumnId × ScalarExpression))
    (input : List (Result Tuple)) : Touches table.name (op.updateTable table exprs input) := by
  refine (touches_liftM _).bind fun snapshot => (touches_liftM _).bind fun ss =>
    touches_foldlM (fun n item => (touches_liftM _).bind fun tuple => ?_) 0
  cases tuple.pk with
  | none => exact touches_pure _
  | some oldPk => exact touches_rewriteRow.bind fun _ => touches_pure _

theorem Delete.touches_deleteTable (input : List (Result Tuple)) :
    Touches table.name (deleteTable table input) := by
  refine (touches_liftM _).bind fun templates =>
    touches_foldlM (fun n item => (touches_liftM _).bind fun tuple => ?_) 0
  cases tuple.pk with
  | none => exact touches_pure _
  | some id =>
    refine (touches_forM fun template => ?_).bind fun _ =>
      (touches_write fun s t => removeTuple_agrees).bind fun _ => touches_pure _
    exact (touches_liftM _).bind fun ws => touches_write fun s t h => (delIndex_writesAt h).agrees

end KiteSQL
