import KiteSQL.Storage.NameHash

/-! Runs of statements that create and drop tables and views. -/
namespace KiteSQL

open Transaction Stateful Store

/-- The statements that create and drop tables and views. -/
inductive CatalogStatement where
  | createTable (name : String) (columns : List ColumnCatalog) (ifNotExists : Bool)
  | dropTable (name : String) (ifExists : Bool)
  | createView (view : View) (orReplace : Bool)
  | dropView (name : String) (ifExists : Bool)

namespace CatalogStatement

def name : CatalogStatement → String
  | .createTable name _ _ | .dropTable name _ | .dropView name _ => name
  | .createView view _ => view.name

def run [CatalogCodec] : CatalogStatement → Exec Unit
  | .createTable name columns ifNotExists => do
    let _ ← Transaction.createTable name columns ifNotExists
    return ()
  | .dropTable name ifExists => do
    let _ ← Transaction.dropTable name ifExists
    return ()
  | .createView view orReplace => do
    let _ ← Transaction.createView view orReplace
    return ()
  | .dropView name ifExists => do
    let _ ← Transaction.dropView name ifExists
    return ()

end CatalogStatement

open CatalogStatement

/-- The codec has a stored form for every record of an index, a table or a view. -/
structure CatalogCodec.Total [CatalogCodec] : Prop where
  indexMeta : ∀ index, ∃ bytes, encodeIndexMeta index = .ok bytes
  rootTable : ∀ name, ∃ bytes, encodeRootTable name = .ok bytes
  view : ∀ view, ∃ bytes, encodeView view = .ok bytes

namespace CatalogStatement

/-- A `DROP VIEW` that names a table and whose effect stays. -/
def freesTable (rollsBack : Bool) (st : CatalogStatement) (s : Store) : Prop :=
  match st with
  | .dropView name ifExists =>
    hashBytes name ∈ s.directory.tables ∧ (ifExists || !rollsBack) = true
  | _ => False

/-- A `DROP VIEW` of what is not a view. -/
def dropsNoView (st : CatalogStatement) (s : Store) : Prop :=
  match st with
  | .dropView name _ => hashBytes name ∉ s.directory.views
  | _ => False

variable [CatalogCodec]

/-- Each statement is a transaction of its own. When it fails, RocksDB and LMDB drop what it wrote;
the in-memory storage writes at once and keeps it. -/
def step (rollsBack : Bool) (s : Store) (st : CatalogStatement) : Store :=
  match st.run s with
  | (.ok _, t) => t
  | (.error _, t) => if rollsBack then s else t

def runAll (rollsBack : Bool) (run : List CatalogStatement) (s : Store) : Store :=
  run.foldl (step rollsBack) s

variable {rollsBack : Bool} {st : CatalogStatement} {run : List CatalogStatement} {s : Store}

theorem runAll_concat (done : List CatalogStatement) (st : CatalogStatement) (s : Store) :
    runAll rollsBack (done ++ [st]) s = step rollsBack (runAll rollsBack done s) st := by
  rw [runAll, List.foldl_concat, runAll]

theorem step_eq (rollsBack : Bool) (st : CatalogStatement) (s : Store) :
    step rollsBack s st = (st.run s).2 ∨ step rollsBack s st = s := by
  unfold step
  split
  · next h => exact Or.inl (by rw [h])
  · next h =>
    split
    · exact Or.inr rfl
    · exact Or.inl (by rw [h])

theorem exact_run (hc : CatalogCodec.Total) (hp : PlainHash st.name) (h : s.directory.Exact)
    (hv : ∀ name ifExists, st = .dropView name ifExists → hashBytes name ∉ s.directory.tables) :
    (st.run s).2.directory.Exact := by
  cases st with
  | createTable name columns ifNotExists =>
    obtain ⟨bytes, hb⟩ := hc.rootTable name
    rw [run, snd_bind_pure]
    obtain he | ⟨hf, he⟩ :=
      directory_createTable hc.indexMeta (show PlainHash name from hp) hb columns ifNotExists s
    · rwa [he]
    · rw [he]
      exact h.addTable hf
  | dropTable name ifExists =>
    rw [run, snd_bind_pure]
    by_cases ht : hashBytes name ∈ s.directory.tables
    · rw [directory_dropTable (show PlainHash name from hp) ifExists s ht]
      exact h.dropTable ht
    · rwa [dropTable_absent ifExists ht]
  | createView view orReplace =>
    obtain ⟨bytes, hb⟩ := hc.view view
    rw [run, snd_bind_pure]
    rcases directory_createView hb orReplace s with he | ⟨hm, he⟩ | ⟨hf, he⟩
    · rwa [he]
    · rw [he]
      exact h.replaceView hm
    · rw [he]
      exact h.addView hf
  | dropView name ifExists =>
    rw [run, snd_bind_pure, directory_dropView]
    exact h.dropView (hv name ifExists rfl)

/-- Dropping a view that does not exist removes the reservation of its name. -/
theorem step_dropView {name : String} (ifExists : Bool) (h : hashBytes name ∉ s.directory.views) :
    step rollsBack s (.dropView name ifExists) =
      if ifExists || !rollsBack then s.erase (TableCodec.hashKey name) else s := by
  unfold step
  rw [CatalogStatement.run]
  cases ifExists with
  | true =>
    rw [bind_of_ok (dropView_eq true h)]
    rfl
  | false =>
    rw [bind_of_error (dropView_eq false h)]
    cases rollsBack <;> rfl

/-- Only a `DROP VIEW` that names a table breaks the invariant. -/
theorem exact_step_iff (hc : CatalogCodec.Total) (hp : PlainHash st.name)
    (h : s.directory.Exact) :
    (step rollsBack s st).directory.Exact ↔ ¬ st.freesTable rollsBack s := by
  by_cases hv : ∃ name ifExists, st = .dropView name ifExists ∧ hashBytes name ∈ s.directory.tables
  · obtain ⟨name, ifExists, rfl, ht⟩ := hv
    rw [step_dropView ifExists (h.disjoint _ ht)]
    cases hkept : ifExists || !rollsBack with
    | true =>
      refine iff_of_false ?_ fun hf => hf ⟨ht, hkept⟩
      rw [if_pos rfl, directory_erase_hash]
      exact Directory.not_exact_drop ht
    | false => exact iff_of_true h fun hf => Bool.false_ne_true (hkept.symm.trans hf.2)
  · have hrun := exact_run hc hp h fun name ifExists hst ht => hv ⟨name, ifExists, hst, ht⟩
    have hfree : ¬ st.freesTable rollsBack s := by
      cases st with
      | dropView name ifExists => exact fun hf => hv ⟨name, ifExists, rfl, hf.1⟩
      | _ => exact id
    rcases step_eq rollsBack st s with he | he
    · simp [he, hrun, hfree]
    · simp [he, h, hfree]

/-- A name that nothing has is not there to be given free. -/
theorem contents_step (h : s.directory.Exact) (hno : st.dropsNoView s)
    (hf : ¬ st.freesTable rollsBack s) : (step rollsBack s st).contents = s.contents := by
  cases st with
  | dropView name ifExists =>
    rw [step_dropView ifExists hno]
    cases hkept : ifExists || !rollsBack with
    | true =>
      have hr : hashBytes name ∉ s.directory.reserved := by
        rw [h.reserved]
        exact fun hmem => hmem.elim (fun ht => hf ⟨ht, hkept⟩) hno
      rw [if_pos rfl, contents_erase, Function.update_eq_self_iff, eq_comm,
        ← Option.not_isSome_iff_eq_none]
      exact mem_reserved.not.mp hr
    | false => rfl
  | _ => cases hno

/-- In every state of a run the names that are taken are those of the tables and views, and a
`DROP VIEW` of anything else changes nothing, as long as no `DROP VIEW` names a table. -/
theorem exact_runAll_iff (hc : CatalogCodec.Total)
    (hp : ∀ st ∈ run, PlainHash st.name) (h : s.directory.Exact) :
    ((∀ done, done <+: run → (runAll rollsBack done s).directory.Exact) ∧
      ∀ done st, done ++ [st] <+: run → st.dropsNoView (runAll rollsBack done s) →
        (runAll rollsBack (done ++ [st]) s).contents = (runAll rollsBack done s).contents) ↔
      ∀ done st, done ++ [st] <+: run → ¬ st.freesTable rollsBack (runAll rollsBack done s) := by
  have hstep : ∀ done st, done ++ [st] <+: run → (runAll rollsBack done s).directory.Exact →
      ((runAll rollsBack (done ++ [st]) s).directory.Exact ↔
        ¬ st.freesTable rollsBack (runAll rollsBack done s)) := by
    intro done st hpre hexact
    rw [runAll_concat]
    exact exact_step_iff hc (hp st (hpre.subset (by simp))) hexact
  constructor
  · rintro ⟨hall, -⟩ done st hpre
    exact (hstep done st hpre (hall done ((List.prefix_append _ _).trans hpre))).mp (hall _ hpre)
  · intro hsafe
    have hall : ∀ done, done <+: run → (runAll rollsBack done s).directory.Exact := by
      intro done
      induction done using List.reverseRecOn with
      | nil => exact fun _ => h
      | append_singleton done st ih =>
        intro hpre
        have hdone := ih ((List.prefix_append _ _).trans hpre)
        exact (hstep done st hpre hdone).mpr (hsafe done st hpre)
    refine ⟨hall, fun done st hpre hno => ?_⟩
    rw [runAll_concat]
    exact contents_step (hall done ((List.prefix_append _ _).trans hpre)) hno
      (hsafe done st hpre)

end CatalogStatement

/-- The statements of a run, each with those before it. -/
theorem forall_concat_prefix_cons {α : Type} {P : List α → α → Prop} {first : α} {run : List α} :
    (∀ done st, done ++ [st] <+: first :: run → P done st) ↔
      P [] first ∧ ∀ done st, done ++ [st] <+: run → P (first :: done) st := by
  constructor
  · intro h
    exact ⟨h [] first (by simp), fun done st hpre => h (first :: done) st (by simpa using hpre)⟩
  · rintro ⟨hfirst, hrest⟩ (_ | ⟨d, done⟩) st hpre
    · obtain ⟨rfl, -⟩ := List.cons_prefix_cons.mp hpre
      exact hfirst
    · obtain ⟨rfl, hdone⟩ := List.cons_prefix_cons.mp hpre
      exact hrest done st hdone

theorem directory_empty : directory (∅ : Store) = ⟨∅, ∅, ∅⟩ := by
  simp [directory, hashes, contents]

/-- `CREATE TABLE t (id INTEGER PRIMARY KEY, a INTEGER UNIQUE)`. -/
def createKeyed : CatalogStatement := .createTable "t" (keyAndUnique []) false

/-- A table and a view are made, the view goes, and is dropped once more in vain. -/
def viewDropped : List CatalogStatement :=
  [createKeyed, .createView ⟨"v"⟩ false, .dropView "v" false, .dropView "v" false]

theorem exact_viewDropped :
    let _ := keyAndUniqueCodec
    (runAll false viewDropped ∅).directory.Exact ∧
      (runAll false viewDropped ∅).contents = (runAll false viewDropped.dropLast ∅).contents ∧
      hashBytes "t" ∈ (runAll false viewDropped ∅).directory.tables := by
  intro _
  have htotal : CatalogCodec.Total := ⟨fun _ => ⟨_, rfl⟩, fun _ => ⟨_, rfl⟩, fun _ => ⟨_, rfl⟩⟩
  have hempty : (Store.directory ∅).Exact := by
    rw [directory_empty]
    exact ⟨by simp, by simp⟩
  have hplain : ∀ st ∈ viewDropped, PlainHash st.name := by
    simp only [viewDropped, List.mem_cons, List.not_mem_nil, or_false, forall_eq_or_imp, forall_eq]
    unfold PlainHash
    decide
  have habsent : ∀ done ∈ [viewDropped.take 2, viewDropped.take 3],
      hashBytes "v" ∉ (runAll false done ∅).directory.tables := by
    simp only [mem_tables]
    decide +kernel
  have hfree : ∀ done st, done ++ [st] <+: viewDropped →
      ¬ st.freesTable false (runAll false done ∅) := by
    simp only [viewDropped, forall_concat_prefix_cons]
    exact ⟨id, id, fun h => habsent _ (.head _) h.1, fun h => habsent _ (.tail _ (.head _)) h.1,
      by simp⟩
  have hgone : hashBytes "v" ∉ (runAll false viewDropped.dropLast ∅).directory.views := by
    simp only [mem_views]
    decide +kernel
  obtain ⟨hexact, hsame⟩ := (exact_runAll_iff htotal hplain hempty).mpr hfree
  refine ⟨hexact _ List.prefix_rfl, hsame viewDropped.dropLast _ List.prefix_rfl hgone, ?_⟩
  rw [mem_tables]
  decide +kernel

/-- After `DROP VIEW IF EXISTS` has named a table, a view can take its name. -/
theorem table_and_view_coexist :
    let _ := keyAndUniqueCodec
    hashBytes "t" ∈ (runAll true [createKeyed, .dropView "t" true,
      .createView ⟨"t"⟩ false] ∅).directory.tables ∧
    hashBytes "t" ∈ (runAll true [createKeyed, .dropView "t" true,
      .createView ⟨"t"⟩ false] ∅).directory.views :=
  ⟨mem_tables.mpr rfl, mem_views.mpr rfl⟩

end KiteSQL
