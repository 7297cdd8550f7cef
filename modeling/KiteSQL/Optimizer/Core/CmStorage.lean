import KiteSQL.Optimizer.Core.CmSketch

/-! The pages that a count-min sketch is stored as, against the sketch that is read from them. -/
namespace KiteSQL

open Function
open List hiding Vector

structure CountMinSketchMeta (K : Type) where
  width : Nat
  kNum : Nat
  pageLen : Nat
  hasher0 : K → UInt64
  hasher1 : K → UInt64

structure CountMinSketchPage where
  rowIdx : Nat
  pageIdx : Nat
  counters : List Nat
deriving DecidableEq

def isizeMax : Nat := 2 ^ 63 - 1

/-- The checks of the meta are passed. -/
structure CountMinSketchMeta.Valid {K : Type} (stored : CountMinSketchMeta K) : Prop where
  nonzero : ¬ (stored.width = 0 ∨ stored.kNum = 0 ∨ stored.pageLen = 0)
  power : stored.width.isPowerOfTwo

/-- A row of counters and a vector of rows are of a size that Rust allows. -/
structure CountMinSketchMeta.Allocates {K : Type} (stored : CountMinSketchMeta K) : Prop where
  width : 8 * stored.width ≤ isizeMax
  kNum : 24 * stored.kNum ≤ isizeMax

namespace CountMinSketch

/-- `Vec::with_capacity` for elements of `size` bytes. -/
def withCapacity (size capacity : Nat) : Result Unit :=
  if size * capacity ≤ isizeMax then .ok () else .error (.panic "capacity overflow")

variable {K : Type} {kNum mask width pageLen : Nat}

/-- The pages of one row. -/
def rowPages (pageLen rowIdx : Nat) (counters : List Nat) : List CountMinSketchPage :=
  let pageCount := (counters.length + pageLen - 1) / pageLen
  (List.range pageCount).map fun pageIdx =>
    let start := pageIdx * pageLen
    let stop := min ((pageIdx + 1) * pageLen) counters.length
    ⟨rowIdx, pageIdx, (counters.take stop).drop start⟩

def intoStorageParts (self : CountMinSketch K kNum mask) (pageLen : Nat) :
    CountMinSketchMeta K × List CountMinSketchPage :=
  let width := mask + 1
  (⟨width, kNum, pageLen, self.hashers.get ⟨0, Nat.two_pos⟩, self.hashers.get ⟨1, Nat.one_lt_two⟩⟩,
    (List.finRange kNum).flatMap fun rowIdx : Fin kNum =>
      rowPages pageLen rowIdx (self.counters.get rowIdx).toList)

/-- The rows read so far, and the page that each of them expects next. -/
structure Assembly (kNum : Nat) where
  counters : Fin kNum → List Nat
  expectedPageIdx : Fin kNum → Nat

def acceptPage (pageLen : Nat) (state : Assembly kNum) (page : CountMinSketchPage) :
    Except DatabaseError (Assembly kNum) :=
  let rowIdx := page.rowIdx
  let pageIdx := page.pageIdx
  if hrow : rowIdx < kNum then
    let row : Fin kNum := ⟨rowIdx, hrow⟩
    let expected := state.expectedPageIdx row
    if pageIdx ≠ expected then
      .error (.invalidValue (s!"count-min sketch page sequence is invalid: row={rowIdx}, " ++
        s!"page={pageIdx}, expected={expected}"))
    else if page.counters.length > pageLen then
      .error (.invalidValue s!"count-min sketch page is too large: row={rowIdx}, page={pageIdx}")
    else
      .ok ⟨update state.counters row (state.counters row ++ page.counters),
        update state.expectedPageIdx row (expected + 1)⟩
  else
    .error (.invalidValue s!"count-min sketch row index out of bounds: {rowIdx}")

/-- The loop that compares the length of every row with the width. -/
def checkRows (width : Nat) (counters : Fin kNum → List Nat) :
    Except DatabaseError (Vector (Vector Nat width) kNum) :=
  match h : (List.finRange kNum).find? fun row => (counters row).length ≠ width with
  | some row =>
    let actual := (counters row).length
    .error (.invalidValue (s!"count-min sketch row width mismatch: row={row}, " ++
      s!"expected={width}, actual={actual}"))
  | none =>
    .ok (.ofFn fun row => ⟨(counters row).toArray, by simpa using List.find?_eq_none.mp h row⟩)

/-- The loops over the pages and over the rows. -/
def readRows (kNum width pageLen : Nat) (pages : List CountMinSketchPage) :
    Except DatabaseError (Vector (Vector Nat width) kNum) := do
  let state ← pages.foldlM (acceptPage pageLen) ⟨fun _ => [], fun _ => 0⟩
  checkRows width state.counters

def fromStorageParts (stored : CountMinSketchMeta K) (pages : List CountMinSketchPage) :
    Result (CountMinSketch K stored.kNum (stored.width - 1)) :=
  if hzero : stored.width = 0 ∨ stored.kNum = 0 ∨ stored.pageLen = 0 then
    .error (.error (.invalidValue "count-min sketch storage meta is invalid"))
  else if ¬ stored.width.isPowerOfTwo then
    .error (.error (.invalidValue "count-min sketch width must be a power of two"))
  else do
    withCapacity 8 stored.width
    withCapacity 24 stored.kNum
    let rows := readRows stored.kNum (stored.width - 1 + 1) stored.pageLen pages
    let counters ← rows.mapError .error
    return {
      counters
      offsets := .replicate _ 0
      hashers := #v[stored.hasher0, stored.hasher1]
      deep := by omega }

variable {pages seen rest : List CountMinSketchPage} {page : CountMinSketchPage}
  {state : Assembly kNum} {counters : Fin kNum → List Nat} {row : List Nat}

/-- The pages of a row, in their order. -/
def ofRow (pages : List CountMinSketchPage) (i : Nat) : List CountMinSketchPage :=
  pages.filter (·.rowIdx = i)

/-- The rows hold the pages seen so far. -/
structure Assembly.Holds (state : Assembly kNum) (seen : List CountMinSketchPage) : Prop where
  counters : ∀ i, state.counters i = (ofRow seen i).flatMap (·.counters)
  expected : ∀ i, state.expectedPageIdx i = (ofRow seen i).length

/-- The page is the next one of its row. -/
structure Follows (kNum pageLen : Nat) (seen : List CountMinSketchPage)
    (page : CountMinSketchPage) : Prop where
  row : page.rowIdx < kNum
  next : page.pageIdx = (ofRow seen page.rowIdx).length
  short : page.counters.length ≤ pageLen

theorem acceptPage_holds (h : state.Holds seen) (hpage : Follows kNum pageLen seen page) :
    ∃ state', acceptPage pageLen state page = .ok state' ∧ state'.Holds (seen ++ [page]) := by
  have hnext : page.pageIdx = state.expectedPageIdx ⟨page.rowIdx, hpage.row⟩ := by
    rw [h.expected, hpage.next]
  rw [acceptPage, dif_pos hpage.row, if_neg (not_not.mpr hnext), if_neg (not_lt.mpr hpage.short)]
  refine ⟨_, rfl, fun i => ?_, fun i => ?_⟩
  all_goals
    by_cases hi : i = ⟨page.rowIdx, hpage.row⟩
    · subst hi
      simp [ofRow, h.counters, h.expected]
    · have hne : page.rowIdx ≠ i := fun he => hi (Fin.ext he.symm)
      simp [ofRow, update_of_ne hi, h.counters, h.expected, hne]

/-- A run over pages that each follow the ones before reads all of them. -/
theorem foldlM_acceptPage_holds (h : state.Holds seen)
    (hpages : ∀ before page after, rest = before ++ page :: after →
      Follows kNum pageLen (seen ++ before) page) :
    ∃ state', rest.foldlM (acceptPage pageLen) state = .ok state' ∧
      state'.Holds (seen ++ rest) := by
  induction rest generalizing state seen with
  | nil => exact ⟨state, rfl, by rwa [append_nil]⟩
  | cons page rest ih =>
    have hpage := hpages [] page rest rfl
    rw [append_nil] at hpage
    obtain ⟨next, hok, hnext⟩ := acceptPage_holds h hpage
    obtain ⟨last, hlast, hholds⟩ := ih hnext fun before other after he => by
      rw [append_assoc]
      exact hpages (page :: before) other after (by rw [he, cons_append])
    refine ⟨last, ?_, by rwa [append_assoc] at hholds⟩
    rw [foldlM_cons, hok]
    exact hlast

theorem checkRows_eq (rows : Vector (Vector Nat width) kNum)
    (h : ∀ i, counters i = (rows.get i).toList) : checkRows width counters = .ok rows := by
  unfold checkRows
  split
  · next row hfind =>
    have hne := find?_some hfind
    simp [h] at hne
  · refine congrArg Except.ok (Vector.ext fun i hi => ?_)
    simp [h, Vector.get, Vector.toList]

/-- The first pages of a row hold its first counters. -/
theorem flatMap_pages (row : List Nat) (pageLen n : Nat) :
    ((range n).flatMap fun pageIdx =>
      (row.take (min ((pageIdx + 1) * pageLen) row.length)).drop (pageIdx * pageLen)) =
      row.take (n * pageLen) := by
  induction n with
  | zero => simp
  | succ n ih =>
    have hle : n * pageLen ≤ (n + 1) * pageLen := Nat.mul_le_mul_right _ (Nat.le_succ n)
    rw [range_succ, flatMap_append, ih, flatMap_singleton,
      ← take_eq_take_min, ← Nat.min_eq_left hle, ← take_take, Nat.min_eq_left hle]
    exact take_append_drop _ _

theorem flatMap_rowPages (hlen : 0 < pageLen) (rowIdx : Nat) (row : List Nat) :
    (rowPages pageLen rowIdx row).flatMap (·.counters) = row := by
  have hcover : row.length ≤ (row.length + pageLen - 1) / pageLen * pageLen := by
    have hdiv := Nat.div_add_mod (row.length + pageLen - 1) pageLen
    have hmod := Nat.mod_lt (row.length + pageLen - 1) hlen
    rw [Nat.mul_comm] at hdiv
    omega
  rw [rowPages, flatMap_map, flatMap_pages, take_of_length_le hcover]

theorem rowPages_ascending (pageLen rowIdx : Nat) (row : List Nat) :
    (rowPages pageLen rowIdx row).Pairwise fun page next => page.pageIdx < next.pageIdx :=
  pairwise_map.mpr pairwise_lt_range

variable {sketch : CountMinSketch K kNum mask}

/-- Pages in an order that keeps those of each row ascending. -/
def Arranges (pages parts : List CountMinSketchPage) : Prop :=
  pages.Perm parts ∧ ∀ i, (ofRow pages i).Pairwise fun page next => page.pageIdx < next.pageIdx

theorem ofRow_eq (h : Arranges pages (sketch.intoStorageParts pageLen).2) (i : Fin kNum) :
    ofRow pages i = rowPages pageLen i (sketch.counters.get i).toList := by
  let r : CountMinSketchPage → CountMinSketchPage → Prop := fun p q => p.pageIdx < q.pageIdx
  have : Std.Irrefl r := ⟨fun _ => Nat.lt_irrefl _⟩
  have : Std.Antisymm r := ⟨fun _ _ h h' => absurd h (Nat.lt_asymm h')⟩
  refine Pairwise.eq_of_mem_iff (r := r) (h.2 i) (rowPages_ascending _ _ _) fun page => ?_
  rw [ofRow, mem_filter, h.1.mem_iff]
  simp only [intoStorageParts, mem_flatMap, mem_finRange, true_and, decide_eq_true_eq]
  constructor
  · rintro ⟨⟨j, hj⟩, hrow⟩
    obtain ⟨k, -, rfl⟩ := mem_map.mp hj
    rw [← Fin.ext hrow]
    exact hj
  · intro hpage
    refine ⟨⟨i, hpage⟩, ?_⟩
    obtain ⟨k, -, rfl⟩ := mem_map.mp hpage
    rfl

/-- Each page of a stored sketch follows the ones before. -/
theorem follows_of_arranges (h : Arranges pages (sketch.intoStorageParts pageLen).2)
    {before after : List CountMinSketchPage} (he : pages = before ++ page :: after) :
    Follows kNum pageLen before page := by
  have hmem : page ∈ (sketch.intoStorageParts pageLen).2 := by
    rw [← h.1.mem_iff, he]
    simp
  simp only [intoStorageParts, List.mem_flatMap, List.mem_finRange, true_and] at hmem
  obtain ⟨i, hi⟩ := hmem
  obtain ⟨k, -, hk⟩ := List.mem_map.mp hi
  have hrow : page.rowIdx = i := by rw [← hk]
  refine ⟨hrow ▸ i.isLt, ?_, ?_⟩
  · have hget : (ofRow pages i)[(ofRow before i).length]? = some page := by
      simp [he, ofRow, hrow]
    rw [ofRow_eq h i, rowPages, List.getElem?_map] at hget
    obtain ⟨m, hm, hpage⟩ := Option.map_eq_some_iff.mp hget
    obtain ⟨hlt, rfl⟩ := List.getElem?_eq_some_iff.mp hm
    rw [hrow, ← hpage]
    simp
  · rw [← hk]
    simp only [List.length_drop, List.length_take, Nat.add_mul]
    omega

theorem estimate_congr {other : CountMinSketch K kNum mask}
    (hcounters : other.counters = sketch.counters) (hhashers : other.hashers = sketch.hashers)
    (key : K) : other.estimate key = sketch.estimate key := by
  refine eq_of_forall_le_iff fun n => ?_
  rw [le_estimate_iff, le_estimate_iff]
  have hcell : ∀ k, other.cell key k = sketch.cell key k := by
    rintro (_ | _ | k) <;> simp [cell, offset, hhashers]
  simp only [counter, hcell, hcounters]

/-- What is stored of a sketch is read back. -/
theorem fromStorageParts_arranges (hlen : 0 < pageLen) (hpow : (mask + 1).isPowerOfTwo)
    (hsize : (sketch.intoStorageParts pageLen).1.Allocates)
    (h : Arranges pages (sketch.intoStorageParts pageLen).2) :
    ∃ read, fromStorageParts (sketch.intoStorageParts pageLen).1 pages = .ok read ∧
      read.counters = sketch.counters ∧ read.hashers = sketch.hashers := by
  have hdeep := sketch.deep
  have hstart : (⟨fun _ => [], fun _ => 0⟩ : Assembly kNum).Holds [] :=
    ⟨fun _ => rfl, fun _ => rfl⟩
  obtain ⟨state, hstate, hholds⟩ := foldlM_acceptPage_holds hstart fun _ _ _ he =>
    follows_of_arranges h he
  have hrows : checkRows (mask + 1) state.counters = .ok sketch.counters := by
    refine checkRows_eq _ fun i => ?_
    rw [hholds.counters, nil_append, ofRow_eq h, flatMap_rowPages hlen]
  have hread : readRows kNum (mask + 1) pageLen pages = .ok sketch.counters := by
    rw [readRows, hstate]
    exact hrows
  have hvalid : ¬ (mask + 1 = 0 ∨ kNum = 0 ∨ pageLen = 0) := by omega
  refine ⟨⟨sketch.counters, .replicate _ 0, #v[sketch.hashers[0], sketch.hashers[1]], hdeep⟩,
    ?_, rfl, ?_⟩
  · simp only [fromStorageParts]
    refine (dif_neg hvalid).trans ((if_neg (not_not.mpr hpow)).trans ?_)
    rw [withCapacity, withCapacity]
    refine Result.bind_eq_ok.mpr ⟨(), if_pos hsize.width, ?_⟩
    refine Result.bind_eq_ok.mpr ⟨(), if_pos hsize.kNum, Result.bind_eq_ok.mpr ⟨_, ?_, rfl⟩⟩
    exact congrArg (Except.mapError Fault.error) hread
  · refine Vector.ext fun i hi => ?_
    obtain rfl | rfl : i = 0 ∨ i = 1 := by omega
    · rfl
    · rfl

/-- The call returns or fails with an error. -/
def Returns {α : Type} (x : Result α) : Prop := ∀ message, x ≠ .error (.panic message)

/-- Reading ends in a panic only in a vector that is too large. -/
theorem fromStorageParts_returns_iff (stored : CountMinSketchMeta K)
    (pages : List CountMinSketchPage) :
    Returns (fromStorageParts stored pages) ↔ (stored.Valid → stored.Allocates) := by
  unfold fromStorageParts
  by_cases hzero : stored.width = 0 ∨ stored.kNum = 0 ∨ stored.pageLen = 0
  · rw [dif_pos hzero]
    exact ⟨fun _ h => absurd hzero h.nonzero, fun _ _ h => by cases h⟩
  rw [dif_neg hzero]
  by_cases hpow : stored.width.isPowerOfTwo
  · rw [if_neg (not_not.mpr hpow), withCapacity, withCapacity]
    constructor
    · intro h _
      refine ⟨?_, ?_⟩
      · by_contra hwidth
        rw [if_neg hwidth] at h
        exact h _ rfl
      · by_contra hdepth
        rw [if_neg hdepth] at h
        split at h
        · exact h _ rfl
        · exact h _ rfl
    · intro h
      have hsize := h ⟨hzero, hpow⟩
      rw [if_pos hsize.width, if_pos hsize.kNum, Result.ok_bind, Result.ok_bind]
      intro message
      cases readRows stored.kNum (stored.width - 1 + 1) stored.pageLen pages <;>
        exact fun h => by cases h
  · rw [if_pos hpow]
    exact ⟨fun _ h => absurd h.power hpow, fun _ _ h => by cases h⟩

theorem valid_of_fromStorageParts {stored : CountMinSketchMeta K}
    {read : CountMinSketch K stored.kNum (stored.width - 1)}
    (h : fromStorageParts stored pages = .ok read) : stored.Valid := by
  unfold fromStorageParts at h
  split at h
  · cases h
  · next hzero =>
    split at h
    · cases h
    · next hpow => exact ⟨hzero, not_not.mp hpow⟩

/-- A stored sketch is read back with its estimates, and any other pages give an error or a sketch
with rows of the declared width, iff the meta declares no vector that is too large. -/
theorem fromStorageParts_iff :
    (∀ (kNum mask pageLen : Nat) (sketch : CountMinSketch K kNum mask)
      (pages : List CountMinSketchPage), 0 < pageLen → (mask + 1).isPowerOfTwo →
      (sketch.intoStorageParts pageLen).1.Allocates →
      Arranges pages (sketch.intoStorageParts pageLen).2 →
      ∃ read, fromStorageParts (sketch.intoStorageParts pageLen).1 pages = .ok read ∧
        ∀ key, read.estimate key = sketch.estimate key) ∧
    ∀ (stored : CountMinSketchMeta K) (pages : List CountMinSketchPage),
      (Returns (fromStorageParts stored pages) ↔ (stored.Valid → stored.Allocates)) ∧
      ∀ read, fromStorageParts stored pages = .ok read → stored.width.isPowerOfTwo ∧
        ∀ row ∈ read.counters.toList, row.toList.length = stored.width := by
  refine ⟨fun kNum mask pageLen sketch pages hlen hpow hsize h => ?_, fun stored pages => ?_⟩
  · obtain ⟨read, hread, hcounters, hhashers⟩ := fromStorageParts_arranges hlen hpow hsize h
    exact ⟨read, hread, fun key => estimate_congr hcounters hhashers key⟩
  · refine ⟨fromStorageParts_returns_iff stored pages, fun read hread => ?_⟩
    obtain ⟨hzero, hpow⟩ := valid_of_fromStorageParts hread
    refine ⟨hpow, fun row _ => ?_⟩
    rw [Vector.length_toList]
    omega

/-- The pages of a sketch with two keys in it, the rows mixed. -/
theorem fromStorageParts_sharing :
    let sketch := (empty 1 sharing Nat.two_pos).addAll [(false, 1), (true, 10)]
    ∃ read, fromStorageParts (sketch.intoStorageParts 1).1
        [⟨1, 0, [1]⟩, ⟨0, 0, [1]⟩, ⟨0, 1, [10]⟩, ⟨1, 1, [0]⟩] = .ok read ∧
      ∀ key, read.estimate key = sketch.estimate key := by
  refine fromStorageParts_iff.1 2 1 1 _ _ Nat.one_pos ⟨1, rfl⟩ ⟨by decide, by decide⟩
    ⟨by decide, fun i => ?_⟩
  obtain _ | _ | i := i <;> simp [ofRow]

/-- A declared width of 2^60 counters. -/
theorem fromStorageParts_panics :
    fromStorageParts (⟨2 ^ 60, 1, 1, fun _ => 0, fun _ => 0⟩ : CountMinSketchMeta Bool) [] =
      .error (.panic "capacity overflow") := by
  rfl

end CountMinSketch
end KiteSQL
