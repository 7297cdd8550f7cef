import KiteSQL.Storage.TableCodec
import Mathlib.Tactic

/-! The count-min sketch of a column, against the amounts that were added for each key. -/
namespace KiteSQL

open List hiding Vector

/-- A sketch, by the number of its rows and the mask of its columns. A hasher stands for the
hash that it gives each key. -/
structure CountMinSketch (K : Type) (kNum mask : Nat) where
  counters : Vector (Vector Nat (mask + 1)) kNum
  offsets : Vector (Fin (mask + 1)) kNum
  hashers : Vector (K → UInt64) 2
  deep : 0 < kNum

namespace CountMinSketch

variable {K : Type} {kNum mask : Nat}

/-- The sketch before anything is added, as `with_relative_error` fills it. -/
def empty (mask : Nat) (hashers : Vector (K → UInt64) 2) (hdeep : 0 < kNum) :
    CountMinSketch K kNum mask :=
  { counters := .replicate kNum (.replicate _ 0), offsets := .replicate kNum 0, hashers,
    deep := hdeep }

/-- `hash as usize & self.mask`. -/
def masked (mask : Nat) (hash : UInt64) : Fin (mask + 1) :=
  ⟨hash.toNat &&& mask, Nat.lt_succ_of_le Nat.and_le_right⟩

/-- The column of a key in row `k`, and the hashes that the rows after it start from. -/
def offset (self : CountMinSketch K kNum mask) (hashes : UInt64 × UInt64) (key : K) :
    Nat → (UInt64 × UInt64) × Fin (mask + 1)
  | 0 =>
    let hash := self.hashers[0] key
    ((hash, hashes.2), masked mask hash)
  | 1 =>
    let hash := self.hashers[1] key
    ((hashes.1, hash), masked mask hash)
  | k + 2 =>
    (hashes, masked mask (hashes.1 + UInt64.ofNat (k + 2) * hashes.2 % 0xffffffffffffffc5))

/-- The pass over the rows of a key: its hashes, its columns and its lowest counter so far. -/
structure Scan (kNum mask : Nat) where
  hashes : UInt64 × UInt64
  offsets : Vector (Fin (mask + 1)) kNum
  lowest : Option Nat

/-- `Iterator::min` after one more item. -/
def least : Option Nat → Nat → Nat
  | none, n => n
  | some lowest, n => min lowest n

def scan (self : CountMinSketch K kNum mask) (key : K) : (k : Nat) → k ≤ kNum → Scan kNum mask
  | 0, _ => ⟨(0, 0), self.offsets, none⟩
  | k + 1, hk =>
    let scan := self.scan key k (Nat.le_of_succ_le hk)
    let (hashes, offset) := self.offset scan.hashes key k
    ⟨hashes, scan.offsets.set k offset,
      some (least scan.lowest (self.counters[k])[offset])⟩

/-- The loop that raises the counters of a key which are as low as its lowest. -/
def raise (self : CountMinSketch K kNum mask) (offsets : Vector (Fin (mask + 1)) kNum)
    (lowest value : Nat) :
    (k : Nat) → k ≤ kNum → Vector (Vector Nat (mask + 1)) kNum
  | 0, _ => self.counters
  | k + 1, hk =>
    let counters := self.raise offsets lowest value k (Nat.le_of_succ_le hk)
    let offset := offsets[k]
    if (counters[k])[offset] = lowest then
      counters.set k (counters[k].set offset (min usizeMax ((counters[k])[offset] + value)))
    else counters

def add (self : CountMinSketch K kNum mask) (key : K) (value : Nat) : CountMinSketch K kNum mask :=
  let scan := self.scan key kNum (Nat.le_refl _)
  { self with
    offsets := scan.offsets
    counters := self.raise scan.offsets (scan.lowest.getD 0) value kNum (Nat.le_refl _) }

def increment (self : CountMinSketch K kNum mask) (key : K) : CountMinSketch K kNum mask :=
  self.add key 1

def estimate (self : CountMinSketch K kNum mask) (key : K) : Nat :=
  (self.scan key kNum (Nat.le_refl _)).lowest.getD 0

/-- The column of a key in a row, by its two hashes. -/
def cell (self : CountMinSketch K kNum mask) (key : K) (k : Nat) : Fin (mask + 1) :=
  (self.offset (self.hashers[0] key, self.hashers[1] key) key k).2

/-- The counter of a key in a row. -/
def counter (self : CountMinSketch K kNum mask) (key : K) (k : Nat) (hk : k < kNum) : Nat :=
  (self.counters[k])[self.cell key k]

variable {s : CountMinSketch K kNum mask} {key other : K} {k n value : Nat}

theorem offset_cell (hashes : UInt64 × UInt64) (h0 : 0 < k → hashes.1 = s.hashers[0] key)
    (h1 : 1 < k → hashes.2 = s.hashers[1] key) :
    (s.offset hashes key k).2 = s.cell key k ∧
      (s.offset hashes key k).1.1 = s.hashers[0] key ∧
      (0 < k → (s.offset hashes key k).1.2 = s.hashers[1] key) := by
  obtain _ | _ | k := k
  · simp [offset, cell]
  · simp_all [offset, cell]
  · simp_all [offset, cell]

/-- After `k` rows the pass knows the hashes it has met and the columns it has passed. -/
theorem scan_offsets (key : K) (hk : k ≤ kNum) :
    (0 < k → (s.scan key k hk).hashes.1 = s.hashers[0] key) ∧
      (1 < k → (s.scan key k hk).hashes.2 = s.hashers[1] key) ∧
      ∀ (i : Nat) (hi : i < k), (s.scan key k hk).offsets[i] = s.cell key i := by
  induction k with
  | zero => simp
  | succ k ih =>
    obtain ⟨h0, h1, hoffsets⟩ := ih (Nat.le_of_succ_le hk)
    obtain ⟨hcell, hfst, hsnd⟩ := offset_cell _ h0 h1
    refine ⟨fun _ => hfst, fun hlt => hsnd (by omega), fun i hi => ?_⟩
    simp only [scan]
    by_cases he : i = k
    · subst he
      rw [Vector.getElem_set_self]
      exact hcell
    · rw [Vector.getElem_set_ne _ _ (Ne.symm he)]
      exact hoffsets i (by omega)

theorem le_least_iff (lowest : Option Nat) (m : Nat) :
    n ≤ least lowest m ↔ (∀ l ∈ lowest, n ≤ l) ∧ n ≤ m := by
  cases lowest <;> simp [least]

/-- After `k` rows the pass knows the lowest counter of them. -/
theorem scan_lowest (key : K) (hk : k ≤ kNum) :
    (0 < k → (s.scan key k hk).lowest.isSome) ∧
      ∀ n, (∀ l ∈ (s.scan key k hk).lowest, n ≤ l) ↔
        ∀ (i : Nat) (hi : i < k), n ≤ s.counter key i (by omega) := by
  induction k with
  | zero => simp [scan]
  | succ k ih =>
    obtain ⟨_, ih⟩ := ih (Nat.le_of_succ_le hk)
    obtain ⟨h0, h1, _⟩ := s.scan_offsets key (Nat.le_of_succ_le hk)
    obtain ⟨hcell, _, _⟩ := offset_cell _ h0 h1
    refine ⟨fun _ => rfl, fun n => ?_⟩
    simp only [scan, Option.mem_def, Option.some.injEq, forall_eq', le_least_iff, hcell]
    constructor
    · rintro ⟨hlow, hlast⟩ i hi
      by_cases he : i = k
      · subst he
        exact hlast
      · exact (ih n).mp hlow i (by omega)
    · intro h
      exact ⟨(ih n).mpr fun i hi => h i (by omega), h k (by omega)⟩

theorem scan_lowest_eq (s : CountMinSketch K kNum mask) (key : K) :
    (s.scan key kNum (Nat.le_refl _)).lowest = some (s.estimate key) := by
  obtain ⟨hsome, _⟩ := s.scan_lowest key (Nat.le_refl _)
  obtain ⟨l, hl⟩ := Option.isSome_iff_exists.mp (hsome s.deep)
  rw [estimate, hl, Option.getD_some]

/-- The estimate of a key is its lowest counter. -/
theorem le_estimate_iff :
    n ≤ s.estimate key ↔ ∀ (k : Nat) (hk : k < kNum), n ≤ s.counter key k hk := by
  obtain ⟨_, hlow⟩ := s.scan_lowest key (Nat.le_refl _)
  have h := hlow n
  rw [scan_lowest_eq] at h
  simpa using h

/-- One row after the loop that raises the lowest counters of a key. -/
theorem raise_row (s : CountMinSketch K kNum mask) (offsets : Vector (Fin (mask + 1)) kNum)
    (lowest value : Nat) (hk : k ≤ kNum) (i : Nat) (hi : i < kNum) :
    (s.raise offsets lowest value k hk)[i] =
      if i < k ∧ (s.counters[i])[offsets[i]] = lowest then
        s.counters[i].set offsets[i] (min usizeMax ((s.counters[i])[offsets[i]] + value))
      else s.counters[i] := by
  induction k with
  | zero => simp [raise]
  | succ k ih =>
    have ih := ih (Nat.le_of_succ_le hk)
    by_cases he : i = k
    · subst he
      rw [if_neg (fun h => Nat.lt_irrefl i h.1)] at ih
      simp only [raise, ih, Nat.lt_add_one, true_and]
      split
      · rw [Vector.getElem_set_self]
      · exact ih
    · have hlt : i < k + 1 ↔ i < k := by omega
      simp only [raise, hlt]
      split
      · rw [Vector.getElem_set_ne _ _ (Ne.symm he)]
        exact ih
      · exact ih

theorem counter_congr (he : s.cell other k = s.cell key k) (hk : k < kNum) :
    s.counter other k hk = s.counter key k hk := by
  simp only [counter, he]

/-- Adding raises a counter if it is the key's and as low as the key's lowest. -/
theorem counter_add (hk : k < kNum) :
    (s.add key value).counter other k hk =
      if s.cell other k = s.cell key k ∧ s.counter key k hk = s.estimate key then
        min usizeMax (s.counter other k hk + value)
      else s.counter other k hk := by
  obtain ⟨_, _, hoffsets⟩ := s.scan_offsets key (Nat.le_refl _)
  have hread : (s.add key value).counter other k hk =
      ((s.add key value).counters[k])[s.cell other k] := rfl
  have hrow := s.raise_row (s.scan key kNum (Nat.le_refl _)).offsets (s.estimate key) value
    (Nat.le_refl _) k hk
  simp only [hoffsets k hk, hk, true_and] at hrow
  have hadd : (s.add key value).counters[k] = if s.counter key k hk = s.estimate key then
      s.counters[k].set (s.cell key k) (min usizeMax (s.counter key k hk + value))
    else s.counters[k] := hrow
  rw [hread, hadd]
  by_cases hlow : s.counter key k hk = s.estimate key
  · rw [if_pos hlow]
    by_cases he : s.cell other k = s.cell key k
    · rw [if_pos ⟨he, hlow⟩, counter_congr he]
      simp only [he]
      exact Vector.getElem_set_self _
    · rw [if_neg fun h => he h.1, counter]
      refine Vector.getElem_set_ne _ _ fun h => he ?_
      exact Fin.ext h.symm
  · rw [if_neg hlow, if_neg fun h => hlow h.2, counter]

theorem estimate_le_counter (s : CountMinSketch K kNum mask) (key : K) (hk : k < kNum) :
    s.estimate key ≤ s.counter key k hk :=
  le_estimate_iff.mp (Nat.le_refl _) k hk

/-- Without saturation, a counter of the key that is as low as its lowest grows by the amount. -/
theorem counter_add_of_le (hsat : s.estimate key + value ≤ usizeMax) (hk : k < kNum) :
    (s.add key value).counter other k hk =
      if s.cell other k = s.cell key k ∧ s.counter key k hk = s.estimate key then
        s.counter other k hk + value
      else s.counter other k hk := by
  rw [counter_add hk]
  split
  · next h =>
    rw [counter_congr h.1, h.2]
    exact Nat.min_eq_right hsat
  · rfl

/-- One step: the estimates cover the amounts after it iff no counter of the key stays between
its lowest and the new amount. -/
theorem add_covers_iff [DecidableEq K] {total : K → Nat} (hsat : s.estimate key + value ≤ usizeMax)
    (hcov : ∀ other, total other ≤ s.estimate other) :
    (∀ other, total other + (if other = key then value else 0) ≤
        (s.add key value).estimate other) ↔
      value ≤ 1 ∨ ∀ (k : Nat) (hk : k < kNum),
        s.counter key k hk = s.estimate key ∨ total key + value ≤ s.counter key k hk := by
  constructor
  · intro h
    refine .inr fun k hk => ?_
    by_cases hlow : s.counter key k hk = s.estimate key
    · exact .inl hlow
    · have hkey := le_estimate_iff.mp (h key) k hk
      rw [if_pos rfl, counter_add_of_le hsat hk, if_neg fun h => hlow h.2] at hkey
      exact .inr hkey
  · intro h other
    refine le_estimate_iff.mpr fun k hk => ?_
    have htotal := hcov other
    have hlowest := s.estimate_le_counter other hk
    rw [counter_add_of_le hsat hk]
    by_cases he : other = key
    · subst he
      rw [if_pos rfl]
      by_cases hlow : s.counter other k hk = s.estimate other
      · rw [if_pos ⟨rfl, hlow⟩]
        omega
      · rw [if_neg fun h => hlow h.2]
        rcases h with h | h
        · omega
        · exact (h k hk).resolve_left hlow
    · rw [if_neg he]
      split <;> omega

/-- A run of `add` calls. -/
def addAll (self : CountMinSketch K kNum mask) (adds : List (K × Nat)) :
    CountMinSketch K kNum mask :=
  adds.foldl (fun self (key, value) => self.add key value) self

/-- What a run adds for a key. -/
def added [DecidableEq K] (key : K) (adds : List (K × Nat)) : Nat :=
  ((adds.filter fun add => add.1 = key).map Prod.snd).sum

/-- Every `add` of a run starts in a sketch in which no counter of the key is between its lowest
and the amount that it has to reach. -/
def EvenlyRaised [DecidableEq K] (s : CountMinSketch K kNum mask) (adds : List (K × Nat)) : Prop :=
  ∀ before key value, before ++ [(key, value)] <+: adds → value ≤ 1 ∨
    ∀ (k : Nat) (hk : k < kNum), (s.addAll before).counter key k hk =
        (s.addAll before).estimate key ∨
      added key before + value ≤ (s.addAll before).counter key k hk

/-- No `add` of a run saturates a counter. -/
def Unsaturated (s : CountMinSketch K kNum mask) (adds : List (K × Nat)) : Prop :=
  ∀ before key value, before ++ [(key, value)] <+: adds →
    (s.addAll before).estimate key + value ≤ usizeMax

theorem added_concat [DecidableEq K] (adds : List (K × Nat)) :
    added other (adds ++ [(key, value)]) =
      added other adds + if other = key then value else 0 := by
  by_cases he : other = key
  · simp [added, he]
  · simp [added, he, Ne.symm he]

theorem addAll_concat (adds : List (K × Nat)) :
    s.addAll (adds ++ [(key, value)]) = (s.addAll adds).add key value := by
  simp [addAll]

/-- A property of the steps of a run is one of its last step and of the steps before. -/
theorem forall_prefix_concat {p : List (K × Nat) → K → Nat → Prop} (adds : List (K × Nat)) :
    (∀ before other n, before ++ [(other, n)] <+: adds ++ [(key, value)] → p before other n) ↔
      (∀ before other n, before ++ [(other, n)] <+: adds → p before other n) ∧
        p adds key value := by
  constructor
  · intro h
    refine ⟨fun before other n hpre => h before other n ?_, h adds key value prefix_rfl⟩
    exact hpre.trans (prefix_append _ _)
  · rintro ⟨h, hlast⟩ before other n hpre
    rcases prefix_concat_iff.mp hpre with he | hpre
    · obtain ⟨rfl, hsame⟩ := append_inj' he rfl
      cases hsame
      exact hlast
    · exact h before other n hpre

/-- No estimate exceeds what was added in all. -/
theorem estimate_addAll_le (mask : Nat) (hashers : Vector (K → UInt64) 2) (hdeep : 0 < kNum)
    (adds : List (K × Nat)) (key : K) :
    ((empty mask hashers hdeep).addAll adds).estimate key ≤ (adds.map Prod.snd).sum := by
  refine (estimate_le_counter _ key hdeep).trans ?_
  induction adds using reverseRecOn with
  | nil => simp [addAll, counter, empty]
  | append_singleton adds add ih =>
    rw [addAll_concat, counter_add, map_append, sum_append, map_singleton,
      sum_singleton]
    split <;> omega

theorem unsaturated_of_sum_le {hashers : Vector (K → UInt64) 2} {hdeep : 0 < kNum}
    {adds : List (K × Nat)} (h : (adds.map Prod.snd).sum ≤ usizeMax) :
    Unsaturated (empty mask hashers hdeep) adds := by
  rintro before key value ⟨after, rfl⟩
  have hle := estimate_addAll_le mask hashers hdeep before key
  simp only [map_append, sum_append, map_singleton, sum_singleton] at h
  omega

/-- In a run without saturation every estimate covers the amounts added for its key, at each
moment, iff every step is even. -/
theorem added_le_estimate_iff [DecidableEq K] (mask : Nat) (hashers : Vector (K → UInt64) 2)
    (hdeep : 0 < kNum) (adds : List (K × Nat))
    (hsat : Unsaturated (empty mask hashers hdeep) adds) :
    (∀ before, before <+: adds → ∀ key,
        added key before ≤ ((empty mask hashers hdeep).addAll before).estimate key) ↔
      EvenlyRaised (empty mask hashers hdeep) adds := by
  induction adds using List.reverseRecOn with
  | nil =>
    constructor
    · intro _ before key value hpre
      simp at hpre
    · intro _ before hpre key
      rw [List.prefix_nil.mp hpre]
      exact Nat.zero_le _
  | append_singleton adds add ih =>
    obtain ⟨key, value⟩ := add
    obtain ⟨hsat, hlast⟩ := (forall_prefix_concat adds).mp hsat
    have ih := ih hsat
    rw [EvenlyRaised, forall_prefix_concat, ← EvenlyRaised, ← ih]
    have hsplit : (∀ before, before <+: adds ++ [(key, value)] → ∀ key,
          added key before ≤ ((empty mask hashers hdeep).addAll before).estimate key) ↔
        (∀ before, before <+: adds → ∀ key,
          added key before ≤ ((empty mask hashers hdeep).addAll before).estimate key) ∧
        ∀ other, added other adds + (if other = key then value else 0) ≤
          (((empty mask hashers hdeep).addAll adds).add key value).estimate other := by
      simp only [List.prefix_concat_iff, or_imp, forall_and, forall_eq, added_concat, addAll_concat]
      exact and_comm
    rw [hsplit]
    refine and_congr_right fun hcov => ?_
    exact add_covers_iff hlast (hcov adds List.prefix_rfl)

/-- Two keys that share a column in one row only. -/
def sharing : Vector (Bool → UInt64) 2 := #v[fun key => if key then 1 else 0, fun _ => 0]

theorem added_le_estimate_sharing :
    added true [(false, 3), (true, 3)] ≤
      ((empty 1 sharing Nat.two_pos).addAll [(false, 3), (true, 3)]).estimate true := by
  have heven : EvenlyRaised (empty 1 sharing Nat.two_pos) (([] ++ [(false, 3)]) ++ [(true, 3)]) :=
    (forall_prefix_concat _).mpr ⟨(forall_prefix_concat _).mpr
      ⟨fun before key value hpre => absurd hpre (by simp), by decide⟩, by decide⟩
  exact (added_le_estimate_iff 1 sharing Nat.two_pos [(false, 3), (true, 3)]
    (unsaturated_of_sum_le (by decide))).mpr heven _ List.prefix_rfl true

theorem estimate_lt_added :
    added true [(false, 1), (true, 10)] = 10 ∧
      ((empty 1 sharing Nat.two_pos).addAll [(false, 1), (true, 10)]).estimate true =
        1 := by
  decide

/-- Counts that are only ever incremented are not underestimated. -/
theorem count_le_estimate [DecidableEq K] (mask : Nat) (hashers : Vector (K → UInt64) 2)
    (hdeep : 0 < kNum) (keys : List K) (hlen : keys.length ≤ usizeMax) (key : K) :
    keys.count key ≤ (keys.foldl increment (empty mask hashers hdeep)).estimate key := by
  induction keys using reverseRecOn generalizing key with
  | nil => exact Nat.zero_le _
  | append_singleton keys last ih =>
    rw [length_append, length_singleton] at hlen
    have hrun : keys.foldl increment (empty mask hashers hdeep) =
        (empty mask hashers hdeep).addAll (keys.map fun key => (key, 1)) := by
      rw [addAll, foldl_map]
      rfl
    have hle := estimate_addAll_le mask hashers hdeep (keys.map fun key => (key, 1)) last
    rw [← hrun, map_map, Function.comp_def, map_const', sum_replicate,
      smul_eq_mul, Nat.mul_one] at hle
    have hsat : (keys.foldl increment (empty mask hashers hdeep)).estimate last + 1 ≤ usizeMax :=
      by omega
    have hstep := (add_covers_iff hsat (ih (by omega))).mpr (.inl (Nat.le_refl 1)) key
    have hone : [last].count key = if key = last then 1 else 0 := by
      by_cases he : key = last
      · rw [he, count_singleton_self, if_pos rfl]
      · rw [if_neg he]
        exact count_eq_zero.mpr fun h => he (mem_singleton.mp h)
    rw [foldl_append, foldl_cons, foldl_nil, count_append, hone]
    exact hstep

end CountMinSketch
end KiteSQL
