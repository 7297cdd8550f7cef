import KiteSQL.Lib.Compactor
import KiteSQL.Lib.StableSort
import KiteSQL.Types.PartialOrder

/-! The sketch of a column's quantiles: what every insertion keeps, and its weighted ranks against
the ranks of the values that were put in. -/
namespace KiteSQL

open Compactor DataValue List

structure KllSketchItem where
  value : DataValue
  ordinal : Nat

structure KllWeightedItem where
  value : DataValue
  ordinal : Nat
  weight : Nat

structure KllSketchBuilder where
  levelCapacity : Nat
  len : Nat
  levels : List (List KllSketchItem)
  minValue : Option DataValue
  maxValue : Option DataValue
  compactNextOdd : Bool

structure KllSketch where
  len : Nat
  items : List KllWeightedItem
  minValue : Option DataValue
  maxValue : Option DataValue

namespace KllSketchBuilder

def new (levelCapacity : Nat) : Result KllSketchBuilder :=
  if levelCapacity < 2 then
    .error (.error (.invalidValue
      s!"KLL sketch level capacity must be at least 2, got {levelCapacity}"))
  else .ok ⟨levelCapacity, 0, [[]], none, none, false⟩

def compareValues (left right : DataValue) : Result Ordering :=
  match partialCmp left right with
  | some ordering => .ok ordering
  | none => .error (.panic "KLL sketch values must be mutually comparable")

/-- `sort_by` with `compare_values`, which panics on items that cannot be compared. -/
def sortBy {α : Type} (value : α → DataValue) (items : List α) : Result (List α) :=
  if items.Pairwise fun left right => (partialCmp (value left) (value right)).isSome then
    .ok (items.mergeSort fun left right =>
      (partialCmp (value left) (value right)).any Ordering.isLE)
  else .error (.panic "KLL sketch values must be mutually comparable")

/-- One of the two bounds after a value, which replaces it on one side. -/
def updateBound (value : DataValue) (side : Ordering) :
    Option DataValue → Result (Option DataValue)
  | some bound => do return some (if (← compareValues value bound) = side then value else bound)
  | none => .ok (some value)

/-- What a level keeps and what it passes up. -/
def compact (keepOdd : Bool) (level : List KllSketchItem) :
    Result (List KllSketchItem × List KllSketchItem) := do
  let level ← sortBy KllSketchItem.value level
  if level.length % 2 = 1 then
    return (level.getLast?.toList, everyOther keepOdd level.dropLast)
  else return ([], everyOther keepOdd level)

/-- `compact_if_needed` on the levels from one on. More rounds than there are items never end. -/
def compactIfNeeded (levelCapacity : Nat) :
    Nat → Bool → List (List KllSketchItem) → Result (Bool × List (List KllSketchItem))
  | 0, _, _ => .error .divergence
  | _ + 1, _, [] => .error (.panic "index out of bounds")
  | fuel + 1, compactNextOdd, level :: levels =>
    if level.length ≤ levelCapacity then .ok (compactNextOdd, level :: levels)
    else do
      let (retained, promoted) ← compact compactNextOdd level
      let levels :=
        match levels with
        | [] => [promoted]
        | next :: rest => (next ++ promoted) :: rest
      let (compactNextOdd, levels) ← compactIfNeeded levelCapacity fuel (!compactNextOdd) levels
      return (compactNextOdd, retained :: levels)

def insert (self : KllSketchBuilder) (value : DataValue) : Result KllSketchBuilder := do
  let minValue ← updateBound value .lt self.minValue
  let maxValue ← updateBound value .gt self.maxValue
  match self.levels with
  | [] => .error (.panic "index out of bounds")
  | level :: rest =>
    let levels := (level ++ [⟨value, self.len⟩]) :: rest
    let (compactNextOdd, levels) ← compactIfNeeded self.levelCapacity
      (levels.flatten.length + 1) self.compactNextOdd levels
    return { self with levels, len := self.len + 1, minValue, maxValue, compactNextOdd }

/-- The items of a level, each with the weight `1 << level_idx`. -/
def weighted (level : List KllSketchItem × Nat) : List KllWeightedItem :=
  level.1.map fun item => ⟨item.value, item.ordinal, 1 <<< level.2⟩

def build (self : KllSketchBuilder) : Result KllSketch := do
  let items ← sortBy KllWeightedItem.value (self.levels.zipIdx.flatMap weighted)
  return ⟨self.len, items, self.minValue, self.maxValue⟩

end KllSketchBuilder

/-- The values that are not above one. -/
def DataValue.notAbove (bound value : DataValue) : Bool :=
  (partialCmp value bound).any Ordering.isLE

/-- The weight of the retained items that are not above a value. -/
def KllSketch.weightedRank (self : KllSketch) (value : DataValue) : Nat :=
  ((self.items.filter fun item => value.notAbove item.value).map KllWeightedItem.weight).sum

/-- Values of which each two can be compared. -/
def MutuallyComparable (values : List DataValue) : Prop :=
  ∀ v ∈ values, ∀ w ∈ values, (partialCmp v w).isSome

namespace KllSketchBuilder

/-- A computation that has a result of some kind or meets values that cannot be compared. -/
def Settles {α : Type} (values : List DataValue) (P : α → Prop) (res : Result α) : Prop :=
  (∃ a, res = .ok a ∧ P a) ∨ ¬ MutuallyComparable values ∧
    res = .error (.panic "KLL sketch values must be mutually comparable")

/-- The tests for items that are not above a value, if the values can be compared. -/
def Lower (values : List DataValue) (p : KllSketchItem → Bool) : Prop :=
  MutuallyComparable values ∧ ∃ bound : DataValue, p = (bound.notAbove ·.value)

/-- A bound that one of the values sets for all of them. -/
def Extreme (R : DataValue → DataValue → Prop) (values : List DataValue)
    (bound : Option DataValue) : Prop :=
  (∀ m, bound = some m → m ∈ values) ∧ ∀ v ∈ values, ∃ m, bound = some m ∧ (v = m ∨ R m v)

variable {values rest : List DataValue} {capacity fuel w : Nat} {odd : Bool} {value : DataValue}
  {level : List KllSketchItem} {levels : List (List KllSketchItem)} {bound : Option DataValue}
  {R : DataValue → DataValue → Prop} {side : Ordering} {self : KllSketchBuilder}

theorem Settles.bind {α β : Type} {P : α → Prop} {Q : β → Prop} {res : Result α}
    {f : α → Result β} (h : Settles values P res) (hf : ∀ a, P a → Settles values Q (f a)) :
    Settles values Q (res >>= f) := by
  rcases h with ⟨a, rfl, ha⟩ | ⟨hcomp, rfl⟩
  · exact hf a ha
  · exact .inr ⟨hcomp, rfl⟩

theorem mutuallyComparable_left (h : MutuallyComparable (values ++ rest)) :
    MutuallyComparable values := fun v hv w hw =>
  h v (mem_append_left _ hv) w (mem_append_left _ hw)

theorem notAbove_iff {bound v : DataValue} :
    bound.notAbove v = true ↔ ∃ o, partialCmp v bound = some o ∧ o.isLE = true := by
  rw [notAbove]
  cases partialCmp v bound <;> simp

theorem notAbove_of_le {bound v w : DataValue} (hv : w.notAbove v = true)
    (hw : bound.notAbove w = true) : bound.notAbove v = true := by
  obtain ⟨a, ha, hle⟩ := notAbove_iff.mp hv
  obtain ⟨b, hb, hle'⟩ := notAbove_iff.mp hw
  refine notAbove_iff.mpr ⟨_, partialCmp_trans ha hb hle hle', ?_⟩
  cases a <;> simp_all

section Sorting

variable {α : Type} {value : α → DataValue} {items : List α}

/-- Items whose values can be compared are sorted. -/
theorem sortBy_eq (hcomp : MutuallyComparable values) (hmem : ∀ x ∈ items, value x ∈ values) :
    ∃ sorted, sortBy value items = .ok sorted ∧ sorted.Perm items ∧
      sorted.Pairwise fun x y => (value y).notAbove (value x) = true := by
  have hpair : items.Pairwise fun left right => (partialCmp (value left) (value right)).isSome :=
    List.Pairwise.imp_of_mem (fun hx hy _ => hcomp _ (hmem _ hx) _ (hmem _ hy))
      (pairwise_of_forall fun _ _ => trivial)
  refine ⟨_, if_pos hpair, mergeSort_perm _ _, ?_⟩
  refine StableSort.pairwise_mergeSort_of_mem ?_ ?_
  · intro a _ b _ c _ hab hbc
    exact notAbove_of_le hab hbc
  · intro a ha b hb
    obtain ⟨o, ho⟩ := Option.isSome_iff_exists.mp (hcomp _ (hmem _ ha) _ (hmem _ hb))
    rw [notAbove, notAbove, partialCmp_swap (value a) (value b), ho]
    cases o <;> rfl

end Sorting

/-- A sorted level is halved but for its last item if there is an odd number of them. -/
theorem compact_split (odd : Bool) {sorted : List KllSketchItem}
    (hsort : sortBy KllSketchItem.value level = .ok sorted) :
    ∃ body retained, compact odd level = .ok (retained, everyOther odd body) ∧
      sorted = body ++ retained ∧ body.length % 2 = 0 ∧ retained.length ≤ 1 := by
  rw [compact, hsort, Result.ok_bind]
  by_cases hodd : sorted.length % 2 = 1
  · have hne : sorted ≠ [] := by
      rintro rfl
      cases hodd
    have hdrop : sorted.dropLast.length = sorted.length - 1 := length_dropLast
    rw [if_pos hodd, getLast?_eq_getLast_of_ne_nil hne]
    exact ⟨sorted.dropLast, [sorted.getLast hne], rfl,
      (dropLast_append_getLast hne).symm, by omega, Nat.le_refl 1⟩
  · rw [if_neg hodd]
    exact ⟨sorted, [], rfl, (append_nil sorted).symm, by omega, Nat.zero_le 1⟩

theorem updateBound_settles (htrans : ∀ a b c, R a b → R b c → R a c)
    (hside : ∀ v m, partialCmp v m = some side → R v m)
    (hother : ∀ v m o, partialCmp v m = some o → o ≠ side → R m v) (h : Extreme R values bound) :
    Settles (values ++ [value]) (Extreme R (values ++ [value])) (updateBound value side bound) := by
  obtain ⟨hmem, hall⟩ := h
  cases bound with
  | none =>
    refine .inl ⟨_, rfl, by simp, fun v hv => ⟨value, rfl, ?_⟩⟩
    rcases mem_append.mp hv with hv | hv
    · obtain ⟨m, hm, _⟩ := hall v hv
      cases hm
    · exact .inl (mem_singleton.mp hv)
  | some m =>
    have hm := hmem m rfl
    rw [updateBound, compareValues]
    cases hcmp : partialCmp value m with
    | none =>
      refine .inr ⟨fun hcomp => ?_, rfl⟩
      have hsome := hcomp value (by simp) m (by simp [hm])
      rw [hcmp] at hsome
      cases hsome
    | some o =>
      refine .inl ⟨_, rfl, ?_⟩
      by_cases ho : o = side
      · subst ho
        rw [if_pos rfl]
        refine ⟨by simp, fun v hv => ⟨value, rfl, ?_⟩⟩
        rcases mem_append.mp hv with hv | hv
        · obtain ⟨m', hm', hv⟩ := hall v hv
          cases hm'
          rcases hv with rfl | hv
          · exact .inr (hside _ _ hcmp)
          · exact .inr (htrans _ _ _ (hside _ _ hcmp) hv)
        · exact .inl (mem_singleton.mp hv)
      · rw [if_neg ho]
        refine ⟨by simpa using .inl hm, fun v hv => ⟨m, rfl, ?_⟩⟩
        rcases mem_append.mp hv with hv | hv
        · obtain ⟨m', hm', hv⟩ := hall v hv
          cases hm'
          exact hv
        · rw [mem_singleton.mp hv]
          exact .inr (hother _ _ o hcmp ho)

/-- The items of a level that holds more than its capacity are halved. -/
theorem compact_settles (odd : Bool) (hmem : ∀ x ∈ level, x.value ∈ values)
    (hfull : capacity < level.length) :
    Settles values (fun halves => Compacts (Lower values) capacity level halves.1 halves.2 ∧
      halves.1.length ≤ 1 ∧ ∀ x, x ∈ halves.1 ∨ x ∈ halves.2 → x ∈ level) (compact odd level) := by
  by_cases hpair : level.Pairwise fun l r => (partialCmp l.value r.value).isSome
  · have hsort : sortBy KllSketchItem.value level = .ok _ := if_pos hpair
    obtain ⟨body, retained, hcompact, hsplit, heven, hone⟩ := compact_split odd hsort
    have hperm := mergeSort_perm level
      fun l r => (partialCmp l.value r.value).any Ordering.isLE
    have hlower : ∀ p, Lower values p →
        (body ++ retained).Pairwise fun x y => p y = true → p x = true := by
      rintro p ⟨hcomp, bound, rfl⟩
      obtain ⟨sorted, hsorted, -, hpairwise⟩ := sortBy_eq hcomp hmem
      rw [hsort, hsplit] at hsorted
      cases hsorted
      exact hpairwise.imp fun hxy hy => notAbove_of_le hxy hy
    have hlen := hperm.length_eq
    rw [hsplit] at hperm hlen
    rw [length_append] at hlen
    refine .inl ⟨_, hcompact, compacts_sorted odd hlower rfl heven (by omega) hperm, hone, ?_⟩
    intro x hx
    rw [← hperm.mem_iff, mem_append]
    rcases hx with hx | hx
    · exact .inr hx
    · exact .inl (mem_of_mem_everyOther hx)
  · refine .inr ⟨fun hcomp => hpair ?_, by rw [compact, sortBy, if_neg hpair]; rfl⟩
    exact List.Pairwise.imp_of_mem (fun hx hy _ => hcomp _ (hmem _ hx) _ (hmem _ hy))
      (pairwise_of_forall fun _ _ => trivial)

/-- Levels of which none is too large and the last is not empty. -/
structure Packed (capacity : Nat) (values : List DataValue) (levels : List (List KllSketchItem)) :
    Prop where
  nonempty : levels ≠ []
  small : ∀ level ∈ levels, level.length ≤ capacity
  items : ∀ level ∈ levels, ∀ x ∈ level, x.value ∈ values
  last : ∀ level ∈ levels.getLast?, level ≠ []

theorem Packed.cons (hsmall : level.length ≤ capacity) (hitems : ∀ x ∈ level, x.value ∈ values)
    (h : Packed capacity values levels) : Packed capacity values (level :: levels) := by
  refine ⟨by simp, forall_mem_cons.mpr ⟨hsmall, h.small⟩,
    forall_mem_cons.mpr ⟨hitems, h.items⟩, ?_⟩
  rw [getLast?_cons_of_ne_nil h.nonempty]
  exact h.last

/-- With as many rounds as there are items, the levels are compacted from the first one up. -/
theorem compactIfNeeded_settles (odd : Bool) (hcap : 2 ≤ capacity)
    (hsmall : ∀ l ∈ levels, l.length ≤ capacity)
    (hitems : ∀ l ∈ level :: levels, ∀ x ∈ l, x.value ∈ values)
    (hlast : ∀ l ∈ (level :: levels).getLast?, l ≠ [])
    (hfuel : (level :: levels).flatten.length < fuel) :
    Settles values (fun res => Packed capacity values res.2 ∧
        Cascade (Lower values) capacity (level :: levels) res.2)
      (compactIfNeeded capacity fuel odd (level :: levels)) := by
  induction fuel generalizing odd level levels with
  | zero => exact absurd hfuel (Nat.not_lt_zero _)
  | succ fuel ih =>
    rw [compactIfNeeded]
    by_cases hle : level.length ≤ capacity
    · rw [if_pos hle]
      exact .inl ⟨_, rfl, ⟨by simp, forall_mem_cons.mpr ⟨hle, hsmall⟩, hitems, hlast⟩, .stop _⟩
    · rw [if_neg hle]
      rw [forall_mem_cons] at hitems
      refine (compact_settles odd hitems.1 (Nat.lt_of_not_le hle)).bind ?_
      rintro ⟨retained, promoted⟩ ⟨hc, hone, hmem⟩
      dsimp only at hc hone hmem ⊢
      have hlen := hc.length
      have hfull := hc.full
      have hretained : ∀ x ∈ retained, x.value ∈ values := fun x hx =>
        hitems.1 x (hmem x (.inl hx))
      have hpromoted : ∀ x ∈ promoted, x.value ∈ values := fun x hx =>
        hitems.1 x (hmem x (.inr hx))
      have hne : promoted ≠ [] := by
        rintro rfl
        simp at hfull
        omega
      have hup : ∀ next rest, (∀ l ∈ rest, l.length ≤ capacity) →
          (∀ l ∈ next :: rest, ∀ x ∈ l, x.value ∈ values) →
          (∀ l ∈ (next :: rest).getLast?, l ≠ []) →
          (next :: rest).flatten.length = levels.flatten.length + promoted.length →
          (∀ levels', Cascade (Lower values) capacity (next :: rest) levels' →
            Cascade (Lower values) capacity (level :: levels) (retained :: levels')) →
          Settles values (fun res => Packed capacity values res.2 ∧
              Cascade (Lower values) capacity (level :: levels) res.2)
            (compactIfNeeded capacity fuel (!odd) (next :: rest) >>= fun res =>
              pure (res.1, retained :: res.2)) := by
        intro next rest hrest hnext hlast hfew hstep
        rw [flatten_cons, length_append] at hfuel
        refine (@ih next rest (!odd) hrest hnext hlast (by omega)).bind ?_
        rintro ⟨odd', levels'⟩ ⟨hpacked, hcascade⟩
        exact .inl ⟨_, rfl, hpacked.cons (by omega) hretained, hstep levels' hcascade⟩
      cases levels with
      | nil =>
        exact hup promoted [] (by simp) (by simpa using hpromoted) (by simpa using hne) (by simp)
          fun _ hcascade => .top hc hcascade
      | cons next rest =>
        rw [forall_mem_cons] at hsmall hitems
        refine hup (next ++ promoted) rest hsmall.2
          (forall_mem_cons.mpr ⟨fun x hx => ?_, hitems.2.2⟩) ?_ ?_
          fun _ hcascade => .up hc hcascade
        · rcases mem_append.mp hx with hx | hx
          · exact hitems.2.1 x hx
          · exact hpromoted x hx
        · cases rest with
          | nil => simp [hne]
          | cons l rest => simpa using hlast
        · simp only [flatten_cons, length_append]
          omega

/-- A builder that has taken some values in. -/
structure Tracks (capacity : Nat) (values : List DataValue) (builder : KllSketchBuilder) :
    Prop where
  sized : builder.levelCapacity = capacity
  minValue : Extreme (fun m v => v.notAbove m = true) values builder.minValue
  maxValue : Extreme (fun m v => m.notAbove v = true) values builder.maxValue
  levels : Packed capacity values builder.levels ∨ values = [] ∧ builder.levels = [[]]
  weighs : weight 1 builder.levels = values.length
  drift : ∃ e, Drift capacity 1 builder.levels e ∧ (MutuallyComparable values →
    ∀ bound : DataValue,
      rank (bound.notAbove ·.value) 1 builder.levels ≤ values.countP bound.notAbove + e ∧
        values.countP bound.notAbove ≤ rank (bound.notAbove ·.value) 1 builder.levels + e)

theorem new_tracks (hcap : 2 ≤ capacity) :
    ∃ self, new capacity = .ok self ∧ Tracks capacity [] self := by
  refine ⟨⟨capacity, 0, [[]], none, none, false⟩, if_neg (Nat.not_lt.mpr hcap), rfl,
    ⟨by simp, by simp⟩, ⟨by simp, by simp⟩, .inr ⟨rfl, rfl⟩, rfl, 0, .top 1 [], fun _ bound => ?_⟩
  simp [rank]

theorem Tracks.items (h : Tracks capacity values self) :
    ∀ level ∈ self.levels, level.length ≤ capacity ∧ ∀ x ∈ level, x.value ∈ values := by
  intro level hlevel
  rcases h.levels with hpacked | ⟨-, hnone⟩
  · exact ⟨hpacked.small level hlevel, hpacked.items level hlevel⟩
  · rw [hnone, mem_singleton] at hlevel
    subst hlevel
    simp

theorem Tracks.split (h : Tracks capacity values self) :
    ∃ level rest, self.levels = level :: rest ∧ ∀ l ∈ rest.getLast?, l ≠ [] := by
  rcases h.levels with hpacked | ⟨-, hnone⟩
  · obtain ⟨level, rest, hlevels⟩ := exists_cons_of_ne_nil hpacked.nonempty
    refine ⟨level, rest, hlevels, fun l hl => hpacked.last l ?_⟩
    rw [hlevels, getLast?_cons_of_ne_nil]
    · exact hl
    · rintro rfl
      cases hl
  · exact ⟨[], [], hnone, by simp⟩

/-- One insertion. -/
theorem insert_settles (hcap : 2 ≤ capacity) (h : Tracks capacity values self) :
    Settles (values ++ [value]) (Tracks capacity (values ++ [value])) (self.insert value) := by
  obtain ⟨level, rest, hlevels, hlast⟩ := h.split
  have hitems := h.items
  obtain ⟨cap, len, levels, minOld, maxOld, odd⟩ := self
  obtain ⟨hsized, hmin, hmax, -, hweighs, e, hdrift, hrank⟩ := h
  dsimp only at hsized hmin hmax hweighs hdrift hrank hlevels hitems
  subst hsized hlevels
  rw [insert]
  refine (@updateBound_settles values value minOld (fun m v => v.notAbove m = true) .lt
    (fun a b c hab hbc => notAbove_of_le hab hbc) ?_ ?_ hmin).bind ?_
  · intro v m hcmp
    exact notAbove_iff.mpr ⟨_, hcmp, rfl⟩
  · intro v m o hcmp ho
    refine notAbove_iff.mpr ⟨o.swap, by rw [partialCmp_swap v m, hcmp]; rfl, ?_⟩
    cases o <;> simp_all
  intro minValue hmin
  refine (@updateBound_settles values value maxOld (fun m v => m.notAbove v = true) .gt
    (fun a b c hab hbc => notAbove_of_le hbc hab) ?_ ?_ hmax).bind ?_
  · intro v m hcmp
    exact notAbove_iff.mpr ⟨.lt, by rw [partialCmp_swap v m, hcmp]; rfl, rfl⟩
  · intro v m o hcmp ho
    refine notAbove_iff.mpr ⟨o, hcmp, ?_⟩
    cases o <;> simp_all
  intro maxValue hmax
  rw [forall_mem_cons] at hitems
  have hsettles := @compactIfNeeded_settles (values ++ [value]) cap
    (((level ++ [⟨value, len⟩]) :: rest).flatten.length + 1) (level ++ [⟨value, len⟩]) rest odd
    hcap (fun l hl => (hitems.2 l hl).1) (forall_mem_cons.mpr ⟨fun x hx => ?_, fun l hl x hx =>
      mem_append_left _ ((hitems.2 l hl).2 x hx)⟩) ?_ (Nat.lt_succ_self _)
  · refine hsettles.bind ?_
    rintro ⟨odd', levels'⟩ ⟨hpacked, hcascade⟩
    obtain ⟨e', hdrift', hweight, hrank'⟩ :=
      hcascade.drift (hdrift.head (level ++ [⟨value, len⟩]))
    refine .inl ⟨_, rfl, rfl, hmin, hmax, .inl hpacked, ?_, e', hdrift', fun hcomp bound => ?_⟩
    · dsimp only at hweight ⊢
      rw [hweight, length_append, length_singleton, ← hweighs, weight_cons, weight_cons,
        length_append, length_singleton]
      omega
    · have hold := hrank (mutuallyComparable_left hcomp) bound
      have hnew := hrank' _ ⟨hcomp, bound, rfl⟩
      rw [rank_append_head, Nat.one_mul, countP_singleton] at hnew
      rw [countP_append, countP_singleton]
      dsimp only at hnew hold ⊢
      omega
  · rcases mem_append.mp hx with hx | hx
    · exact mem_append_left _ (hitems.1.2 x hx)
    · rw [mem_singleton.mp hx]
      simp
  · cases rest with
    | nil => simp
    | cons next rest => simpa using hlast

/-- The insertion of values one after the other. -/
def insertAll (self : KllSketchBuilder) (values : List DataValue) : Result KllSketchBuilder :=
  values.foldlM insert self

theorem insertAll_settles (hcap : 2 ≤ capacity) (h : Tracks capacity values self) :
    Settles (values ++ rest) (Tracks capacity (values ++ rest)) (self.insertAll rest) := by
  induction rest generalizing values self with
  | nil => exact .inl ⟨self, rfl, by simpa using h⟩
  | cons value rest ih =>
    have hsplit : values ++ value :: rest = (values ++ [value]) ++ rest := by simp
    rw [hsplit, insertAll, foldlM_cons]
    rcases @insert_settles values capacity value self hcap h with ⟨next, hnext, h⟩ | ⟨hcomp, hnext⟩
    · rw [hnext, Result.ok_bind]
      exact ih h
    · rw [hnext]
      exact .inr ⟨fun hall => hcomp (mutuallyComparable_left hall), rfl⟩

/-- Insertions into an empty sketch. -/
theorem run_settles (values : List DataValue) (hcap : 2 ≤ capacity) :
    Settles values (Tracks capacity values) (new capacity >>= fun self => self.insertAll values) := by
  obtain ⟨empty, hnew, hempty⟩ := new_tracks hcap
  rw [hnew, Result.ok_bind]
  exact insertAll_settles hcap hempty

theorem weight_eq_sum (levels : List (List KllSketchItem)) (k : Nat) :
    weight (2 ^ k) levels =
      ((levels.zipIdx k).map fun level => 2 ^ level.2 * level.1.length).sum := by
  induction levels generalizing k with
  | nil => rfl
  | cons level levels ih =>
    rw [weight_cons, zipIdx_cons, map_cons, sum_cons, ← ih, Nat.pow_succ, Nat.mul_comm 2]

/-- The last level alone weighs as much as the number of levels tells. -/
theorem pow_le_weight (hne : levels ≠ []) (hlast : ∀ level ∈ levels.getLast?, level ≠ []) :
    w * 2 ^ (levels.length - 1) ≤ weight w levels := by
  induction levels generalizing w with
  | nil => exact absurd rfl hne
  | cons level levels ih =>
    rw [weight_cons]
    cases levels with
    | nil =>
      have hpos : 1 ≤ level.length := length_pos_of_ne_nil (by simpa using hlast)
      simpa using Nat.le_add_right_of_le (Nat.mul_le_mul_left w hpos)
    | cons next rest =>
      have hle := @ih (2 * w) (by simp) (by simpa using hlast)
      have hpow : w * 2 ^ ((level :: next :: rest).length - 1) =
          2 * w * 2 ^ ((next :: rest).length - 1) := by
        simp only [length_cons, Nat.add_sub_cancel, Nat.pow_succ]
        ring
      omega

/-- After any insertions the items weigh as many as there were, no level is too large, there are few
levels, and items and bounds are those of the values; only values that cannot be compared panic. -/
theorem insertAll_keeps (values : List DataValue) (hcap : 2 ≤ capacity) :
    (∃ builder, (new capacity >>= fun self => self.insertAll values) = .ok builder ∧
      (builder.levels.zipIdx.map fun level => 2 ^ level.2 * level.1.length).sum = values.length ∧
      (∀ level ∈ builder.levels, level.length ≤ capacity ∧ ∀ x ∈ level, x.value ∈ values) ∧
      builder.levels.length ≤ 2 + Nat.log 2 values.length ∧
      Extreme (fun m v => v.notAbove m = true) values builder.minValue ∧
      Extreme (fun m v => m.notAbove v = true) values builder.maxValue) ∨
    ¬ MutuallyComparable values ∧ (new capacity >>= fun self => self.insertAll values) =
      .error (.panic "KLL sketch values must be mutually comparable") := by
  rcases run_settles values hcap with ⟨builder, hrun, htracks⟩ | hpanic
  · refine .inl ⟨builder, hrun, ?_, htracks.items, ?_, htracks.minValue, htracks.maxValue⟩
    · rw [← htracks.weighs]
      exact (weight_eq_sum builder.levels 0).symm
    · rcases htracks.levels with hpacked | ⟨-, hnone⟩
      · have hle := @pow_le_weight 1 builder.levels hpacked.nonempty hpacked.last
        rw [htracks.weighs, Nat.one_mul] at hle
        have hlog := Nat.le_log_of_pow_le (by decide) hle
        omega
      · rw [hnone, length_singleton]
        omega
  · exact .inr hpanic

/-- Three numbers in a sketch whose levels hold two items: two levels. -/
theorem insertAll_keeps_three :
    ∃ builder, (new 2 >>= fun self => self.insertAll [.int32 5, .int32 3, .int32 4]) =
        .ok builder ∧
      (builder.levels.zipIdx.map fun level => 2 ^ level.2 * level.1.length).sum = 3 ∧
      Extreme (fun m v => v.notAbove m = true) [.int32 5, .int32 3, .int32 4]
        builder.minValue := by
  rcases insertAll_keeps [.int32 5, .int32 3, .int32 4] (show 2 ≤ 2 from Nat.le_refl 2) with
    ⟨builder, hrun, hsum, -, -, hmin, -⟩ | ⟨hcomp, -⟩
  · exact ⟨builder, hrun, hsum, hmin⟩
  · exact absurd (by unfold MutuallyComparable; decide) hcomp

theorem sum_weighted (bound : DataValue) (level : List KllSketchItem) (k : Nat) :
    (((weighted (level, k)).filter fun item => bound.notAbove item.value).map
      KllWeightedItem.weight).sum = 2 ^ k * level.countP (bound.notAbove ·.value) := by
  induction level with
  | nil => rfl
  | cons item level ih =>
    have hcons : weighted (item :: level, k) =
        ⟨item.value, item.ordinal, 1 <<< k⟩ :: weighted (level, k) := rfl
    rw [hcons, filter_cons, countP_cons]
    split
    · rw [map_cons, sum_cons, ih, Nat.shiftLeft_eq]
      ring
    · rw [ih, Nat.add_zero]

/-- The weighted rank of the items is that of the levels. -/
theorem sum_weights (bound : DataValue) (levels : List (List KllSketchItem)) (k : Nat) :
    ((((levels.zipIdx k).flatMap weighted).filter fun item => bound.notAbove item.value).map
      KllWeightedItem.weight).sum = rank (bound.notAbove ·.value) (2 ^ k) levels := by
  induction levels generalizing k with
  | nil => rfl
  | cons level levels ih =>
    rw [zipIdx_cons, flatMap_cons, filter_append, map_append, sum_append,
      sum_weighted, ih, rank, Nat.pow_succ, Nat.mul_comm 2]

theorem mem_weighted {item : KllWeightedItem}
    (h : item ∈ levels.zipIdx.flatMap weighted) : ∃ level ∈ levels, ∃ x ∈ level,
      item.value = x.value := by
  obtain ⟨⟨level, k⟩, hlevel, hitem⟩ := mem_flatMap.mp h
  obtain ⟨x, hx, rfl⟩ := mem_map.mp hitem
  exact ⟨level, fst_mem_of_mem_zipIdx hlevel, x, hx, rfl⟩

/-- The sketch of values that can be compared is built, and each of its weighted ranks is within
`(L - 1) * n / capacity` of the rank in the values, for `L` levels and `n` values. -/
theorem weightedRank_error (hcap : 2 ≤ capacity) (hcomp : MutuallyComparable values) :
    ∃ builder sketch, (new capacity >>= fun self => self.insertAll values) = .ok builder ∧
      builder.build = .ok sketch ∧ ∀ value : DataValue,
        ((sketch.weightedRank value : Int) - values.countP value.notAbove).natAbs ≤
          (builder.levels.length - 1) * values.length / capacity := by
  obtain ⟨builder, hrun, htracks⟩ := (run_settles values hcap).resolve_right fun h => h.1 hcomp
  have hmem : ∀ item ∈ builder.levels.zipIdx.flatMap weighted, item.value ∈ values := by
    intro item hitem
    obtain ⟨level, hlevel, x, hx, hvalue⟩ := mem_weighted hitem
    rw [hvalue]
    exact (htracks.items level hlevel).2 x hx
  obtain ⟨items, hsort, hperm, _⟩ := sortBy_eq hcomp hmem
  obtain ⟨e, hdrift, hrank⟩ := htracks.drift
  refine ⟨builder, ⟨builder.len, items, builder.minValue, builder.maxValue⟩, hrun, ?_, ?_⟩
  · rw [build, hsort]
    rfl
  · intro value
    have hle := hdrift.mul_le
    rw [htracks.weighs] at hle
    have hbound := (Nat.le_div_iff_mul_le (by omega)).mpr hle
    have heq : KllSketch.weightedRank ⟨builder.len, items, builder.minValue, builder.maxValue⟩
        value = rank (value.notAbove ·.value) 1 builder.levels := by
      rw [KllSketch.weightedRank, ((hperm.filter _).map _).sum_eq]
      exact sum_weights value builder.levels 0
    have hvalue := hrank hcomp value
    rw [heq]
    omega

/-- Five numbers in a sketch whose levels hold two items. -/
theorem weightedRank_error_five :
    ∃ builder sketch, (new 2 >>= fun self => self.insertAll
        [.int32 5, .int32 3, .int32 4, .int32 1, .int32 2]) = .ok builder ∧
      builder.build = .ok sketch ∧ ∀ value : DataValue,
        ((sketch.weightedRank value : Int) - List.countP value.notAbove
            [.int32 5, .int32 3, .int32 4, .int32 1, .int32 2]).natAbs ≤
          (builder.levels.length - 1) * 5 / 2 :=
  weightedRank_error (by decide) (by unfold MutuallyComparable; decide)

end KllSketchBuilder

end KiteSQL
