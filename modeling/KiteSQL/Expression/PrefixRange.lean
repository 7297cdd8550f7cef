import KiteSQL.Expression.PrefixBounds

/-! A range of a column behind columns that are fixed to values. -/
namespace KiteSQL

open DataValue List

namespace DataValue

variable {x y z v : DataValue} {xs ys zs tuple rest : List DataValue}

end DataValue

namespace Range

mutual

/-- The single ranges of a range, in their order. -/
def leaves : Range → List Range
  | .sortedRanges ranges => leavesAll ranges
  | range => [range]

def leavesAll : List Range → List Range
  | [] => []
  | range :: ranges => range.leaves ++ leavesAll ranges

end

/-- An equality, or a list of some equalities, with their values. -/
inductive Equalities : Range → List DataValue → Prop
  | eq (value : DataValue) : Equalities (.eq value) [value]
  | sortedRanges {values : List DataValue} (h : values ≠ []) :
    Equalities (.sortedRanges (values.map .eq)) values

variable {range e : Range} {eqs : List Range} {items : List (List DataValue)}
  {xs tuple rest values : List DataValue} {x : DataValue}

theorem Equalities.ne_nil (h : Equalities e values) : values ≠ [] := by
  cases h with
  | eq => simp
  | sortedRanges h => exact h

/-- A single range behind the values of the columns before. -/
def put (tuple : List DataValue) : Range → Range
  | .scope min max => .scope (mergeValueOnBound tuple min) (mergeValueOnBound tuple max)
  | .eq value => .eq (.tuple (tuple ++ [value]))
  | range => range

/-- A range is the list of its leaves. -/
structure Spread (range : Range) (leaves : List Range) : Prop where
  single : ∀ leaf ∈ leaves, leaf.Single fun _ => True
  has_eq : ∀ order, range.has order = leaves.any (·.has order)
  collect_eq : ∀ tuple, range.collectTupleRange tuple = leaves.map (put tuple)

mutual

theorem spread_leaves : ∀ range : Range, range.Spread range.leaves
  | .scope min max =>
    ⟨by cases min <;> cases max <;> simp [leaves] <;> exact .scope trivial trivial,
      fun _ => by simp [leaves], fun _ => rfl⟩
  | .eq _ => ⟨by simpa [leaves] using .eq trivial, fun _ => by simp [leaves], fun _ => rfl⟩
  | .dummy => ⟨by simpa [leaves] using .dummy, fun _ => by simp [leaves], fun _ => rfl⟩
  | .sortedRanges ranges => spread_leavesAll ranges

theorem spread_leavesAll : ∀ ranges : List Range, (sortedRanges ranges).Spread (leavesAll ranges)
  | [] => ⟨by simp [leavesAll], fun _ => rfl, fun _ => rfl⟩
  | range :: ranges => by
    have hr := spread_leaves range
    have hrs := spread_leavesAll ranges
    refine ⟨?_, fun order => ?_, fun tuple => ?_⟩
    · intro leaf hleaf
      exact (mem_append.mp hleaf).elim (hr.single leaf) (hrs.single leaf)
    · rw [has, anyHas, hr.has_eq, leavesAll, any_append, ← hrs.has_eq, has]
    · rw [collectTupleRange, collectAll, hr.collect_eq, leavesAll, map_append,
        ← hrs.collect_eq, collectTupleRange]

end

end Range

end KiteSQL
