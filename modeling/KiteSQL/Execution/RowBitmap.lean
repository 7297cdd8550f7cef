import KiteSQL.Errors

/-! The bitmap in which joins mark rows. -/
namespace KiteSQL

open List

/-- The rows that were marked, among the first `len`. -/
structure RowBitmap where
  len : Nat
  rows : List Nat

namespace RowBitmap

def withCapacity (len : Nat) : RowBitmap := ⟨len, []⟩

def insert (bitmap : RowBitmap) (index : Nat) : Result RowBitmap :=
  if index < bitmap.len then .ok { bitmap with rows := index :: bitmap.rows }
  else .error (.panic s!"insert at index {index} exceeds bitmap size {bitmap.len}")

def contains (bitmap : RowBitmap) (index : Nat) : Bool :=
  decide (index < bitmap.len) && bitmap.rows.contains index

def mark (bits : RowBitmap) (index : Nat) : RowBitmap :=
  { bits with rows := index :: bits.rows }

def marks (bits : RowBitmap) (indices : List Nat) : RowBitmap := indices.foldl mark bits

variable {bits : RowBitmap} {indices : List Nat} {i : Nat}

theorem insert_eq_mark (h : i < bits.len) : bits.insert i = .ok (bits.mark i) := if_pos h

theorem foldlM_insert (h : ∀ i ∈ indices, i < bits.len) :
    indices.foldlM insert bits = .ok (bits.marks indices) := by
  induction indices generalizing bits with
  | nil => rfl
  | cons i indices ih =>
    rw [forall_mem_cons] at h
    have hrest : ∀ i' ∈ indices, i' < (bits.mark i).len := h.2
    rw [foldlM_cons, insert_eq_mark h.1]
    exact ih hrest

theorem marks_len : (bits.marks indices).len = bits.len := by
  induction indices generalizing bits with
  | nil => rfl
  | cons j indices ih => exact ih

theorem contains_mark (h : i < bits.len) (j : Nat) :
    (bits.mark i).contains j = (bits.contains j || i == j) := by
  by_cases hj : i = j
  · subst hj
    simp [contains, mark, h]
  · have hne : (i == j) = false := by simpa using hj
    have hne' : (j == i) = false := by simpa using Ne.symm hj
    simp only [contains, mark, contains_cons, hne, hne', Bool.false_or, Bool.or_false]
    rfl

theorem contains_marks (h : ∀ i ∈ indices, i < bits.len) (j : Nat) :
    (bits.marks indices).contains j = (bits.contains j || indices.contains j) := by
  induction indices generalizing bits with
  | nil => simp [marks]
  | cons i indices ih =>
    rw [forall_mem_cons] at h
    have hstep : bits.marks (i :: indices) = (bits.mark i).marks indices := rfl
    have hrest : ∀ i' ∈ indices, i' < (bits.mark i).len := h.2
    rw [hstep, ih hrest, contains_mark h.1, contains_cons, Bool.or_assoc, Bool.beq_comm]

end RowBitmap

end KiteSQL
