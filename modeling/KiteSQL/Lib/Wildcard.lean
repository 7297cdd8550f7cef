import Mathlib.Tactic

/-! Patterns of items and wildcards, and what a search that goes back to its last wildcard for a
sequence has still to try. -/
namespace Wildcard

open List

inductive Token (α : Type) where
  | literal (a : α)
  | anyOne
  | anyMany
deriving DecidableEq

variable {α : Type} {a b : α} {p q : List (Token α)} {u v w : List α}

/-- The items that a pattern stands for. -/
inductive Matches : List (Token α) → List α → Prop
  | nil : Matches [] []
  | literal {a : α} {p : List (Token α)} {v : List α} :
      Matches p v → Matches (.literal a :: p) (a :: v)
  | anyOne {a : α} {p : List (Token α)} {v : List α} :
      Matches p v → Matches (.anyOne :: p) (a :: v)
  | anyMany {p : List (Token α)} {w : List α} (v : List α) :
      Matches p w → Matches (.anyMany :: p) (v ++ w)

theorem matches_literal_iff : Matches (.literal a :: p) (b :: v) ↔ a = b ∧ Matches p v := by
  constructor
  · intro h
    cases h with
    | literal h => exact ⟨rfl, h⟩
  · rintro ⟨rfl, h⟩
    exact .literal h

theorem matches_anyOne_iff : Matches (.anyOne :: p) (b :: v) ↔ Matches p v := by
  constructor
  · intro h
    cases h with
    | anyOne h => exact h
  · exact .anyOne

theorem matches_anyMany_iff : Matches (.anyMany :: p) v ↔ ∃ w, w <:+ v ∧ Matches p w := by
  constructor
  · intro h
    generalize hq : Token.anyMany :: p = q at h
    cases h with
    | anyMany u h =>
      cases hq
      exact ⟨_, suffix_append u _, h⟩
    | _ => cases hq
  · rintro ⟨w, ⟨u, rfl⟩, h⟩
    exact .anyMany u h

theorem not_matches_nil_cons : ¬ Matches [] (a :: v) := by
  intro h
  cases h

theorem matches_nil_iff : Matches p ([] : List α) ↔ ∀ t ∈ p, t = .anyMany := by
  induction p with
  | nil => simp [Matches.nil]
  | cons t p ih =>
    rw [forall_mem_cons, ← ih]
    constructor
    · intro h
      cases t with
      | anyMany =>
        obtain ⟨w, hw, h⟩ := matches_anyMany_iff.mp h
        rw [suffix_nil.mp hw] at h
        exact ⟨rfl, h⟩
      | _ => cases h
    · rintro ⟨rfl, h⟩
      exact .anyMany [] h

/-- Tokens that stand for one item each take as many items as they are. -/
theorem Matches.drop (hp : Token.anyMany ∉ p) (h : Matches (p ++ q) v) :
    p.length ≤ v.length ∧ Matches q (v.drop p.length) := by
  induction p generalizing v with
  | nil => exact ⟨Nat.zero_le _, h⟩
  | cons t p ih =>
    obtain ⟨ht, hrest⟩ := not_or.mp (mt mem_cons.mpr hp)
    cases t with
    | anyMany => exact absurd rfl ht
    | literal a =>
      cases h with
      | literal h => exact ⟨Nat.succ_le_succ (ih hrest h).1, (ih hrest h).2⟩
    | anyOne =>
      cases h with
      | anyOne h => exact ⟨Nat.succ_le_succ (ih hrest h).1, (ih hrest h).2⟩

/-- The last wildcard for a sequence can take more items than it has taken. -/
def Retries (last : Option (List (Token α) × List α)) : Prop :=
  ∃ q u, last = some (q, u) ∧ ∃ w, w <:+ u ∧ w ≠ u ∧ Matches q w

/-- Since the last wildcard for a sequence every token has taken one item. -/
def Behind (last : Option (List (Token α) × List α)) (p : List (Token α)) (v : List α) : Prop :=
  ∀ q u, last = some (q, u) → ∃ seg taken, q = seg ++ p ∧ u = taken ++ v ∧
    seg.length = taken.length ∧ Token.anyMany ∉ seg

variable {last : Option (List (Token α) × List α)}

theorem not_retries_none : ¬ Retries (none : Option (List (Token α) × List α)) := by
  rintro ⟨q, u, h, -⟩
  cases h

theorem behind_none : Behind none p v := by
  intro q u h
  cases h

theorem behind_self : Behind (some (p, v)) p v := by
  intro q u h
  cases h
  exact ⟨[], [], rfl, rfl, rfl, by simp⟩

theorem Behind.next {t : Token α} (ht : t ≠ .anyMany) (h : Behind last (t :: p) (a :: v)) :
    Behind last p v := by
  intro q u hlast
  obtain ⟨seg, taken, rfl, rfl, hlen, hseg⟩ := h q u hlast
  refine ⟨seg ++ [t], taken ++ [a], by simp, by simp, by simp [hlen], ?_⟩
  simpa [hseg] using ht.symm

/-- A retry that succeeds takes items that the next wildcard for a sequence can take. -/
theorem Behind.matches_of_retries (h : Behind last (.anyMany :: p) v) (hr : Retries last) :
    Matches (.anyMany :: p) v := by
  obtain ⟨q, u, hlast, w, hw, -, hm⟩ := hr
  obtain ⟨seg, taken, rfl, rfl, hlen, hseg⟩ := h q u hlast
  obtain ⟨hle, hm⟩ := hm.drop hseg
  obtain ⟨x, hx, hm⟩ := matches_anyMany_iff.mp hm
  refine matches_anyMany_iff.mpr ⟨x, ?_, hm⟩
  refine hx.trans (suffix_of_suffix_length_le ((drop_suffix _ _).trans hw)
    (suffix_append taken v) ?_)
  have := hw.length_le
  rw [length_drop]
  rw [length_append] at this
  omega

/-- At the end of the items no retry leaves enough of them. -/
theorem Behind.not_retries (h : Behind last p []) : ¬ Retries last := by
  rintro ⟨q, u, hlast, w, hw, hne, hm⟩
  obtain ⟨seg, taken, rfl, rfl, hlen, hseg⟩ := h q u hlast
  rw [append_nil] at hw hne
  have hlt : w.length < taken.length :=
    lt_of_le_of_ne hw.length_le fun he => hne (hw.eq_of_length he)
  have := (hm.drop hseg).1
  omega

theorem retries_cons : Retries (some (q, a :: u)) ↔ Matches q u ∨ Retries (some (q, u)) := by
  constructor
  · rintro ⟨q', u', h, w, hw, hne, hm⟩
    cases h
    have hw : w <:+ u := (suffix_cons_iff.mp hw).resolve_left hne
    by_cases he : w = u
    · exact .inl (he ▸ hm)
    · exact .inr ⟨q, u, rfl, w, hw, he, hm⟩
  · rintro (hm | ⟨q', u', h, w, hw, -, hm⟩)
    · exact ⟨q, a :: u, rfl, u, suffix_cons a u, ne_cons_self, hm⟩
    · cases h
      refine ⟨q, a :: u, rfl, w, hw.trans (suffix_cons a u), ?_, hm⟩
      rintro rfl
      simpa using hw.length_le

theorem matches_anyMany_iff_retries :
    Matches (.anyMany :: p) v ↔ Matches p v ∨ Retries (some (p, v)) := by
  rw [matches_anyMany_iff]
  constructor
  · rintro ⟨w, hw, hm⟩
    by_cases he : w = v
    · exact .inl (he ▸ hm)
    · exact .inr ⟨p, v, rfl, w, hw, he, hm⟩
  · rintro (hm | ⟨q, u, h, w, hw, -, hm⟩)
    · exact ⟨v, suffix_rfl, hm⟩
    · cases h
      exact ⟨w, hw, hm⟩

end Wildcard
