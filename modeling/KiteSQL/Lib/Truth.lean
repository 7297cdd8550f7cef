import Mathlib.Tactic

/-! Truth values of which one may be unknown: `none`. -/
namespace Truth

def and : Option Bool → Option Bool → Option Bool
  | some true, t => t
  | some false, _ => some false
  | none, some false => some false
  | none, _ => none

def or : Option Bool → Option Bool → Option Bool
  | some false, t => t
  | some true, _ => some true
  | none, some true => some true
  | none, _ => none

def not (t : Option Bool) : Option Bool := t.map (!·)

/-- Unknown if some is unknown and none fails. -/
def all (l : List (Option Bool)) : Option Bool :=
  if some false ∈ l then some false else if none ∈ l then none else some true

/-- Unknown if some is unknown and none holds. -/
def any (l : List (Option Bool)) : Option Bool :=
  if some true ∈ l then some true else if none ∈ l then none else some false

theorem not_inj {s t : Option Bool} : not s = not t ↔ s = t := by
  rcases s with _ | _ | _ <;> rcases t with _ | _ | _ <;> decide

end Truth
