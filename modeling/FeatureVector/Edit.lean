/-
  FeatureVector.Edit — changes in place that may fail.

  An edit of a state gives an answer or a fault, and in either case the state it left
  behind: what was written before a fault stays written. So "a failed operation changes
  nothing" is a statement about an edit and not a matter of how it is composed.
-/
import FeatureVector.Fault

namespace FeatureVector

/-- A change of a `σ` in place. -/
abbrev Edit (σ : Type) (α : Type) := EStateM Fault σ α

namespace Edit

/-- A look at the state, which stays as it is. -/
def reading (f : σ → Except Fault α) : Edit σ α := fun s =>
  match f s with
  | .ok a => .ok a s
  | .error e => .error e s

/-- The answer or the fault, and the state left behind. -/
def outcome (edit : Edit σ α) (s : σ) : Except Fault α × σ :=
  match edit s with
  | .ok a s' => (.ok a, s')
  | .error e s' => (.error e, s')

/-- The state left behind by an edit that succeeds. -/
def exec (edit : Edit σ α) (s : σ) : Except Fault σ :=
  match edit s with
  | .ok _ s' => .ok s'
  | .error e _ => .error e

end Edit

end FeatureVector
