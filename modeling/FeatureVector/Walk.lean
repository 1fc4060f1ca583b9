/-
  FeatureVector.Walk — walks over the slots of contiguous storage in ascending order,
  over every slot or over the non-zero ones.

  A walk is the slots still to come and the index of the first of them. One over the
  non-zero slots always rests before a non-zero slot or at the end: it passes over zeros
  of either sign as soon as it reaches them. `toList` is what is still to come, `hint` the
  bounds on its length that are known without looking ahead.
-/
import FeatureVector.Element
import FeatureVector.Binary64

namespace FeatureVector

inductive Pace
  | every
  | nonZero
  deriving DecidableEq

/-- Whether a walk of this pace passes over a slot. -/
def Pace.skips (pace : Pace) (x : Float) : Bool := pace == .nonZero && x == Binary64.zero

structure Walk where
  pace : Pace
  /-- Index of the first slot of `rest`. -/
  index : Nat
  rest : List Float

namespace Walk

/-- The walk from `index` on, past the slots it skips. -/
def settle (pace : Pace) (index : Nat) : List Float → Walk
  | [] => ⟨pace, index, []⟩
  | x :: xs => if pace.skips x then settle pace (index + 1) xs else ⟨pace, index, x :: xs⟩

def start (pace : Pace) (slots : List Float) : Walk := settle pace 0 slots

/-- The next element and the walk behind it; `none` at the end, and ever after. -/
def next? (w : Walk) : Option (Element × Walk) :=
  match w.rest with
  | [] => none
  | x :: xs => some (⟨w.index, x⟩, settle w.pace (w.index + 1) xs)

/-- At least and at most how many elements are still to come, judged by the number of slots
    alone: behind a slot that is not skipped all others may be. -/
def hint (w : Walk) : Nat × Nat :=
  match w.pace with
  | .every => (w.rest.length, w.rest.length)
  | .nonZero => (min w.rest.length 1, w.rest.length)

/-- The elements among `slots`, the first of which has index `index`. -/
def elements (pace : Pace) (index : Nat) : List Float → List Element
  | [] => []
  | x :: xs =>
    if pace.skips x then elements pace (index + 1) xs else ⟨index, x⟩ :: elements pace (index + 1) xs

def toList (w : Walk) : List Element := elements w.pace w.index w.rest

theorem length_settle_le (pace : Pace) (index : Nat) (slots : List Float) :
    (settle pace index slots).rest.length ≤ slots.length := by
  induction slots generalizing index with
  | nil => simp [settle]
  | cons x xs ih =>
    unfold settle
    split
    · exact Nat.le_succ_of_le (ih _)
    · exact Nat.le_refl _

/-- The hints before the first step and after every step that gives an element. -/
def hints (w : Walk) : List (Nat × Nat) :=
  w.hint :: match _h : w.next? with
    | none => []
    | some (_, w') => hints w'
termination_by w.rest.length
decreasing_by
  unfold next? at _h
  split at _h
  · cases _h
  · rename_i x xs e
    cases _h
    rw [e]
    exact Nat.lt_succ_of_le (length_settle_le ..)

end Walk

end FeatureVector
