/-
  FeatureVector.Proofs.SlotwiseAssignment — an assignment is a map over the slots.

  `Assignment` is every change of all slots of a vector: by one value, a list, another vector,
  a function of the slot, or a function of the slot and a second number. All but the list's
  read what they overwrite, one slot after the other, and contiguous storage passes over
  slots that an accumulating function is declared to leave alone. Still each slot ends as
  `Assignment.slot` says from what this slot held before, whatever became of the others.

  What is not a slot stays: names, bindings and windows of the whole chain, which is the
  vector without its slots (`frame`). A write does not touch it (`enduring_frame`), so no
  change of all slots does.
-/
import FeatureVector.Proofs.Assignments
import FeatureVector.Proofs.CacheCoherence

namespace FeatureVector

open Vect Binary64

/-! ## Frames -/

namespace Vect

/-- What is left of a vector without its slots and the cached length. -/
def frame : Vect → Vect
  | dense d => dense { d with slots := #[], cache := .empty }
  | view p w => view p.frame w

@[simp] theorem frame_store (v : Vect) (i : Nat) (x : Float) : (v.store i x).frame = v.frame := by
  induction v generalizing i with
  | dense d => rfl
  | view p w ih => simp only [store, frame, ih]

@[simp] theorem frame_dropCache (v : Vect) : v.dropCache.frame = v.frame := by
  cases v <;> rfl

theorem enduring_frame (v : Vect) : Enduring (fun u => u.frame = v.frame) where
  setSlot := by
    intro i x u hu
    rw [state_setSlot, frame_store]
    exact hu
  dropCache := by
    intro u hu
    rw [frame_dropCache]
    exact hu

theorem labels_of_frame {u v : Vect} (h : u.frame = v.frame) : u.name = v.name ∧ u.bindings = v.bindings := by
  have hname (v : Vect) : v.frame.name = v.name := by cases v <;> rfl
  have hbindings (v : Vect) : v.frame.bindings = v.bindings := by cases v <;> rfl
  rw [← hname u, ← hname v, ← hbindings u, ← hbindings v, h]
  exact ⟨rfl, rfl⟩

end Vect

/-- What gives every slot of a vector a new value. -/
inductive Assignment
  | value (x : Float)
  | list (xs : List Float)
  | copy (o : Vect)
  | map (f : Float → Float)
  | mapScalar (f : BinaryFunction) (y : Float)
  | zip (o : Vect) (f : BinaryFunction)

namespace Assignment

def edit : Assignment → Edit Vect Unit
  | value x => assignValue x
  | list xs => assignList xs
  | copy o => assignFrom o
  | map f => assignMap f
  | mapScalar f y => assignMapScalar f y
  | zip o f => assignZip o f

/-- The operand has the size of the vector to change. -/
def Fits (v : Vect) : Assignment → Prop
  | list xs => xs.length = v.size
  | copy o | zip o _ => o.WellFormed ∧ o.size = v.size
  | value _ | map _ | mapScalar _ _ => True

/-- What becomes of slot `i` of `v`, which holds `x`. -/
def slot (a : Assignment) (v : Vect) (i : Nat) (x : Float) : Option Float :=
  match a with
  | value y => some y
  | list xs => xs[i]?
  | copy o => o.slots[i]?
  | map f => some (f x)
  | mapScalar f y => some (f.apply x y)
  | zip o f => o.slots[i]?.map (v.zipSlot f x)

theorem keeps_frame (a : Assignment) (v : Vect) : Edit.Keeps (fun u : Vect => u.frame = v.frame) a.edit := by
  have hP := enduring_frame v
  cases a with
  | value _ | map _ | mapScalar _ _ => exact keeps_setEach hP _
  | list xs => exact keeps_assignList hP xs
  | copy o => exact keeps_assignFrom hP o
  | zip o f => exact keeps_assignZip hP o f

/-- A loop over all slots that computes from the slot it writes and from what stands beside it. -/
theorem slots_setEach {n : Nat} {value : Nat → Vect → Except Fault Float} {f : Nat → Float → Option Float}
    (hv : ∀ i < n, ∀ u, Sized n u → ∀ x, u.slots[i]? = some x → ∃ y, f i x = some y ∧ value i u = .ok y) {v : Vect}
    (h : Sized n v) :
    ∃ u, (setEach value).outcome v = (.ok (), u) ∧ Sized n u ∧ ∀ i, u.slots[i]? = v.slots[i]?.bind (f i) := by
  have htotal : ∀ i < n, ∀ u, Sized n u → ∀ x, u.slots[i]? = some x →
      value i u = .ok ((f i x).getD Binary64.zero) := by
    intro i hi u hu x hx
    obtain ⟨y, hy, hvalue⟩ := hv i hi u hu x hx
    rw [hvalue, hy]
    rfl
  obtain ⟨u, hu, hsized, hslots⟩ := turns_setEach htotal v h
  refine ⟨u, hu, hsized, fun i => ?_⟩
  rw [hslots, List.getElem?_mapIdx]
  cases hx : v.slots[i]? with
  | none => rfl
  | some x =>
    have hi : i < n := by
      obtain ⟨hlt, -⟩ := List.getElem?_eq_some_iff.mp hx
      rw [length_slots h.1, h.2] at hlt
      exact hlt
    obtain ⟨y, hy, -⟩ := hv i hi v h x hx
    simp [hy]

theorem exists_outcome {a : Assignment} {v : Vect} (hv : v.WellFormed) (h : a.Fits v) :
    ∃ u, a.edit.outcome v = (.ok (), u) ∧ Sized v.size u ∧ ∀ i, u.slots[i]? = v.slots[i]?.bind (a.slot v i) := by
  have hsized : Sized v.size v := ⟨hv, rfl⟩
  have hread {u : Vect} {i : Nat} {x : Float} (hi : i < v.size) (hu : Sized v.size u) (hx : u.slots[i]? = some x) :
      u.slot i = .ok x := by
    rw [slot_of_lt hu.1 (by rw [hu.2]; exact hi), hx]
    rfl
  cases a with
  | value y => exact slots_setEach (fun _ _ _ _ _ _ => ⟨y, rfl, rfl⟩) hsized
  | map f =>
    refine slots_setEach (fun i hi u hu x hx => ⟨f x, rfl, ?_⟩) hsized
    rw [hread hi hu hx]
    rfl
  | mapScalar f y =>
    refine slots_setEach (fun i hi u hu x hx => ⟨f.apply x y, rfl, ?_⟩) hsized
    rw [hread hi hu hx]
    rfl
  | list xs =>
    have hlength : xs.length = v.slots.length := Eq.trans h (length_slots hv).symm
    obtain ⟨u, hu, hsized', hslots⟩ := turns_assignList h v hsized
    refine ⟨u, hu, hsized', fun i => ?_⟩
    rw [hslots]
    by_cases hi : i < v.slots.length
    · simp [slot, List.getElem?_eq_getElem hi]
    · simp [hlength, Nat.not_lt.mp hi]
  | copy o =>
    obtain ⟨ho, hsize⟩ := h
    have hlength : o.slots.length = v.size := (length_slots ho).trans hsize
    have hother : ∀ i < v.size, ∀ u, Sized v.size u → ∀ x, u.slots[i]? = some x →
        ∃ y, (copy o).slot v i x = some y ∧ o.slot i = .ok y := by
      intro i hi u _ x _
      refine ⟨_, List.getElem?_eq_getElem (by omega), ?_⟩
      rw [slot_of_lt ho (by omega), List.getElem?_eq_getElem (by omega)]
      rfl
    obtain ⟨u, hu, hrest⟩ := slots_setEach hother hsized
    refine ⟨u, ?_, hrest⟩
    unfold edit assignFrom requireSize
    rw [Edit.outcome_bind, Edit.outcome_reading, checkSize_eq_ok.mpr hsize.symm]
    exact hu
  | zip o f =>
    obtain ⟨ho, hsize⟩ := h
    obtain ⟨u, hu, hsized', hslots⟩ := slots_assignZip hv ho hsize.symm f
    refine ⟨u, hu, hsized', fun i => ?_⟩
    rw [hslots, List.getElem?_zipWith]
    cases v.slots[i]? with
    | none => rfl
    | some x => cases hy : o.slots[i]? <;> simp [slot, hy]

end Assignment

/-- A change of all slots succeeds, and each slot ends as the assignment says from what this
    slot held before. The size, the names, the bindings and the windows stay. -/
theorem assignment_is_slotwise {v : Vect} {a : Assignment} (hv : v.WellFormed) (h : a.Fits v) :
    ∃ u, a.edit.outcome v = (.ok (), u) ∧ u.size = v.size ∧ (∀ i, u.slots[i]? = v.slots[i]?.bind (a.slot v i)) ∧
      u.frame = v.frame ∧ u.name = v.name ∧ u.bindings = v.bindings := by
  obtain ⟨u, hu, hsized, hslots⟩ := a.exists_outcome hv h
  have hframe : u.frame = v.frame := by
    rw [← show _ = u from congrArg Prod.snd hu]
    exact a.keeps_frame v v rfl
  exact ⟨u, hu, hsized.2, hslots, hframe, labels_of_frame hframe⟩

/-- Storage passes over the zeros of an operand of both signs, one of them beside no number. -/
theorem accumulating_assignment_spares_slots :
    let v : Vect := .dense { Dense.ofList [negZero, zero / zero, 3] with name := some "v", cache := ⟨some 9⟩ }
    let o : Vect := .view (.view (.dense (.ofList [8, zero, negZero, 5, 8])) ⟨1, 4, none, none⟩) ⟨0, 3, none, none⟩
    ∃ u, (Assignment.zip o .add).edit.outcome v = (.ok (), u) ∧ u.name = some "v" ∧
      u.slots[0]? = some negZero ∧ u.slots[1]? = some (zero / zero) ∧ u.slots[2]? = some (3 + 5) := by
  intro v o
  obtain ⟨u, hu, -, hslots, -, hname, -⟩ := @assignment_is_slotwise v (.zip o .add) trivial ⟨by decide, rfl⟩
  refine ⟨u, hu, hname, ?_, ?_, ?_⟩
  · rw [hslots]
    decide
  · rw [hslots]
    decide
  · rw [hslots]
    decide

end FeatureVector
