/-
  FeatureVector.Proofs.Distances — the squared distance from storage and from a window.

  Storage adds up the squared differences in every slot, a window those in its own slots that
  are not zero (`Vect.distanceSquared_eq`, where `Vect.counted` tells them apart). So a window
  never sees what the other vector holds beside its zeros.

  What it leaves out is a positive zero wherever the other vector has a zero too. If that is so
  beside all its zeros (`Covers`), the distance is that from storage with its slots, as a
  number, and in bits unless there are slots and all are zeros: then the window adds up nothing,
  which is a negative zero. `window_distance` says so for a window of any depth and a second
  vector in any storage.
-/
import FeatureVector.Proofs.NonZeroWalks
import FeatureVector.Proofs.SquaredLengths

namespace FeatureVector

open Binary64

/-- Beside each zero of the first list stands a zero. -/
def Covers (xs ys : List Float) : Prop := ∀ p ∈ xs.zip ys, (p.1 == zero) = true → (p.2 == zero) = true

instance (xs ys : List Float) : Decidable (Covers xs ys) := inferInstanceAs (Decidable (∀ p ∈ _, _))

/-! ## Lists of slots -/

/-- The squared differences of the pairs whose first entry is not passed over, summed up in order. -/
def sumOfDifferences (pace : Pace) (xs ys : List Float) : Float :=
  sum (((xs.zip ys).filter fun p => !pace.skips p.1).map fun p => square (p.1 - p.2))

theorem sumOfDifferences_every (xs ys : List Float) :
    sumOfDifferences .every xs ys = sum ((xs.zip ys).map fun p => square (p.1 - p.2)) := by
  have hall : ((xs.zip ys).filter fun p => !Pace.every.skips p.1) = xs.zip ys := List.filter_eq_self.mpr fun _ _ => rfl
  rw [sumOfDifferences, hall]

/-- Two zeros of any sign are no distance apart. -/
theorem square_sub_of_zeros {x y : Float} (hx : (x == zero) = true) (hy : (y == zero) = true) :
    square (x - y) = zero := by
  obtain ⟨s, hs⟩ := beq_zero_iff.mp hy
  have hsame : SameNumber (x - y) zero := (sameNumber_sub_zero x hs).symm.trans (sameNumber_zero_iff.mpr hx)
  exact square_of_zero (sameNumber_zero_iff.mp hsame)

/-- The zeros of a list that stand beside zeros do not show, but for the sign of a sum of nothing. -/
theorem sumOfDifferences_of_covers {xs ys : List Float} (h : xs.length = ys.length) (hcovers : Covers xs ys) :
    SameNumber (sumOfDifferences .nonZero xs ys) (sumOfDifferences .every xs ys) ∧
      (sumOfDifferences .nonZero xs ys = sumOfDifferences .every xs ys ↔ ¬ AllZeros xs) := by
  have hskipped : ∀ p ∈ xs.zip ys, (!Pace.nonZero.skips p.1) = false → square (p.1 - p.2) = zero := by
    intro p hp hx
    have hx : (p.1 == zero) = true := by simpa [Pace.skips] using hx
    exact square_sub_of_zeros hx (hcovers p hp hx)
  have hfirst : (xs.zip ys).map Prod.fst = xs := List.map_fst_zip (Nat.le_of_eq h)
  have hall : (xs.zip ys ≠ [] ∧ ∀ p ∈ xs.zip ys, (!Pace.nonZero.skips p.1) = false) ↔ AllZeros xs := by
    unfold AllZeros
    conv => rhs; rw [← hfirst]
    simp [Pace.skips]
  rw [sumOfDifferences_every]
  obtain ⟨hsome, heq⟩ | ⟨hnone, hskipping, hfull⟩ :=
    sum_filter_cases hskipped fun p _ _ => square_ne_negZero (p.1 - p.2)
  · rw [hall] at hsome
    rw [sumOfDifferences, heq]
    exact ⟨.refl _, iff_of_true rfl hsome⟩
  · rw [hall] at hnone
    rw [sumOfDifferences, hskipping, hfull]
    exact ⟨.inl (by decide), iff_of_false zero_ne_negZero.symm (not_not.mpr hnone)⟩

/-- What stands beside the entries passed over does not matter. -/
theorem sumOfDifferences_congr {pace : Pace} {xs ys zs : List Float} (hys : xs.length = ys.length)
    (hzs : xs.length = zs.length)
    (h : ∀ (i : Nat) (x : Float), xs[i]? = some x → pace.skips x = false → ys[i]? = zs[i]?) :
    sumOfDifferences pace xs ys = sumOfDifferences pace xs zs := by
  unfold sumOfDifferences
  rw [← Walk.map_elements_zip pace (fun x y => square (x - y)) hys,
    ← Walk.map_elements_zip pace (fun x y => square (x - y)) hzs]
  refine congrArg sum (List.map_congr_left fun e he => ?_)
  obtain ⟨hx, hskip⟩ := Walk.mem_elements_iff.mp he
  rw [h e.index e.value hx hskip]

/-! ## Vectors -/

namespace Vect

/-- Which slots of a vector count for a distance from it. -/
def counted : Vect → Pace
  | dense _ => .every
  | view _ _ => .nonZero

theorem distanceSquared_eq {v w : Vect} (hv : v.WellFormed) (hw : w.WellFormed) (hsize : v.size = w.size) :
    v.distanceSquared w = .ok (sumOfDifferences v.counted v.slots w.slots) := by
  have hlength : v.slots.length = w.slots.length := by rw [length_slots hv, length_slots hw, hsize]
  have hterms (pace : Pace) : (Walk.elements pace 0 v.slots).mapM (fun e =>
        (do return square (e.value - (← w.slot e.index)) : Except Fault Float)) =
      .ok (((v.slots.zip w.slots).filter fun p => !pace.skips p.1).map fun p => square (p.1 - p.2)) := by
    rw [← Walk.map_elements_zip pace (fun x y => square (x - y)) hlength]
    refine Edit.mapM_ok fun e he => ?_
    have hlt := (Walk.index_mem_elements he).2
    rw [slot_of_lt hw (by rw [← hsize, ← length_slots hv]; omega)]
    rfl
  unfold distanceSquared
  rw [checkSize_eq_ok.mpr hsize]
  cases v with
  | dense d =>
    have hwalk : (d.walk .every).toList = Walk.elements .every 0 (dense d).slots := Walk.toList_start .every d.toList
    dsimp only
    rw [hwalk, hterms]
    rfl
  | view p u =>
    show sumNonZero (view p u) _ = _
    rw [sumNonZero, nonZero_eq hv, hterms]
    rfl

end Vect

/-- The distance from a window is the sum of the squared differences in its slots that are not
    zero, and what the other vector holds elsewhere does not change it. If that is a zero beside
    each of the window's zeros, it is the distance from storage with the window's slots, which
    takes every slot: the same number, and the same bits unless there are slots and all are
    zeros. -/
theorem window_distance {w v : Vect} {d : Dense} (hw : w.WellFormed) (hkind : w.kind = .view) (hv : v.WellFormed)
    (hsize : w.size = v.size) (hslots : d.toList = w.slots) :
    ∃ own full, w.distanceSquared v = .ok own ∧ (Vect.dense d).distanceSquared v = .ok full ∧
      own = sum (((w.slots.zip v.slots).filter fun p => !(p.1 == zero)).map fun p => square (p.1 - p.2)) ∧
      full = sum ((w.slots.zip v.slots).map fun p => square (p.1 - p.2)) ∧
      (Covers w.slots v.slots → SameNumber own full ∧ (own.toBits = full.toBits ↔ ¬ AllZeros w.slots)) ∧
      ∀ u : Vect, u.WellFormed → u.size = w.size →
        (∀ (i : Nat) (x : Float), w.slots[i]? = some x → (x == zero) = false → u.slots[i]? = v.slots[i]?) →
        w.distanceSquared u = .ok own := by
  have hcounted : w.counted = .nonZero := by
    cases w with
    | dense _ => cases hkind
    | view _ _ => rfl
  have hlength : w.slots.length = v.slots.length := by rw [Vect.length_slots hw, Vect.length_slots hv, hsize]
  have hdsize : d.size = v.size := by
    rw [← hsize, ← Vect.length_slots hw, ← hslots]
    exact Array.length_toList.symm
  have hown := Vect.distanceSquared_eq hw hv hsize
  have hfull := Vect.distanceSquared_eq (v := .dense d) trivial hv hdsize
  rw [hcounted] at hown
  rw [show (Vect.dense d).slots = w.slots from hslots] at hfull
  refine ⟨_, _, hown, hfull, rfl, sumOfDifferences_every _ _, fun hcovers => ?_, fun u hu husize hagree => ?_⟩
  · obtain ⟨hsame, hbits⟩ := sumOfDifferences_of_covers hlength hcovers
    exact ⟨hsame, Float.toBits_inj.trans hbits⟩
  · have hulength : w.slots.length = u.slots.length := by rw [Vect.length_slots hw, Vect.length_slots hu, husize]
    rw [Vect.distanceSquared_eq hw hu husize.symm, hcounted]
    exact congrArg Except.ok (sumOfDifferences_congr hulength hlength hagree)

/-- A window in a window with zeros of both signs. Beside them the second vector has zeros too, a
    third one an infinity and no number. Of a window of zeros nothing is left to add up. -/
theorem distances_from_windows :
    let root : Dense := .ofList [9, negZero, 3, zero, 5, 7]
    let w : Vect := .view (.view (.dense root) ⟨1, 5, some "outer", none⟩) ⟨0, 4, none, none⟩
    let v : Vect := .dense (.ofList [zero, 1, negZero, 2])
    let u : Vect := .view (.dense (.ofList [negInfinity, 1, zero / zero, 2, 8])) ⟨0, 4, none, none⟩
    let z : Vect := .view (.dense root) ⟨3, 1, none, none⟩
    (w.distanceSquared v = .ok 13 ∧ (Vect.dense (.ofList w.slots)).distanceSquared v = .ok 13) ∧
      w.distanceSquared u = .ok 13 ∧
      z.distanceSquared (.dense (.ofList [zero])) = .ok negZero ∧
      (Vect.dense (.ofList z.slots)).distanceSquared (.dense (.ofList [zero])) = .ok zero ∧
      SameNumber negZero zero := by
  intro root w v u z
  have hlist (xs : List Float) : (Dense.ofList xs).toList = xs := List.toList_toArray
  obtain ⟨own, full, hown, hfull, -, -, hcovered, hothers⟩ :=
    @window_distance w v (.ofList w.slots) (by decide) rfl (by decide) rfl (hlist _)
  obtain ⟨-, hbits⟩ := hcovered (by decide)
  have hsame : own = full := Float.toBits_inj.mp (hbits.mpr (by decide))
  have hvalue : w.distanceSquared v = .ok 13 := by decide
  rw [hvalue] at hown
  cases hown
  have hagree : ∀ (i : Nat) (x : Float), w.slots[i]? = some x → (x == zero) = false → u.slots[i]? = v.slots[i]? := by
    intro i x hx hne
    match i with
    | 0 | 2 =>
      cases hx
      exact absurd hne (by decide)
    | 1 | 3 => rfl
    | i + 4 => cases hx
  obtain ⟨nothing, whole, hnothing, hwhole, -, -, hzeros, -⟩ :=
    @window_distance z (.dense (.ofList [zero])) (.ofList z.slots) (by decide) rfl (by decide) rfl (hlist _)
  obtain ⟨hnumber, -⟩ := hzeros (by decide)
  have hnegative : z.distanceSquared (.dense (.ofList [zero])) = .ok negZero := by decide
  have hpositive : (Vect.dense (.ofList z.slots)).distanceSquared (.dense (.ofList [zero])) = .ok zero := by
    decide
  rw [hnegative] at hnothing
  rw [hpositive] at hwhole
  cases hnothing
  cases hwhole
  exact ⟨⟨hvalue, hsame ▸ hfull⟩, hothers u (by decide) rfl hagree, hnegative, hpositive, hnumber⟩

end FeatureVector
