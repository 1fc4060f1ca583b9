/-
  FeatureVector.Proofs.Equality — when two vectors are equal, and how far equality goes from
  one to the next.

  `equivalent` reads both vectors slot by slot and compares the lists of slots as numbers
  (`equivalent_eq`, `SameNumbers`): symmetric and transitive, not reflexive, since no number
  differs from itself. Two vectors in contiguous storage are equal by name and bits instead
  (`same_dense_iff`). Either comparison is symmetric.

  Equality goes on from `x = y` and `y = z` to `x = z`, but for one mix of storages: two
  vectors in contiguous storage that both equal one window have the same numbers, and yet
  differ when their names do or a zero has another sign (`Parted`). `equality_carries_over`
  says that this is the only exception, `window_equals_what_differs` that it is one.
-/
import FeatureVector.Proofs.Binary64.SameNumber
import FeatureVector.Proofs.Slots
import FeatureVector.Vect.Compare

namespace FeatureVector

open Binary64

/-! ## The same numbers -/

/-- Both lists hold the same number in every place, and nothing that is no number. -/
def SameNumbers (xs ys : List Float) : Prop := List.Forall₂ (fun x y => (x == y) = true) xs ys

theorem SameNumbers.symm {xs ys : List Float} (h : SameNumbers xs ys) : SameNumbers ys xs := by
  refine List.Forall₂.flip (h.imp fun x y hxy => ?_)
  exact BEq.symm hxy

theorem SameNumbers.trans {xs ys zs : List Float} (h : SameNumbers xs ys) (h' : SameNumbers ys zs) :
    SameNumbers xs zs := by
  induction h generalizing zs with
  | nil => exact h'
  | cons hxy _ ih =>
    cases h' with
    | cons hyz htail => exact .cons (BEq.trans hxy hyz) (ih htail)

theorem isEqv_iff {xs ys : List Float} : xs.isEqv ys (· == ·) = true ↔ SameNumbers xs ys := by
  induction xs generalizing ys with
  | nil => cases ys <;> simp [SameNumbers]
  | cons x xs ih =>
    cases ys with
    | nil => simp [SameNumbers]
    | cons y ys => simp [SameNumbers, List.isEqv, ih]

/-- Zeros of opposite sign, which are one number. -/
def OppositeZeros (x y : Float) : Prop := (x == zero) = true ∧ (y == zero) = true ∧ x ≠ y

/-- Lists of the same numbers differ in the sign of zeros only. -/
theorem SameNumbers.eq_iff {xs ys : List Float} (h : SameNumbers xs ys) :
    xs = ys ↔ ∀ (i : Nat) (x y : Float), xs[i]? = some x → ys[i]? = some y → ¬ OppositeZeros x y := by
  constructor
  · intro heq i x y hx hy hzeros
    rw [heq] at hx
    exact hzeros.2.2 (Option.some.inj (hx.symm.trans hy))
  · intro hnone
    refine List.ext_getElem h.length_eq fun i hi hi' => ?_
    have hsame : (xs[i] == ys[i]) = true := (List.forall₂_iff_get.mp h).2 i hi hi'
    rcases SameNumber.bits (.inl hsame) with hbits | ⟨hx, hy⟩
    · exact Float.toBits_inj.mp hbits
    · by_contra hne
      exact hnone i _ _ (List.getElem?_eq_getElem hi) (List.getElem?_eq_getElem hi') ⟨hx, hy, hne⟩

namespace Dense

theorem same_iff {a b : Dense} : a.same b = true ↔ a.name = b.name ∧ a.toList = b.toList := by
  simp [same, map_toBits_inj]

end Dense

namespace Vect

/-! ## Slot by slot -/

theorem equivalent_eq {v w : Vect} (hv : v.WellFormed) (hw : w.WellFormed) :
    v.equivalent w = .ok (v.slots.isEqv w.slots (· == ·)) := by
  unfold equivalent
  have hlv := length_slots hv
  have hlw := length_slots hw
  by_cases hsize : v.size = w.size
  · have hread : ∀ i ∈ List.range v.size, (do return (← v.slot i) == (← w.slot i)) =
        (.ok (v.slots[i]?.getD zero == w.slots[i]?.getD zero) : Except Fault Bool) := by
      intro i hi
      rw [slot_of_lt hv (List.mem_range.mp hi), slot_of_lt hw (hsize ▸ List.mem_range.mp hi)]
      rfl
    have hlength : v.slots.length = w.slots.length := by rw [hlv, hlw, hsize]
    rw [if_pos hsize, Edit.allM_ok hread, List.isEqv_eq_decide, dif_pos hlength]
    congr 1
    rw [List.all_eq, decide_eq_decide]
    have hplace (i : Nat) (hi : i < v.slots.length) (hi' : i < w.slots.length) :
        (v.slots[i]?.getD zero == w.slots[i]?.getD zero) = (v.slots[i] == w.slots[i]) := by
      rw [List.getElem?_eq_getElem hi, List.getElem?_eq_getElem hi']
      rfl
    constructor
    · intro h i hi
      rw [← hplace i hi (hlength ▸ hi)]
      exact h i (List.mem_range.mpr (hlv ▸ hi))
    · intro h i hi
      have hi : i < v.slots.length := hlv.symm ▸ List.mem_range.mp hi
      rw [hplace i hi (hlength ▸ hi)]
      exact h i hi
  · have hlength : ¬ v.slots.length = w.slots.length := by rwa [hlv, hlw]
    rw [if_neg hsize, List.isEqv_eq_decide, dif_neg hlength]

theorem equivalent_eq_true_iff {v w : Vect} (hv : v.WellFormed) (hw : w.WellFormed) :
    v.equivalent w = .ok true ↔ SameNumbers v.slots w.slots := by
  rw [equivalent_eq hv hw, Except.ok.injEq, isEqv_iff]

theorem equivalent_comm {v w : Vect} (hv : v.WellFormed) (hw : w.WellFormed) : v.equivalent w = w.equivalent v := by
  rw [equivalent_eq hv hw, equivalent_eq hw hv, Except.ok.injEq, Bool.eq_iff_iff, isEqv_iff, isEqv_iff]
  exact ⟨SameNumbers.symm, SameNumbers.symm⟩

theorem strictlyEquivalent_eq {v w : Vect} (hv : v.WellFormed) (hw : w.WellFormed) :
    v.strictlyEquivalent w = .ok (v.kind == w.kind && v.name == w.name && v.slots.isEqv w.slots (· == ·)) := by
  unfold strictlyEquivalent
  rw [equivalent_eq hv hw]
  by_cases h : v.kind = w.kind ∧ v.name = w.name
  · simp [h]
  · have hfalse : (v.kind == w.kind && v.name == w.name) = false := by simpa using h
    rw [if_neg h, hfalse, Bool.false_and]

/-! ## Equality of either kind -/

theorem same_of_view {v w : Vect} (h : v.kind = .view ∨ w.kind = .view) : v.same w = v.equivalent w := by
  cases v with
  | view p u => rfl
  | dense d =>
    cases w with
    | view p u => rfl
    | dense e => rcases h with h | h <;> cases h

theorem kinds_dense {v w : Vect} (h : ¬ (v.kind = .view ∨ w.kind = .view)) : v.kind = .dense ∧ w.kind = .dense := by
  cases v <;> cases w <;> simp [kind] at h ⊢

theorem same_dense_iff {v w : Vect} (hv : v.kind = .dense) (hw : w.kind = .dense) :
    v.same w = .ok true ↔ v.name = w.name ∧ v.slots = w.slots := by
  cases v with
  | view p u => cases hv
  | dense d =>
    cases w with
    | view p u => cases hw
    | dense e => exact (Except.ok.injEq _ _).to_iff.trans Dense.same_iff

theorem exists_same {v w : Vect} (hv : v.WellFormed) (hw : w.WellFormed) : ∃ r, v.same w = .ok r := by
  cases v with
  | view p u => exact ⟨_, equivalent_eq hv hw⟩
  | dense d =>
    cases w with
    | view p u => exact ⟨_, equivalent_eq hv hw⟩
    | dense e => exact ⟨_, rfl⟩

theorem same_comm {v w : Vect} (hv : v.WellFormed) (hw : w.WellFormed) : v.same w = w.same v := by
  by_cases hview : v.kind = .view ∨ w.kind = .view
  · rw [same_of_view hview, same_of_view hview.symm]
    exact equivalent_comm hv hw
  · obtain ⟨hv', hw'⟩ := kinds_dense hview
    obtain ⟨r, hr⟩ := exists_same hv hw
    obtain ⟨r', hr'⟩ := exists_same hw hv
    have hiff : v.same w = .ok true ↔ w.same v = .ok true := by
      rw [same_dense_iff hv' hw', same_dense_iff hw' hv']
      exact and_congr eq_comm eq_comm
    rw [hr, hr', Except.ok.injEq, Except.ok.injEq] at hiff
    rw [hr, hr', Bool.eq_iff_iff.mpr hiff]

/-- What equality says of the slots: as bits in contiguous storage, else as numbers. -/
theorem slots_of_same {v w : Vect} (hv : v.WellFormed) (hw : w.WellFormed) (h : v.same w = .ok true) :
    (v.kind = .dense ∧ w.kind = .dense ∧ v.name = w.name ∧ v.slots = w.slots) ∨
      ((v.kind = .view ∨ w.kind = .view) ∧ SameNumbers v.slots w.slots) := by
  by_cases hview : v.kind = .view ∨ w.kind = .view
  · rw [same_of_view hview, equivalent_eq_true_iff hv hw] at h
    exact .inr ⟨hview, h⟩
  · obtain ⟨hv', hw'⟩ := kinds_dense hview
    exact .inl ⟨hv', hw', (same_dense_iff hv' hw').mp h⟩

/-- Both ends lie in contiguous storage with a window between them, and they have different
    names or, in some slot, zeros of opposite sign. -/
def Parted (x y z : Vect) : Prop :=
  x.kind = .dense ∧ y.kind = .view ∧ z.kind = .dense ∧
    (x.name ≠ z.name ∨
      ∃ (i : Nat) (a b : Float), x.slots[i]? = some a ∧ z.slots[i]? = some b ∧ OppositeZeros a b)

/-- A comparison by numbers between the ends holds if those on the way do. -/
theorem sameNumbers_of_same {x y z : Vect} (hx : x.WellFormed) (hy : y.WellFormed) (hz : z.WellFormed)
    (hview : x.kind = .view ∨ y.kind = .view ∨ z.kind = .view) (hxy : x.same y = .ok true)
    (hyz : y.same z = .ok true) : SameNumbers x.slots z.slots := by
  rcases slots_of_same hx hy hxy with ⟨hx', hy', -, hslots⟩ | ⟨-, hnumbers⟩
  · rcases slots_of_same hy hz hyz with ⟨-, hz', -, -⟩ | ⟨-, hnumbers⟩
    · simp [hx', hy', hz'] at hview
    · rwa [hslots]
  · rcases slots_of_same hy hz hyz with ⟨-, -, -, hslots⟩ | ⟨-, hnumbers'⟩
    · rwa [← hslots]
    · exact hnumbers.trans hnumbers'

end Vect

/-- Equality is symmetric, and goes on from `x = y` and `y = z` to `x = z` unless the two ends
    are parted. -/
theorem equality_carries_over {x y z : Vect} (hx : x.WellFormed) (hy : y.WellFormed) (hz : z.WellFormed) :
    (∃ r, x.same y = .ok r ∧ y.same x = .ok r) ∧
      (x.same y = .ok true → y.same z = .ok true →
        ∃ r, x.same z = .ok r ∧ (r = false ↔ x.Parted y z)) := by
  constructor
  · obtain ⟨r, hr⟩ := Vect.exists_same hx hy
    exact ⟨r, hr, (Vect.same_comm hy hx).trans hr⟩
  intro hxy hyz
  obtain ⟨r, hr⟩ := Vect.exists_same hx hz
  refine ⟨r, hr, ?_⟩
  by_cases hends : x.kind = .view ∨ z.kind = .view
  -- numbers are compared at the ends, and the comparison holds
  · have hnumbers := Vect.sameNumbers_of_same hx hy hz (by tauto) hxy hyz
    have htrue : x.same z = .ok true := by rwa [Vect.same_of_view hends, Vect.equivalent_eq_true_iff hx hz]
    obtain rfl : r = true := Except.ok.inj (hr.symm.trans htrue)
    have hnot : ¬ x.Parted y z := by
      intro hparted
      obtain ⟨hx', -, hz', -⟩ := hparted
      simp [hx', hz'] at hends
    simp [hnot]
  -- names and bits are
  · obtain ⟨hx', hz'⟩ := Vect.kinds_dense hends
    have hsame : r = true ↔ x.name = z.name ∧ x.slots = z.slots := by
      rw [← Vect.same_dense_iff hx' hz', hr, Except.ok.injEq]
    cases hy' : y.kind with
    | dense =>
      obtain ⟨hname, hslots⟩ := (Vect.same_dense_iff hx' hy').mp hxy
      obtain ⟨hname', hslots'⟩ := (Vect.same_dense_iff hy' hz').mp hyz
      have htrue : r = true := hsame.mpr ⟨hname.trans hname', hslots.trans hslots'⟩
      simp [htrue, Vect.Parted, hy']
    | view =>
      have hnumbers := Vect.sameNumbers_of_same hx hy hz (.inr (.inl hy')) hxy hyz
      have hzeros : x.slots ≠ z.slots ↔ ∃ (i : Nat) (a b : Float),
          x.slots[i]? = some a ∧ z.slots[i]? = some b ∧ OppositeZeros a b := by
        simp [hnumbers.eq_iff]
      rw [← Bool.not_eq_true, hsame, Vect.Parted, ← hzeros, not_and_or]
      simp [hx', hy', hz']

/-- Ends of one name, and a window in a window between them that holds a zero of the other sign:
    the ends are equal. A third vector in contiguous storage equals the window too, but has that
    zero, so it is parted from them. -/
theorem equality_through_a_window :
    let x : Vect := .dense ⟨#[zero, 1], some "a", none, .empty⟩
    let y : Vect := .view (.view (.dense (.ofList [9, negZero, 1, 9])) ⟨1, 3, none, none⟩) ⟨0, 2, some "b", none⟩
    let z : Vect := .dense ⟨#[zero, 1], some "a", none, ⟨some 1⟩⟩
    let z' : Vect := .dense ⟨#[negZero, 1], some "a", none, .empty⟩
    x.same y = .ok true ∧ y.same z = .ok true ∧ x.same z = .ok true ∧ ¬ x.Parted y z ∧
      y.same z' = .ok true ∧ x.Parted y z' := by
  intro x y z z'
  have hxy : x.same y = .ok true := by decide
  have hyz : y.same z = .ok true := by decide
  have hxz : x.same z = .ok true := by decide
  have hyz' : y.same z' = .ok true := by decide
  have hxz' : x.same z' = .ok false := by decide
  obtain ⟨-, hcarries⟩ := equality_carries_over (x := x) (y := y) (z := z) (by decide) (by decide) (by decide)
  obtain ⟨r, hr, hparted⟩ := hcarries hxy hyz
  rw [hxz] at hr
  cases hr
  obtain ⟨-, hcarries'⟩ := equality_carries_over (x := x) (y := y) (z := z') (by decide) (by decide) (by decide)
  obtain ⟨r', hr', hparted'⟩ := hcarries' hxy hyz'
  rw [hxz'] at hr'
  cases hr'
  exact ⟨hxy, hyz, hxz, fun h => Bool.noConfusion (hparted.mpr h), hyz', hparted'.mp rfl⟩

/-- A window over one zero equals contiguous storage of either name and of either zero, and these
    differ. So equality is not transitive. -/
theorem window_equals_what_differs :
    let x : Vect := .dense ⟨#[zero], some "a", none, .empty⟩
    let y : Vect := .view (.dense (.ofList [zero])) ⟨0, 1, none, none⟩
    let otherName : Vect := .dense ⟨#[zero], some "b", none, .empty⟩
    let otherSign : Vect := .dense ⟨#[negZero], some "a", none, .empty⟩
    (x.same y = .ok true ∧ y.same otherName = .ok true ∧ x.same otherName = .ok false) ∧
      (x.same y = .ok true ∧ y.same otherSign = .ok true ∧ x.same otherSign = .ok false) := by
  decide

end FeatureVector
