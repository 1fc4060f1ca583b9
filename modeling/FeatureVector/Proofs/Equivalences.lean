/-
  FeatureVector.Proofs.Equivalences — the notions of equality compared with each other.

  - `equivalent` and `strictlyEquivalent` are partial equivalences over vectors of any
    storage. A vector is related to itself unless one of its slots is no number
    (`SameNumbers.self_iff`). The strict notion is the other one between vectors of one kind
    and one name (`strictlyEquivalent_eq_true_iff`).
  - The equality of contiguous storage is an equivalence, as it compares bits.
  - Between two vectors in contiguous storage each of the strict notion and equality gives the
    other one, up to what tells numbers from bits: equality the strict notion unless a slot is
    no number (`strict_of_same_iff`), and that one equality unless zeros of opposite sign meet
    (`same_of_strict_iff`).
  - What two vectors have in common that differ in bindings (`Relabelled`) is all that any of
    them looks at.

  `equality_notions_relate` puts these together.
-/
import FeatureVector.Proofs.Equality
import FeatureVector.Proofs.Erasure

namespace FeatureVector

open Binary64

theorem beq_self_iff {x : Float} : (x == x) = true ↔ x.isNaN = false := by
  rw [beq_iff, ← Bool.not_eq_true, isNaN_iff]
  simp

/-- No number is not the same number as itself. -/
theorem SameNumbers.self_iff {xs : List Float} : SameNumbers xs xs ↔ ∀ x ∈ xs, x.isNaN = false := by
  refine List.forall₂_same.trans (forall₂_congr fun x _ => ?_)
  exact beq_self_iff

namespace Vect

theorem equivalent_self_iff {v : Vect} (hv : v.WellFormed) :
    v.equivalent v = .ok true ↔ ∀ x ∈ v.slots, x.isNaN = false := by
  rw [equivalent_eq_true_iff hv hv, SameNumbers.self_iff]

theorem equivalent_trans {x y z : Vect} (hx : x.WellFormed) (hy : y.WellFormed) (hz : z.WellFormed)
    (hxy : x.equivalent y = .ok true) (hyz : y.equivalent z = .ok true) : x.equivalent z = .ok true := by
  rw [equivalent_eq_true_iff hx hy] at hxy
  rw [equivalent_eq_true_iff hy hz] at hyz
  rw [equivalent_eq_true_iff hx hz]
  exact hxy.trans hyz

/-! ## The strict notion -/

theorem strictlyEquivalent_eq_true_iff {v w : Vect} :
    v.strictlyEquivalent w = .ok true ↔ v.kind = w.kind ∧ v.name = w.name ∧ v.equivalent w = .ok true := by
  unfold strictlyEquivalent
  by_cases h : v.kind = w.kind ∧ v.name = w.name
  · rw [if_pos h]
    exact ⟨fun heqv => ⟨h.1, h.2, heqv⟩, fun heqv => heqv.2.2⟩
  · rw [if_neg h]
    constructor
    · intro hfalse
      cases hfalse
    · intro heqv
      exact absurd ⟨heqv.1, heqv.2.1⟩ h

theorem strictlyEquivalent_comm {v w : Vect} (hv : v.WellFormed) (hw : w.WellFormed) :
    v.strictlyEquivalent w = w.strictlyEquivalent v := by
  unfold strictlyEquivalent
  rw [equivalent_comm hv hw]
  simp only [eq_comm]

theorem strictlyEquivalent_trans {x y z : Vect} (hx : x.WellFormed) (hy : y.WellFormed) (hz : z.WellFormed)
    (hxy : x.strictlyEquivalent y = .ok true) (hyz : y.strictlyEquivalent z = .ok true) :
    x.strictlyEquivalent z = .ok true := by
  obtain ⟨hkind, hname, hxy⟩ := strictlyEquivalent_eq_true_iff.mp hxy
  obtain ⟨hkind', hname', hyz⟩ := strictlyEquivalent_eq_true_iff.mp hyz
  exact strictlyEquivalent_eq_true_iff.mpr
    ⟨hkind.trans hkind', hname.trans hname', equivalent_trans hx hy hz hxy hyz⟩

/-! ## Contiguous storage -/

section

variable {v w : Vect} (hv : v.kind = .dense) (hw : w.kind = .dense)

include hv hw

/-- Bits that are numbers are the same numbers. -/
theorem strict_of_same_iff (hvf : v.WellFormed) (hwf : w.WellFormed) (hsame : v.same w = .ok true) :
    v.strictlyEquivalent w = .ok true ↔ ∀ x ∈ v.slots, x.isNaN = false := by
  obtain ⟨hname, hslots⟩ := (same_dense_iff hv hw).mp hsame
  rw [strictlyEquivalent_eq_true_iff, equivalent_eq_true_iff hvf hwf, ← hslots, SameNumbers.self_iff]
  exact ⟨fun h => h.2.2, fun h => ⟨hv.trans hw.symm, hname, h⟩⟩

/-- The same numbers are the same bits but for zeros. -/
theorem same_of_strict_iff (hvf : v.WellFormed) (hwf : w.WellFormed) (hstrict : v.strictlyEquivalent w = .ok true) :
    v.same w = .ok true ↔
      ∀ (i : Nat) (x y : Float), v.slots[i]? = some x → w.slots[i]? = some y → ¬ OppositeZeros x y := by
  obtain ⟨-, hname, heqv⟩ := strictlyEquivalent_eq_true_iff.mp hstrict
  have hnumbers := (equivalent_eq_true_iff hvf hwf).mp heqv
  rw [same_dense_iff hv hw, ← hnumbers.eq_iff]
  exact ⟨fun h => h.2, fun h => ⟨hname, h⟩⟩

end

/-! ## Bindings -/

/-- Same slots behind the same windows, and the same name. The bindings may differ, also those
    of what the vectors are windows of. -/
def Relabelled (v v' : Vect) : Prop := v'.bare = v.bare ∧ v'.name = v.name

namespace Relabelled

variable {v v' : Vect} (h : v.Relabelled v')

include h

theorem kind : v'.kind = v.kind := by
  rw [← kind_bare v', h.1, kind_bare]

theorem slots : v'.slots = v.slots := by
  rw [← slots_bare v', h.1, slots_bare]

theorem wellFormed : v'.WellFormed ↔ v.WellFormed := by
  rw [← wellFormed_bare v', h.1, wellFormed_bare]

theorem equivalent (w : Vect) : v'.equivalent w = v.equivalent w := by
  rw [← equivalent_bare v', h.1, equivalent_bare]

theorem strictlyEquivalent (w : Vect) : v'.strictlyEquivalent w = v.strictlyEquivalent w := by
  unfold Vect.strictlyEquivalent
  rw [h.kind, h.2, h.equivalent w]

theorem same (w : Vect) : v'.same w = v.same w := by
  by_cases hview : v.kind = .view ∨ w.kind = .view
  · rw [same_of_view hview, same_of_view (h.kind ▸ hview), h.equivalent w]
  · obtain ⟨hv, hw⟩ := kinds_dense hview
    cases v with
    | view p u => cases hv
    | dense d =>
      cases w with
      | view p u => cases hw
      | dense e =>
        cases v' with
        | view p u => cases h.kind
        | dense d' =>
          have hname : d'.name = d.name := h.2
          have hslots : d'.toList = d.toList := h.slots
          simp only [Vect.same, Dense.same, hname, hslots]

end Relabelled

end Vect

/-- How the notions of equality relate. The first two are symmetric and transitive over vectors
    of any storage, and a vector is equivalent to itself exactly if all its slots are numbers;
    the strict one is the other between vectors of one kind and one name. Equality of contiguous
    storage is reflexive as well. Equal storage is strictly equivalent exactly if all its slots
    are numbers, strictly equivalent storage is equal exactly if no zeros of opposite sign meet.
    All give an answer, and none the less for other bindings. -/
theorem equality_notions_relate {x y z : Vect} (hx : x.WellFormed) (hy : y.WellFormed) (hz : z.WellFormed) :
    ((∃ r, x.equivalent y = .ok r ∧ y.equivalent x = .ok r) ∧
      (x.equivalent y = .ok true → y.equivalent z = .ok true → x.equivalent z = .ok true) ∧
      (x.equivalent x = .ok true ↔ ∀ a ∈ x.slots, a.isNaN = false)) ∧
    ((∃ r, x.strictlyEquivalent y = .ok r ∧ y.strictlyEquivalent x = .ok r) ∧
      (x.strictlyEquivalent y = .ok true → y.strictlyEquivalent z = .ok true →
        x.strictlyEquivalent z = .ok true) ∧
      (x.strictlyEquivalent y = .ok true ↔ x.kind = y.kind ∧ x.name = y.name ∧ x.equivalent y = .ok true)) ∧
    (x.kind = .dense → y.kind = .dense → z.kind = .dense →
      x.same x = .ok true ∧ (∃ r, x.same y = .ok r ∧ y.same x = .ok r) ∧
      (x.same y = .ok true → y.same z = .ok true → x.same z = .ok true) ∧
      (x.same y = .ok true → (x.strictlyEquivalent y = .ok true ↔ ∀ a ∈ x.slots, a.isNaN = false)) ∧
      (x.strictlyEquivalent y = .ok true → (x.same y = .ok true ↔
        ∀ (i : Nat) (a b : Float), x.slots[i]? = some a → y.slots[i]? = some b → ¬ OppositeZeros a b))) ∧
    ∀ x' y', x.Relabelled x' → y.Relabelled y' →
      x'.equivalent y' = x.equivalent y ∧ x'.strictlyEquivalent y' = x.strictlyEquivalent y ∧
        x'.same y' = x.same y := by
  refine ⟨⟨?_, Vect.equivalent_trans hx hy hz, Vect.equivalent_self_iff hx⟩,
    ⟨?_, Vect.strictlyEquivalent_trans hx hy hz, Vect.strictlyEquivalent_eq_true_iff⟩, fun hx' hy' hz' => ?_,
    fun x' y' hxx' hyy' => ?_⟩
  · exact ⟨_, Vect.equivalent_eq hx hy, (Vect.equivalent_comm hy hx).trans (Vect.equivalent_eq hx hy)⟩
  · exact ⟨_, Vect.strictlyEquivalent_eq hx hy,
      (Vect.strictlyEquivalent_comm hy hx).trans (Vect.strictlyEquivalent_eq hx hy)⟩
  · obtain ⟨r, hr⟩ := Vect.exists_same hx hy
    refine ⟨(Vect.same_dense_iff hx' hx').mpr ⟨rfl, rfl⟩, ⟨r, hr, (Vect.same_comm hy hx).trans hr⟩, ?_,
      Vect.strict_of_same_iff hx' hy' hx hy, Vect.same_of_strict_iff hx' hy' hx hy⟩
    intro hxy hyz
    obtain ⟨hname, hslots⟩ := (Vect.same_dense_iff hx' hy').mp hxy
    obtain ⟨hname', hslots'⟩ := (Vect.same_dense_iff hy' hz').mp hyz
    exact (Vect.same_dense_iff hx' hz').mpr ⟨hname.trans hname', hslots.trans hslots'⟩
  · have hwf := hyy'.wellFormed.mpr hy
    -- the right operand changes places with the left one and back
    refine ⟨?_, ?_, ?_⟩
    · rw [hxx'.equivalent, Vect.equivalent_comm hx hwf, hyy'.equivalent, Vect.equivalent_comm hy hx]
    · rw [hxx'.strictlyEquivalent, Vect.strictlyEquivalent_comm hx hwf, hyy'.strictlyEquivalent,
        Vect.strictlyEquivalent_comm hy hx]
    · rw [hxx'.same, Vect.same_comm hx hwf, hyy'.same, Vect.same_comm hy hx]

/-- Storage with zeros of opposite sign is strictly equivalent and not equal; storage with a slot
    that is no number is equal to itself and not equivalent. A window in a window is equivalent to
    the first under bindings of any kind. -/
theorem equalities_of_storage_and_window :
    let x : Vect := .dense ⟨#[zero, 2], some "a", none, .empty⟩
    let y : Vect := .dense ⟨#[negZero, 2], some "a", none, ⟨some 4⟩⟩
    let u : Vect := .dense ⟨#[1, zero / zero], none, none, .empty⟩
    let w : Vect := .view (.view (.dense (.ofList [9, 0, 2])) ⟨1, 2, none, none⟩) ⟨0, 2, some "a", none⟩
    let w' : Vect := .view (.view (.dense (.ofList [9, 0, 2])) ⟨1, 2, none, some .empty⟩)
      ⟨0, 2, some "a", some (.ofList [("b", 7)])⟩
    (x.strictlyEquivalent y = .ok true ∧ x.same y ≠ .ok true) ∧
      (u.same u = .ok true ∧ u.equivalent u ≠ .ok true ∧ u.strictlyEquivalent u ≠ .ok true) ∧
      w'.equivalent x = .ok true ∧ w'.strictlyEquivalent x = w.strictlyEquivalent x := by
  intro x y u w w'
  obtain ⟨-, ⟨-, -, hstrict⟩, hdense, -⟩ := @equality_notions_relate x y x trivial trivial trivial
  obtain ⟨⟨-, -, hself⟩, -, hdense', -⟩ := @equality_notions_relate u u u trivial trivial trivial
  obtain ⟨-, -, -, hlabels⟩ := @equality_notions_relate w x x (by decide) trivial trivial
  obtain ⟨hequivalent, hstrict', -⟩ := hlabels w' x ⟨rfl, rfl⟩ ⟨rfl, rfl⟩
  obtain ⟨-, -, -, -, hsame⟩ := hdense rfl rfl rfl
  obtain ⟨hreflexive, -, -, hnumbers, -⟩ := hdense' rfl rfl rfl
  have hxy : x.strictlyEquivalent y = .ok true := hstrict.mpr ⟨rfl, rfl, by decide⟩
  have hwx : w.equivalent x = .ok true := by decide
  have hnan : ¬ ∀ a ∈ u.slots, a.isNaN = false := by decide
  refine ⟨⟨hxy, fun h => ?_⟩,
    ⟨hreflexive, fun h => hnan (hself.mp h), fun h => hnan ((hnumbers hreflexive).mp h)⟩,
    hequivalent.trans hwx, hstrict'⟩
  exact (hsame hxy).mp h 0 zero negZero rfl rfl (by simp only [OppositeZeros]; decide)

end FeatureVector
