/-
  FeatureVector.Proofs.Hashing — equal vectors hash alike, in whatever storage.

  A hash is taken of the name, the size and the non-zero slots with their indices. Slots that
  are the same number are either passed over together, as zeros of any sign, or have the same
  bits, so lists of the same numbers have the same walk (`Walk.elements_nonZero_congr`) and
  vectors of one name over them the same hash (`hash_congr`). Each notion of equality that
  looks at the name gives as much (`equal_vectors_hash_alike`). Bindings have no part in it.
-/
import FeatureVector.Proofs.Equality

namespace FeatureVector

open Binary64

/-- Lists of the same numbers have the same non-zero elements. -/
theorem Walk.elements_nonZero_congr {xs ys : List Float} (h : List.Forall₂ SameNumber xs ys) (index : Nat) :
    elements .nonZero index xs = elements .nonZero index ys := by
  induction h generalizing index with
  | nil => rfl
  | @cons x y xs ys hxy _ ih =>
    rw [elements_cons, elements_cons, ih (index + 1)]
    rcases hxy.bits with hbits | ⟨hx, hy⟩
    · rw [Float.toBits_inj.mp hbits]
    · simp [Pace.skips, hx, hy]

theorem SameNumbers.sameNumber {xs ys : List Float} (h : SameNumbers xs ys) : List.Forall₂ SameNumber xs ys :=
  h.imp fun _ _ hxy => .inl hxy

namespace Vect

theorem hash_congr {v w : Vect} (hv : v.WellFormed) (hw : w.WellFormed) (hname : v.name = w.name)
    (hslots : List.Forall₂ SameNumber v.slots w.slots) : v.hash = w.hash := by
  have hsize : v.size = w.size := by rw [← length_slots hv, ← length_slots hw, hslots.length_eq]
  have hwalk : v.nonZero = w.nonZero := by
    rw [nonZero_eq hv, nonZero_eq hw, Walk.elements_nonZero_congr hslots]
  unfold hash
  rw [hname, hsize, hwalk]

theorem hash_eq_of_slots_eq {v w : Vect} (hv : v.WellFormed) (hw : w.WellFormed) (hname : v.name = w.name)
    (hslots : v.slots = w.slots) : v.hash = w.hash :=
  hash_congr hv hw hname (hslots ▸ List.forall₂_same.mpr fun x _ => .refl x)

@[simp] theorem hash_withBindings (v : Vect) (bindings : Option Bindings) :
    (v.withBindings bindings).hash = v.hash := by
  cases v <;> rfl

end Vect

/-- All the comparisons give an answer. Where it is yes, the vectors hash alike: for those that
    leave the name aside, if the names are the same; for contiguous storage also by the same
    bits alone. No bindings change a hash, be they the vector's own or those of what it is a
    window of. -/
theorem equal_vectors_hash_alike {a b : Vect} (ha : a.WellFormed) (hb : b.WellFormed) :
    (∃ r, a.equivalent b = .ok r ∧ (r = true → a.name = b.name → a.hash = b.hash)) ∧
    (∃ r, a.strictlyEquivalent b = .ok r ∧ (r = true → a.hash = b.hash)) ∧
    (∃ r, a.same b = .ok r ∧ (r = true → a.kind = .dense → b.kind = .dense → a.hash = b.hash)) ∧
    (a.name = b.name → a.slots = b.slots → a.hash = b.hash) ∧
    ∀ bindings, (a.withBindings bindings).hash = a.hash := by
  refine ⟨⟨_, Vect.equivalent_eq ha hb, ?_⟩, ⟨_, Vect.strictlyEquivalent_eq ha hb, ?_⟩, ?_, ?_, ?_⟩
  · intro heqv hname
    exact Vect.hash_congr ha hb hname (isEqv_iff.mp heqv).sameNumber
  · intro heqv
    simp only [Bool.and_eq_true, beq_iff_eq] at heqv
    obtain ⟨⟨-, hname⟩, heqv⟩ := heqv
    exact Vect.hash_congr ha hb hname (isEqv_iff.mp heqv).sameNumber
  · obtain ⟨r, hr⟩ := Vect.exists_same ha hb
    refine ⟨r, hr, ?_⟩
    intro htrue ha' hb'
    obtain ⟨hname, hslots⟩ := (Vect.same_dense_iff ha' hb').mp (htrue ▸ hr)
    exact Vect.hash_eq_of_slots_eq ha hb hname hslots
  · intro hname hslots
    exact Vect.hash_eq_of_slots_eq ha hb hname hslots
  · intro bindings
    exact a.hash_withBindings bindings

/-- A window with a zero of the other sign and bindings of its own hashes like the storage it
    equals, and storage without a number in it like itself under other bindings. -/
theorem hashes_of_storage_and_window :
    let a : Vect := .dense ⟨#[zero, 2, zero, 5], some "a", some (.ofList [("x", 1)]), .empty⟩
    let b : Vect := .view (.view (.dense (.ofList [9, 0, negZero, 2, zero, 5])) ⟨1, 5, some "b", none⟩)
      ⟨1, 4, some "a", some (.ofList [("x", 3), ("y", 1)])⟩
    let c : Vect := .dense ⟨#[zero / zero, negInfinity], none, none, .empty⟩
    let c' : Vect := .dense ⟨#[zero / zero, negInfinity], none, some .empty, ⟨some 1⟩⟩
    (a.equivalent b = .ok true ∧ a.name = b.name ∧ a.slots ≠ b.slots ∧ a.hash = b.hash) ∧
      (c.same c' = .ok true ∧ c.equivalent c' = .ok false ∧ c.hash = c'.hash) := by
  intro a b c c'
  have hab : a.equivalent b = .ok true := by decide
  have hcc : c.same c' = .ok true := by decide
  obtain ⟨⟨r, hr, hhash⟩, -⟩ := equal_vectors_hash_alike (a := a) (b := b) (by decide) (by decide)
  obtain ⟨-, -, ⟨r', hr', hhash'⟩, -⟩ := equal_vectors_hash_alike (a := c) (b := c') (by decide) (by decide)
  rw [hab] at hr
  rw [hcc] at hr'
  cases hr
  cases hr'
  exact ⟨⟨hab, rfl, by decide, hhash rfl rfl⟩, hcc, by decide, hhash' rfl rfl rfl⟩

end FeatureVector
