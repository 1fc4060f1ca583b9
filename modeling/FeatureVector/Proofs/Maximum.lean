/-
  FeatureVector.Proofs.Maximum — the largest slot and the index of the largest slot.

  Two scans find them, and part over NaN. In the scan for the value a NaN replaces what was
  found and stays (`isNaN_foldl_maxStep`). In the scan for the index a slot replaces what was
  found if it is larger, and NaN is neither larger than a slot nor smaller: it stays where it
  comes first and is passed over elsewhere (`isNaN_foldl_keepLarger`). Without NaN the two go in
  step (`value_foldl_keepLarger`).

  The index always points at a slot than which none is larger (`foldl_keepLarger_not_lt`), but at
  the maximum exactly if NaN, where there is one, comes first (`index_of_maximum_iff`). Otherwise
  the maximum is NaN and the index points at a number: `index_of_maximum_misses_nan`.
-/
import FeatureVector.Proofs.Binary64.Order
import FeatureVector.Proofs.CheckedEdits

namespace FeatureVector

open Binary64

/-- If some slot is NaN, the first one is. -/
def NaNFirst (xs : List Float) : Prop := (∃ x ∈ xs, x.isNaN = true) → ∃ x, xs.head? = some x ∧ x.isNaN = true

theorem nanFirst_cons {x : Float} {xs : List Float} :
    NaNFirst (x :: xs) ↔ x.isNaN = true ∨ xs.any Float.isNaN = false := by
  unfold NaNFirst
  rw [← List.any_eq_true, List.any_cons, List.head?_cons]
  cases hx : x.isNaN with
  | true => exact ⟨fun _ => .inl rfl, fun _ _ => ⟨x, rfl, hx⟩⟩
  | false =>
    rw [Bool.false_or]
    constructor
    · intro h
      refine .inr (Bool.eq_false_iff.mpr fun hany => ?_)
      obtain ⟨y, hy, hnan⟩ := h hany
      cases hy
      rw [hx] at hnan
      cases hnan
    · rintro (hnan | hnone) hany
      · cases hnan
      · rw [hnone] at hany
        cases hany

namespace Vect

/-! ## The scan for the value -/

theorem maxStep_of_isNaN_eq_false {x : Float} (hx : x.isNaN = false) (m : Float) :
    maxStep m x = if m < x then x else m := by
  unfold maxStep
  rw [hx, Bool.false_or]
  simp only [decide_eq_true_eq]

theorem isNaN_maxStep (m x : Float) : (maxStep m x).isNaN = (m.isNaN || x.isNaN) := by
  cases hx : x.isNaN with
  | true =>
    have hstep : maxStep m x = x := if_pos (by rw [hx, Bool.true_or])
    rw [hstep, hx, Bool.or_true]
  | false =>
    rw [maxStep_of_isNaN_eq_false hx, Bool.or_false]
    split
    · rename_i hlt
      rw [hx, (isNaN_of_lt hlt).1]
    · rfl

theorem isNaN_foldl_maxStep (m : Float) (xs : List Float) :
    (xs.foldl maxStep m).isNaN = (m.isNaN || xs.any Float.isNaN) := by
  induction xs generalizing m with
  | nil => rw [List.foldl_nil, List.any_nil, Bool.or_false]
  | cons x xs ih => rw [List.foldl_cons, ih, isNaN_maxStep, List.any_cons, Bool.or_assoc]

/-- Whatever comes first replaces negative infinity. -/
theorem maxStep_negInfinity (x : Float) : maxStep negInfinity x = x := by
  cases hx : x.isNaN with
  | true => exact if_pos (by rw [hx, Bool.true_or])
  | false =>
    rw [maxStep_of_isNaN_eq_false hx]
    split
    · rfl
    · rename_i hnot
      by_contra hne
      exact hnot (negInfinity_lt_iff.mpr ⟨hx, Ne.symm hne⟩)

/-! ## The scan for the index -/

/-- The earlier of two elements, unless the later is larger. -/
def keepLarger (b e : Element) : Element := if b.value < e.value then e else b

theorem maxElementStep_some (b e : Element) : maxElementStep (some b) e = some (keepLarger b e) :=
  (apply_ite some _ _ _).symm

theorem foldl_maxElementStep_some (b : Element) (es : List Element) :
    es.foldl maxElementStep (some b) = some (es.foldl keepLarger b) := by
  induction es generalizing b with
  | nil => rfl
  | cons e es ih => rw [List.foldl_cons, maxElementStep_some, ih, List.foldl_cons]

theorem foldl_keepLarger_mem (b : Element) (es : List Element) : es.foldl keepLarger b ∈ b :: es := by
  induction es generalizing b with
  | nil => exact List.mem_singleton_self b
  | cons e es ih =>
    rw [List.foldl_cons]
    rcases List.mem_cons.mp (ih (keepLarger b e)) with h | h
    · rw [h]
      unfold keepLarger
      split
      · exact List.mem_cons_of_mem _ List.mem_cons_self
      · exact List.mem_cons_self
    · exact List.mem_cons_of_mem _ (List.mem_cons_of_mem _ h)

theorem isNaN_keepLarger (b e : Element) : (keepLarger b e).value.isNaN = b.value.isNaN := by
  unfold keepLarger
  split
  · rename_i hlt
    rw [(isNaN_of_lt hlt).1, (isNaN_of_lt hlt).2]
  · rfl

theorem isNaN_foldl_keepLarger (b : Element) (es : List Element) :
    (es.foldl keepLarger b).value.isNaN = b.value.isNaN := by
  induction es generalizing b with
  | nil => rfl
  | cons e es ih => rw [List.foldl_cons, ih, isNaN_keepLarger]

theorem keepLarger_not_lt (b e : Element) :
    ¬ (keepLarger b e).value < b.value ∧ ¬ (keepLarger b e).value < e.value := by
  unfold keepLarger
  split
  · rename_i hlt
    exact ⟨not_lt_of_lt hlt, not_lt_self _⟩
  · rename_i hnot
    exact ⟨not_lt_self _, hnot⟩

/-- Nothing is larger than what is kept, though NaN compares with nothing. -/
theorem foldl_keepLarger_not_lt (b : Element) (es : List Element) :
    ∀ e ∈ b :: es, ¬ (es.foldl keepLarger b).value < e.value := by
  induction es generalizing b with
  | nil =>
    intro e he
    rw [List.mem_singleton.mp he]
    exact not_lt_self _
  | cons a es ih =>
    intro e he
    rw [List.foldl_cons]
    have hnan := (isNaN_foldl_keepLarger (keepLarger b a) es).symm
    have hkept := ih (keepLarger b a) _ List.mem_cons_self
    rcases List.mem_cons.mp he with rfl | he
    · exact not_lt_trans hnan hkept (keepLarger_not_lt _ a).1
    · rcases List.mem_cons.mp he with rfl | he
      · exact not_lt_trans hnan hkept (keepLarger_not_lt b _).2
      · exact ih (keepLarger b a) e (List.mem_cons_of_mem _ he)

/-! ## Both scans -/

theorem value_keepLarger {b e : Element} (he : e.value.isNaN = false) :
    (keepLarger b e).value = maxStep b.value e.value := by
  rw [maxStep_of_isNaN_eq_false he]
  exact apply_ite Element.value _ _ _

/-- Past the first element no NaN: the scans go in step. -/
theorem value_foldl_keepLarger {es : List Element} (hes : (es.map Element.value).any Float.isNaN = false)
    (b : Element) : (es.foldl keepLarger b).value = (es.map Element.value).foldl maxStep b.value := by
  induction es generalizing b with
  | nil => rfl
  | cons e es ih =>
    rw [List.map_cons, List.any_cons, Bool.or_eq_false_iff] at hes
    rw [List.foldl_cons, ih hes.2, value_keepLarger hes.1, List.map_cons, List.foldl_cons]

theorem value_foldl_keepLarger_iff (b : Element) (es : List Element) :
    (es.foldl keepLarger b).value = (es.map Element.value).foldl maxStep b.value ↔
      NaNFirst (b.value :: es.map Element.value) := by
  have hindex := isNaN_foldl_keepLarger b es
  have hvalue := isNaN_foldl_maxStep b.value (es.map Element.value)
  rw [nanFirst_cons]
  constructor
  · intro heq
    rw [heq, hvalue] at hindex
    cases hb : b.value.isNaN with
    | true => exact .inl rfl
    | false =>
      rw [hb, Bool.false_or] at hindex
      exact .inr hindex
  · rintro (hb | hnone)
    · rw [hb] at hindex
      rw [hb, Bool.true_or] at hvalue
      exact value_inj ((isNaN_iff.mp hindex).trans (isNaN_iff.mp hvalue).symm)
    · exact value_foldl_keepLarger hnone b

variable {v : Vect} (hv : v.WellFormed)

include hv

theorem maximum_eq : v.maximum = .ok (v.slots.foldl maxStep negInfinity) := by
  unfold maximum
  rw [readAll_eq hv]
  show Except.ok (List.foldl _ _ _) = _
  rw [← List.foldl_map, Walk.map_value_elements_every]

theorem argMax_eq : v.argMax =
    .ok (((Walk.elements .every 0 v.slots).foldl maxElementStep none).map (·.index)) := by
  unfold argMax
  rw [readAll_eq hv]
  rfl

/-- The scans of a vector with slots, after the first. -/
theorem exists_scans (hpos : 0 < v.size) : ∃ x xs, v.slots = x :: xs ∧ v.maximum = .ok (xs.foldl maxStep x) ∧
    v.argMax = .ok (some ((Walk.elements .every 1 xs).foldl keepLarger ⟨0, x⟩).index) := by
  rw [← length_slots hv] at hpos
  obtain ⟨x, xs, hslots⟩ := List.exists_cons_of_length_pos hpos
  refine ⟨x, xs, hslots, ?_, ?_⟩
  · rw [maximum_eq hv, hslots, List.foldl_cons, maxStep_negInfinity]
  · have hfirst : Walk.elements .every 0 (x :: xs) = ⟨0, x⟩ :: Walk.elements .every 1 xs := rfl
    have hstart : maxElementStep none ⟨0, x⟩ = some ⟨0, x⟩ := rfl
    rw [argMax_eq hv, hslots, hfirst, List.foldl_cons, hstart, foldl_maxElementStep_some]
    rfl

end Vect

/-- A vector with slots has a maximum and an index of a slot than which none is larger. The slot
    there holds the maximum (the same bits, or both are NaN) exactly if NaN, where there is one,
    comes first. -/
theorem index_of_maximum_iff {v : Vect} (hv : v.WellFormed) (hpos : 0 < v.size) :
    ∃ m i x, v.maximum = .ok m ∧ v.argMax = .ok (some i) ∧ i < v.size ∧ v.slots[i]? = some x ∧
      (∀ y ∈ v.slots, ¬ x < y) ∧ (x = m ↔ NaNFirst v.slots) ∧ (x ≠ m → m.isNaN = true ∧ x.isNaN = false) := by
  obtain ⟨x, xs, hslots, hmaximum, hindex⟩ := Vect.exists_scans hv hpos
  have helements : Walk.elements .every 0 v.slots = ⟨0, x⟩ :: Walk.elements .every 1 xs := by
    rw [hslots]
    rfl
  have hmem := Vect.foldl_keepLarger_mem ⟨0, x⟩ (Walk.elements .every 1 xs)
  have hlargest := Vect.foldl_keepLarger_not_lt ⟨0, x⟩ (Walk.elements .every 1 xs)
  have hiff := Vect.value_foldl_keepLarger_iff ⟨0, x⟩ (Walk.elements .every 1 xs)
  have hnan := Vect.isNaN_foldl_keepLarger ⟨0, x⟩ (Walk.elements .every 1 xs)
  rw [Walk.map_value_elements_every] at hiff
  rw [← helements] at hmem hlargest
  generalize (Walk.elements .every 1 xs).foldl Vect.keepLarger ⟨0, x⟩ = best at hindex hmem hlargest hiff hnan
  have hlt := (Walk.index_mem_elements hmem).2
  rw [Nat.zero_add, Vect.length_slots hv] at hlt
  refine ⟨_, _, best.value, hmaximum, hindex, hlt, Walk.getElem?_of_mem_elements hmem, fun y hy => ?_,
    hslots ▸ hiff, fun hne => ?_⟩
  · rw [← Walk.map_value_elements_every 0 v.slots] at hy
    obtain ⟨e, he, rfl⟩ := List.mem_map.mp hy
    exact hlargest e he
  · have hbehind := mt hiff.mpr hne
    rw [nanFirst_cons, not_or, Bool.not_eq_true, Bool.not_eq_false] at hbehind
    rw [hnan, Vect.isNaN_foldl_maxStep, hbehind.2, Bool.or_true]
    exact ⟨rfl, hbehind.1⟩

/-- Two windows over storage with NaN at both ends: the inner one begins behind the first NaN
    and ends before the last, the outer one begins with NaN. -/
theorem index_of_maximum_in_windows :
    let nan := zero / zero
    let root : Vect := .dense (.ofList [7, nan, negZero, negInfinity, 4, zero, 4, nan])
    let outer : Vect := .view root ⟨1, 7, none, none⟩
    let inner : Vect := .view outer ⟨1, 5, none, none⟩
    (∃ i x, inner.argMax = .ok (some i) ∧ inner.slots[i]? = some x ∧ inner.maximum = .ok x) ∧
      ∃ i x, outer.argMax = .ok (some i) ∧ outer.slots[i]? = some x ∧ outer.maximum = .ok x := by
  intro nan root outer inner
  obtain ⟨m, i, x, hmaximum, hindex, -, hx, -, hiff, -⟩ := index_of_maximum_iff (v := inner) (by decide) (by decide)
  obtain ⟨m', j, y, hmaximum', hindex', -, hy, -, hiff', -⟩ :=
    index_of_maximum_iff (v := outer) (by decide) (by decide)
  have hnone : [negInfinity, 4, zero, 4].any Float.isNaN = false := by decide
  have hfirst : nan.isNaN = true := by decide
  have hinner : x = m := hiff.mpr (nanFirst_cons.mpr (.inr hnone))
  have houter : y = m' := hiff'.mpr (nanFirst_cons.mpr (.inl hfirst))
  exact ⟨⟨i, x, hindex, hx, hinner ▸ hmaximum⟩, j, y, hindex', hy, houter ▸ hmaximum'⟩

/-- The maximum is NaN, and the index is that of one. -/
theorem index_of_maximum_misses_nan :
    let v : Vect := .dense (.ofList [1, zero / zero])
    ∃ m, v.maximum = .ok m ∧ m.isNaN = true ∧ v.argMax = .ok (some 0) ∧ v.slots[0]? = some 1 := by
  intro v
  exact ⟨zero / zero, by decide, by decide, by decide, rfl⟩

end FeatureVector
