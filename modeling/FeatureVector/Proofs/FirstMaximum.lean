/-
  FeatureVector.Proofs.FirstMaximum — which of several largest slots the two scans for a
  maximum settle on, and what they answer without slots and with NaN among them.

  The scan for the index keeps what it has until something larger comes, so the kept element
  stands behind smaller elements and NaN only, and before nothing larger
  (`exists_foldl_keepLarger`). Hence it is the first number that no number exceeds
  (`findIdx?_leads`); negative zero before positive zero, or a negative infinity at the front
  of others, is kept. A NaN at the front is kept for good (`foldl_keepLarger_of_isNaN`).

  `maximum_and_index`: the maximum is NaN exactly if some slot is, negative infinity of no
  slots, and otherwise the first slot that is at least every slot. The index is missing
  exactly if there are no slots, that of a NaN at the front, and otherwise the least whose
  slot is at least every number.
-/
import FeatureVector.Proofs.Maximum

namespace FeatureVector

open Binary64

/-- At least every entry of the list, so that none is NaN. -/
def tops (xs : List Float) (x : Float) : Bool := xs.all fun y => decide (y ≤ x)

/-- A number, and at least every number of the list. -/
def leads (xs : List Float) (x : Float) : Bool := !x.isNaN && xs.all fun y => y.isNaN || decide (y ≤ x)

theorem leads_iff {xs : List Float} {x : Float} :
    leads xs x = true ↔ x.isNaN = false ∧ ∀ y ∈ xs, y.isNaN = false → ¬ x < y := by
  simp only [leads, Bool.and_eq_true, Bool.not_eq_true', List.all_eq_true, Bool.or_eq_true, decide_eq_true_eq]
  constructor
  · intro h
    obtain ⟨hx, hall⟩ := h
    refine ⟨hx, ?_⟩
    intro y hy hnum
    rcases hall y hy with hnan | hle
    · rw [hnum] at hnan
      cases hnan
    · exact (le_iff.mp hle).2.2
  · intro h
    obtain ⟨hx, hall⟩ := h
    refine ⟨hx, ?_⟩
    intro y hy
    cases hnum : y.isNaN with
    | true => exact .inl rfl
    | false => exact .inr (le_iff.mpr ⟨hnum, hx, hall y hy hnum⟩)

theorem tops_iff {xs : List Float} {x : Float} : tops xs x = true ↔ ∀ y ∈ xs, y ≤ x := by
  simp only [tops, List.all_eq_true, decide_eq_true_eq]

/-- Without NaN the two notions are one. -/
theorem tops_eq_leads {xs : List Float} (hne : xs ≠ []) (hnum : ∀ x ∈ xs, x.isNaN = false) :
    tops xs = leads xs := by
  funext x
  rw [Bool.eq_iff_iff, tops_iff, leads_iff]
  constructor
  · intro h
    obtain ⟨z, hz⟩ := List.exists_mem_of_ne_nil xs hne
    refine ⟨(le_iff.mp (h z hz)).2.1, ?_⟩
    intro y hy _
    exact (le_iff.mp (h y hy)).2.2
  · intro h y hy
    exact le_iff.mpr ⟨hnum y hy, h.1, h.2 y hy (hnum y hy)⟩

namespace Vect

/-! ## What is kept -/

theorem foldl_keepLarger_of_isNaN {b : Element} (hb : b.value.isNaN = true) (es : List Element) :
    es.foldl keepLarger b = b := by
  induction es with
  | nil => rfl
  | cons e es ih =>
    have hstep : keepLarger b e = b := by
      refine if_neg ?_
      intro hlt
      rw [(isNaN_of_lt hlt).1] at hb
      cases hb
    rw [List.foldl_cons, hstep]
    exact ih

/-- Before the kept element all is smaller or NaN. -/
theorem exists_foldl_keepLarger {b : Element} (hb : b.value.isNaN = false) (es : List Element) :
    ∃ before after, b :: es = before ++ es.foldl keepLarger b :: after ∧
      ∀ e ∈ before, e.value.isNaN = true ∨ e.value < (es.foldl keepLarger b).value := by
  induction es generalizing b with
  | nil => exact ⟨[], [], rfl, by simp⟩
  | cons a es ih =>
    rw [List.foldl_cons]
    by_cases hlt : b.value < a.value
    · -- The later element takes over, and what was kept so far is smaller than all that is kept from here on.
      have hstep : keepLarger b a = a := if_pos hlt
      have ha := (isNaN_of_lt hlt).2
      obtain ⟨before, after, heq, hbefore⟩ := ih ha
      have hnan := isNaN_foldl_keepLarger a es
      have hkept := foldl_keepLarger_not_lt a es a List.mem_cons_self
      rw [hstep]
      refine ⟨b :: before, after, by rw [heq]; rfl, ?_⟩
      intro e he
      rcases List.mem_cons.mp he with rfl | he
      · exact .inr ((lt_or_lt_of_lt (hnan.trans ha) hlt).resolve_right hkept)
      · exact hbefore e he
    · have hstep : keepLarger b a = b := if_neg hlt
      obtain ⟨before, after, heq, hbefore⟩ := ih hb
      rw [hstep]
      generalize es.foldl keepLarger b = kept at heq hbefore
      cases before with
      | nil =>
        injection heq with hkept
        exact ⟨[], a :: es, by rw [hkept]; rfl, by simp⟩
      | cons b' before =>
        injection heq with hfirst hrest
        subst hfirst
        refine ⟨b :: a :: before, after, by rw [hrest]; rfl, ?_⟩
        intro e he
        rcases List.mem_cons.mp he with rfl | he
        · exact hbefore e List.mem_cons_self
        rcases List.mem_cons.mp he with rfl | he
        · -- What is not larger than a smaller element is smaller itself, or NaN.
          have hless := (hbefore b List.mem_cons_self).resolve_left (by rw [hb]; exact Bool.false_ne_true)
          cases hnum : e.value.isNaN with
          | true => exact .inl rfl
          | false => exact .inr ((lt_or_lt_of_lt hnum hless).resolve_left hlt)
        · exact hbefore e (List.mem_cons_of_mem _ he)

/-! ## The first that leads -/

theorem index_of_elements_every {xs : List Float} {before after : List Element} {e : Element}
    (h : Walk.elements .every 0 xs = before ++ e :: after) : e.index = before.length := by
  have hat : (Walk.elements .every 0 xs)[before.length]? = some e := by simp [h]
  rw [Walk.elements_every, List.getElem?_map, List.getElem?_zipIdx, Option.map_map, Option.map_eq_some_iff] at hat
  obtain ⟨x, -, rfl⟩ := hat
  simp

/-- Behind slots that do not lead comes one that does, and the scan keeps that. -/
theorem exists_leads {x : Float} (hx : x.isNaN = false) (xs : List Float) :
    ∃ before kept after, x :: xs = before ++ kept :: after ∧
      (Walk.elements .every 1 xs).foldl keepLarger ⟨0, x⟩ = ⟨before.length, kept⟩ ∧
      leads (x :: xs) kept = true ∧ ∀ y ∈ before, leads (x :: xs) y = false := by
  have helements : Walk.elements .every 0 (x :: xs) = ⟨0, x⟩ :: Walk.elements .every 1 xs := rfl
  have hvalues := Walk.map_value_elements_every 0 (x :: xs)
  obtain ⟨before, after, heq, hbefore⟩ :=
    exists_foldl_keepLarger (b := ⟨0, x⟩) hx (Walk.elements .every 1 xs)
  have hnum := (isNaN_foldl_keepLarger ⟨0, x⟩ (Walk.elements .every 1 xs)).trans hx
  have hlargest := foldl_keepLarger_not_lt ⟨0, x⟩ (Walk.elements .every 1 xs)
  rw [← helements] at heq hlargest
  generalize (Walk.elements .every 1 xs).foldl keepLarger ⟨0, x⟩ = kept at heq hbefore hnum hlargest
  have hindex := index_of_elements_every heq
  rw [heq, List.map_append, List.map_cons] at hvalues
  refine ⟨before.map Element.value, kept.value, after.map Element.value, hvalues.symm, ?_, ?_, ?_⟩
  · rw [List.length_map, ← hindex]
  · refine leads_iff.mpr ⟨hnum, ?_⟩
    intro y hy _
    rw [← Walk.map_value_elements_every 0 (x :: xs)] at hy
    obtain ⟨e, he, rfl⟩ := List.mem_map.mp hy
    exact hlargest e he
  · intro y hy
    obtain ⟨e, he, rfl⟩ := List.mem_map.mp hy
    rw [Bool.eq_false_iff, ne_eq, leads_iff]
    intro h
    obtain ⟨he', hall⟩ := h
    rcases hbefore e he with hnan | hless
    · rw [he'] at hnan
      cases hnan
    · exact hall kept.value (by rw [← hvalues]; simp) hnum hless

theorem findIdx?_leads {x : Float} (hx : x.isNaN = false) (xs : List Float) :
    (x :: xs).findIdx? (leads (x :: xs)) = some ((Walk.elements .every 1 xs).foldl keepLarger ⟨0, x⟩).index := by
  obtain ⟨before, kept, after, heq, hkept, hleads, hbefore⟩ := exists_leads hx xs
  rw [hkept]
  generalize leads (x :: xs) = p at hleads hbefore
  rw [heq, List.findIdx?_append, List.findIdx?_eq_none_iff.mpr hbefore, List.findIdx?_cons, hleads]
  simp

theorem find?_leads {x : Float} (hx : x.isNaN = false) (xs : List Float) :
    (x :: xs).find? (leads (x :: xs)) = some ((Walk.elements .every 1 xs).foldl keepLarger ⟨0, x⟩).value := by
  obtain ⟨before, kept, after, heq, hkept, hleads, hbefore⟩ := exists_leads hx xs
  rw [hkept, List.find?_eq_some_iff_append]
  refine ⟨hleads, before, after, heq, ?_⟩
  intro y hy
  rw [hbefore y hy]
  rfl

end Vect

/-- Of a vector of either storage: the maximum is NaN exactly if some slot is, negative infinity
    of no slots, and otherwise the first slot that is at least every slot. The index is missing
    exactly if there are no slots, that of the first slot if this is NaN, and otherwise the least
    whose slot is a number and at least every number; so it is the first slot's, too, if all
    are negative infinity. -/
theorem maximum_and_index {v : Vect} (hv : v.WellFormed) :
    ∃ m i?, v.maximum = .ok m ∧ v.argMax = .ok i? ∧
      (m.isNaN = true ↔ ∃ x ∈ v.slots, x.isNaN = true) ∧
      (v.size = 0 → m = negInfinity) ∧
      (0 < v.size → (∀ x ∈ v.slots, x.isNaN = false) → v.slots.find? (tops v.slots) = some m) ∧
      (i? = none ↔ v.size = 0) ∧
      (∀ x, v.slots[0]? = some x → x.isNaN = true → i? = some 0) ∧
      (∀ x, v.slots[0]? = some x → x.isNaN = false → i? = v.slots.findIdx? (leads v.slots)) ∧
      (0 < v.size → (∀ x ∈ v.slots, x = negInfinity) → i? = some 0) := by
  rcases Nat.eq_zero_or_pos v.size with hzero | hpos
  · have hslots : v.slots = [] := List.eq_nil_of_length_eq_zero (by rw [Vect.length_slots hv, hzero])
    have hmaximum := Vect.maximum_eq hv
    have hindex := Vect.argMax_eq hv
    have hnan : negInfinity.isNaN = false := by decide
    rw [hslots] at hmaximum hindex
    rw [hslots, hzero]
    refine ⟨negInfinity, none, hmaximum, hindex, ?_, fun _ => rfl, by simp, by simp, by simp, by simp, by simp⟩
    rw [hnan]
    simp
  · obtain ⟨x, xs, hslots, hmaximum, hindex⟩ := Vect.exists_scans hv hpos
    have hsome : v.size ≠ 0 := Nat.ne_of_gt hpos
    rw [hslots]
    refine ⟨_, _, hmaximum, hindex, ?_, fun hzero => absurd hzero hsome, ?_, by simp [hsome], ?_, ?_, ?_⟩
    · rw [Vect.isNaN_foldl_maxStep, ← List.any_cons, List.any_eq_true]
    · intro _ hnum
      have hx := hnum x List.mem_cons_self
      have hxs : (Walk.elements .every 1 xs |>.map Element.value).any Float.isNaN = false := by
        rw [Walk.map_value_elements_every, List.any_eq_false]
        intro y hy
        rw [hnum y (List.mem_cons_of_mem x hy)]
        exact Bool.false_ne_true
      rw [tops_eq_leads (List.cons_ne_nil x xs) hnum, Vect.find?_leads hx, Vect.value_foldl_keepLarger hxs,
        Walk.map_value_elements_every]
    · intro y hy hnan
      obtain rfl : x = y := Option.some.inj hy
      rw [Vect.foldl_keepLarger_of_isNaN (b := ⟨0, x⟩) hnan]
    · intro y hy hnum
      obtain rfl : x = y := Option.some.inj hy
      rw [Vect.findIdx?_leads hnum]
    · intro _ hall
      have hx := hall x List.mem_cons_self
      have hnum : x.isNaN = false := by
        rw [hx]
        decide
      have hleads : leads (x :: xs) x = true := by
        refine leads_iff.mpr ⟨hnum, ?_⟩
        intro y hy _
        rw [hall y hy, hx]
        exact not_lt_self negInfinity
      rw [← Vect.findIdx?_leads hnum, List.findIdx?_cons, hleads]
      rfl

/-- A window from negative infinity over both zeros, the negative one first, to a NaN, and the
    window inside it without the NaN: the index is that of negative zero in both. -/
theorem maximum_and_index_of_windows :
    let nan := zero / zero
    let root : Vect := .dense (.ofList [7, negInfinity, negZero, zero, nan])
    let outer : Vect := .view root ⟨1, 4, none, none⟩
    let inner : Vect := .view outer ⟨0, 3, none, none⟩
    (∃ m, outer.maximum = .ok m ∧ m.isNaN = true) ∧ outer.argMax = .ok (some 1) ∧
      inner.maximum = .ok negZero ∧ inner.argMax = .ok (some 1) := by
  intro nan root outer inner
  obtain ⟨m, i, hmaximum, hindex, hnan, -, -, -, -, hfirst, -⟩ := maximum_and_index (v := outer) (by decide)
  obtain ⟨m', j, hmaximum', hindex', -, -, htop, -, -, hfirst', -⟩ := maximum_and_index (v := inner) (by decide)
  have hnum : negInfinity.isNaN = false := by decide
  have hi : i = some 1 := (hfirst negInfinity rfl hnum).trans (by decide)
  have hj : j = some 1 := (hfirst' negInfinity rfl hnum).trans (by decide)
  have hm' : some negZero = some m' :=
    Eq.trans (by decide) (htop (by decide) (by decide))
  refine ⟨⟨m, hmaximum, hnan.mpr ⟨nan, ?_, by decide⟩⟩, hi ▸ hindex, ?_, hj ▸ hindex'⟩
  · exact List.mem_of_getElem? (i := 3) rfl
  · rw [hmaximum', Option.some.inj hm']

end FeatureVector
