/-
  FeatureVector.Proofs.Slots — a vector of either storage as the plain list of its slots.

  For a vector whose windows lie inside their parents (`Vect.WellFormed`, which is what
  opening windows gives):
  - `length_slots`, `slot_of_lt`: its size and its unchecked reads are those of the list;
  - `nonZero_eq`, `readAll_eq`, `elements_eq`: its walks are walks over the list, whatever
    windows they pass through;
  - `outcome_setSlot`, `slots_store`: a write changes one entry of the list, and nothing of
    the vector's size, name, bindings and windows.
  `slots_eq_root` says where the list stands in the storage under all windows.
-/
import FeatureVector.Proofs.EditLaws
import FeatureVector.Vect.Write

namespace FeatureVector

/-! ## Walks over a list -/

namespace Walk

theorem toList_settle (pace : Pace) (index : Nat) (xs : List Float) :
    (settle pace index xs).toList = elements pace index xs := by
  induction xs generalizing index with
  | nil => rfl
  | cons x xs ih =>
    unfold settle
    by_cases h : pace.skips x
    · simp only [h, if_true, elements]
      exact ih (index + 1)
    · simp only [h]
      rfl

theorem toList_start (pace : Pace) (xs : List Float) : (start pace xs).toList = elements pace 0 xs :=
  toList_settle pace 0 xs

theorem elements_cons (pace : Pace) (index : Nat) (x : Float) (xs : List Float) :
    elements pace index (x :: xs) =
      if pace.skips x then elements pace (index + 1) xs else ⟨index, x⟩ :: elements pace (index + 1) xs := rfl

/-- A walk meets only indices of the list. -/
theorem index_mem_elements {pace : Pace} {index : Nat} {xs : List Float} {e : Element}
    (h : e ∈ elements pace index xs) : index ≤ e.index ∧ e.index < index + xs.length := by
  induction xs generalizing index with
  | nil => cases h
  | cons x xs ih =>
    have tail (ht : e ∈ elements pace (index + 1) xs) :
        index ≤ e.index ∧ e.index < index + (x :: xs).length := by
      have := ih ht
      simp only [List.length_cons]
      omega
    rw [elements_cons] at h
    split at h
    · exact tail h
    · rcases List.mem_cons.mp h with rfl | ht
      · simp
      · exact tail ht

/-- What a walk meets is what stands there. -/
theorem getElem?_of_mem_elements {pace : Pace} {index : Nat} {xs : List Float} {e : Element}
    (h : e ∈ elements pace index xs) : xs[e.index - index]? = some e.value := by
  induction xs generalizing index with
  | nil => cases h
  | cons x xs ih =>
    have tail (ht : e ∈ elements pace (index + 1) xs) : (x :: xs)[e.index - index]? = some e.value := by
      have hge := (index_mem_elements ht).1
      rw [show e.index - index = e.index - (index + 1) + 1 by omega, List.getElem?_cons_succ]
      exact ih ht
    rw [elements_cons] at h
    split at h
    · exact tail h
    · rcases List.mem_cons.mp h with rfl | ht
      · simp
      · exact tail ht

/-- A walk is the list with its indices, less what is passed over. -/
theorem elements_eq_filter (pace : Pace) (index : Nat) (xs : List Float) :
    elements pace index xs = ((xs.zipIdx index).filter fun p => !pace.skips p.1).map fun p => ⟨p.2, p.1⟩ := by
  induction xs generalizing index with
  | nil => rfl
  | cons x xs ih =>
    rw [elements_cons, List.zipIdx_cons]
    by_cases hx : pace.skips x
    · simp [hx, ih]
    · simp [hx, ih]

/-- A walk comes to nothing if it passes over everything. -/
theorem isEmpty_elements (pace : Pace) (index : Nat) (xs : List Float) :
    (elements pace index xs).isEmpty = xs.all pace.skips := by
  induction xs generalizing index with
  | nil => rfl
  | cons x xs ih =>
    rw [elements_cons, List.all_cons, ← ih (index + 1)]
    cases pace.skips x <;> simp

theorem elements_every (index : Nat) (xs : List Float) :
    elements .every index xs = (xs.zipIdx index).map fun p => ⟨p.2, p.1⟩ := by
  rw [elements_eq_filter]
  exact congrArg _ (List.filter_eq_self.mpr fun _ _ => rfl)

theorem map_value_elements_every (index : Nat) (xs : List Float) :
    (elements .every index xs).map Element.value = xs := by
  rw [elements_every, List.map_map]
  exact List.zipIdx_map_fst index xs

/-! A walk through a window is a walk over the part of the list it shows. -/

theorem dropWhile_elements (pace : Pace) (index n : Nat) (xs : List Float) :
    (elements pace index xs).dropWhile (·.index < index + n) = elements pace (index + n) (xs.drop n) := by
  induction xs generalizing index n with
  | nil => simp [elements]
  | cons x xs ih =>
    cases n with
    | zero =>
      have hge : ∀ e ∈ elements pace index (x :: xs), ¬ e.index < index := fun e he =>
        Nat.not_lt.mpr (index_mem_elements he).1
      cases hl : elements pace index (x :: xs) with
      | nil => simp [hl]
      | cons e es => simp [hl, hge e (hl ▸ List.mem_cons_self)]
    | succ n =>
      have hn : index + (n + 1) = index + 1 + n := by omega
      rw [List.drop_succ_cons, hn, ← ih (index + 1) n, elements_cons]
      split
      · rfl
      · rw [List.dropWhile_cons_of_pos (by simp; omega)]

theorem takeWhile_elements (pace : Pace) (index n : Nat) (xs : List Float) :
    (elements pace index xs).takeWhile (·.index < index + n) = elements pace index (xs.take n) := by
  induction xs generalizing index n with
  | nil => simp [elements]
  | cons x xs ih =>
    cases n with
    | zero =>
      cases hl : elements pace index (x :: xs) with
      | nil => rfl
      | cons e es =>
        have hge := (index_mem_elements (hl ▸ List.mem_cons_self : e ∈ elements pace index (x :: xs))).1
        exact List.takeWhile_cons_of_neg (by simpa using hge)
    | succ n =>
      have hn : index + (n + 1) = index + 1 + n := by omega
      rw [List.take_succ_cons, elements_cons, elements_cons]
      split
      · rw [hn]
        exact ih (index + 1) n
      · rw [List.takeWhile_cons_of_pos (by simp), hn, ih (index + 1) n]

theorem map_elements_sub (pace : Pace) (offset index : Nat) (xs : List Float) :
    (elements pace (offset + index) xs).map (fun e => ⟨e.index - offset, e.value⟩) =
      elements pace index xs := by
  induction xs generalizing index with
  | nil => rfl
  | cons x xs ih =>
    rw [elements_cons, elements_cons]
    split
    · exact ih (index + 1)
    · rw [List.map_cons, Nat.add_assoc, ih (index + 1), Nat.add_sub_cancel_left]

end Walk

/-! ## Storage -/

namespace Dense

theorem put_of_lt {d : Dense} {i : Nat} (h : i < d.slots.size) (x : Float) :
    d.put i x = .ok { d with slots := d.slots.setIfInBounds i x, cache := .empty } := by
  unfold put
  rw [dif_pos h]
  simp only [Array.setIfInBounds, h, write]
  rfl

/-- Writes at indices in range succeed, keep name and bindings, and drop the cached length. -/
theorem fill_of_lt {d : Dense} {es : List Element} {value : Element → Except Fault Float} {f : Element → Float}
    (hi : ∀ e ∈ es, e.index < d.slots.size) (hv : ∀ e ∈ es, value e = .ok (f e)) :
    d.fill es value = .ok { d with
      slots := es.foldl (fun xs e => xs.setIfInBounds e.index (f e)) d.slots
      cache := if es.isEmpty then d.cache else .empty } := by
  unfold fill
  induction es generalizing d with
  | nil => rfl
  | cons e es ih =>
    rw [List.foldlM_cons, hv e List.mem_cons_self]
    show (d.put e.index (f e) >>= _) = _
    rw [put_of_lt (hi e List.mem_cons_self)]
    refine (ih (fun e' he' => ?_) fun e' he' => hv e' (List.mem_cons_of_mem _ he')).trans ?_
    · simpa using hi e' (List.mem_cons_of_mem _ he')
    · simp

theorem size_foldl_setIfInBounds (es : List Element) (f : Element → Float) (xs : Array Float) :
    (es.foldl (fun xs e => xs.setIfInBounds e.index (f e)) xs).size = xs.size := by
  induction es generalizing xs with
  | nil => rfl
  | cons e es ih =>
    rw [List.foldl_cons, ih]
    exact Array.size_setIfInBounds

/-- Writing every slot in ascending order leaves nothing of what was there. -/
theorem foldlM_put_range {d : Dense} {step : Dense → Nat → Except Fault Dense} {f : Nat → Float} (k : Nat)
    (hk : k ≤ d.slots.size) (hstep : ∀ d, ∀ i < k, step d i = d.put i (f i)) :
    (List.range k).foldlM step d = .ok { d with
      slots := ((List.range k).map f ++ d.toList.drop k).toArray
      cache := if k = 0 then d.cache else .empty } := by
  induction k with
  | zero => simp [toList, pure, Except.pure]
  | succ k ih =>
    have hlen : ((List.range k).map f).length = k := by simp
    have hd : d.toList.drop k = d.slots[k] :: d.toList.drop (k + 1) := by
      rw [List.drop_eq_getElem_cons (by simp [toList]; omega)]
      simp [toList]
    rw [List.range_succ, List.foldlM_append, ih (by omega) fun d i hi => hstep d i (by omega)]
    show step _ k >>= pure = _
    rw [hstep _ k (by omega), put_of_lt (by simp [toList]; omega)]
    simp [hd, pure, Except.pure, bind, Except.bind]

end Dense

namespace Vect

/-! ## Reads -/

theorem length_slots {v : Vect} (h : v.WellFormed) : v.slots.length = v.size := by
  induction v with
  | dense d => exact Array.length_toList
  | view p w ih =>
    have hw := h.1
    rw [show (view p w).slots = (p.slots.drop w.offset).take w.length from rfl, List.length_take,
      List.length_drop, ih h.2]
    exact Nat.min_eq_left (by omega)

theorem slot_of_lt {v : Vect} (h : v.WellFormed) {i : Nat} (hi : i < v.size) :
    v.slot i = .ok (v.slots[i]?.getD Binary64.zero) := by
  induction v generalizing i with
  | dense d =>
    have hi' : i < d.slots.size := hi
    simp [slot, Dense.slot, slots, Dense.toList, Array.getElem?_eq_getElem hi']
  | view p w ih =>
    have hw := h.1
    have hi' : i < w.length := hi
    rw [show (view p w).slot i = p.slot (w.offset + i) from rfl, ih h.2 (by omega)]
    simp [slots, hi']

theorem get_eq {v : Vect} (h : v.WellFormed) (i : Nat) :
    v.get i = match v.slots[i]? with
      | some x => .ok x
      | none => .error (.index i v.size) := by
  unfold get checkIndex
  by_cases hi : i < v.size
  · have hl : i < v.slots.length := by rw [length_slots h]; exact hi
    rw [if_pos hi, List.getElem?_eq_getElem hl]
    refine (slot_of_lt h hi).trans ?_
    rw [List.getElem?_eq_getElem hl]
    rfl
  · have hl : v.slots.length ≤ i := by rw [length_slots h]; omega
    rw [if_neg hi, List.getElem?_eq_none hl]
    rfl

theorem nonZero_eq {v : Vect} (h : v.WellFormed) : v.nonZero = Walk.elements .nonZero 0 v.slots := by
  induction v with
  | dense d => exact Walk.toList_start .nonZero d.toList
  | view p w ih =>
    have hd := Walk.dropWhile_elements .nonZero 0 w.offset p.slots
    have ht := Walk.takeWhile_elements .nonZero w.offset w.length (p.slots.drop w.offset)
    have hm := Walk.map_elements_sub .nonZero w.offset 0 ((p.slots.drop w.offset).take w.length)
    simp only [Nat.zero_add, Nat.add_zero] at hd hm
    unfold nonZero
    rw [ih h.2, hd, ht, hm]
    rfl

theorem index_lt_of_mem_nonZero {v : Vect} (h : v.WellFormed) {e : Element} (he : e ∈ v.nonZero) :
    e.index < v.size := by
  rw [nonZero_eq h] at he
  have := (Walk.index_mem_elements he).2
  rw [length_slots h] at this
  omega

theorem readAll_eq {v : Vect} (h : v.WellFormed) : v.readAll = .ok (Walk.elements .every 0 v.slots) := by
  have hread : ∀ i ∈ List.range v.size, (return ⟨i, ← v.slot i⟩ : Except Fault Element) =
      .ok ((fun i => ⟨i, v.slots[i]?.getD Binary64.zero⟩) i) := by
    intro i hi
    rw [slot_of_lt h (List.mem_range.mp hi)]
    rfl
  unfold readAll
  rw [Edit.mapM_ok hread, Walk.elements_every]
  congr 1
  refine List.ext_getElem (by simp [length_slots h]) fun i h₁ h₂ => ?_
  have hl : i < v.slots.length := by simpa using h₂
  simp [hl]

theorem elements_eq {v : Vect} (h : v.WellFormed) : v.elements = .ok (Walk.elements .every 0 v.slots) := by
  cases v with
  | dense d => exact congrArg Except.ok (Walk.toList_start .every d.toList)
  | view p w => exact readAll_eq h

/-! ## Windows -/

theorem wellFormed_window {v v' : Vect} {w : Window} (h : v.WellFormed) (hw : v.window w = .ok v') :
    v'.WellFormed := by
  unfold window at hw
  split at hw
  · cases hw
  · split at hw
    · cases hw
    · rename_i _ hle
      cases hw
      exact ⟨Nat.not_lt.mp hle, h⟩

theorem wellFormed_windows {v v' : Vect} {ws : List Window} (h : v.WellFormed) (hw : v.windows ws = .ok v') :
    v'.WellFormed := by
  unfold windows at hw
  induction ws generalizing v with
  | nil =>
    cases hw
    exact h
  | cons w ws ih =>
    rw [List.foldlM_cons] at hw
    obtain ⟨u, hu, hw⟩ := Edit.bind_eq_ok hw
    exact ih (wellFormed_window h hu) hw

/-- Where the vector's first slot stands in the storage under all windows. -/
def base : Vect → Nat
  | dense _ => 0
  | view p w => p.base + w.offset

theorem slots_eq_root {v : Vect} (h : v.WellFormed) : v.slots = (v.root.toList.drop v.base).take v.size := by
  induction v with
  | dense d => exact (List.take_of_length_le (Nat.le_of_eq (length_slots h))).symm
  | view p w ih =>
    have hw := h.1
    simp only [slots, root, base, size]
    rw [ih h.2, List.drop_take, List.take_take, List.drop_drop, Nat.min_eq_left (by omega)]

/-! ## Writes -/

/-- The vector after an unchecked write. Past the end of the storage only the cached length
    is dropped. -/
def store (i : Nat) (x : Float) : Vect → Vect
  | dense d => dense { d with slots := d.slots.setIfInBounds i x, cache := .empty }
  | view p w => view (p.store (w.offset + i) x) w

@[simp] theorem size_store (v : Vect) (i : Nat) (x : Float) : (v.store i x).size = v.size := by
  cases v <;> simp [store, size, Dense.size]

@[simp] theorem name_store (v : Vect) (i : Nat) (x : Float) : (v.store i x).name = v.name := by
  cases v <;> rfl

@[simp] theorem bindings_store (v : Vect) (i : Nat) (x : Float) : (v.store i x).bindings = v.bindings := by
  cases v <;> rfl

theorem wellFormed_store {v : Vect} (h : v.WellFormed) (i : Nat) (x : Float) : (v.store i x).WellFormed := by
  induction v generalizing i with
  | dense d => trivial
  | view p w ih => exact ⟨by rw [size_store]; exact h.1, ih h.2 _⟩

theorem slots_store {v : Vect} (h : v.WellFormed) {i : Nat} (hi : i < v.size) (x : Float) :
    (v.store i x).slots = v.slots.set i x := by
  induction v generalizing i with
  | dense d => simp [store, slots, Dense.toList]
  | view p w ih =>
    have hw := h.1
    have hi' : i < w.length := hi
    simp only [store, slots]
    rw [ih h.2 (by omega), List.drop_set, if_neg (by omega), List.take_set, Nat.add_sub_cancel_left]

theorem outcome_setSlot_dense (d : Dense) (i : Nat) (x : Float) :
    (setSlot i x).outcome (dense d) =
      (if i < d.slots.size then .ok () else .error .overrun, (dense d).store i x) := by
  unfold Edit.outcome setSlot setSlotIn store
  by_cases h : i < d.slots.size
  · simp only [dif_pos h, if_pos h, Array.setIfInBounds, Dense.write]
  · simp only [dif_neg h, if_neg h, Array.setIfInBounds, Dense.dropCache]

theorem outcome_setSlot_view (p : Vect) (w : Window) (i : Nat) (x : Float) :
    (setSlot i x).outcome (view p w) =
      (((setSlot (w.offset + i) x).outcome p).1, view ((setSlot (w.offset + i) x).outcome p).2 w) := by
  unfold Edit.outcome setSlot
  rw [setSlotIn]
  cases setSlotIn (w.offset + i) x p <;> rfl

theorem state_setSlot (v : Vect) (i : Nat) (x : Float) : ((setSlot i x).outcome v).2 = v.store i x := by
  induction v generalizing i with
  | dense d => rw [outcome_setSlot_dense]
  | view p w ih =>
    rw [outcome_setSlot_view, ih]
    rfl

theorem outcome_setSlot {v : Vect} (h : v.WellFormed) {i : Nat} (hi : i < v.size) (x : Float) :
    (setSlot i x).outcome v = (.ok (), v.store i x) := by
  induction v generalizing i with
  | dense d =>
    have hi' : i < d.slots.size := hi
    rw [outcome_setSlot_dense, if_pos hi']
  | view p w ih =>
    have hw := h.1
    have hi' : i < w.length := hi
    rw [outcome_setSlot_view, ih h.2 (by omega)]
    rfl

end Vect

end FeatureVector
