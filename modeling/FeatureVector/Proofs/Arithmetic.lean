/-
  FeatureVector.Proofs.Arithmetic — the slots of vectors computed from vectors.

  Every such vector starts as a clone, which holds what the vector holds, but for the sign of
  a window's zeros (`clone_slots`). Then it is written along a walk over a list of its size:
  it keeps its slot where the walk passes over an entry and takes the new value elsewhere
  (`Dense.fill_elements`, `fill_clone`). For a sum or a difference that list is the second
  operand (`fill_clone_zip`), for a product or a quotient the vector itself
  (`fill_clone_own`). The cached length goes with the first write, so a list without a
  non-zero entry leaves it.
-/
import FeatureVector.Proofs.Assignments
import FeatureVector.Proofs.Copies

namespace FeatureVector

namespace Dense

theorem toList_foldl_setIfInBounds (es : List Element) (f : Element → Float) (xs : Array Float) :
    (es.foldl (fun xs e => xs.setIfInBounds e.index (f e)) xs).toList =
      es.foldl (fun xs e => xs.modify e.index fun _ => f e) xs.toList := by
  induction es generalizing xs with
  | nil => rfl
  | cons e es ih =>
    have hwrite : (xs.setIfInBounds e.index (f e)).toList = xs.toList.modify e.index fun _ => f e := by
      rw [Array.toList_setIfInBounds, List.modify_eq_set]
    rw [List.foldl_cons, List.foldl_cons, ih, hwrite]

/-- Writes along a walk over a list of the storage's size. -/
theorem foldl_setIfInBounds_elements (pace : Pace) (f : Element → Float) {xs : Array Float} {ys : List Float}
    (h : xs.size = ys.length) :
    (Walk.elements pace 0 ys).foldl (fun xs e => xs.setIfInBounds e.index (f e)) xs =
      (List.zipWith (fun x p => if pace.skips p.1 then x else f ⟨p.2, p.1⟩) xs.toList ys.zipIdx).toArray := by
  refine Array.ext' ?_
  rw [toList_foldl_setIfInBounds]
  exact Walk.foldl_modify_elements pace (fun e _ => f e) (Array.length_toList.trans h)

theorem fill_elements {d : Dense} {pace : Pace} {ys : List Float} (h : d.size = ys.length)
    {value : Element → Except Fault Float} {f : Element → Float}
    (hv : ∀ e ∈ Walk.elements pace 0 ys, value e = .ok (f e)) :
    d.fill (Walk.elements pace 0 ys) value = .ok { d with
      slots := (List.zipWith (fun x p => if pace.skips p.1 then x else f ⟨p.2, p.1⟩) d.toList ys.zipIdx).toArray
      cache := if (Walk.elements pace 0 ys).isEmpty then d.cache else .empty } := by
  have hindex : ∀ e ∈ Walk.elements pace 0 ys, e.index < d.slots.size := by
    intro e he
    have hlt := (Walk.index_mem_elements he).2
    have hsize : d.slots.size = ys.length := h
    omega
  rw [fill_of_lt hindex hv, foldl_setIfInBounds_elements pace f h]
  rfl

end Dense

namespace Vect

/-- What a clone holds where the vector holds `x`: a window's zeros lose their sign. -/
def copied (v : Vect) (x : Float) : Float :=
  match v with
  | dense _ => x
  | view _ _ => if x == Binary64.zero then Binary64.zero else x

theorem clone_slots {v : Vect} (h : v.WellFormed) : v.clone = .ok {
    slots := (v.slots.map v.copied).toArray
    name := v.name
    bindings := v.bindings
    cache := v.ownCache } := by
  cases v with
  | dense d =>
    have hslots : d.toList.map (dense d).copied = d.toList := List.map_id _
    show Except.ok d = _
    simp only [slots, hslots]
    rfl
  | view p w =>
    have hlength : (view p w).slots.length = w.length := length_slots h
    have hsize : (Array.replicate w.length Binary64.zero).size = (view p w).slots.length := by
      rw [hlength, Array.size_replicate]
    rw [clone_view h, nonZero_eq h, Dense.foldl_setIfInBounds_elements .nonZero Element.value hsize]
    have hslots : List.zipWith (fun x p => if Pace.nonZero.skips p.1 then x else p.1)
        (List.replicate w.length Binary64.zero) (view p w).slots.zipIdx = (view p w).slots.map (view p w).copied := by
      refine List.ext_getElem (by simp [hlength]) fun i _ hi => ?_
      simp [copied, Pace.skips]
    rw [Array.toList_replicate, hslots]
    rfl

/-- What is written along a walk over a list of the vector's size, into a clone of the vector. -/
theorem fill_clone {v : Vect} (h : v.WellFormed) {ys : List Float} (hys : v.size = ys.length)
    {value : Element → Except Fault Float} {f : Element → Float}
    (hv : ∀ e ∈ Walk.elements .nonZero 0 ys, value e = .ok (f e)) :
    (do (← v.clone).fill (Walk.elements .nonZero 0 ys) value) = .ok {
      slots := (List.zipWith (fun x p => if p.1 == Binary64.zero then v.copied x else f ⟨p.2, p.1⟩)
        v.slots ys.zipIdx).toArray
      name := v.name
      bindings := v.bindings
      cache := if (Walk.elements .nonZero 0 ys).isEmpty then v.ownCache else .empty } := by
  have hsize : Dense.size ⟨(v.slots.map v.copied).toArray, v.name, v.bindings, v.ownCache⟩ = ys.length := by
    rw [← hys, ← length_slots h]
    simp [Dense.size]
  rw [clone_slots h]
  refine (Dense.fill_elements hsize hv).trans ?_
  simp [Dense.toList, List.zipWith_map_left, Pace.skips]

/-- A combination of the slots of two vectors, where the second is not zero, under the first's name and bindings. -/
theorem fill_clone_zip {v w : Vect} (hv : v.WellFormed) (hw : w.WellFormed) (hsize : v.size = w.size)
    (g : Float → Float → Float) :
    (do (← v.clone).fill w.nonZero fun e => do return g (← v.slot e.index) e.value) = .ok {
      slots := (List.zipWith (fun x y => if y == Binary64.zero then v.copied x else g x y) v.slots w.slots).toArray
      name := v.name
      bindings := v.bindings
      cache := if w.nonZero.isEmpty then v.ownCache else .empty } := by
  have hread : ∀ e ∈ Walk.elements .nonZero 0 w.slots, (do return g (← v.slot e.index) e.value) =
      (.ok (g (v.slots[e.index]?.getD Binary64.zero) e.value) : Except Fault Float) := by
    intro e he
    rw [slot_of_lt hv (by rw [hsize]; exact index_lt_of_mem_nonZero hw (nonZero_eq hw ▸ he))]
    rfl
  have hslots : List.zipWith (fun x p => if p.1 == Binary64.zero then v.copied x
        else g (v.slots[p.2]?.getD Binary64.zero) p.1) v.slots w.slots.zipIdx =
      List.zipWith (fun x y => if y == Binary64.zero then v.copied x else g x y) v.slots w.slots := by
    refine List.ext_getElem (by simp) fun i hi _ => ?_
    have hlt : i < v.slots.length := by
      rw [List.length_zipWith] at hi
      omega
    simp [hlt]
  rw [nonZero_eq hw, fill_clone hv (hsize.trans (length_slots hw).symm) hread, hslots]

/-- A combination of a vector's slots with as many other numbers, where the slot is not zero. -/
theorem fill_clone_own {v : Vect} (hv : v.WellFormed) {ys : List Float} (hys : ys.length = v.size)
    {value : Element → Except Fault Float} (g : Float → Float → Float)
    (hread : ∀ e ∈ v.nonZero, value e = .ok (g e.value (ys[e.index]?.getD Binary64.zero))) :
    (do (← v.clone).fill v.nonZero value) = .ok {
      slots := (List.zipWith (fun x y => if x == Binary64.zero then v.copied x else g x y) v.slots ys).toArray
      name := v.name
      bindings := v.bindings
      cache := if v.nonZero.isEmpty then v.ownCache else .empty } := by
  have hlength : v.slots.length = v.size := length_slots hv
  have hslots : List.zipWith (fun x p => if p.1 == Binary64.zero then v.copied x
        else g p.1 (ys[p.2]?.getD Binary64.zero)) v.slots v.slots.zipIdx =
      List.zipWith (fun x y => if x == Binary64.zero then v.copied x else g x y) v.slots ys := by
    refine List.ext_getElem (by simp [hlength, hys]) fun i hi _ => ?_
    have hlt : i < ys.length := by
      rw [List.length_zipWith] at hi
      omega
    simp [hlt]
  rw [nonZero_eq hv] at hread
  rw [nonZero_eq hv, fill_clone hv hlength.symm hread, hslots]

end Vect

end FeatureVector
