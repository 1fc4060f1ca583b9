/-
  FeatureVector.Proofs.Copies — fresh storage made from a vector.

  Zeros have the vector's own bindings however deep it lies (`blankOfSize_eq`). A clone
  always succeeds and has the vector's size, name and bindings (`clone_eq`); adding a
  scalar writes every slot of it, so nothing of the clone's slots is left
  (`addScalar_eq`).
-/
import FeatureVector.Proofs.Slots
import FeatureVector.Vect.Arithmetic

namespace FeatureVector.Vect

theorem blankOfSize_eq (v : Vect) (n : Nat) : v.blankOfSize n = { Dense.zeros n with bindings := v.bindings } := by
  induction v with
  | dense d => rfl
  | view p w ih =>
    show ({ p.blankOfSize n with bindings := w.bindings } : Dense) = _
    rw [ih]
    rfl

/-- The cached length a copy starts with: contiguous storage hands on its own. -/
def ownCache : Vect → LengthCache
  | dense d => d.cache
  | view _ _ => .empty

theorem clone_view {p : Vect} {w : Window} (h : (view p w).WellFormed) :
    (view p w).clone = .ok {
      slots := (view p w).nonZero.foldl (fun xs e => xs.setIfInBounds e.index e.value)
        (Array.replicate w.length Binary64.zero)
      name := w.name
      bindings := w.bindings } := by
  have hindex : ∀ e ∈ (view p w).nonZero, e.index < (Dense.zeros w.length).slots.size := by
    intro e he
    rw [show (Dense.zeros w.length).slots.size = w.length from Array.size_replicate]
    exact index_lt_of_mem_nonZero h he
  have hfill : Dense.fill { Dense.zeros w.length with bindings := p.bindings } (view p w).nonZero
      (fun e => return e.value) = _ := Dense.fill_of_lt hindex (fun e _ => rfl)
  show ((p.blankOfSize w.length).fill (view p w).nonZero (fun e => return e.value) >>= _) = _
  rw [blankOfSize_eq, hfill]
  simp [Dense.zeros, Dense.ofArray, bind, Except.bind, pure, Except.pure]

theorem clone_eq {v : Vect} (h : v.WellFormed) :
    ∃ slots : Array Float, slots.size = v.size ∧
      v.clone = .ok { slots, name := v.name, bindings := v.bindings, cache := v.ownCache } := by
  cases v with
  | dense d => exact ⟨d.slots, rfl, rfl⟩
  | view p w =>
    refine ⟨_, ?_, clone_view h⟩
    rw [Dense.size_foldl_setIfInBounds _ Element.value]
    exact Array.size_replicate

theorem addScalar_eq {v : Vect} (h : v.WellFormed) (x : Float) :
    v.addScalar x = .ok {
      slots := (v.slots.map (· + x)).toArray
      name := v.name
      bindings := v.bindings
      cache := if v.size = 0 then v.ownCache else .empty } := by
  obtain ⟨slots, hsize, hclone⟩ := clone_eq h
  have hstep : ∀ d : Dense, ∀ i < v.size, (do d.put i ((← v.slot i) + x)) =
      d.put i (v.slots[i]?.getD Binary64.zero + x) := by
    intro d i hi
    rw [slot_of_lt h hi]
    rfl
  have hput := Dense.foldlM_put_range (d := ⟨slots, v.name, v.bindings, v.ownCache⟩) v.size
    (Nat.le_of_eq hsize.symm) hstep
  have hmap : (List.range v.size).map (fun i => v.slots[i]?.getD Binary64.zero + x) = v.slots.map (· + x) := by
    refine List.ext_getElem (by simp [length_slots h]) fun i h₁ h₂ => ?_
    have hl : i < v.slots.length := by simpa using h₂
    simp [hl]
  unfold addScalar
  rw [hclone]
  refine hput.trans ?_
  rw [hmap]
  simp [Dense.toList, hsize]

end FeatureVector.Vect
