/-
  FeatureVector.Proofs.Assignments — changes of all slots, as functions of the list of slots.

  `Turns n F e`: from every vector of `n` slots the edit succeeds and comes to one of `n`
  slots, whose list is `F` of the old one. A write that looks at the old slot turns the list
  by `List.modify` (`turns_write`) and a loop by one `modify` after the other, of which every
  place only meets its own (`getElem?_foldl_modify`). So
  - `turns_setEach`: a loop over all slots is a map over list and index;
  - `turns_assignList`: a loop over a list of that size puts the list in place of the slots;
  - `turns_combine`: a loop over the walk of a second list of that size combines the two,
    except where the walk passes over a slot.
  `slots_assignZip` puts them together for the change by a second vector, `slots_addTo` for the
  addition to one.
-/
import FeatureVector.Proofs.CheckedEdits

namespace FeatureVector

/-! ## Lists -/

/-- Of a row of changes at some places of a list, each place meets those made there. -/
theorem getElem?_foldl_modify {α β : Type} (place : β → Nat) (f : β → α → α) (l : List β) (xs : List α) (i : Nat) :
    (l.foldl (fun xs b => xs.modify (place b) (f b)) xs)[i]? =
      xs[i]?.map fun x => (l.filter (place · == i)).foldl (fun x b => f b x) x := by
  induction l generalizing xs with
  | nil => simp
  | cons b l ih =>
    rw [List.foldl_cons, ih, List.getElem?_modify]
    by_cases hb : place b = i
    · simp [hb, Function.comp_def]
    · simp [hb]

theorem foldl_modify_range {α : Type} (f : Nat → α → α) {n : Nat} {xs : List α} (h : xs.length = n) :
    (List.range n).foldl (fun xs i => xs.modify i (f i)) xs = xs.mapIdx f := by
  refine List.ext_getElem? fun i => ?_
  rw [getElem?_foldl_modify (fun i => i) f, List.getElem?_mapIdx]
  by_cases hi : i < n
  · have hfilter : (List.range n).filter (· == i) = [i] := by
      rw [List.filter_beq, List.nodup_range.count, if_pos (List.mem_range.mpr hi)]
      rfl
    rw [hfilter]
    rfl
  · rw [List.getElem?_eq_none (by omega)]
    rfl

namespace Walk

/-- A walk comes to each place once, unless it passes over what stands there. -/
theorem filter_elements (pace : Pace) (index i : Nat) (ys : List Float) :
    (elements pace index ys).filter (·.index == index + i) =
      (ys[i]?.toList.filter (!pace.skips ·)).map fun y => ⟨index + i, y⟩ := by
  induction ys generalizing index i with
  | nil => simp [elements]
  | cons y ys ih =>
    cases i with
    | zero =>
      have hlater : (elements pace (index + 1) ys).filter (·.index == index) = [] := by
        refine List.filter_eq_nil_iff.mpr fun e he => ?_
        have hge := (index_mem_elements he).1
        simp only [beq_iff_eq]
        omega
      rw [elements_cons, Nat.add_zero]
      by_cases hy : pace.skips y
      · simp [hy, hlater]
      · simp [hy, hlater]
    | succ i =>
      have hnext : index + (i + 1) = index + 1 + i := by omega
      have hhere : (index == index + 1 + i) = false := by
        rw [beq_eq_false_iff_ne]
        omega
      rw [elements_cons, hnext, List.getElem?_cons_succ, ← ih]
      by_cases hy : pace.skips y
      · rw [if_pos hy]
      · rw [if_neg hy, List.filter_cons, hhere, if_neg Bool.false_ne_true]

theorem foldl_modify_elements (pace : Pace) (g : Element → Float → Float) {xs ys : List Float}
    (h : xs.length = ys.length) :
    (elements pace 0 ys).foldl (fun xs e => xs.modify e.index (g e)) xs =
      List.zipWith (fun x p => if pace.skips p.1 then x else g ⟨p.2, p.1⟩ x) xs ys.zipIdx := by
  refine List.ext_getElem? fun i => ?_
  have hfilter := filter_elements pace 0 i ys
  rw [Nat.zero_add] at hfilter
  rw [getElem?_foldl_modify Element.index g, hfilter, List.getElem?_zipWith, List.getElem?_zipIdx]
  by_cases hi : i < ys.length
  · rw [List.getElem?_eq_getElem hi, List.getElem?_eq_getElem (h ▸ hi)]
    by_cases hy : pace.skips ys[i]
    · simp [hy]
    · simp [hy]
  · rw [List.getElem?_eq_none (by omega : xs.length ≤ i)]
    rfl

end Walk

/-! ## Edits -/

namespace Vect

/-- The edit does to the slots what `F` does to their list. -/
def Turns (n : Nat) (F : List Float → List Float) (e : Edit Vect Unit) : Prop :=
  ∀ v, Sized n v → ∃ u, e.outcome v = (.ok (), u) ∧ Sized n u ∧ u.slots = F v.slots

section Turns

variable {n : Nat} {F G : List Float → List Float} {β : Type}

theorem turns_bind {e e' : Edit Vect Unit} (he : Turns n F e) (he' : Turns n G e') :
    Turns n (fun xs => G (F xs)) (do e; e') := by
  intro v hv
  obtain ⟨u, hu, hsized, hslots⟩ := he v hv
  obtain ⟨t, ht, hsized', hslots'⟩ := he' u hsized
  refine ⟨t, ?_, hsized', by rw [hslots', hslots]⟩
  rw [Edit.outcome_bind, hu]
  exact ht

theorem turns_forM {body : β → Edit Vect Unit} {F : β → List Float → List Float} {l : List β}
    (hb : ∀ b ∈ l, Turns n (F b) (body b)) : Turns n (fun xs => l.foldl (fun xs b => F b xs) xs) (l.forM body) := by
  induction l with
  | nil => exact fun v hv => ⟨v, rfl, hv, rfl⟩
  | cons b l ih => exact turns_bind (hb b List.mem_cons_self) (ih fun c hc => hb c (List.mem_cons_of_mem _ hc))

theorem turns_dropCache : Turns n (fun xs => xs) (modify dropCache) := by
  intro v hv
  refine ⟨v.dropCache, rfl, (steady_sized n).dropCache v hv, ?_⟩
  cases v <;> rfl

/-- A write of what is computed from the old slot. -/
theorem turns_write {α : Type} {i : Nat} (hi : i < n) {value : Vect → Except Fault α} {k : α → Float}
    {g : Float → Float} (hv : ∀ u, Sized n u → ∀ x, u.slots[i]? = some x → ∃ a, value u = .ok a ∧ k a = g x) :
    Turns n (fun xs => xs.modify i g) (do setSlot i (k (← Edit.reading value))) := by
  intro v h
  have hlt : i < v.size := by rw [h.2]; exact hi
  have hlt' : i < v.slots.length := by rw [length_slots h.1]; exact hlt
  obtain ⟨a, ha, hk⟩ := hv v h _ (List.getElem?_eq_getElem hlt')
  refine ⟨v.store i (k a), ?_, (steady_sized n).store v h i hi _, ?_⟩
  · rw [Edit.outcome_bind, Edit.outcome_reading, ha]
    exact outcome_setSlot h.1 hlt _
  · dsimp only
    rw [slots_store h.1 hlt, List.modify_eq_set, List.getElem?_eq_getElem hlt', hk]
    rfl

theorem turns_setEach {value : Nat → Vect → Except Fault Float} {f : Nat → Float → Float}
    (hv : ∀ i < n, ∀ u, Sized n u → ∀ x, u.slots[i]? = some x → value i u = .ok (f i x)) :
    Turns n (List.mapIdx f) (setEach value) := by
  intro v h
  have hwrite : ∀ i ∈ List.range n, Turns n (fun xs => xs.modify i (f i))
      (do setSlot i (← Edit.reading (value i))) := by
    intro i hi
    have hi' : i < n := List.mem_range.mp hi
    exact turns_write (k := fun a => a) hi' fun u hu x hx => ⟨_, hv i hi' u hu x hx, rfl⟩
  obtain ⟨u, hu, hsized, hslots⟩ := turns_forM hwrite v h
  refine ⟨u, ?_, hsized, ?_⟩
  · unfold setEach
    rw [Edit.outcome_bind, Edit.outcome_reading, h.2]
    exact hu
  · exact hslots.trans (foldl_modify_range f (by rw [length_slots h.1, h.2]))

theorem turns_setSlot {i : Nat} (hi : i < n) (x : Float) :
    Turns n (fun xs => xs.modify i fun _ => x) (setSlot i x) := by
  intro v h
  have hlt : i < v.size := by rw [h.2]; exact hi
  refine ⟨v.store i x, outcome_setSlot h.1 hlt x, (steady_sized n).store v h i hi x, ?_⟩
  dsimp only
  rw [slots_store h.1 hlt, List.modify_eq_set]

/-- A list of the vector's size takes the place of the slots. -/
theorem turns_assignList {ys : List Float} (hys : ys.length = n) : Turns n (fun _ => ys) (assignList ys) := by
  have hwrite : ∀ p ∈ ys.zipIdx, Turns n (fun xs => xs.modify p.2 fun _ => p.1) (setSlot p.2 p.1) := by
    intro p hp
    obtain ⟨-, hlt, -⟩ := List.mem_zipIdx hp
    exact turns_setSlot (by omega) p.1
  intro v h
  have hlength : v.slots.length = ys.length := by rw [length_slots h.1, h.2, hys]
  obtain ⟨u, hu, hsized, hslots⟩ := turns_forM hwrite v h
  refine ⟨u, ?_, hsized, hslots.trans ?_⟩
  · unfold assignList requireSize
    rw [Edit.outcome_bind, Edit.outcome_reading, checkSize_eq_ok.mpr (h.2.trans hys.symm)]
    exact hu
  · have hmodify := Walk.foldl_modify_elements .every (fun e _ => e.value) hlength
    rw [Walk.elements_every, List.foldl_map] at hmodify
    refine hmodify.trans ?_
    refine List.ext_getElem (by simp [hlength]) fun i _ _ => ?_
    simp [Pace.skips]

theorem turns_combine (pace : Pace) (g : Float → Float → Float) {ys : List Float} (hys : ys.length = n) :
    Turns n (fun xs => List.zipWith (fun x y => if pace.skips y then x else g x y) xs ys)
      (combine (Walk.elements pace 0 ys) fun x e => g x e.value) := by
  have hwrite : ∀ e ∈ Walk.elements pace 0 ys, Turns n (fun xs => xs.modify e.index (g · e.value))
      (do setSlot e.index (g (← Edit.reading (·.slot e.index)) e.value)) := by
    intro e he
    have hi : e.index < n := by
      have hlt := (Walk.index_mem_elements he).2
      omega
    refine turns_write (k := fun a => g a e.value) hi fun u hu x hx => ⟨x, ?_, rfl⟩
    rw [slot_of_lt hu.1 (by rw [hu.2]; exact hi), hx]
    rfl
  intro v h
  obtain ⟨u, hu, hsized, hslots⟩ := turns_forM hwrite v h
  have hlength : v.slots.length = ys.length := by rw [length_slots h.1, h.2, hys]
  have hvalues : List.zipWith (fun x p => if pace.skips p.1 then x else g x p.1) v.slots ys.zipIdx =
      List.zipWith (fun x y => if pace.skips y then x else g x y) v.slots (ys.zipIdx.map Prod.fst) := by
    rw [List.zipWith_map_right]
  rw [List.zipIdx_map_fst] at hvalues
  exact ⟨u, hu, hsized, hslots.trans ((Walk.foldl_modify_elements pace (fun e => (g · e.value)) hlength).trans hvalues)⟩

end Turns

/-! ## A change by a second vector -/

/-- What becomes of a slot that holds `x` where the second vector holds `y`. -/
def zipSlot (v : Vect) (f : BinaryFunction) (x y : Float) : Float :=
  match v with
  | dense _ => if f.accumulating && y == Binary64.zero then x else f.apply x y
  | view _ _ => f.apply x y

theorem turns_zipEach {n : Nat} {o : Vect} (ho : o.WellFormed) (hn : o.size = n) (f : Float → Float → Float) :
    Turns n (fun xs => List.zipWith f xs o.slots) (setEach fun i v => do return f (← v.slot i) (← o.slot i)) := by
  intro v h
  have hread : ∀ i < n, ∀ u, Sized n u → ∀ x, u.slots[i]? = some x →
      (do return f (← u.slot i) (← o.slot i)) = Except.ok (f x (o.slots[i]?.getD Binary64.zero)) := by
    intro i hi u hu x hx
    rw [slot_of_lt hu.1 (by rw [hu.2]; exact hi), slot_of_lt ho (by rw [hn]; exact hi), hx]
    rfl
  obtain ⟨u, hu, hsized, hslots⟩ := turns_setEach hread v h
  refine ⟨u, hu, hsized, hslots.trans (List.ext_getElem ?_ fun i hi hi' => ?_)⟩
  · simp [length_slots h.1, length_slots ho, h.2, hn]
  · have hlt : i < o.slots.length := by
      rw [List.length_zipWith] at hi'
      omega
    simp [hlt]

theorem slots_assignZip {v o : Vect} (hv : v.WellFormed) (ho : o.WellFormed) (hsize : v.size = o.size)
    (f : BinaryFunction) : ∃ u, (assignZip o f).outcome v = (.ok (), u) ∧ Sized v.size u ∧
      u.slots = List.zipWith (v.zipSlot f) v.slots o.slots := by
  have hevery := turns_zipEach ho hsize.symm f.apply
  unfold assignZip requireSize
  rw [Edit.outcome_bind, Edit.outcome_reading, checkSize_eq_ok.mpr hsize]
  cases v with
  | view p w => exact hevery (view p w) ⟨hv, rfl⟩
  | dense d =>
    by_cases hf : f.accumulating = true
    · have hskip := turns_bind turns_dropCache
        (turns_combine .nonZero f.apply ((length_slots ho).trans hsize.symm)) (dense d) ⟨hv, rfl⟩
      simp only [hf, if_true, nonZero_eq ho]
      have hzip : (dense d).zipSlot f = fun x y => if Pace.nonZero.skips y then x else f.apply x y := by
        funext x y
        simp [zipSlot, hf, Pace.skips]
      rw [hzip]
      exact hskip
    · have hplain := turns_bind turns_dropCache hevery (dense d) ⟨hv, rfl⟩
      have hzip : (dense d).zipSlot f = f.apply := by
        funext x y
        simp [zipSlot, hf]
      simp only [hf]
      rw [hzip]
      exact hplain

/-! ## Addition to a second vector -/

/-- What becomes of a slot that holds `x` where the vector added to it holds `y`. -/
def addedSlot (v : Vect) (x y : Float) : Float :=
  match v with
  | dense _ => y + x
  | view _ _ => if y == Binary64.zero then x else x + y

theorem slots_addTo {v t : Vect} (hv : v.WellFormed) (ht : t.WellFormed) (hsize : v.size = t.size) :
    ∃ u, v.addTo.outcome t = (.ok (), u) ∧ Sized t.size u ∧ u.slots = List.zipWith v.addedSlot t.slots v.slots := by
  have hlength : v.slots.length = t.size := (length_slots hv).trans hsize
  unfold addTo
  rw [Edit.outcome_bind, Edit.outcome_reading, checkSize_eq_ok.mpr hsize]
  cases v with
  | dense d =>
    have hwalk : (d.walk .every).toList = Walk.elements .every 0 d.toList := Walk.toList_start .every d.toList
    dsimp only
    rw [hwalk]
    exact turns_combine .every (fun x y => y + x) hlength t ⟨ht, rfl⟩
  | view p w =>
    dsimp only
    rw [nonZero_eq hv]
    exact turns_combine .nonZero (fun x y => x + y) hlength t ⟨ht, rfl⟩

end Vect

end FeatureVector
