/-
  FeatureVector.Proofs.Derivations — the labels of fresh vectors, and what they come from.

  A fresh vector is computed unless something is wrong before anything is written: an operand
  that cannot be built or has another size, or a power that no norm has (`Derivation.check`).
  Where it is more than a copy or zeros it is a formula on the slots, whichever of its names it
  goes by (`exists_arithmetic`), so it has the labels and the cached length of a clone, unless
  a slot is written (`exists_apply`).

  - `fresh_vector_labels`: name and bindings are the vector's own, but zeros have no name and a
    plain copy no bindings. Nothing that stands beside them shows in the result: it is the same
    for the vector with every label under its own window erased (`Vect.alone`) and for an operand
    with all of its labels erased (`Derivation.bare`).
-/
import FeatureVector.Proofs.Elementwise
import FeatureVector.Proofs.InnerProducts
import FeatureVector.Proofs.Maximum
import FeatureVector.Proofs.TwinRuns

namespace FeatureVector

open Binary64

/-! ## Norms and plain copies -/

namespace Vect

theorem norm_cases {v : Vect} (hv : v.WellFormed) (power : Float) :
    ((power.isNaN || power < zero) = true ∧ v.norm power = .error (.normPower power)) ∨
      ((power.isNaN || power < zero) = false ∧ ∃ n, v.norm power = .ok n) := by
  unfold norm
  split
  · rename_i hbad
    exact .inl ⟨hbad, rfl⟩
  · rename_i hbad
    refine .inr ⟨Bool.eq_false_iff.mpr hbad, ?_⟩
    rw [maximum_eq hv, dotSelf_eq hv]
    split_ifs <;> exact ⟨_, rfl⟩

theorem exists_toDense {v : Vect} (hv : v.WellFormed) :
    ∃ slots, v.toDense = .ok { slots, name := v.name } := by
  have hindex : ∀ e ∈ v.nonZero, e.index < (Dense.zeros v.size).slots.size := by
    intro e he
    rw [show (Dense.zeros v.size).slots.size = v.size from Array.size_replicate]
    exact index_lt_of_mem_nonZero hv he
  have hfill : (Dense.zeros v.size).fill v.nonZero (fun e => return e.value) = _ :=
    Dense.fill_of_lt hindex fun e _ => rfl
  refine ⟨v.nonZero.foldl (fun xs e => xs.setIfInBounds e.index e.value) (Dense.zeros v.size).slots, ?_⟩
  unfold toDense
  rw [hfill]
  simp [Dense.zeros, Dense.ofArray, bind, Except.bind, pure, Except.pure]

end Vect

namespace Script.Derivation

/-! ## What goes wrong -/

/-- What is wrong before anything is computed. -/
def check (v : Vect) : Derivation → Except Fault Unit
  | add other | sub other | mul other => do checkSize v.size (← other.build).size
  | normalizeBy power => if power.isNaN || power < zero then .error (.normPower power) else .ok ()
  | _ => .ok ()

/-- The name and the bindings of the result. -/
def labels (v : Vect) : Derivation → Option String × Option Bindings
  | blank | blankOfSize _ => (none, v.bindings)
  | toDense => (v.name, none)
  | _ => (v.name, v.bindings)

/-- The result is a copy in which no slot is written. -/
def Spares (v : Vect) : Derivation → Prop
  | clone => True
  | add other | sub other => ∃ w, other.build = .ok w ∧ ∀ y ∈ w.slots, (y == zero) = true
  | mul _ | scale _ | divScalar _ | normalize | normalizeBy _ => ∀ x ∈ v.slots, (x == zero) = true
  | addScalar _ => v.size = 0
  | blank | blankOfSize _ | toDense | roundTrip => False

/-- What the result has besides its slots. -/
structure Makes (v : Vect) (x : Derivation) (d : Dense) : Prop where
  labels : (d.name, d.bindings) = x.labels v
  spared : x.Spares v → d.cache = v.ownCache
  written : ¬ x.Spares v → d.cache = .empty

/-- Computed by a formula on the slots. -/
def Computes : Derivation → Prop
  | clone | blank | blankOfSize _ | toDense | roundTrip => False
  | _ => True

variable {v : Vect} {x : Derivation}

theorem apply_of_check_error (hv : v.WellFormed) {f : Fault} (h : x.check v = .error f) : x.apply v = .error f := by
  have operand {other : Operand} {g : Vect → Vect → Except Fault Dense}
      (hg : ∀ w f, checkSize v.size w.size = .error f → g v w = .error f)
      (h : (do checkSize v.size (← other.build).size) = .error f) : (do g v (← other.build)) = .error f := by
    cases hbuild : other.build with
    | error e =>
      rw [hbuild] at h
      cases h
      rfl
    | ok w =>
      rw [hbuild] at h
      exact hg w f h
  cases x with
  | add other =>
    refine operand (fun w f hf => ?_) h
    rw [Vect.add, hf]
    rfl
  | sub other =>
    refine operand (fun w f hf => ?_) h
    rw [Vect.sub, hf]
    rfl
  | mul other =>
    refine operand (fun w f hf => ?_) h
    rw [Vect.mul, hf]
    rfl
  | normalizeBy power =>
    rcases Vect.norm_cases hv power with ⟨hbad, hnorm⟩ | ⟨hgood, -⟩
    · rw [check, if_pos hbad] at h
      cases h
      show v.normalizeBy power = _
      rw [Vect.normalizeBy, hnorm]
      rfl
    · rw [check, if_neg (Bool.eq_false_iff.mp hgood)] at h
      cases h
  | _ => cases h

/-! ## What comes out -/

/-- A derivation that computes is a formula on the slots, driven by nothing exactly if it spares them. -/
theorem exists_arithmetic (hv : v.WellFormed) (hx : x.Computes) (hc : x.check v = .ok ()) :
    ∃ op : Arithmetic, op.Fits v ∧ x.apply v = op.apply v ∧ (op.idle v = true ↔ x.Spares v) := by
  have own : (v.slots.all (· == zero)) = true ↔ ∀ y ∈ v.slots, (y == zero) = true := List.all_eq_true
  have operand {other : Operand} (hc : (do checkSize v.size (← other.build).size) = Except.ok ()) :
      ∃ w, other.build = .ok w ∧ w.WellFormed ∧ v.size = w.size ∧
        ((w.slots.all (· == zero)) = true ↔
          ∃ w, other.build = .ok w ∧ ∀ y ∈ w.slots, (y == zero) = true) := by
    obtain ⟨w, hbuild, hsize⟩ := Edit.bind_eq_ok hc
    refine ⟨w, hbuild, Operand.wellFormed_build hbuild, checkSize_eq_ok.mp hsize, List.all_eq_true.trans ?_⟩
    simp [hbuild]
  cases x with
  | addScalar c => exact ⟨.addScalar c, trivial, rfl, beq_iff_eq⟩
  | scale c => exact ⟨.scale c, trivial, rfl, own⟩
  | divScalar c => exact ⟨.divScalar c, trivial, rfl, own⟩
  | normalize =>
    refine ⟨.divScalar (sumOfSquares v.slots).sqrt, trivial, ?_, own⟩
    show v.normalize = _
    rw [Vect.normalize, Vect.dotSelf_eq hv]
    rfl
  | normalizeBy power =>
    rcases Vect.norm_cases hv power with ⟨hbad, -⟩ | ⟨-, n, hnorm⟩
    · rw [check, if_pos hbad] at hc
      cases hc
    · refine ⟨.divScalar n, trivial, ?_, own⟩
      show v.normalizeBy power = _
      rw [Vect.normalizeBy, hnorm]
      rfl
  | add other =>
    obtain ⟨w, hbuild, hw, hsize, hidle⟩ := operand hc
    refine ⟨.add w, ⟨hw, hsize⟩, ?_, hidle⟩
    rw [apply, hbuild]
    rfl
  | sub other =>
    obtain ⟨w, hbuild, hw, hsize, hidle⟩ := operand hc
    refine ⟨.sub w, ⟨hw, hsize⟩, ?_, hidle⟩
    rw [apply, hbuild]
    rfl
  | mul other =>
    obtain ⟨w, hbuild, hw, hsize, -⟩ := operand hc
    refine ⟨.mul w, ⟨hw, hsize⟩, ?_, own⟩
    rw [apply, hbuild]
    rfl
  | clone | blank | blankOfSize _ | toDense | roundTrip => exact hx.elim

theorem exists_apply (hv : v.WellFormed) (hx : x.IsDirect) (hc : x.check v = .ok ()) :
    ∃ d, x.apply v = .ok d ∧ x.Makes v d := by
  have computed (hcomputes : x.Computes) (hlabels : x.labels v = (v.name, v.bindings)) :
      ∃ d, x.apply v = .ok d ∧ x.Makes v d := by
    obtain ⟨op, hfits, happly, hidle⟩ := exists_arithmetic hv hcomputes hc
    refine ⟨_, happly.trans (Arithmetic.apply_eq hv hfits), hlabels.symm, fun hspares => ?_, fun hspares => ?_⟩
    · exact if_pos (hidle.mpr hspares)
    · exact if_neg (mt hidle.mp hspares)
  -- however deep the vector lies, zeros come with its own bindings alone
  have zeros (n : Nat) (hlabels : x.labels v = (none, v.bindings)) (hspares : ¬ x.Spares v) :
      x.Makes v (v.blankOfSize n) := by
    rw [v.blankOfSize_eq n]
    exact ⟨hlabels.symm, fun h => absurd h hspares, fun _ => rfl⟩
  cases x with
  | clone => exact ⟨_, Vect.clone_slots hv, rfl, fun _ => rfl, fun h => absurd trivial h⟩
  | blank => exact ⟨_, rfl, zeros v.size rfl id⟩
  | blankOfSize n => exact ⟨_, rfl, zeros n rfl id⟩
  | toDense =>
    obtain ⟨slots, hcopy⟩ := Vect.exists_toDense hv
    exact ⟨_, hcopy, rfl, fun h => h.elim, fun _ => rfl⟩
  | roundTrip => exact hx.elim
  | _ => exact computed trivial rfl

/-- It fails with what the check says, and in no other way. -/
theorem apply_eq_error_iff (hv : v.WellFormed) (hx : x.IsDirect) (f : Fault) :
    x.apply v = .error f ↔ x.check v = .error f := by
  constructor
  · intro h
    cases hc : x.check v with
    | error g =>
      cases (apply_of_check_error hv hc).symm.trans h
      rfl
    | ok u =>
      obtain ⟨d, hd, -⟩ := exists_apply hv hx hc
      rw [hd] at h
      cases h
  · exact apply_of_check_error hv

end Script.Derivation

/-! ## What does not show -/

/-- The same place without labels. -/
def Window.bare (w : Window) : Window := ⟨w.offset, w.length, none, none⟩

/-- The same storage and windows without labels and cached length. -/
def Operand.bare (o : Operand) : Operand := ⟨o.root.bare, o.windows.map Window.bare⟩

namespace Vect

theorem bare_bare (v : Vect) : v.bare.bare = v.bare := by
  induction v with
  | dense d => rfl
  | view p w ih => simp only [bare, ih]

theorem windows_bare (v : Vect) (ws : List Window) :
    v.bare.windows (ws.map Window.bare) = (v.windows ws).map bare := by
  have hwindow (u : Vect) (w : Window) : u.bare.window w.bare = (u.window w).map bare := by
    unfold window Window.bare
    rw [size_bare]
    split
    · rfl
    · split <;> rfl
  induction ws generalizing v with
  | nil => rfl
  | cons w ws ih =>
    show (v.bare.window w.bare >>= fun u => u.windows (ws.map Window.bare)) =
      (v.window w >>= fun u => u.windows ws).map bare
    rw [hwindow]
    cases v.window w with
    | error f => rfl
    | ok u => exact ih u

/-- The vector with all labels under its own window erased. -/
def alone : Vect → Vect
  | dense d => dense d
  | view p w => view p.bare w

theorem bare_alone (v : Vect) : v.alone.bare = v.bare := by
  cases v with
  | dense d => rfl
  | view p w => simp only [alone, bare, bare_bare]

/-- What is read of the bare vector is read of the one whose own labels are kept. -/
theorem read_alone {α : Type} {f : Vect → α} (hf : ∀ u : Vect, f u.bare = f u) (v : Vect) : f v.alone = f v := by
  rw [← hf, bare_alone, hf]

@[simp] theorem size_alone (v : Vect) : v.alone.size = v.size := read_alone size_bare v

@[simp] theorem slot_alone (v : Vect) : v.alone.slot = v.slot := read_alone slot_bare v

@[simp] theorem nonZero_alone (v : Vect) : v.alone.nonZero = v.nonZero := read_alone nonZero_bare v

@[simp] theorem name_alone (v : Vect) : v.alone.name = v.name := by
  cases v <;> rfl

@[simp] theorem bindings_alone (v : Vect) : v.alone.bindings = v.bindings := by
  cases v <;> rfl

theorem clone_alone {v : Vect} (hv : v.WellFormed) : v.alone.clone = v.clone := by
  have hv' : v.alone.WellFormed := by
    rw [← wellFormed_bare, bare_alone, wellFormed_bare]
    exact hv
  have hcopied : v.alone.copied = v.copied := by cases v <;> rfl
  have hcache : v.alone.ownCache = v.ownCache := by cases v <;> rfl
  rw [clone_slots hv, clone_slots hv', read_alone slots_bare v, name_alone, bindings_alone, hcopied, hcache]

theorem blankOfSize_alone (v : Vect) (n : Nat) : v.alone.blankOfSize n = v.blankOfSize n := by
  rw [blankOfSize_eq, blankOfSize_eq, bindings_alone]

end Vect

namespace Script.Derivation

/-- The derivation with the labels of its operand erased. -/
def bare : Derivation → Derivation
  | add other => add other.bare
  | sub other => sub other.bare
  | mul other => mul other.bare
  | x => x

/-- How many zeros the result is, if it is zeros. -/
def blankSize (v : Vect) : Derivation → Option Nat
  | blank => some v.size
  | blankOfSize n => some n
  | _ => none

theorem toList_of_blankSize {v : Vect} {x : Derivation} {n : Nat} (h : x.blankSize v = some n) {d : Dense}
    (hd : x.apply v = .ok d) : d.toList = List.replicate n zero := by
  have zeros (n : Nat) : (v.blankOfSize n).toList = List.replicate n zero := by
    rw [v.blankOfSize_eq n]
    exact Array.toList_replicate
  cases x with
  | blank =>
    cases h
    cases hd
    exact zeros v.size
  | blankOfSize k =>
    cases h
    cases hd
    exact zeros n
  | _ => cases h

/-- Neither the labels under a vector's own window nor those of an operand have a part in the result. -/
theorem apply_bare_alone {v : Vect} (hv : v.WellFormed) {x : Derivation} (hx : x.IsDirect) :
    x.bare.apply v.alone = x.apply v := by
  have operand {other : Operand} {f g : Vect → Except Fault Dense} (h : ∀ w, f w.bare = g w) :
      (do f (← other.bare.build)) = (do g (← other.build)) := by
    have hbuild : other.bare.build = other.build.map Vect.bare :=
      Vect.windows_bare (.dense other.root) other.windows
    rw [hbuild]
    cases other.build with
    | error e => rfl
    | ok w => exact h w
  have divided (c : Float) : v.alone.divScalar c = v.divScalar c := by
    simp only [Vect.divScalar, Vect.clone_alone hv, Vect.nonZero_alone]
  cases x with
  | clone => exact Vect.clone_alone hv
  | blank => exact congrArg Except.ok (by rw [Vect.blank, Vect.blankOfSize_alone, Vect.size_alone]; rfl)
  | blankOfSize n => exact congrArg Except.ok (v.blankOfSize_alone n)
  | toDense =>
    show v.alone.toDense = v.toDense
    simp only [Vect.toDense, Vect.size_alone, Vect.nonZero_alone, Vect.name_alone]
  | addScalar c =>
    show v.alone.addScalar c = v.addScalar c
    simp only [Vect.addScalar, Vect.clone_alone hv, Vect.size_alone, Vect.slot_alone]
  | scale c =>
    show v.alone.scale c = v.scale c
    simp only [Vect.scale, Vect.clone_alone hv, Vect.nonZero_alone]
  | divScalar c => exact divided c
  | normalize =>
    show v.alone.normalize = v.normalize
    simp only [Vect.normalize, Vect.read_alone Vect.dotSelf_bare v, divided]
  | normalizeBy power =>
    show v.alone.normalizeBy power = v.normalizeBy power
    simp only [Vect.normalizeBy, Vect.read_alone (f := fun u => u.norm power) (fun u => u.norm_bare power) v, divided]
  | add other =>
    refine operand fun w => ?_
    simp only [Vect.add, Vect.clone_alone hv, Vect.size_alone, Vect.slot_alone, Vect.size_bare, Vect.nonZero_bare]
  | sub other =>
    refine operand fun w => ?_
    simp only [Vect.sub, Vect.clone_alone hv, Vect.size_alone, Vect.slot_alone, Vect.size_bare, Vect.nonZero_bare]
  | mul other =>
    refine operand fun w => ?_
    simp only [Vect.mul, Vect.clone_alone hv, Vect.size_alone, Vect.nonZero_alone, Vect.size_bare, Vect.slot_bare]
  | roundTrip => exact hx.elim

end Script.Derivation

open Script

/-- A fresh vector has the name and the bindings of the vector it is computed from, whatever is
    under its window; zeros have no name, and a plain copy has no bindings. It fails only over
    what is checked beforehand, and no label of a parent, of the root or of an operand has a
    part in it: without them it is the same. -/
theorem fresh_vector_labels {v : Vect} {x : Derivation} (hv : v.WellFormed) (hx : x.IsDirect) :
    (∀ f, x.apply v = .error f ↔ x.check v = .error f) ∧
    (∀ d, x.apply v = .ok d → (d.name, d.bindings) = x.labels v ∧
      ∀ n, x.blankSize v = some n → d.toList = List.replicate n zero) ∧
    x.bare.apply v.alone = x.apply v := by
  refine ⟨Derivation.apply_eq_error_iff hv hx, fun d hd => ⟨?_, fun n hn => ?_⟩, Derivation.apply_bare_alone hv hx⟩
  · cases hc : x.check v with
    | error f =>
      rw [Derivation.apply_of_check_error hv hc] at hd
      cases hd
    | ok u =>
      obtain ⟨d', hd', hmakes⟩ := Derivation.exists_apply hv hx hc
      rw [hd] at hd'
      cases hd'
      exact hmakes.labels
  · exact Derivation.toList_of_blankSize hn hd

/-- A window without labels in a labelled window over labelled storage, and labelled operands of
    its size and of another. -/
theorem labels_of_unlabelled_window :
    let b : Bindings := Bindings.empty.insert "a" 0
    let root : Dense := { Dense.ofList [9, negZero, 3, 5] with name := some "root", bindings := some b }
    let v : Vect := .view (.view (.dense root) ⟨1, 3, some "outer", some b⟩) ⟨0, 2, none, none⟩
    let o : Operand := ⟨{ Dense.ofList [1, 2, 3] with name := some "other", bindings := some b },
      [⟨1, 2, some "part", some b⟩]⟩
    (∃ d, (Derivation.add o).apply v = .ok d ∧ d.name = none ∧ d.bindings = none) ∧
      (Derivation.add o.bare).apply v.alone = (Derivation.add o).apply v ∧
      (∃ d, (Derivation.blankOfSize 3).apply v = .ok d ∧ d.bindings = none ∧ d.toList = [zero, zero, zero]) ∧
      (Derivation.mul ⟨root, []⟩).apply v = .error (.cardinality 2 4) := by
  intro b root v o
  obtain ⟨herror, hlabels, halone⟩ := @fresh_vector_labels v (.add o) (by decide) trivial
  obtain ⟨-, hblank, -⟩ := @fresh_vector_labels v (.blankOfSize 3) (by decide) trivial
  obtain ⟨hmul, -, -⟩ := @fresh_vector_labels v (.mul ⟨root, []⟩) (by decide) trivial
  obtain ⟨hbindings, hzeros⟩ := hblank _ rfl
  refine ⟨?_, halone, ⟨_, rfl, (Prod.ext_iff.mp hbindings).2, hzeros 3 rfl⟩, (hmul _).mpr rfl⟩
  cases hd : (Derivation.add o).apply v with
  | error f =>
    have hcheck : (Derivation.add o).check v = .error f := (herror f).mp hd
    cases hcheck
  | ok d =>
    obtain ⟨hpair, -⟩ := hlabels d hd
    exact ⟨d, rfl, (Prod.ext_iff.mp hpair).1, (Prod.ext_iff.mp hpair).2⟩

end FeatureVector
