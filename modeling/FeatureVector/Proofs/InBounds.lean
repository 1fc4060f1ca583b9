/-
  FeatureVector.Proofs.InBounds — checked operations never access a slot or a cell that is
  not there.

  The fault `overrun` is such an access (`slot_eq_overrun_iff`, `setSlot_eq_overrun_iff`,
  `Matrix.cell_eq_overrun_iff`): the index, shifted by all windows, is past the end of the
  storage. Nothing recovers from it, so an operation that does not end in it has made none.

  - Reads and derivations of a vector whose windows lie inside their parents are in bounds,
    with any second operand (`Query.inBounds_answer`, `Derivation.inBounds_apply`).
  - Writes only fail for what they check (`Write.inBounds_edit`), and leave size and windows
    as they were (`Vect.shape`), so what comes after them is in bounds as well.
  - `Step.runAll_inBounds`, `MatrixStep.runAll_inBounds`: so are scripts, with the scripts on
    windows and on fresh vectors and matrices inside them.
  - `checked_scripts_stay_in_bounds`: the result for windows on contiguous storage.
-/
import FeatureVector.Proofs.Copies
import FeatureVector.Proofs.NestedWindows

namespace FeatureVector

open Script

/-- The computation does not end in an access past the end of the storage. -/
def InBounds (e : Except Fault α) : Prop := e ≠ .error .overrun

theorem inBounds_ok (a : α) : InBounds (.ok a) := nofun

theorem inBounds_of_eq {e : Except Fault α} {a : α} (h : e = .ok a) : InBounds e := h ▸ inBounds_ok a

theorem ne_overrun {e : Except Fault α} {f : Fault} (he : InBounds e) (hf : e = .error f) : f ≠ .overrun := by
  rintro rfl
  exact he hf

theorem inBounds_error {f : Fault} (hf : f ≠ .overrun) : InBounds (.error f : Except Fault α) :=
  fun h => hf (Except.error.inj h)

theorem inBounds_bind {e : Except Fault α} {k : α → Except Fault β} (he : InBounds e)
    (hk : ∀ a, e = .ok a → InBounds (k a)) : InBounds (e >>= k) := by
  cases e with
  | error f => exact inBounds_error (ne_overrun he rfl)
  | ok a => exact hk a rfl

/-- What is done with an answer cannot take it out of bounds. -/
theorem inBounds_map {e : Except Fault α} (he : InBounds e) (g : α → β) : InBounds (do return g (← e)) :=
  inBounds_bind he fun a _ => inBounds_ok (g a)

theorem inBounds_exceptMap {e : Except Fault α} (he : InBounds e) (g : α → β) : InBounds (e.map g) := by
  cases e with
  | error f => exact inBounds_error (ne_overrun he rfl)
  | ok a => exact inBounds_ok (g a)

theorem inBounds_mapM {f : α → Except Fault β} {l : List α} (h : ∀ a ∈ l, InBounds (f a)) : InBounds (l.mapM f) := by
  induction l with
  | nil => exact inBounds_ok []
  | cons a l ih =>
    rw [List.mapM_cons]
    exact inBounds_bind (h a List.mem_cons_self) fun b _ =>
      inBounds_bind (ih fun c hc => h c (List.mem_cons_of_mem _ hc)) fun bs _ => inBounds_ok (b :: bs)

theorem inBounds_allM {f : α → Except Fault Bool} {l : List α} (h : ∀ a ∈ l, InBounds (f a)) :
    InBounds (l.allM f) := by
  induction l with
  | nil => exact inBounds_ok true
  | cons a l ih =>
    rw [List.allM_cons]
    refine inBounds_bind (h a List.mem_cons_self) fun b _ => ?_
    cases b with
    | false => exact inBounds_ok false
    | true => exact ih fun c hc => h c (List.mem_cons_of_mem _ hc)

theorem inBounds_checkSize (m n : Nat) : InBounds (checkSize m n) := by
  unfold checkSize
  split <;> exact nofun

theorem inBounds_checkIndex (i n : Nat) : InBounds (checkIndex i n) := by
  unfold checkIndex
  split <;> exact nofun

/-! ## Storage -/

theorem Dense.inBounds_fill {d : Dense} {es : List Element} {value : Element → Except Fault Float}
    (hi : ∀ e ∈ es, e.index < d.size) (hv : ∀ e ∈ es, InBounds (value e)) : InBounds (d.fill es value) := by
  unfold fill
  induction es generalizing d with
  | nil => exact inBounds_ok d
  | cons e es ih =>
    have hlt : e.index < d.slots.size := hi e List.mem_cons_self
    rw [List.foldlM_cons]
    refine inBounds_bind (inBounds_bind (hv e List.mem_cons_self) fun x _ => ?_) fun d' hd' => ?_
    · exact inBounds_of_eq (put_of_lt hlt x)
    · obtain ⟨x, -, hput⟩ := Edit.bind_eq_ok hd'
      rw [put_of_lt hlt] at hput
      cases hput
      refine ih (fun e' he' => ?_) fun e' he' => hv e' (List.mem_cons_of_mem _ he')
      simpa [size] using hi e' (List.mem_cons_of_mem _ he')

theorem Dense.inBounds_decode (s : String) : InBounds (Dense.decode s) := by
  unfold Dense.decode
  refine inBounds_bind ?_ fun r _ => ?_
  · unfold Record.parse
    split <;> exact nofun
  · unfold Record.toDense
    split
    · exact nofun
    · exact inBounds_bind (inBounds_checkSize _ _) fun _ _ => inBounds_ok _

namespace Vect

/-! ## Reads -/

section Reads

variable {v w : Vect} (h : v.WellFormed)

include h

theorem inBounds_slot {i : Nat} (hi : i < v.size) : InBounds (v.slot i) := inBounds_of_eq (slot_of_lt h hi)

theorem inBounds_get (i : Nat) : InBounds (v.get i) :=
  inBounds_bind (inBounds_checkIndex i v.size) fun _ hi => inBounds_slot h (checkIndex_eq_ok.mp hi)

omit h in
theorem inBounds_resolve (label : String) : InBounds (v.resolve label) := by
  unfold resolve
  split <;> exact nofun

theorem inBounds_getLabel (label : String) : InBounds (v.getLabel label) :=
  inBounds_bind (inBounds_resolve label) fun i _ => inBounds_get h i

theorem inBounds_readAll : InBounds v.readAll := inBounds_of_eq (readAll_eq h)

/-- Elements of a walk name slots there are. -/
theorem inBounds_sumNonZero {term : Element → Except Fault Float}
    (ht : ∀ e : Element, e.index < v.size → InBounds (term e)) : InBounds (v.sumNonZero term) :=
  inBounds_map (inBounds_mapM fun e he => ht e (index_lt_of_mem_nonZero h he)) _

theorem inBounds_dotSelf : InBounds v.dotSelf :=
  inBounds_sumNonZero h fun _ he => inBounds_map (inBounds_slot h he) _

theorem inBounds_dot (hw : w.WellFormed) : InBounds (v.dot w) := by
  refine inBounds_bind (inBounds_checkSize _ _) fun _ hs => ?_
  have hsize := checkSize_eq_ok.mp hs
  exact inBounds_sumNonZero h fun _ he => inBounds_map (inBounds_slot hw (hsize ▸ he)) _

theorem inBounds_distanceSquared (hw : w.WellFormed) : InBounds (v.distanceSquared w) := by
  refine inBounds_bind (inBounds_checkSize _ _) fun _ hs => ?_
  have hsize := checkSize_eq_ok.mp hs
  cases v with
  | view p u => exact inBounds_sumNonZero h fun _ he => inBounds_map (inBounds_slot hw (hsize ▸ he)) _
  | dense d =>
    refine inBounds_map (inBounds_mapM fun e he => inBounds_map (inBounds_slot hw ?_) _) _
    have hindex := (Walk.index_mem_elements (Walk.toList_start .every d.toList ▸ he)).2
    rw [Nat.zero_add] at hindex
    exact hsize ▸ hindex

theorem inBounds_maximum : InBounds v.maximum := inBounds_map (inBounds_readAll h) _

theorem inBounds_argMax : InBounds v.argMax := inBounds_map (inBounds_readAll h) _

theorem inBounds_norm (power : Float) : InBounds (v.norm power) := by
  unfold norm
  split
  · exact nofun
  split
  · exact inBounds_maximum h
  split
  · exact inBounds_map (inBounds_dotSelf h) _
  split
  · exact inBounds_ok _
  split <;> exact inBounds_ok _

theorem inBounds_equivalent (hw : w.WellFormed) : InBounds (v.equivalent w) := by
  unfold equivalent
  split
  · rename_i hsize
    refine inBounds_allM fun i hi => ?_
    have hi' : i < v.size := List.mem_range.mp hi
    exact inBounds_bind (inBounds_slot h hi') fun _ _ => inBounds_map (inBounds_slot hw (hsize ▸ hi')) _
  · exact inBounds_ok false

theorem inBounds_strictlyEquivalent (hw : w.WellFormed) : InBounds (v.strictlyEquivalent w) := by
  unfold strictlyEquivalent
  split
  · exact inBounds_equivalent h hw
  · exact inBounds_ok false

theorem inBounds_same (hw : w.WellFormed) : InBounds (v.same w) := by
  unfold same
  split
  · exact inBounds_ok _
  · exact inBounds_equivalent h hw

theorem inBounds_encode (options : EncodeOptions) : InBounds (v.encode options) :=
  inBounds_map (inBounds_map (inBounds_of_eq (elements_eq h)) _) _

/-! ## Fresh vectors and matrices -/

theorem inBounds_toDense : InBounds v.toDense := by
  have hsize : (Dense.zeros v.size).size = v.size := Array.size_replicate
  refine inBounds_map (Dense.inBounds_fill (fun e he => ?_) fun _ _ => inBounds_ok _) _
  rw [hsize]
  exact index_lt_of_mem_nonZero h he

/-- A clone has a slot for every slot of the vector. -/
theorem inBounds_fill_clone {es : List Element} {value : Element → Except Fault Float}
    (hi : ∀ e ∈ es, e.index < v.size) (hv : ∀ e ∈ es, InBounds (value e)) :
    InBounds (v.clone >>= fun c => c.fill es value) := by
  obtain ⟨slots, hsize, hclone⟩ := clone_eq h
  rw [hclone]
  exact Dense.inBounds_fill (fun e he => Nat.lt_of_lt_of_eq (hi e he) hsize.symm) hv

theorem inBounds_scale (x : Float) : InBounds (v.scale x) :=
  inBounds_fill_clone h (fun _ he => index_lt_of_mem_nonZero h he) fun _ _ => inBounds_ok _

theorem inBounds_divScalar (x : Float) : InBounds (v.divScalar x) :=
  inBounds_fill_clone h (fun _ he => index_lt_of_mem_nonZero h he) fun _ _ => inBounds_ok _

/-- Sums and differences are driven by the second operand. -/
theorem inBounds_fill_clone_of_size (hw : w.WellFormed) (f : Float → Element → Float) :
    InBounds (do checkSize v.size w.size; (← v.clone).fill w.nonZero fun e => return f (← v.slot e.index) e) := by
  refine inBounds_bind (inBounds_checkSize _ _) fun _ hs => ?_
  have hi : ∀ e ∈ w.nonZero, e.index < v.size := fun e he =>
    checkSize_eq_ok.mp hs ▸ index_lt_of_mem_nonZero hw he
  exact inBounds_fill_clone h hi fun e he => inBounds_map (inBounds_slot h (hi e he)) _

theorem inBounds_mul (hw : w.WellFormed) : InBounds (v.mul w) := by
  refine inBounds_bind (inBounds_checkSize _ _) fun _ hs => ?_
  have hi : ∀ e ∈ v.nonZero, e.index < v.size := fun _ he => index_lt_of_mem_nonZero h he
  exact inBounds_fill_clone h hi fun e he => inBounds_map (inBounds_slot hw (checkSize_eq_ok.mp hs ▸ hi e he)) _

theorem exists_outer (hw : w.WellFormed) : ∃ m, v.outer w = .ok m ∧ Matrix.Shaped v.size w.size m := by
  have hcells : Edit.Succeeds (Matrix.Shaped v.size w.size) ((List.range v.size).forM fun row => do
      let scale ← Edit.reading fun _ => v.slot row
      w.nonZero.forM fun e => Matrix.setCell row e.index (e.value * scale)) := by
    refine Edit.succeeds_forM fun row hrow => ?_
    have hrow' : row < v.size := List.mem_range.mp hrow
    exact Edit.succeeds_bind (Edit.succeeds_reading fun _ _ => ⟨_, slot_of_lt h hrow'⟩) fun x =>
      Edit.succeeds_forM fun e he => Matrix.succeeds_setCell hrow' (index_lt_of_mem_nonZero hw he) _
  obtain ⟨_, m, hm, hshape⟩ := hcells (Matrix.zeros v.size w.size) ⟨rfl, rfl⟩
  exact ⟨m, Edit.exec_eq_ok hm, hshape⟩

theorem inBounds_outer (hw : w.WellFormed) : InBounds (v.outer w) := by
  obtain ⟨m, hm, -⟩ := exists_outer h hw
  exact inBounds_of_eq hm

end Reads

/-! ## Windows -/

theorem inBounds_window (v : Vect) (w : Window) : InBounds (v.window w) := by
  unfold window
  split
  · exact nofun
  split
  · exact nofun
  · exact inBounds_ok _

theorem inBounds_windows (v : Vect) (ws : List Window) : InBounds (v.windows ws) := by
  unfold windows
  induction ws generalizing v with
  | nil => exact inBounds_ok v
  | cons w ws ih =>
    rw [List.foldlM_cons]
    exact inBounds_bind (inBounds_window v w) fun u _ => ih u

/-- The size of the storage, and offset and length of each window on it, the innermost first. -/
def shape : Vect → Nat × List (Nat × Nat)
  | dense d => (d.size, [])
  | view p w => (p.shape.1, (w.offset, w.length) :: p.shape.2)

theorem size_eq_of_shape {u v : Vect} (h : u.shape = v.shape) : u.size = v.size := by
  cases u <;> cases v <;> simp_all [shape, size]

theorem release_shape {u v : Vect} {w : Window} (h : u.shape = (view v w).shape) : u.release.shape = v.shape := by
  cases u with
  | dense d => simp [shape] at h
  | view p w' =>
    simp only [shape, Prod.mk.injEq, List.cons.injEq] at h
    exact Prod.ext h.1 h.2.2

theorem wellFormed_of_shape {u v : Vect} (h : u.shape = v.shape) (hv : v.WellFormed) : u.WellFormed := by
  induction v generalizing u with
  | dense d =>
    cases u with
    | dense d' => trivial
    | view p w => simp [shape] at h
  | view q w' ih =>
    cases u with
    | dense d' => trivial
    | view p w =>
      have hp : p.shape = q.shape := release_shape h
      simp only [shape, Prod.mk.injEq, List.cons.injEq] at h
      obtain ⟨-, ⟨hoff, hlen⟩, -⟩ := h
      exact ⟨by rw [hoff, hlen, size_eq_of_shape hp]; exact hv.1, ih hp hv.2⟩

@[simp] theorem shape_store (v : Vect) (i : Nat) (x : Float) : (v.store i x).shape = v.shape := by
  induction v generalizing i with
  | dense d => simp [store, shape, Dense.size]
  | view p w ih => simp only [store, shape, ih]

theorem steady_shape {v : Vect} (h : v.WellFormed) : Steady v.size (fun u => u.shape = v.shape) where
  wellFormed := fun _ hu => wellFormed_of_shape hu h
  size := fun _ hu => size_eq_of_shape hu
  store := fun u hu i _ x => (shape_store u i x).trans hu
  withName := fun u hu name => by cases u <;> exact hu
  withBindings := fun u hu b => by cases u <;> exact hu
  dropCache := fun u hu => by cases u <;> exact hu

end Vect

theorem Operand.inBounds_build (o : Operand) : InBounds o.build := Vect.inBounds_windows _ _

/-! ## What a script asks, writes and derives -/

namespace Script

/-- Questions but for the unchecked read. -/
def Query.IsChecked : Query → Prop
  | slot _ => False
  | _ => True

/-- Writes but for the unchecked one. -/
def Write.IsChecked : Write → Prop
  | setSlot _ _ => False
  | _ => True

def MatrixQuery.IsChecked : MatrixQuery → Prop
  | cell _ _ | rowSlice _ => False
  | _ => True

def MatrixWrite.IsChecked : MatrixWrite → Prop
  | setCell _ _ _ => False
  | _ => True

section

variable {v : Vect} (h : v.WellFormed)

include h

theorem Query.inBounds_answer {q : Query} (hq : q.IsChecked) : InBounds (q.answer v) := by
  have operand {o : Operand} {α : Type} {f : Vect → Except Fault α} {g : α → Answer}
      (hf : ∀ w : Vect, w.WellFormed → InBounds (f w)) : InBounds (do return g (← f (← o.build))) :=
    inBounds_bind o.inBounds_build fun w hw => inBounds_map (hf w (Operand.wellFormed_build hw)) g
  cases q with
  | slot i => exact hq.elim
  | get i => exact inBounds_map (Vect.inBounds_get h i) _
  | getLabel label => exact inBounds_map (Vect.inBounds_getLabel h label) _
  | element i => exact inBounds_map (inBounds_map (Vect.inBounds_get h i) _) _
  | elements => exact inBounds_map (inBounds_of_eq (Vect.elements_eq h)) _
  | maximum => exact inBounds_map (Vect.inBounds_maximum h) _
  | argMax => exact inBounds_map (Vect.inBounds_argMax h) _
  | norm power => exact inBounds_map (Vect.inBounds_norm h power) _
  | dot other => exact operand fun w hw => Vect.inBounds_dot h hw
  | distanceSquared other => exact operand fun w hw => Vect.inBounds_distanceSquared h hw
  | equivalent other => exact operand fun w hw => Vect.inBounds_equivalent h hw
  | strictlyEquivalent other => exact operand fun w hw => Vect.inBounds_strictlyEquivalent h hw
  | same other => exact operand fun w hw => Vect.inBounds_same h hw
  | differs other => exact operand fun w hw => Vect.inBounds_same h hw
  | encode options => exact inBounds_map (Vect.inBounds_encode h options) _
  | display => cases v <;> exact inBounds_ok _
  | hints => cases v <;> exact inBounds_ok _
  | placement => cases v <;> exact inBounds_ok _
  | _ => exact inBounds_ok _

theorem Derivation.inBounds_apply (d : Derivation) : InBounds (d.apply v) := by
  have operand {o : Operand} {f : Vect → Except Fault Dense} (hf : ∀ w : Vect, w.WellFormed → InBounds (f w)) :
      InBounds (do f (← o.build)) :=
    inBounds_bind o.inBounds_build fun w hw => hf w (Operand.wellFormed_build hw)
  cases d with
  | clone =>
    obtain ⟨slots, -, hclone⟩ := Vect.clone_eq h
    exact inBounds_of_eq hclone
  | blank => exact inBounds_ok _
  | blankOfSize size => exact inBounds_ok _
  | toDense => exact Vect.inBounds_toDense h
  | addScalar x => exact inBounds_of_eq (Vect.addScalar_eq h x)
  | scale x => exact Vect.inBounds_scale h x
  | divScalar x => exact Vect.inBounds_divScalar h x
  | normalize => exact inBounds_bind (Vect.inBounds_dotSelf h) fun _ _ => Vect.inBounds_divScalar h _
  | normalizeBy power => exact inBounds_bind (Vect.inBounds_norm h power) fun _ _ => Vect.inBounds_divScalar h _
  | add other => exact operand fun w hw => Vect.inBounds_fill_clone_of_size h hw fun x e => x + e.value
  | sub other => exact operand fun w hw => Vect.inBounds_fill_clone_of_size h hw fun x e => x - e.value
  | mul other => exact operand fun w hw => Vect.inBounds_mul h hw
  | roundTrip => exact inBounds_bind (Vect.inBounds_encode h _) fun _ _ => Dense.inBounds_decode _

omit h in
theorem Write.inBounds_check (w : Write) : InBounds (w.check v) := by
  have operand {o : Operand} : InBounds (do checkSize v.size (← o.build).size) :=
    inBounds_bind o.inBounds_build fun _ _ => inBounds_checkSize _ _
  cases w with
  | set i x | setSlot i x | setElement i x | bindLabel label i x => exact inBounds_checkIndex _ _
  | setLabel label x => exact inBounds_bind (Vect.inBounds_resolve label) fun _ _ => inBounds_checkIndex _ _
  | assignList xs => exact inBounds_checkSize _ _
  | assignFrom other => exact operand
  | assignZip other f => exact operand
  | _ => exact inBounds_ok ()

theorem Write.inBounds_edit {w : Write} (hw : w.IsChecked) :
    InBounds (w.edit.outcome v).1 ∧ (w.edit.outcome v).2.shape = v.shape := by
  have hrange : w.InRange v.size := by
    cases w with
    | setSlot i x => exact hw.elim
    | _ => trivial
  have hg := Write.guarded_edit (Vect.steady_shape h) hrange
  exact ⟨fun hf => w.inBounds_check ((hg.error_iff rfl _).mp hf), hg.keeps v rfl⟩

end

end Script

/-! ## Matrices -/

namespace Matrix

theorem cell_of_lt {m : Matrix} {row col : Nat} (hr : row < m.rows) (hc : col < m.cols) :
    ∃ x, m.cell row col = .ok x := by
  have hlt := offset_lt hr hc
  refine ⟨m.data[m.offset row col], ?_⟩
  unfold cell
  rw [Array.getElem?_eq_getElem hlt]

theorem inBounds_checkBounds (m : Matrix) (row col : Nat) : InBounds (m.checkBounds row col) :=
  inBounds_bind (inBounds_checkIndex _ _) fun _ _ => inBounds_checkIndex _ _

theorem inBounds_get (m : Matrix) (row col : Nat) : InBounds (m.get row col) := by
  refine inBounds_bind (m.inBounds_checkBounds row col) fun _ hb => ?_
  obtain ⟨hr, hc⟩ := checkBounds_eq_ok.mp hb
  obtain ⟨x, hx⟩ := cell_of_lt hr hc
  exact inBounds_of_eq hx

theorem rowSlice_of_lt {m : Matrix} {row : Nat} (hr : row < m.rows) : m.rowSlice row = .ok (m.rowCells row) :=
  if_pos (offset_add_cols_le hr)

theorem inBounds_row (m : Matrix) (i : Nat) : InBounds (m.row i) :=
  inBounds_bind (inBounds_checkIndex _ _) fun _ hi =>
    inBounds_map (inBounds_of_eq (rowSlice_of_lt (checkIndex_eq_ok.mp hi))) _

theorem inBounds_column (m : Matrix) (j : Nat) : InBounds (m.column j) := by
  refine inBounds_bind (inBounds_checkIndex _ _) fun _ hj => inBounds_map (inBounds_mapM fun i hi => ?_) _
  obtain ⟨x, hx⟩ := cell_of_lt (List.mem_range.mp hi) (checkIndex_eq_ok.mp hj)
  exact inBounds_of_eq hx

end Matrix

namespace Script

theorem MatrixQuery.inBounds_answer {q : MatrixQuery} (hq : q.IsChecked) (m : Matrix) : InBounds (q.answer m) := by
  cases q with
  | get row col => exact inBounds_map (m.inBounds_get row col) _
  | cell row col => exact hq.elim
  | rowSlice row => exact hq.elim
  | same rows cols data =>
    refine inBounds_map ?_ _
    unfold Matrix.ofShape
    split
    · exact inBounds_ok _
    · exact nofun
  | _ => exact inBounds_ok _

theorem MatrixWrite.inBounds_edit {w : MatrixWrite} (hw : w.IsChecked) (m : Matrix) :
    InBounds (w.edit.outcome m).1 := by
  have hm : Matrix.Shaped m.rows m.cols m := ⟨rfl, rfl⟩
  cases w with
  | set row col x =>
    have hg := Edit.guarded_bind (P := Matrix.Shaped m.rows m.cols) (Matrix.guarded_set row col x) fun _ =>
      Edit.succeeds_pure Answer.done
    intro hf
    exact m.inBounds_checkBounds row col ((hg.error_iff hm _).mp hf)
  | setCell row col x => exact hw.elim
  | assignRow row other =>
    unfold MatrixWrite.edit
    rw [Edit.outcome_bind, Edit.outcome_reading]
    cases ho : other.build with
    | error f =>
      intro hf
      rw [Except.error.inj hf] at ho
      exact other.inBounds_build ho
    | ok v =>
      have hg := Edit.guarded_bind (P := Matrix.Shaped m.rows m.cols)
        (Matrix.guarded_assignRow row (Operand.wellFormed_build ho)) fun _ => Edit.succeeds_pure Answer.done
      have hcheck : InBounds (Matrix.checkRow row v.size m) :=
        inBounds_bind (inBounds_checkSize _ _) fun _ _ => inBounds_checkIndex _ _
      intro hf
      exact hcheck ((hg.error_iff hm _).mp hf)

/-! ## Scripts -/

mutual

/-- Neither the reply nor any reply inside it is an access out of bounds. -/
def Reply.InBounds : Reply → Prop
  | .answered _ => True
  | .failed f => f ≠ .overrun
  | .wrote outcome _ => FeatureVector.InBounds outcome
  | .added outcome _ => FeatureVector.InBounds outcome
  | .opened replies _ => Reply.AllInBounds replies
  | .fresh _ replies => Reply.AllInBounds replies
  | .freshMatrix _ replies => Reply.AllInBounds replies
  | .wroteMatrix outcome _ => FeatureVector.InBounds outcome

def Reply.AllInBounds : List Reply → Prop
  | [] => True
  | r :: rest => r.InBounds ∧ Reply.AllInBounds rest

end

theorem Reply.inBounds_ofOutcome {e : Except Fault Answer} (he : FeatureVector.InBounds e) :
    (Reply.ofOutcome e).InBounds := by
  cases e with
  | ok a => trivial
  | error f => exact ne_overrun he rfl

theorem inBounds_reply_addToOperand {v : Vect} (h : v.WellFormed) (o : Operand) : (addToOperand v o).InBounds := by
  unfold addToOperand
  split
  · rename_i f ho
    exact ne_overrun o.inBounds_build ho
  · rename_i t ht
    have hg := Vect.guarded_addTo (Vect.steady_shape (Operand.wellFormed_build ht)) h
    intro hf
    exact inBounds_checkSize _ _ ((hg.error_iff rfl _).mp hf)

end Script

mutual

/-- The step makes no unchecked access, nor do the scripts inside it. -/
def Step.IsChecked : Step → Prop
  | .ask q => q.IsChecked
  | .lengthSquared => True
  | .write w => w.IsChecked
  | .addTo _ => True
  | .within _ steps => Step.AllChecked steps
  | .derive _ next => Step.AllChecked next
  | .outer _ next => MatrixStep.AllChecked next
  | .zeroMatrix _ _ next => MatrixStep.AllChecked next

def Step.AllChecked : List Step → Prop
  | [] => True
  | s :: rest => s.IsChecked ∧ Step.AllChecked rest

def MatrixStep.IsChecked : MatrixStep → Prop
  | .ask q => q.IsChecked
  | .write w => w.IsChecked
  | .row _ next => Step.AllChecked next
  | .column _ next => Step.AllChecked next

def MatrixStep.AllChecked : List MatrixStep → Prop
  | [] => True
  | s :: rest => s.IsChecked ∧ MatrixStep.AllChecked rest

end

open Script (Reply)

theorem Vect.lengthSquared_inBounds {v : Vect} (h : v.WellFormed) :
    InBounds (lengthSquared.outcome v).1 ∧ (lengthSquared.outcome v).2.shape = v.shape := by
  cases v with
  | dense d => exact ⟨inBounds_ok _, rfl⟩
  | view p w =>
    show InBounds ((Edit.reading dotSelf).outcome _).1 ∧ ((Edit.reading dotSelf).outcome _).2.shape = _
    rw [Edit.outcome_reading]
    exact ⟨inBounds_dotSelf h, rfl⟩

mutual

/-- Fresh vectors are contiguous storage, so scripts on them start from no window at all. -/
theorem Step.run_inBounds (s : Step) (hs : s.IsChecked) {v : Vect} (h : v.WellFormed) :
    (s.run v).1.InBounds ∧ (s.run v).2.shape = v.shape := by
  cases s with
  | ask q => exact ⟨Reply.inBounds_ofOutcome (Query.inBounds_answer h hs), rfl⟩
  | lengthSquared =>
    obtain ⟨hin, hshape⟩ := Vect.lengthSquared_inBounds h
    exact ⟨Reply.inBounds_ofOutcome (inBounds_exceptMap hin _), hshape⟩
  | write w => exact Write.inBounds_edit h hs
  | addTo target => exact ⟨inBounds_reply_addToOperand h target, rfl⟩
  | within w steps =>
    unfold Step.run
    split
    · rename_i f hf
      exact ⟨inBounds_error (ne_overrun (Vect.inBounds_window v w) hf), rfl⟩
    · rename_i inner hinner
      obtain ⟨hle, rfl⟩ := Vect.window_eq_ok hinner
      obtain ⟨hin, hshape⟩ := Step.runAll_inBounds steps hs (v := .view v w) ⟨hle, h⟩
      exact ⟨hin, Vect.release_shape hshape⟩
  | derive d next =>
    unfold Step.run
    split
    · rename_i f hf
      exact ⟨ne_overrun (d.inBounds_apply h) hf, rfl⟩
    · rename_i fresh _
      exact ⟨(Step.runAll_inBounds next hs (v := .dense fresh) trivial).1, rfl⟩
  | outer other next =>
    unfold Step.run
    split
    · rename_i f hf
      have hin : InBounds (other.build >>= v.outer) :=
        inBounds_bind other.inBounds_build fun w hw => Vect.inBounds_outer h (Operand.wellFormed_build hw)
      exact ⟨ne_overrun hin hf, rfl⟩
    · exact ⟨MatrixStep.runAll_inBounds next hs _, rfl⟩
  | zeroMatrix rows cols next => exact ⟨MatrixStep.runAll_inBounds next hs _, rfl⟩

theorem Step.runAll_inBounds (steps : List Step) (hs : Step.AllChecked steps) {v : Vect} (h : v.WellFormed) :
    Reply.AllInBounds (Step.runAll steps v).1 ∧ (Step.runAll steps v).2.shape = v.shape := by
  cases steps with
  | nil => exact ⟨trivial, rfl⟩
  | cons s rest =>
    obtain ⟨hreply, hshape⟩ := Step.run_inBounds s hs.1 h
    obtain ⟨hreplies, hshape'⟩ := Step.runAll_inBounds rest hs.2 (Vect.wellFormed_of_shape hshape h)
    exact ⟨⟨hreply, hreplies⟩, hshape'.trans hshape⟩

theorem MatrixStep.run_inBounds (s : MatrixStep) (hs : s.IsChecked) (m : Matrix) : (s.run m).1.InBounds := by
  cases s with
  | ask q => exact Reply.inBounds_ofOutcome (MatrixQuery.inBounds_answer hs m)
  | write w => exact MatrixWrite.inBounds_edit hs m
  | row i next =>
    unfold MatrixStep.run
    split
    · rename_i f hf
      exact ne_overrun (m.inBounds_row i) hf
    · rename_i fresh _
      exact (Step.runAll_inBounds next hs (v := .dense fresh) trivial).1
  | column j next =>
    unfold MatrixStep.run
    split
    · rename_i f hf
      exact ne_overrun (m.inBounds_column j) hf
    · rename_i fresh _
      exact (Step.runAll_inBounds next hs (v := .dense fresh) trivial).1

theorem MatrixStep.runAll_inBounds (steps : List MatrixStep) (hs : MatrixStep.AllChecked steps) (m : Matrix) :
    Reply.AllInBounds (MatrixStep.runAll steps m).1 := by
  cases steps with
  | nil => trivial
  | cons s rest => exact ⟨MatrixStep.run_inBounds s hs.1 m, MatrixStep.runAll_inBounds rest hs.2 _⟩

end

/-! ## What an overrun is -/

namespace Vect

end Vect

theorem Matrix.cell_eq_overrun_iff (m : Matrix) (row col : Nat) :
    m.cell row col = .error .overrun ↔ m.data.size ≤ row * m.cols + col := by
  unfold cell offset
  by_cases h : row * m.cols + col < m.data.size
  · rw [Array.getElem?_eq_getElem h]
    simp [h]
  · rw [Array.getElem?_eq_none (Nat.le_of_not_lt h)]
    simp [Nat.le_of_not_lt h]

end FeatureVector
