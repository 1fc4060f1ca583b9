/-
  FeatureVector.Proofs.TwinRuns — names, bindings and the cached length do not show in the
  numbers.

  A `PairedSteps` is two scripts in one: steps of both, which address no slot by a label, and
  steps of the second alone that ask for the squared length or set a name or bindings, at any
  depth. `script extras` is the one or the other, and `numeric extras` is what the replies to
  it say in numbers: the slots without their labels, the answers to the questions about
  numbers, every fault, and nothing of the second's additional steps.

  Run on twins, the two scripts reply the same numbers and leave twins
  (`PairedStep.run_twins` for a step, `PairedSteps.runAll_twins` for a script).
  `numbers_ignore_labels_and_cache` is the case of contiguous storage with the same slots.
-/
import FeatureVector.Proofs.Equality
import FeatureVector.Proofs.Erasure

namespace FeatureVector

open Script

/-! ## Steps by index, and what they say in numbers -/

namespace Script

/-- No slot is looked up by a label. -/
def Query.ByIndex : Query → Prop
  | getLabel _ => False
  | _ => True

/-- No slot is looked up by a label; one may be bound. -/
def Write.ByIndex : Write → Prop
  | setLabel _ _ => False
  | _ => True

/-- Not through the text form, which carries the bindings. -/
def Derivation.IsDirect : Derivation → Prop
  | roundTrip => False
  | _ => True

/-- The answer is about slots alone, and not about the name, the bindings or the cache. -/
def Query.IsNumeric : Query → Bool
  | name | bindings | cacheFilled | hash | strictlyEquivalent _ | same _ | differs _ | encode _ | display => false
  | _ => true

end Script

/-- The slots without the labels. -/
def Snapshot.numeric (s : Snapshot) : Snapshot := ⟨s.slots, none, none⟩

namespace Script

def Answer.numeric : Answer → Answer
  | placement offset parent k => placement offset parent.numeric k
  | a => a

/-- What the answer to a question says in numbers. -/
def Query.numeric (q : Query) (a : Answer) : Answer := if q.IsNumeric then a.numeric else .done

/-- What a reply says in numbers, given that for its answer and its replies. -/
def Reply.numeric (answer : Answer → Answer) (nested : List Reply → List Reply) : Reply → Reply
  | answered a => answered (answer a)
  | failed f => failed f
  | wrote outcome after => wrote outcome after.numeric
  | added outcome target => added outcome target
  | opened replies after => opened (nested replies) after.numeric
  | fresh vector replies => fresh vector.numeric (nested replies)
  | freshMatrix m replies => freshMatrix m (nested replies)
  | wroteMatrix outcome after => wroteMatrix outcome after

/-- What touches nothing but name, bindings and cached length. -/
inductive Extra
  | lengthSquared
  | setName (name : Option String)
  | setBindings (b : Option Bindings)

def Extra.step : Extra → Step
  | lengthSquared => .lengthSquared
  | setName name => .write (.setName name)
  | setBindings b => .write (.setBindings b)

end Script

/-! ## Two scripts in one -/

mutual

/-- A step of both scripts. -/
inductive PairedStep
  | ask (q : Query) (h : q.ByIndex)
  | lengthSquared
  | write (w : Write) (h : w.ByIndex)
  | addTo (target : Operand)
  | within (w : Window) (steps : PairedSteps)
  | derive (d : Derivation) (h : d.IsDirect) (next : PairedSteps)
  | outer (other : Operand) (next : PairedMatrixSteps)
  | zeroMatrix (rows cols : Nat) (next : PairedMatrixSteps)

inductive PairedSteps
  | done
  | step (s : PairedStep) (rest : PairedSteps)
  /-- A step of the second script alone. -/
  | extra (e : Extra) (rest : PairedSteps)

/-- A step of both scripts on a matrix. -/
inductive PairedMatrixStep
  | ask (q : MatrixQuery)
  | write (w : MatrixWrite)
  | row (i : Nat) (next : PairedSteps)
  | column (j : Nat) (next : PairedSteps)

inductive PairedMatrixSteps
  | done
  | step (s : PairedMatrixStep) (rest : PairedMatrixSteps)

end

variable (extras : Bool)

mutual

def PairedStep.toStep : PairedStep → Step
  | .ask q _ => .ask q
  | .lengthSquared => .lengthSquared
  | .write w _ => .write w
  | .addTo target => .addTo target
  | .within w steps => .within w steps.script
  | .derive d _ next => .derive d next.script
  | .outer other next => .outer other next.script
  | .zeroMatrix rows cols next => .zeroMatrix rows cols next.script

/-- The first script, or the second with its extras. -/
def PairedSteps.script : PairedSteps → List Step
  | .done => []
  | .step s rest => s.toStep :: rest.script
  | .extra e rest => if extras then e.step :: rest.script else rest.script

def PairedMatrixStep.toStep : PairedMatrixStep → MatrixStep
  | .ask q => .ask q
  | .write w => .write w
  | .row i next => .row i next.script
  | .column j next => .column j next.script

def PairedMatrixSteps.script : PairedMatrixSteps → List MatrixStep
  | .done => []
  | .step s rest => s.toStep :: rest.script

end

mutual

def PairedStep.numeric : PairedStep → Reply → Reply
  | .ask q _ => Reply.numeric q.numeric id
  | .lengthSquared | .write _ _ | .addTo _ => Reply.numeric id id
  | .within _ steps => Reply.numeric id steps.numeric
  | .derive _ _ next => Reply.numeric id next.numeric
  | .outer _ next | .zeroMatrix _ _ next => Reply.numeric id next.numeric

/-- What the replies to the script say in numbers. -/
def PairedSteps.numeric : PairedSteps → List Reply → List Reply
  | .done, _ => []
  | .step _ _, [] => []
  | .step s rest, reply :: replies => s.numeric reply :: rest.numeric replies
  | .extra _ rest, replies => rest.numeric (if extras then replies.tail else replies)

def PairedMatrixStep.numeric : PairedMatrixStep → Reply → Reply
  | .ask _ | .write _ => id
  | .row _ next | .column _ next => Reply.numeric id next.numeric

def PairedMatrixSteps.numeric : PairedMatrixSteps → List Reply → List Reply
  | .done, _ => []
  | .step _ _, [] => []
  | .step s rest, reply :: replies => s.numeric reply :: rest.numeric replies

end

/-! ## Questions -/

namespace Script

theorem Query.answer_bare {q : Query} (hq : q.ByIndex) (hn : q.IsNumeric = true) (v : Vect) :
    (q.answer v.bare).map Answer.numeric = (q.answer v).map Answer.numeric := by
  cases q with
  | size => simp only [answer, Vect.size_bare]
  | extent => simp only [answer, Vect.isEmpty, Vect.size_bare]
  | storedCount => simp only [answer, Vect.storedCount, Vect.size_bare]
  | kind => simp only [answer, Vect.kind_bare]
  | get i => simp only [answer, Vect.get_bare]
  | slot i => simp only [answer, Vect.slot_bare]
  | element i => simp only [answer, Vect.element, Vect.get_bare]
  | elements => simp only [answer, Vect.elements_bare]
  | nonZero => simp only [answer, Vect.nonZero_bare]
  | slots => simp only [answer, Vect.slots_bare]
  | total => simp only [answer, Vect.total_bare]
  | maximum => simp only [answer, Vect.maximum_bare]
  | argMax => simp only [answer, Vect.argMax_bare]
  | norm power => simp only [answer, Vect.norm_bare]
  | dot other => simp only [answer, Vect.dot_bare]
  | distanceSquared other => simp only [answer, Vect.distanceSquared_bare]
  | equivalent other => simp only [answer, Vect.equivalent_bare]
  | hints =>
    cases v with
    | dense d => rfl
    | view p w => rfl
  | placement =>
    cases v with
    | dense d => rfl
    | view p w =>
      show Except.ok (Answer.placement w.offset ⟨p.bare.slots, none, none⟩ p.bare.kind) = _
      rw [Vect.slots_bare, Vect.kind_bare]
      rfl
  | getLabel label => exact hq.elim
  | _ => cases hn

/-- Whether the other questions are answered does not depend on the vector. -/
theorem Query.exists_outcome {q : Query} (hn : q.IsNumeric = false) : ∃ r : Except Fault Answer,
    ∀ v : Vect, v.WellFormed → (q.answer v).map (fun _ => Answer.done) = r := by
  -- a comparison fails only if its operand cannot be built
  have compared {other : Operand} {f : Vect → Vect → Except Fault Bool} (g : Bool → Bool)
      (hf : ∀ v o : Vect, v.WellFormed → o.WellFormed → ∃ b, f v o = .ok b) :
      ∃ r : Except Fault Answer, ∀ v : Vect, v.WellFormed →
        (do return Answer.flag (g (← f v (← other.build))) : Except Fault Answer).map (fun _ => Answer.done) = r := by
    refine ⟨other.build.map fun _ => .done, fun v hv => ?_⟩
    cases hb : other.build with
    | error e => rfl
    | ok o =>
      obtain ⟨b, hfo⟩ := hf v o hv (Operand.wellFormed_build hb)
      show Except.map _ (f v o >>= fun b => Except.ok (Answer.flag (g b))) = _
      rw [hfo]
      rfl
  cases q with
  | name | bindings | cacheFilled | hash => exact ⟨.ok .done, fun _ _ => rfl⟩
  | display => exact ⟨.ok .done, fun v _ => by cases v <;> rfl⟩
  | encode options =>
    refine ⟨.ok .done, fun v hv => ?_⟩
    simp only [answer, Vect.encode, Record.ofVect, Vect.elements_eq hv]
    rfl
  | strictlyEquivalent other => exact compared id fun v o hv ho => ⟨_, Vect.strictlyEquivalent_eq hv ho⟩
  | same other => exact compared id fun v o hv ho => Vect.exists_same hv ho
  | differs other => exact compared not fun v o hv ho => Vect.exists_same hv ho
  | _ => cases hn

theorem Query.answer_twins {v w : Vect} (h : Twins v w) {q : Query} (hq : q.ByIndex) :
    (q.answer v).map q.numeric = (q.answer w).map q.numeric := by
  cases hn : q.IsNumeric with
  | true =>
    have hnumeric : q.numeric = Answer.numeric := by
      funext a
      simp [Query.numeric, hn]
    rw [hnumeric]
    exact h.read (f := fun u => (q.answer u).map Answer.numeric) (q.answer_bare hq hn)
  | false =>
    have hnumeric : q.numeric = fun _ => .done := by
      funext a
      simp [Query.numeric, hn]
    obtain ⟨r, hr⟩ := Query.exists_outcome hn
    rw [hnumeric, hr v h.wellFormed, hr w h.wellFormed']

/-! ## Changes and derivations -/

theorem Write.agree_edit_twins {c : Write} (hc : c.ByIndex) : Edit.Agree Twins c.edit c.edit := by
  have done {α β : Type} {e : Edit Vect α} {b : β} (he : Edit.Agree Twins e e) :
      Edit.Agree Twins (do let _ ← e; return b) (do let _ ← e; return b) :=
    Edit.agree_bind he fun _ => Edit.agree_pure b
  have operand (o : Operand) : Edit.Agree Twins (Edit.reading fun _ => o.build) (Edit.reading fun _ => o.build) :=
    Edit.agree_reading fun _ _ _ => rfl
  cases c with
  | set i x => exact done (Twins.agree_set i x)
  | setSlot i x => exact done (Twins.agree_setSlot i x)
  | setLabel label x => exact hc.elim
  | bindLabel label i x => exact done (Twins.agree_bindLabel label i x)
  | setName name => exact done (Twins.agree_withName name name)
  | setBindings b => exact done (Twins.agree_withBindings (fun _ => b) fun _ => b)
  | setElement i x => exact Edit.agree_bind (Twins.agree_setElement i x) fun e => Edit.agree_pure _
  | assignValue x => exact done (Twins.agree_setEach fun _ _ => rfl)
  | assignList xs => exact done (Twins.agree_assignList xs)
  | assignFrom other => exact Edit.agree_bind (operand other) fun o => done (Twins.agree_assignFrom o)
  | assignMap f => exact done (Twins.agree_setEach fun i u => by rw [Vect.slot_bare])
  | assignMapScalar f x => exact done (Twins.agree_setEach fun i u => by rw [Vect.slot_bare])
  | assignZip other f => exact Edit.agree_bind (operand other) fun o => done (Twins.agree_assignZip o f)

theorem Derivation.apply_bare {d : Derivation} (hd : d.IsDirect) (v : Vect) :
    d.apply v.bare = (d.apply v).map Dense.bare := by
  have operand {other : Operand} {f g : Vect → Except Fault Dense} (hf : ∀ o, f o = (g o).map Dense.bare) :
      (do f (← other.build)) = (do g (← other.build)).map Dense.bare := by
    cases other.build with
    | error e => rfl
    | ok o => exact hf o
  cases d with
  | clone => exact Vect.clone_bare v
  | blank => exact congrArg Except.ok ((Vect.blankOfSize_bare v _).trans (by rw [Vect.size_bare]; rfl))
  | blankOfSize n => exact congrArg Except.ok (Vect.blankOfSize_bare v n)
  | toDense => exact Vect.toDense_bare v
  | addScalar x => exact Vect.addScalar_bare v x
  | scale x => exact Vect.scale_bare v x
  | divScalar x => exact Vect.divScalar_bare v x
  | normalize => exact Vect.normalize_bare v
  | normalizeBy power => exact Vect.normalizeBy_bare v power
  | add other => exact operand (Vect.add_bare v)
  | sub other => exact operand (Vect.sub_bare v)
  | mul other => exact operand (Vect.mul_bare v)
  | roundTrip => exact hd.elim

/-- What is derived from twins are twins, or both derivations have the same fault. -/
theorem Derivation.apply_twins {v w : Vect} (h : Twins v w) {d : Derivation} (hd : d.IsDirect) :
    (∃ e, d.apply v = .error e ∧ d.apply w = .error e) ∨
      ∃ a b, d.apply v = .ok a ∧ d.apply w = .ok b ∧ Twins (.dense a) (.dense b) := by
  have hbare : (d.apply v).map Dense.bare = (d.apply w).map Dense.bare := by
    rw [← d.apply_bare hd, ← d.apply_bare hd, h.bare]
  cases hv : d.apply v with
  | error e =>
    cases hw : d.apply w with
    | error f =>
      rw [hv, hw] at hbare
      exact .inl ⟨e, rfl, congrArg Except.error (Except.error.inj hbare).symm⟩
    | ok b =>
      rw [hv, hw] at hbare
      cases hbare
  | ok a =>
    cases hw : d.apply w with
    | error f =>
      rw [hv, hw] at hbare
      cases hbare
    | ok b =>
      rw [hv, hw] at hbare
      refine .inr ⟨a, b, rfl, rfl, ?_⟩
      exact {
        wellFormed := trivial
        bare := congrArg Vect.dense (Except.ok.inj hbare)
        coherent := d.coherent_apply h.coherent hv
        coherent' := d.coherent_apply h.coherent' hw }

theorem addToOperand_twins {v w : Vect} (h : Twins v w) (target : Operand) :
    addToOperand v target = addToOperand w target := by
  unfold addToOperand
  rw [h.read Vect.addTo_bare]

end Script

/-! ## Runs -/

theorem Vect.snapshot_twins {v w : Vect} (h : Twins v w) : v.snapshot.numeric = w.snapshot.numeric := by
  simp only [snapshot, Snapshot.numeric, h.read Vect.slots_bare]

theorem Twins.release {v w : Vect} (h : Twins v w) : Twins v.release w.release where
  wellFormed := by
    have hwf := h.wellFormed
    cases v with
    | dense d => trivial
    | view p u => exact hwf.2
  bare := by rw [Vect.bare_release, Vect.bare_release, h.bare]
  coherent := Vect.coherent_release h.coherent
  coherent' := Vect.coherent_release h.coherent'

/-- A window opens on both twins, or on neither for the same fault. -/
theorem Twins.window {v w : Vect} (h : Twins v w) (u : Window) :
    (∃ e, v.window u = .error e ∧ w.window u = .error e) ∨
      ∃ a b, v.window u = .ok a ∧ w.window u = .ok b ∧ Twins a b := by
  have hsize : v.size = w.size := h.read Vect.size_bare
  unfold Vect.window
  rw [← hsize]
  by_cases hlong : v.size < u.length
  · exact .inl ⟨_, if_pos hlong, if_pos hlong⟩
  · by_cases hpast : v.size < u.offset + u.length
    · exact .inl ⟨_, by rw [if_neg hlong, if_pos hpast], by rw [if_neg hlong, if_pos hpast]⟩
    · refine .inr ⟨_, _, by rw [if_neg hlong, if_neg hpast], by rw [if_neg hlong, if_neg hpast], ?_⟩
      exact {
        wellFormed := ⟨Nat.not_lt.mp hpast, h.wellFormed⟩
        bare := by rw [Vect.bare, Vect.bare, h.bare]
        coherent := h.coherent
        coherent' := h.coherent' }

theorem Twins.refl {d : Dense} (h : d.Coherent) : Twins (.dense d) (.dense d) where
  wellFormed := trivial
  bare := rfl
  coherent := h
  coherent' := h

/-- What only the second script does leaves twins. -/
theorem Script.Extra.run_twins {v w : Vect} (h : Twins v w) (e : Extra) : Twins v (e.step.run w).2 := by
  cases e with
  | lengthSquared =>
    exact h.change (f := id) (g := fun w => (Vect.lengthSquared.outcome w).2) rfl (Vect.bare_lengthSquared w)
      h.coherent (Vect.keeps_lengthSquared w h.coherent')
  | setName name =>
    exact h.change (f := id) rfl (Vect.bare_withName w name) h.coherent (Vect.coherent_withName h.coherent' name)
  | setBindings b =>
    exact h.change (f := id) rfl (Vect.bare_withBindings w b) h.coherent (Vect.coherent_withBindings h.coherent' b)

theorem Script.Reply.numeric_ofOutcome (f : Answer → Answer) (g : List Reply → List Reply) (o : Except Fault Answer) :
    (Reply.ofOutcome o).numeric f g = Reply.ofOutcome (o.map f) := by
  cases o <;> rfl

theorem Matrix.coherent_row {m : Matrix} {i : Nat} {d : Dense} (h : m.row i = .ok d) : d.Coherent := by
  obtain ⟨_, -, h⟩ := Edit.bind_eq_ok h
  obtain ⟨cells, -, h⟩ := Edit.bind_eq_ok h
  cases h
  exact Dense.coherent_of_empty rfl

theorem Matrix.coherent_column {m : Matrix} {j : Nat} {d : Dense} (h : m.column j = .ok d) : d.Coherent := by
  obtain ⟨_, -, h⟩ := Edit.bind_eq_ok h
  obtain ⟨cells, -, h⟩ := Edit.bind_eq_ok h
  cases h
  exact Dense.coherent_of_empty rfl

mutual

theorem PairedStep.run_twins (s : PairedStep) {v w : Vect} (h : Twins v w) :
    s.numeric false ((s.toStep false).run v).1 = s.numeric true ((s.toStep true).run w).1 ∧
      Twins ((s.toStep false).run v).2 ((s.toStep true).run w).2 := by
  cases s with
  | ask q hq =>
    refine ⟨?_, h⟩
    simp only [PairedStep.toStep, PairedStep.numeric, Step.run, Reply.numeric_ofOutcome, q.answer_twins h hq]
  | lengthSquared =>
    obtain ⟨hanswer, hstate⟩ := Twins.agree_lengthSquared v w h
    refine ⟨?_, hstate⟩
    simp only [PairedStep.toStep, PairedStep.numeric, Step.run, hanswer]
  | write c hc =>
    obtain ⟨hanswer, hstate⟩ := c.agree_edit_twins hc v w h
    refine ⟨?_, hstate⟩
    simp only [PairedStep.toStep, PairedStep.numeric, Step.run, Reply.numeric, hanswer, Vect.snapshot_twins hstate]
  | addTo target =>
    refine ⟨?_, h⟩
    simp only [PairedStep.toStep, PairedStep.numeric, Step.run, addToOperand_twins h]
  | within u steps =>
    obtain ⟨e, hv, hw⟩ | ⟨a, b, hv, hw, hinner⟩ := h.window u
    · simp only [PairedStep.toStep, PairedStep.numeric, Step.run, hv, hw]
      exact ⟨by simp only [Reply.numeric, Vect.snapshot_twins h], h⟩
    · obtain ⟨hreplies, hstate⟩ := steps.runAll_twins hinner
      simp only [PairedStep.toStep, PairedStep.numeric, Step.run, hv, hw]
      exact ⟨by simp only [Reply.numeric, hreplies, Vect.snapshot_twins hstate.release], hstate.release⟩
  | derive d hd next =>
    obtain ⟨e, hv, hw⟩ | ⟨a, b, hv, hw, hfresh⟩ := d.apply_twins h hd
    · simp only [PairedStep.toStep, PairedStep.numeric, Step.run, hv, hw]
      exact ⟨rfl, h⟩
    · obtain ⟨hreplies, -⟩ := next.runAll_twins hfresh
      have hsnapshot : a.snapshot.numeric = b.snapshot.numeric := Vect.snapshot_twins hfresh
      simp only [PairedStep.toStep, PairedStep.numeric, Step.run, hv, hw]
      exact ⟨by simp only [Reply.numeric, hreplies, hsnapshot], h⟩
  | outer other next =>
    have houter : v.outer = w.outer := funext fun o => h.read (f := fun u => u.outer o) fun u => u.outer_bare o
    simp only [PairedStep.toStep, PairedStep.numeric, Step.run, houter]
    cases other.build.bind w.outer with
    | error e => exact ⟨rfl, h⟩
    | ok m =>
      obtain ⟨hreplies, -⟩ := next.runAll_same m
      exact ⟨by simp only [Reply.numeric, hreplies], h⟩
  | zeroMatrix rows cols next =>
    obtain ⟨hreplies, -⟩ := next.runAll_same (.zeros rows cols)
    exact ⟨by simp only [PairedStep.toStep, PairedStep.numeric, Step.run, Reply.numeric, hreplies], h⟩

theorem PairedSteps.runAll_twins (steps : PairedSteps) {v w : Vect} (h : Twins v w) :
    steps.numeric false (Step.runAll (steps.script false) v).1 =
        steps.numeric true (Step.runAll (steps.script true) w).1 ∧
      Twins (Step.runAll (steps.script false) v).2 (Step.runAll (steps.script true) w).2 := by
  cases steps with
  | done => exact ⟨rfl, h⟩
  | step s rest =>
    obtain ⟨hreply, h'⟩ := s.run_twins h
    obtain ⟨hreplies, h''⟩ := rest.runAll_twins h'
    refine ⟨?_, h''⟩
    simp only [PairedSteps.script, Step.runAll, PairedSteps.numeric, hreply, hreplies]
  | extra e rest => exact rest.runAll_twins (e.run_twins h)

theorem PairedMatrixStep.run_same (s : PairedMatrixStep) (m : Matrix) :
    s.numeric false ((s.toStep false).run m).1 = s.numeric true ((s.toStep true).run m).1 ∧
      ((s.toStep false).run m).2 = ((s.toStep true).run m).2 := by
  cases s with
  | ask q => exact ⟨rfl, rfl⟩
  | write c => exact ⟨rfl, rfl⟩
  | row i next =>
    simp only [PairedMatrixStep.toStep, PairedMatrixStep.numeric, MatrixStep.run]
    cases hrow : m.row i with
    | error e => exact ⟨rfl, rfl⟩
    | ok d =>
      obtain ⟨hreplies, -⟩ := next.runAll_twins (.refl (Matrix.coherent_row hrow))
      exact ⟨by simp only [Reply.numeric, hreplies], rfl⟩
  | column j next =>
    simp only [PairedMatrixStep.toStep, PairedMatrixStep.numeric, MatrixStep.run]
    cases hcolumn : m.column j with
    | error e => exact ⟨rfl, rfl⟩
    | ok d =>
      obtain ⟨hreplies, -⟩ := next.runAll_twins (.refl (Matrix.coherent_column hcolumn))
      exact ⟨by simp only [Reply.numeric, hreplies], rfl⟩

theorem PairedMatrixSteps.runAll_same (steps : PairedMatrixSteps) (m : Matrix) :
    steps.numeric false (MatrixStep.runAll (steps.script false) m).1 =
        steps.numeric true (MatrixStep.runAll (steps.script true) m).1 ∧
      (MatrixStep.runAll (steps.script false) m).2 = (MatrixStep.runAll (steps.script true) m).2 := by
  cases steps with
  | done => exact ⟨rfl, rfl⟩
  | step s rest =>
    obtain ⟨hreply, hstate⟩ := s.run_same m
    obtain ⟨hreplies, hstate'⟩ := rest.runAll_same ((s.toStep true).run m).2
    refine ⟨?_, ?_⟩
    · simp only [PairedMatrixSteps.script, MatrixStep.runAll, PairedMatrixSteps.numeric, hreply, hstate, hreplies]
    · simp only [PairedMatrixSteps.script, MatrixStep.runAll, hstate, hstate']

end

end FeatureVector
