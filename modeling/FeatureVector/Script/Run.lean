/-
  FeatureVector.Script.Run — running scripts, and what the steps reply.

  A step that fails replies with its fault, and the script goes on with the vector the step
  left behind. A write also replies with that vector, so that what a fault left behind is
  seen.
-/
import FeatureVector.Script.Step
import FeatureVector.Vect.Arithmetic
import FeatureVector.Vect.Assign
import FeatureVector.Vect.Compare

namespace FeatureVector

/-- What is seen of a vector: its slots, name and bindings. -/
structure Snapshot where
  slots : List Float
  name : Option String
  bindings : Option Bindings
  deriving DecidableEq

def Vect.snapshot (v : Vect) : Snapshot := ⟨v.slots, v.name, v.bindings⟩

def Dense.snapshot (d : Dense) : Snapshot := (Vect.dense d).snapshot

namespace Script

inductive Answer
  | done
  | count (n : Nat)
  | extent (size : Nat) (isEmpty : Bool)
  | kind (k : Kind)
  | name (name : Option String)
  | bindings (b : Option Bindings)
  | number (x : Float)
  | numbers (xs : List Float)
  | element (e : Element)
  | elements (es : List Element)
  | index (i : Option Nat)
  | flag (b : Bool)
  | filled (valid : Option Bool)
  | hash (h : Int32)
  | text (s : String)
  | hints (every nonZero : List (Nat × Nat))
  | placement (offset : Nat) (parent : Snapshot) (kind : Kind)
  | shape (rows cols : Nat)
  /-- The question does not apply to this storage. -/
  | unsupported
  deriving DecidableEq

inductive Reply
  | answered (a : Answer)
  | failed (f : Fault)
  | wrote (outcome : Except Fault Answer) (after : Snapshot)
  /-- The target of an addition and what became of it. -/
  | added (outcome : Except Fault Unit) (target : Snapshot)
  /-- What a script on a window replied, and the vector afterwards. -/
  | opened (replies : List Reply) (after : Snapshot)
  /-- A fresh vector and what a script on it replied. -/
  | fresh (vector : Snapshot) (replies : List Reply)
  /-- A fresh matrix and what a script on it replied. -/
  | freshMatrix (m : Matrix) (replies : List Reply)
  | wroteMatrix (outcome : Except Fault Answer) (after : Matrix)

def Reply.ofOutcome : Except Fault Answer → Reply
  | .ok a => answered a
  | .error f => failed f

/-! ## Vectors -/

def Query.answer (v : Vect) : Query → Except Fault Answer
  | size => return .count v.size
  | extent => return .extent v.size v.isEmpty
  | storedCount => return .count v.storedCount
  | kind => return .kind v.kind
  | name => return .name v.name
  | bindings => return .bindings v.bindings
  | get i => return .number (← v.get i)
  | slot i => return .number (← v.slot i)
  | getLabel label => return .number (← v.getLabel label)
  | element i => return .element (← v.element i)
  | elements => return .elements (← v.elements)
  | nonZero => return .elements v.nonZero
  | slots => return .numbers v.slots
  | total => return .number v.total
  | maximum => return .number (← v.maximum)
  | argMax => return .index (← v.argMax)
  | norm power => return .number (← v.norm power)
  | cacheFilled => return .filled v.cacheFilled
  | hash => return .hash v.hash
  | dot other => do return .number (← v.dot (← other.build))
  | distanceSquared other => do return .number (← v.distanceSquared (← other.build))
  | equivalent other => do return .flag (← v.equivalent (← other.build))
  | strictlyEquivalent other => do return .flag (← v.strictlyEquivalent (← other.build))
  | same other => do return .flag (← v.same (← other.build))
  | differs other => do return .flag (!(← v.same (← other.build)))
  | encode options => return .text (← v.encode options)
  | display => match v with
    | .dense d => return .text d.display
    | .view _ _ => return .unsupported
  | hints => match v with
    | .dense d => return .hints (d.walk .every).hints (d.walk .nonZero).hints
    | .view _ _ => return .unsupported
  | placement => match v with
    | .dense _ => return .unsupported
    | .view p w => return .placement w.offset p.snapshot p.kind

def Write.edit : Write → Edit Vect Answer
  | set i x => do Vect.set i x; return .done
  | setSlot i x => do Vect.setSlot i x; return .done
  | setLabel label x => do Vect.setLabel label x; return .done
  | bindLabel label i x => do Vect.bindLabel label i x; return .done
  | setName name => do Vect.setName name; return .done
  | setBindings b => do Vect.setBindings b; return .done
  | setElement i x => do return .element (← Vect.setElement i x)
  | assignValue x => do Vect.assignValue x; return .done
  | assignList xs => do Vect.assignList xs; return .done
  | assignFrom other => do
    Vect.assignFrom (← Edit.reading fun _ => other.build)
    return .done
  | assignMap f => do Vect.assignMap f; return .done
  | assignMapScalar f x => do Vect.assignMapScalar f x; return .done
  | assignZip other f => do
    Vect.assignZip (← Edit.reading fun _ => other.build) f
    return .done

def Derivation.apply (v : Vect) : Derivation → Except Fault Dense
  | clone => v.clone
  | blank => return v.blank
  | blankOfSize size => return v.blankOfSize size
  | toDense => v.toDense
  | addScalar x => v.addScalar x
  | scale x => v.scale x
  | divScalar x => v.divScalar x
  | normalize => v.normalize
  | normalizeBy power => v.normalizeBy power
  | add other => do v.add (← other.build)
  | sub other => do v.sub (← other.build)
  | mul other => do v.mul (← other.build)
  | roundTrip => do Dense.decode (← v.encode { includeBindings := true })

/-- Adds the vector to an operand. The operand's storage is shown afterwards, unless the
    operand cannot be built. -/
def addToOperand (v : Vect) (target : Operand) : Reply :=
  match target.build with
  | .error f => .failed f
  | .ok t =>
    let (outcome, t') := (v.addTo).outcome t
    .added outcome t'.root.snapshot

/-! ## Matrices -/

def MatrixQuery.answer (m : Matrix) : MatrixQuery → Except Fault Answer
  | shape => return .shape m.rows m.cols
  | get row col => return .number (← m.get row col)
  | cell row col => return .number (← m.cell row col)
  | rowSlice row => return .numbers (← m.rowSlice row)
  | display => return .text m.display
  | same rows cols data => return .flag (m == (← Matrix.ofShape rows cols data))

def MatrixWrite.edit : MatrixWrite → Edit Matrix Answer
  | set row col x => do Matrix.set row col x; return .done
  | setCell row col x => do Matrix.setCell row col x; return .done
  | assignRow row other => do
    Matrix.assignRow row (← Edit.reading fun _ => other.build)
    return .done

end Script

/-! ## Runs -/

open Script

mutual

/-- The reply to a step and the vector it leaves behind. -/
def Step.run : Step → Vect → Reply × Vect
  | .ask q, v => (.ofOutcome (q.answer v), v)
  | .lengthSquared, v =>
    let (outcome, v') := Vect.lengthSquared.outcome v
    (.ofOutcome (outcome.map .number), v')
  | .write w, v =>
    let (outcome, v') := w.edit.outcome v
    (.wrote outcome v'.snapshot, v')
  | .addTo target, v => (addToOperand v target, v)
  | .within w steps, v =>
    match v.window w with
    | .error f => (.wrote (.error f) v.snapshot, v)
    | .ok inner =>
      let (replies, inner') := Step.runAll steps inner
      (.opened replies inner'.release.snapshot, inner'.release)
  | .derive d next, v =>
    match d.apply v with
    | .error f => (.failed f, v)
    | .ok fresh => (.fresh fresh.snapshot (Step.runAll next (.dense fresh)).1, v)
  | .outer other next, v =>
    match other.build.bind v.outer with
    | .error f => (.failed f, v)
    | .ok m => (.freshMatrix m (MatrixStep.runAll next m).1, v)
  | .zeroMatrix rows cols next, v =>
    (.freshMatrix (.zeros rows cols) (MatrixStep.runAll next (.zeros rows cols)).1, v)

/-- The replies of a script and the vector it leaves behind. -/
def Step.runAll : List Step → Vect → List Reply × Vect
  | [], v => ([], v)
  | s :: rest, v =>
    let (reply, v') := s.run v
    let (replies, v'') := Step.runAll rest v'
    (reply :: replies, v'')

/-- The reply to a step and the matrix it leaves behind. -/
def MatrixStep.run : MatrixStep → Matrix → Reply × Matrix
  | .ask q, m => (.ofOutcome (q.answer m), m)
  | .write w, m =>
    let (outcome, m') := w.edit.outcome m
    (.wroteMatrix outcome m', m')
  | .row i next, m =>
    match m.row i with
    | .error f => (.failed f, m)
    | .ok fresh => (.fresh fresh.snapshot (Step.runAll next (.dense fresh)).1, m)
  | .column j next, m =>
    match m.column j with
    | .error f => (.failed f, m)
    | .ok fresh => (.fresh fresh.snapshot (Step.runAll next (.dense fresh)).1, m)

/-- The replies of a script and the matrix it leaves behind. -/
def MatrixStep.runAll : List MatrixStep → Matrix → List Reply × Matrix
  | [], m => ([], m)
  | s :: rest, m =>
    let (reply, m') := s.run m
    let (replies, m'') := MatrixStep.runAll rest m'
    (reply :: replies, m'')

end

end FeatureVector
