/-
  FeatureVector.Vect.Compare — when two vectors count as equal, and the hash that goes with
  it.

  `equivalent` compares numbers only, `strictlyEquivalent` also storage and name. The
  equality of two vectors in contiguous storage is by name and bits (`Dense.same`); as
  soon as a window is involved it is `equivalent`. Bindings never count.
-/
import FeatureVector.Vect.Basic

namespace FeatureVector.Vect

/-- Same size and the same number in every slot. -/
def equivalent (v w : Vect) : Except Fault Bool :=
  if v.size = w.size then
    (List.range v.size).allM fun i => return (← v.slot i) == (← w.slot i)
  else .ok false

/-- Same storage, same name, same numbers. -/
def strictlyEquivalent (v w : Vect) : Except Fault Bool :=
  if v.kind = w.kind ∧ v.name = w.name then v.equivalent w else .ok false

/-- Equality. -/
def same : Vect → Vect → Except Fault Bool
  | dense a, dense b => .ok (a.same b)
  | v, w => v.equivalent w

/-! ## Hash -/

/-- UTF-16 code units of a character. -/
def units16 (c : Char) : List UInt32 :=
  if c.val < 0x10000 then [c.val]
  else
    let above := c.val - 0x10000
    [0xD800 + above / 0x400, 0xDC00 + above % 0x400]

/-- Base 31 over the UTF-16 units, modulo `2 ^ 32`. -/
def nameHash (name : String) : UInt32 :=
  (name.toList.flatMap units16).foldl (fun h unit => h * 31 + unit) 0

/-- The two halves of a bit pattern, combined. -/
def foldBits (x : Float) : UInt32 := x.toBits.toUInt32 ^^^ (x.toBits >>> 32).toUInt32

/-- Name, size and the non-zero slots, each weighted by its index, as a signed word. -/
def hash (v : Vect) : Int32 :=
  let head := (31 + v.name.elim 0 nameHash) * 31 + UInt32.ofNat v.size
  (v.nonZero.foldl (fun h e => h + UInt32.ofNat e.index * foldBits e.value) head).toInt32

end FeatureVector.Vect
