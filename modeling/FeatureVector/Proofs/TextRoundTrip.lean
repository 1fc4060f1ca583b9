/-
  FeatureVector.Proofs.TextRoundTrip — what comes back of a vector from its text.

  Encoding never fails. Decoding the text gives the vector's record again, each slot as the
  reader makes it (`decode_encode`):
  - size and name come back, and the bindings if they were asked for, whichever way the text
    is laid out; nothing comes back when a slot is no number (`text_keeps_structure`);
  - a slot comes back exactly when it survives the two roundings of the reader
    (`text_keeps_surviving_slots`). Not every double does (`text_changes_a_slot`).
-/
import FeatureVector.Proofs.Records
import FeatureVector.Proofs.ShortDecimals

namespace FeatureVector

namespace Vect

/-- Size and bound indices are machine words. -/
structure Addressable (v : Vect) : Prop where
  size : v.size ≤ maxIndex
  bindings : ∀ b ∈ v.bindings, b.Addressable

/-- Storage under the vector's name, and its bindings when they are asked for. -/
def dressed (v : Vect) (includeBindings : Bool) (slots : List Float) : Dense :=
  { Dense.ofList slots with name := v.name, bindings := if includeBindings then v.bindings else none }

/-- Encoding succeeds; decoding gives the slots as the reader makes them, if it makes them all. -/
theorem decode_encode {v : Vect} (hv : v.WellFormed) (ha : v.Addressable) (options : EncodeOptions) :
    ∃ text, v.encode options = .ok text ∧
      Dense.decode text =
        match v.slots.mapM Json.readBack with
        | some slots => .ok (v.dressed options.includeBindings slots)
        | none => .error .malformed := by
  have hbindings : ∀ b ∈ (v.record options.includeBindings).bindings, b.Addressable := by
    intro b hb
    cases hinclude : options.includeBindings with
    | false => simp [record, hinclude] at hb
    | true => exact ha.bindings b (by simpa [record, hinclude] using hb)
  have hsize : (v.record options.includeBindings).size ≤ maxIndex := ha.size
  refine ⟨_, encode_eq hv options, ?_⟩
  rw [Dense.decode, Record.parse_toText options.layout hsize hbindings, record]
  cases hslots : v.slots.mapM Json.readBack with
  | none => rfl
  | some slots =>
    have hlength : v.size = slots.length := by
      rw [← length_slots hv, (Json.mapM_eq_some_iff.mp hslots).length_eq]
    exact Record.toDense_of_size (r := ⟨.dense, v.name, v.size, slots, _⟩) rfl hlength

theorem isSome_readBack_iff (v : Vect) :
    (v.slots.mapM Json.readBack).isSome ↔ ∀ x ∈ v.slots, x.isFinite := by
  simp only [Json.isSome_mapM, Json.isSome_readBack]

/-- What a vector's text gives back: its size, its name and the bindings asked for when all
    slots are finite, and a malformed text otherwise; the layout makes no difference. -/
theorem text_keeps_structure {v : Vect} (hv : v.WellFormed) (ha : v.Addressable) (options : EncodeOptions) :
    ∃ text, v.encode options = .ok text ∧
      ((∃ d, Dense.decode text = .ok d) ↔ ∀ x ∈ v.slots, x.isFinite) ∧
      ((¬ ∃ d, Dense.decode text = .ok d) → Dense.decode text = .error .malformed) ∧
      (∀ d, Dense.decode text = .ok d → d.size = v.size ∧ d.name = v.name ∧
        d.bindings = if options.includeBindings then v.bindings else none) ∧
      ∀ pretty, ∃ text', v.encode { options with pretty } = .ok text' ∧ Dense.decode text' = Dense.decode text := by
  obtain ⟨text, htext, hdecode⟩ := decode_encode hv ha options
  refine ⟨text, htext, ?_, ?_, ?_, fun pretty => ?_⟩
  · rw [← isSome_readBack_iff, hdecode]
    cases v.slots.mapM Json.readBack <;> simp
  · rw [hdecode]
    cases v.slots.mapM Json.readBack <;> simp
  · intro d hd
    rw [hdecode] at hd
    cases hslots : v.slots.mapM Json.readBack with
    | none =>
      rw [hslots] at hd
      cases hd
    | some slots =>
      rw [hslots] at hd
      cases hd
      refine ⟨?_, rfl, rfl⟩
      rw [← length_slots hv, (Json.mapM_eq_some_iff.mp hslots).length_eq]
      rfl
  · obtain ⟨text', htext', hdecode'⟩ := decode_encode hv ha { options with pretty }
    exact ⟨text', htext', hdecode'.trans hdecode.symm⟩

/-- A vector with an empty name, quotes in its labels, and an index past its end, seen through
    two windows; and one that shows a NaN. -/
theorem text_keeps_window_structure :
    let b := Bindings.ofList [("\"", 2 ^ 64 - 1), ("a\\\n", 0), ("𝕏", 7)]
    let root := Dense.ofList [1, 0.5, Binary64.negZero, 0 / 0]
    let inner (length : Nat) : Vect := .view (.view (.dense root) ⟨1, 3, none, none⟩) ⟨0, length, some "", some b⟩
    (∃ text d, (inner 2).encode ⟨true, true⟩ = .ok text ∧ Dense.decode text = .ok d ∧
      d.size = 2 ∧ d.name = some "" ∧ d.bindings = some b) ∧
    ∃ text, (inner 3).encode ⟨false, true⟩ = .ok text ∧ Dense.decode text = .error .malformed := by
  intro b root inner
  have hb : b.Addressable := by
    unfold Bindings.Addressable
    decide
  have ha (length : Nat) (h : length ≤ 3) : (inner length).Addressable := {
    size := le_trans h (by decide)
    bindings := by
      rintro b' ⟨⟩
      exact hb }
  have hfinite : ∀ x ∈ (inner 2).slots, x.isFinite := by decide
  have hnan : ¬ ∀ x ∈ (inner 3).slots, x.isFinite := by decide
  obtain ⟨text, htext, hok, -, hkeep, -⟩ :=
    text_keeps_structure (v := inner 2) (by decide) (ha 2 (by decide)) ⟨true, true⟩
  obtain ⟨d, hd⟩ := hok.mpr hfinite
  obtain ⟨text', htext', hok', herr, -⟩ :=
    text_keeps_structure (v := inner 3) (by decide) (ha 3 (by decide)) ⟨false, true⟩
  exact ⟨⟨text, d, htext, hd, hkeep d hd⟩, text', htext', herr (mt hok'.mp hnan)⟩

/-! ## Slots -/

/-- Slots come back as the reader makes them, each as it was exactly if it survives. -/
theorem forall₂_survives {xs ys : List Float} (h : xs.mapM Json.readBack = some ys) :
    List.Forall₂ (fun x y => y = x ↔ Survives x) xs ys := by
  refine (Json.mapM_eq_some_iff.mp h).imp fun x y hxy => ?_
  have hfinite : x.isFinite := by rw [← Json.isSome_readBack, hxy]; rfl
  obtain ⟨z, hz, hzx⟩ := Json.exists_readBack hfinite
  rwa [Option.some.inj (hxy.symm.trans hz)]

/-- Which slots of a finite vector its text gives back as they were: those that survive the
    reader's two roundings. -/
theorem text_keeps_surviving_slots {v : Vect} (hv : v.WellFormed) (ha : v.Addressable)
    (hfinite : ∀ x ∈ v.slots, x.isFinite) (options : EncodeOptions) :
    ∃ text d, v.encode options = .ok text ∧ Dense.decode text = .ok d ∧ d.toList.length = v.slots.length ∧
      (∀ (i : Nat) x, v.slots[i]? = some x → (d.toList[i]? = some x ↔ Survives x)) ∧
      (d.toList = v.slots ↔ ∀ x ∈ v.slots, Survives x) := by
  obtain ⟨text, htext, hdecode⟩ := decode_encode hv ha options
  obtain ⟨ys, hys⟩ := Option.isSome_iff_exists.mp (v.isSome_readBack_iff.mpr hfinite)
  rw [hys] at hdecode
  have hsurvives := forall₂_survives hys
  have hlength := hsurvives.length_eq
  have hslot : ∀ (i : Nat) x, v.slots[i]? = some x → (ys[i]? = some x ↔ Survives x) := by
    intro i x hx
    obtain ⟨hi, rfl⟩ := List.getElem?_eq_some_iff.mp hx
    rw [List.getElem?_eq_getElem (hlength ▸ hi), Option.some.injEq]
    exact hsurvives.get hi (hlength ▸ hi)
  refine ⟨text, v.dressed options.includeBindings ys, htext, hdecode, hlength.symm, hslot, ?_⟩
  show ys = v.slots ↔ _
  constructor
  · rintro rfl x hx
    obtain ⟨i, hi⟩ := List.mem_iff_getElem?.mp hx
    exact (hslot i x hi).mp hi
  · intro hall
    refine List.ext_getElem? fun i => ?_
    cases hx : v.slots[i]? with
    | none =>
      rw [List.getElem?_eq_none_iff] at hx ⊢
      omega
    | some x => exact (hslot i x hx).mpr (hall x (List.mem_of_getElem? hx))

theorem text_keeps_tenths :
    let v : Vect := .view (.dense (.ofList [9, 0.1, Binary64.negZero, 1e300, 5e-324])) ⟨1, 4, none, none⟩
    ∃ text d, v.encode ⟨true, false⟩ = .ok text ∧ Dense.decode text = .ok d ∧ d.toList = v.slots := by
  intro v
  have ha : v.Addressable := {
    size := by decide
    bindings := by rintro b ⟨⟩ }
  have hfinite : ∀ x ∈ v.slots, x.isFinite := by decide +kernel
  have hsurvives : ∀ x ∈ v.slots, Survives x := by decide +kernel
  obtain ⟨text, d, htext, hd, -, -, hslots⟩ :=
    text_keeps_surviving_slots (v := v) (by decide) ha hfinite ⟨true, false⟩
  exact ⟨text, d, htext, hd, hslots.mpr hsurvives⟩

/-- The largest whole number below `2 ^ 53` is written exactly, with a `.0` behind it. Its
    significand then has a digit too many and comes back one less. -/
theorem text_changes_a_slot :
    let v : Vect := .dense (.ofList [9007199254740991])
    (∀ x ∈ v.slots, x.isFinite) ∧
      ∃ text d, v.encode ⟨false, false⟩ = .ok text ∧ Dense.decode text = .ok d ∧
        d.toList = [9007199254740990] ∧ d.toList ≠ v.slots := by
  intro v
  have ha : v.Addressable := {
    size := by decide
    bindings := by rintro b ⟨⟩ }
  have hread : v.slots.mapM Json.readBack = some [9007199254740990] := by decide +kernel
  obtain ⟨text, htext, hdecode⟩ := decode_encode (v := v) trivial ha ⟨false, false⟩
  rw [hread] at hdecode
  refine ⟨by decide, text, _, htext, hdecode, rfl, ?_⟩
  show [9007199254740990] ≠ [(9007199254740991 : Float)]
  decide

end Vect

end FeatureVector
