/-
  FeatureVector.Proofs.Records — a vector's record survives as JSON, its slots apart.

  The record of a vector lists all its slots (`Vect.record`, `Vect.encode_eq`). Written as JSON
  and read again it has the same kind, name, size and bindings; its slots are what the reader
  makes of each (`Json.readBack`), and there is no record at all when it makes nothing of one
  of them (`Record.ofJson?_toJson`, `Record.parse_toText`).
-/
import FeatureVector.Proofs.Json.Building
import FeatureVector.Proofs.Labels
import FeatureVector.Proofs.Numerals
import FeatureVector.Proofs.Reading
import FeatureVector.Proofs.Slots
import FeatureVector.Record

namespace FeatureVector

/-! ## Slots -/

namespace Json

/-- What the reader makes of a slot as the writer writes it. -/
def readBack (x : Float) : Option Float := toFloat? (ofFloat x)

/-- A finite slot is read as some number, and as itself if it survives. -/
theorem exists_readBack {x : Float} (h : x.isFinite) : ∃ y, readBack x = some y ∧ (y = x ↔ Survives x) := by
  rw [NumberStyle.isFinite_eq .json] at h
  obtain ⟨n, hn⟩ := Option.isSome_iff_exists.mp h
  obtain ⟨y, hy, hxy⟩ := exists_toFloat? hn
  refine ⟨y, ?_, hxy⟩
  rw [readBack, ofFloat, hn]
  exact hy

theorem isSome_readBack (x : Float) : (readBack x).isSome = x.isFinite := by
  by_cases hx : x.isFinite
  · obtain ⟨y, hy, -⟩ := exists_readBack hx
    rw [hy, hx]
    rfl
  · have hnumeral : NumberStyle.json.numeral? x = none := by
      rwa [NumberStyle.isFinite_eq .json, Option.not_isSome_iff_eq_none] at hx
    rw [readBack, ofFloat, hnumeral, Bool.eq_false_of_not_eq_true hx]
    rfl

theorem writable_ofFloat (x : Float) : (ofFloat x).Writable := by
  unfold ofFloat
  cases h : NumberStyle.json.numeral? x with
  | none => trivial
  | some n => exact NumberStyle.wellFormed_of_numeral? h

/-! ## Fields -/

theorem mapM_eq_some_iff {read : α → Option β} {xs : List α} {ys : List β} :
    xs.mapM read = some ys ↔ List.Forall₂ (fun x y => read x = some y) xs ys := by
  induction xs generalizing ys with
  | nil => simp [eq_comm]
  | cons x xs ih =>
    rw [List.mapM_cons]
    constructor
    · intro h
      obtain ⟨y, hy, h⟩ := Option.bind_eq_some_iff.mp h
      obtain ⟨zs, hzs, h⟩ := Option.bind_eq_some_iff.mp h
      cases h
      exact .cons hy (ih.mp hzs)
    · rintro (_ | ⟨hy, hzs⟩)
      rw [hy, ih.mpr hzs]
      rfl

/-- A list is read if all its items are. -/
theorem isSome_mapM (read : α → Option β) (xs : List α) :
    (xs.mapM read).isSome ↔ ∀ x ∈ xs, (read x).isSome := by
  induction xs with
  | nil => simp
  | cons x xs ih =>
    rw [List.mapM_cons, List.forall_mem_cons, ← ih]
    cases read x with
    | none => simp
    | some y => cases xs.mapM read <;> simp

theorem list?_ofFloat (xs : List Float) : list? toFloat? (array (xs.map ofFloat)) = xs.mapM readBack := by
  rw [list?, List.mapM_map]
  rfl

theorem toIndex?_ofNat {n : Nat} (h : n ≤ maxIndex) : toIndex? (ofNat n) = some n := by
  have hvalue : Numeral.value (Numeral.ofNat n).whole = n := Nat.ofDigitChars_toDigits (by decide) (by decide)
  have hword : n ≤ Numeral.maxWord := h
  rw [ofNat, toIndex?, Numeral.toIndex?, hvalue]
  exact if_pos (by simp [Numeral.isWhole, Numeral.ofNat, hword])

/-- Keys are written as texts and come back as strings. -/
theorem mapM_key (entries : List (String × Json)) :
    (entries.map fun e => (Text.ofString e.1, e.2)).mapM
      (fun m => return (← Text.toString? m.1, m.2) : Text × Json → Option (String × Json)) = some entries := by
  rw [List.mapM_map]
  refine mapM_eq_some_iff.mpr (List.forall₂_same.mpr fun e _ => ?_)
  rw [Function.comp_apply, Text.toString?_ofString]
  rfl

/-- An object's known fields, by its members as they were before their keys were written. -/
theorem fields?_object (known : List String) (entries : List (String × Json)) :
    fields? known (object (entries.map fun e => (Text.ofString e.1, e.2))) =
      known.mapM fun field =>
        match entries.filter (·.1 == field) with
        | [] => some none
        | [(_, v)] => some (some v)
        | _ => none := by
  rw [fields?]
  exact congrArg (Option.bind · _) (mapM_key entries)

end Json

/-! ## Records -/

/-- Bound indices are machine words. -/
def Bindings.Addressable (b : Bindings) : Prop := ∀ e ∈ b.toList, e.2 ≤ maxIndex

namespace Record

theorem bindingsOfJson?_bindingsToJson {b : Bindings} (h : b.Addressable) :
    bindingsOfJson? (bindingsToJson b) = some b := by
  have hentry : ∀ e ∈ b.toList, (do return (← Json.Text.toString? (.ofString e.1), ← Json.toIndex? (.ofNat e.2)) :
      Option (String × Nat)) = some e := by
    intro e he
    rw [Json.Text.toString?_ofString, Json.toIndex?_ofNat (h e he)]
    rfl
  have hentries : Json.entries? Json.toIndex? (bindingsToJson b) = some b.toList := by
    rw [bindingsToJson, Json.entries?, List.mapM_map]
    exact Json.mapM_eq_some_iff.mpr (List.forall₂_same.mpr hentry)
  rw [bindingsOfJson?, hentries, Option.map_some, Bindings.ofList_toList]

theorem writable_bindingsToJson (b : Bindings) : (bindingsToJson b).Writable := by
  refine Json.membersWritable_iff.mpr fun m hm => ?_
  obtain ⟨e, -, rfl⟩ := List.mem_map.mp hm
  exact ⟨⟨e.1, rfl⟩, Numeral.wellFormed_ofNat e.2⟩

/-- The members of a record's object, keys as strings. -/
def members (r : Record) : List (String × Json) :=
  [("kind", .ofString r.kind.text)] ++
  (r.name.map fun name => ("name", Json.ofString name)).toList ++
  [("size", .ofNat r.size), ("values", .array (r.values.map Json.ofFloat))] ++
  (r.bindings.map fun b => ("bindings", bindingsToJson b)).toList

theorem toJson_eq (r : Record) : r.toJson = .object (r.members.map fun e => (.ofString e.1, e.2)) := by
  obtain ⟨kind, name, size, values, bindings⟩ := r
  cases name <;> cases bindings <;> rfl

theorem writable_toJson (r : Record) : r.toJson.Writable := by
  rw [toJson_eq]
  refine Json.membersWritable_iff.mpr fun m hm => ?_
  obtain ⟨e, he, rfl⟩ := List.mem_map.mp hm
  refine ⟨⟨e.1, rfl⟩, ?_⟩
  have hvalues : (Json.array (r.values.map Json.ofFloat)).Writable := by
    refine Json.itemsWritable_iff.mpr fun v hv => ?_
    obtain ⟨x, -, rfl⟩ := List.mem_map.mp hv
    exact Json.writable_ofFloat x
  simp only [members, List.mem_append, List.mem_cons, List.not_mem_nil, or_false,
    Option.mem_toList, Option.map_eq_some_iff] at he
  rcases he with ((rfl | ⟨name, -, rfl⟩) | rfl | rfl) | ⟨b, -, rfl⟩
  · exact ⟨r.kind.text, rfl⟩
  · exact ⟨name, rfl⟩
  · exact Numeral.wellFormed_ofNat r.size
  · exact hvalues
  · exact writable_bindingsToJson b

theorem kind_ofJson?_text (k : Kind) : Kind.ofJson? (.ofString k.text) = some k := by
  rw [Json.ofString, Kind.ofJson?, Json.Text.toString?_ofString]
  cases k <;> rfl

/-- The fields of a record's object; a name or bindings it has not are missing. -/
theorem fields?_toJson (r : Record) :
    r.toJson.fields? ["kind", "name", "size", "values", "bindings"] =
      some [some (.ofString r.kind.text), r.name.map .ofString, some (.ofNat r.size),
        some (.array (r.values.map .ofFloat)), r.bindings.map bindingsToJson] := by
  rw [toJson_eq, Json.fields?_object, members]
  cases r.name <;> cases r.bindings <;> simp

/-- A record whose size and bindings are machine words comes back, its slots as the reader
    makes them. -/
theorem ofJson?_toJson {r : Record} (hsize : r.size ≤ maxIndex) (hbindings : ∀ b ∈ r.bindings, b.Addressable) :
    ofJson? r.toJson = (r.values.mapM Json.readBack).map fun values => { r with values } := by
  have hname : Json.optional? Json.toString? (r.name.map .ofString) = some r.name := by
    cases r.name with
    | none => rfl
    | some name => exact congrArg (Option.map some) (Json.Text.toString?_ofString name)
  have hbound : Json.optional? bindingsOfJson? (r.bindings.map bindingsToJson) = some r.bindings := by
    cases hb : r.bindings with
    | none => rfl
    | some b => exact congrArg (Option.map some) (bindingsOfJson?_bindingsToJson (hbindings b hb))
  rw [ofJson?, fields?_toJson]
  simp only [Option.bind_eq_bind, Option.bind_some, kind_ofJson?_text, hname, Json.toIndex?_ofNat hsize,
    Json.list?_ofFloat, hbound]
  cases r.values.mapM Json.readBack <;> rfl

/-- The text of a record is read as the record, its slots as the reader makes them, or as
    none. -/
theorem parse_toText (layout : Json.Layout) {r : Record} (hsize : r.size ≤ maxIndex)
    (hbindings : ∀ b ∈ r.bindings, b.Addressable) :
    parse (r.toJson.toText layout) =
      match r.values.mapM Json.readBack with
      | some values => .ok { r with values }
      | none => .error .malformed := by
  rw [parse, Json.parse?_toText layout r.writable_toJson, Option.bind_some, ofJson?_toJson hsize hbindings]
  cases r.values.mapM Json.readBack <;> rfl

theorem toDense_of_size {r : Record} (hkind : r.kind = .dense) (hsize : r.size = r.values.length) :
    r.toDense = .ok { Dense.ofList r.values with name := r.name, bindings := r.bindings } := by
  simp only [toDense, hkind, checkSize, if_pos hsize]
  rfl

end Record

namespace Vect

/-- What of a vector stands in its text. -/
def record (v : Vect) (includeBindings : Bool) : Record where
  kind := .dense
  name := v.name
  size := v.size
  values := v.slots
  bindings := if includeBindings then v.bindings else none

/-- The record of a vector lists its slots, whatever windows they are seen through. -/
theorem ofVect_eq {v : Vect} (h : v.WellFormed) (includeBindings : Bool) :
    Record.ofVect v includeBindings = .ok (v.record includeBindings) := by
  have hvalues : (Walk.elements .every 0 v.slots).map (·.value) = v.slots := by
    rw [Walk.elements_every, List.map_map]
    exact List.zipIdx_map_fst 0 v.slots
  rw [Record.ofVect, elements_eq h, record]
  show Except.ok _ = _
  rw [hvalues]

theorem encode_eq {v : Vect} (h : v.WellFormed) (options : EncodeOptions) :
    v.encode options = .ok ((v.record options.includeBindings).toJson.toText options.layout) := by
  rw [encode, ofVect_eq h]
  rfl

end Vect

end FeatureVector
