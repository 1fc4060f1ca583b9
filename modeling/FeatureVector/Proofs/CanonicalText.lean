/-
  FeatureVector.Proofs.CanonicalText — the text of a vector is canonical: equal vectors have
  one text, and no text stands for two.

  A text is read back as the document it was written from, so no two documents share one
  (`Json.toText_injective`), whatever stands inside their strings. A record can be told from
  its document (`Record.toJson_injective`): numbers by `NumberStyle.numeral?_injective`, a name
  or bindings it has not by the members that are missing. And the record of a vector has its
  slots, its name and, if they are asked for, its bindings, and nothing of its storage.
  `text_is_canonical` puts the three together; bindings count as maps, so the order in which
  labels were bound never shows.
-/
import FeatureVector.Proofs.Records
import FeatureVector.Vect.Write

namespace FeatureVector

/-! ## Documents -/

namespace Json

theorem toText_injective {layout : Layout} {v w : Json} (hv : v.Writable) (hw : w.Writable)
    (h : toText layout v = toText layout w) : v = w := by
  have hread := parse?_toText layout hv
  rw [h, parse?_toText layout hw] at hread
  exact (Option.some.inj hread).symm

theorem ofString_injective : Function.Injective ofString := by
  intro s t h
  have hread := Text.toString?_ofString s
  rw [string.inj h, Text.toString?_ofString] at hread
  exact (Option.some.inj hread).symm

theorem ofNat_injective : Function.Injective ofNat := by
  intro m n h
  have hdigits : Nat.toDigits 10 m = Nat.toDigits 10 n := congrArg Numeral.whole (number.inj h)
  calc m = Nat.ofDigitChars 10 (Nat.toDigits 10 m) 0 := Nat.ofDigitChars_ten_toDigits.symm
    _ = Nat.ofDigitChars 10 (Nat.toDigits 10 n) 0 := by rw [hdigits]
    _ = n := Nat.ofDigitChars_ten_toDigits

theorem ofFloat_injective {x y : Float} (hx : x.isFinite) (h : ofFloat x = ofFloat y) : x = y := by
  obtain ⟨n, hn⟩ := Option.isSome_iff_exists.mp (NumberStyle.isFinite_eq .json x ▸ hx)
  refine NumberStyle.numeral?_injective .json hx ?_
  unfold ofFloat at h
  rw [hn] at h ⊢
  cases hy : NumberStyle.json.numeral? y with
  | none =>
    rw [hy] at h
    cases h
  | some n' =>
    rw [hy] at h
    rw [number.inj h]

theorem map_ofFloat_injective {xs ys : List Float} (hxs : ∀ x ∈ xs, x.isFinite)
    (h : xs.map ofFloat = ys.map ofFloat) : xs = ys := by
  have hlength : xs.length = ys.length := by simpa using congrArg List.length h
  refine List.ext_getElem hlength fun i hi hi' => ofFloat_injective (hxs _ (List.getElem_mem hi)) ?_
  have hat : (xs.map ofFloat)[i]? = (ys.map ofFloat)[i]? := by rw [h]
  simpa [hi, hi'] using hat

end Json

/-! ## Records -/

namespace Record

theorem bindingsToJson_injective : Function.Injective bindingsToJson := by
  intro a b h
  have hentry : Function.Injective fun e : String × Nat => (Json.Text.ofString e.1, Json.ofNat e.2) := by
    intro e e' he
    obtain ⟨hlabel, hindex⟩ := Prod.mk.inj he
    exact Prod.ext (Json.ofString_injective (congrArg Json.string hlabel)) (Json.ofNat_injective hindex)
  exact Bindings.ext_entries (hentry.list_map (Json.object.inj h))

theorem kindText_injective : Function.Injective Kind.text := by
  intro k k' h
  cases k with
  | dense =>
    cases k' with
    | dense => rfl
    | view => exact absurd h (by decide)
  | view =>
    cases k' with
    | dense => exact absurd h (by decide)
    | view => rfl

/-- Two records of one document are written alike member by member. -/
theorem members_of_toJson {r r' : Record} (h : r.toJson = r'.toJson) :
    Json.ofString r.kind.text = Json.ofString r'.kind.text ∧ r.name.map Json.ofString = r'.name.map Json.ofString ∧
      Json.ofNat r.size = Json.ofNat r'.size ∧ r.values.map Json.ofFloat = r'.values.map Json.ofFloat ∧
        r.bindings.map bindingsToJson = r'.bindings.map bindingsToJson := by
  have hfields := fields?_toJson r'
  rw [← h, fields?_toJson r] at hfields
  simpa only [Option.some.injEq, List.cons.injEq, and_true, Json.array.injEq] using hfields

/-- A record of finite slots can be told from its document. -/
theorem toJson_injective {r r' : Record} (hfinite : ∀ x ∈ r.values, x.isFinite) (h : r.toJson = r'.toJson) :
    r = r' := by
  obtain ⟨hkind, hname, hsize, hvalues, hbindings⟩ := members_of_toJson h
  have hkind := kindText_injective (Json.ofString_injective hkind)
  have hname := Option.map_injective Json.ofString_injective hname
  have hsize := Json.ofNat_injective hsize
  have hvalues := Json.map_ofFloat_injective hfinite hvalues
  have hbindings := Option.map_injective bindingsToJson_injective hbindings
  cases r
  cases r'
  cases hkind
  cases hname
  cases hsize
  cases hvalues
  cases hbindings
  rfl

end Record

/-! ## Vectors -/

namespace Vect

theorem record_eq_iff (v w : Vect) (includeBindings : Bool) :
    v.record includeBindings = w.record includeBindings ↔ v.size = w.size ∧ v.slots = w.slots ∧ v.name = w.name ∧
      (includeBindings = true → v.bindings = w.bindings) := by
  simp only [record, Record.mk.injEq, true_and]
  cases includeBindings with
  | false => simp; tauto
  | true => simp; tauto

end Vect

/-- Finite slots given, the text of a vector is that of another exactly if the two agree in size,
    in the bits of every slot, in name and, where bindings are asked for, in what each label
    stands for. No name or no bindings is not an empty name or empty bindings. Labels may be
    bound in any order. -/
theorem text_is_canonical {a b : Vect} (ha : a.WellFormed) (hb : b.WellFormed) (hfinite : ∀ x ∈ a.slots, x.isFinite)
    (options : EncodeOptions) :
    (∃ s t, a.encode options = .ok s ∧ b.encode options = .ok t ∧
      (s = t ↔ a.size = b.size ∧ a.slots.map Float.toBits = b.slots.map Float.toBits ∧ a.name = b.name ∧
        (options.includeBindings = true → a.bindings.map Bindings.get? = b.bindings.map Bindings.get?))) ∧
    ∀ entries entries' : List (String × Nat), entries.Perm entries' → entries.Pairwise (·.1 ≠ ·.1) →
      (a.withBindings (some (.ofList entries))).encode options =
        (a.withBindings (some (.ofList entries'))).encode options := by
  constructor
  · refine ⟨_, _, Vect.encode_eq ha options, Vect.encode_eq hb options, ?_⟩
    have hmaps : a.bindings.map Bindings.get? = b.bindings.map Bindings.get? ↔ a.bindings = b.bindings :=
      (Option.map_injective fun _ _ => Bindings.ext_get?).eq_iff
    rw [Binary64.map_toBits_inj, hmaps, ← Vect.record_eq_iff]
    constructor
    · intro htext
      exact Record.toJson_injective hfinite
        (Json.toText_injective (Record.writable_toJson _) (Record.writable_toJson _) htext)
    · intro hrecord
      rw [hrecord]
  · intro entries entries' hperm hdistinct
    rw [Bindings.ofList_eq_of_perm hperm hdistinct]

/-- A window in a window and contiguous storage with the same slots share a text, though their
    labels were bound in another order. A zero of the other sign, or empty bindings for none,
    makes another text. -/
theorem text_of_window_and_storage :
    let labels : List (String × Nat) := [("b", 1), ("\"a\",", 7)]
    let a : Vect := .view (.view (.dense (.ofList [9, 0.5, Binary64.negZero, 1e300])) ⟨1, 3, some "inner", none⟩)
      ⟨0, 2, some "", some (.ofList labels)⟩
    let b : Vect := .dense ⟨#[0.5, Binary64.negZero], some "", some (.ofList labels.reverse), .empty⟩
    let c : Vect := .dense ⟨#[0.5, Binary64.zero], some "", some (.ofList labels), .empty⟩
    let options : EncodeOptions := ⟨true, true⟩
    (∃ s, a.encode options = .ok s ∧ b.encode options = .ok s) ∧
      (∃ s t, a.encode options = .ok s ∧ c.encode options = .ok t ∧ s ≠ t) ∧
      ∃ s t, (a.withBindings none).encode options = .ok s ∧
        (b.withBindings (some .empty)).encode options = .ok t ∧ s ≠ t := by
  intro labels a b c options
  have hfinite : ∀ x ∈ a.slots, x.isFinite := by decide
  obtain ⟨⟨s, t, hs, ht, hst⟩, -⟩ := text_is_canonical (a := a) (b := b) (by decide) (by decide) hfinite options
  obtain ⟨⟨s', t', hs', ht', hst'⟩, -⟩ := text_is_canonical (a := a) (b := c) (by decide) (by decide) hfinite options
  obtain ⟨⟨s'', t'', hs'', ht'', hst''⟩, -⟩ := text_is_canonical (a := a.withBindings none)
    (b := b.withBindings (some .empty)) (by decide) (by decide) hfinite options
  have hlabels : a.bindings = b.bindings := by decide
  have hsame : s = t := hst.mpr ⟨rfl, by decide, rfl, fun _ => by rw [hlabels]⟩
  refine ⟨⟨s, hs, hsame ▸ ht⟩, ⟨s', t', hs', ht', ?_⟩, s'', t'', hs'', ht'', ?_⟩
  · intro h
    obtain ⟨-, hbits, -, -⟩ := hst'.mp h
    exact absurd hbits (by decide)
  · intro h
    obtain ⟨-, -, -, hmaps⟩ := hst''.mp h
    cases hmaps rfl

end FeatureVector
