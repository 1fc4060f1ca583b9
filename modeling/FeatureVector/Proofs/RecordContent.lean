/-
  FeatureVector.Proofs.RecordContent — the text of a record is read by its content.

  A text of an object may list its members in any order, with any blanks, escapes and further
  members. What counts is the values under each known key (`Json.valuesOf`), and whether every
  key names characters. From these alone `Record.ToldBy` says which record an object tells, if
  any, and the reader finds that record (`Record.ofJson?_eq_some_iff`).

  `decode_by_content`: so for every text of an object the vector, or the fault, is that of the
  record it tells; a text that tells none is malformed.
-/
import FeatureVector.Proofs.Records

namespace FeatureVector

/-! ## Bindings with repeated labels -/

theorem Bindings.get?_foldl_insert (b : Bindings) (entries : List (String × Nat)) (label : String) :
    (entries.foldl (fun b e => b.insert e.1 e.2) b).get? label = (entries.reverse.lookup label).or (b.get? label) := by
  induction entries generalizing b with
  | nil => rfl
  | cons e entries ih =>
    obtain ⟨l, i⟩ := e
    have hone : [(l, i)].lookup label = if label = l then some i else none := lookup_cons_eq label l i []
    rw [List.foldl_cons, ih, get?_insert, List.reverse_cons, List.lookup_append, Option.or_assoc, hone]
    by_cases h : label = l
    · rw [if_pos h, if_pos h, Option.some_or]
    · rw [if_neg h, if_neg h, Option.none_or]

/-- Of the entries with one label the last counts. -/
theorem Bindings.get?_ofList (entries : List (String × Nat)) (label : String) :
    (ofList entries).get? label = entries.reverse.lookup label :=
  (get?_foldl_insert empty entries label).trans Option.or_none

/-! ## Members of an object -/

namespace Json

/-- The values under a key, in the order of the members. -/
def valuesOf (key : String) (members : List (Text × Json)) : List Json :=
  members.filterMap fun m => if Text.toString? m.1 = some key then some m.2 else none

/-- Every key names characters. -/
def KeysNamed (members : List (Text × Json)) : Prop := ∀ m ∈ members, (Text.toString? m.1).isSome

instance (members : List (Text × Json)) : Decidable (KeysNamed members) :=
  inferInstanceAs (Decidable (∀ m ∈ members, (Text.toString? m.1).isSome))

theorem map_snd_filter {members : List (Text × Json)} {named : List (String × Json)}
    (h : List.Forall₂ (fun m e => Text.toString? m.1 = some e.1 ∧ m.2 = e.2) members named) (key : String) :
    (named.filter (·.1 == key)).map (·.2) = valuesOf key members := by
  induction h with
  | nil => rfl
  | @cons m e members named hm _ ih =>
    obtain ⟨hkey, hvalue⟩ := hm
    have hvalues : valuesOf key (m :: members) = if e.1 = key then e.2 :: valuesOf key members
        else valuesOf key members := by
      unfold valuesOf
      rw [List.filterMap_cons, hkey, hvalue]
      by_cases h : e.1 = key <;> simp [h]
    rw [hvalues, ← ih]
    by_cases h : e.1 = key <;> simp [h]

/-- The members with their keys as strings. -/
def named? (members : List (Text × Json)) : Option (List (String × Json)) :=
  members.mapM fun (key, v) => return (← Text.toString? key, v)

theorem named?_eq_some_iff {members : List (Text × Json)} {named : List (String × Json)} :
    named? members = some named ↔
      List.Forall₂ (fun m e => Text.toString? m.1 = some e.1 ∧ m.2 = e.2) members named := by
  have hone (m : Text × Json) (e : String × Json) :
      (do return (← Text.toString? m.1, m.2) : Option (String × Json)) = some e ↔
        Text.toString? m.1 = some e.1 ∧ m.2 = e.2 := by
    obtain ⟨key, v⟩ := e
    cases Text.toString? m.1 <;> simp
  unfold named?
  rw [mapM_eq_some_iff]
  simp only [hone]

theorem isSome_named? (members : List (Text × Json)) : (named? members).isSome ↔ KeysNamed members := by
  have hone (m : Text × Json) : (do return (← Text.toString? m.1, m.2) : Option (String × Json)).isSome ↔
      (Text.toString? m.1).isSome := by
    cases Text.toString? m.1 <;> simp
  unfold named? KeysNamed
  rw [isSome_mapM]
  simp only [hone]

/-- One entry or none. -/
theorem atMostOne_eq_some_iff {entries : List (String × Json)} {v : Option Json} :
    (match entries with
      | [] => some none
      | [(_, v)] => some (some v)
      | _ => none) = some v ↔ entries.map (·.2) = v.toList := by
  cases entries with
  | nil => cases v <;> simp
  | cons e entries =>
    cases entries with
    | nil => cases v <;> simp
    | cons e' entries => cases v <;> simp

/-- An object has the known fields if its keys name characters, and then under each known key
    stands the field's one value, or none if it is missing. -/
theorem fields?_object_eq_some_iff {known : List String} {members : List (Text × Json)} {vs : List (Option Json)} :
    fields? known (object members) = some vs ↔
      KeysNamed members ∧ List.Forall₂ (fun key v => valuesOf key members = v.toList) known vs := by
  have hfields {named : List (String × Json)}
      (hnamed : List.Forall₂ (fun m e => Text.toString? m.1 = some e.1 ∧ m.2 = e.2) members named) :
      known.mapM (fun field => match named.filter (·.1 == field) with
        | [] => some none
        | [(_, v)] => some (some v)
        | _ => none) = some vs ↔ List.Forall₂ (fun key v => valuesOf key members = v.toList) known vs := by
    rw [mapM_eq_some_iff]
    simp only [atMostOne_eq_some_iff, map_snd_filter hnamed]
  rw [← isSome_named?, Option.isSome_iff_exists]
  constructor
  · intro h
    obtain ⟨named, hnamed, h⟩ := Option.bind_eq_some_iff.mp h
    exact ⟨⟨named, hnamed⟩, (hfields (named?_eq_some_iff.mp hnamed)).mp h⟩
  · rintro ⟨⟨named, hnamed⟩, h⟩
    exact Option.bind_eq_some_iff.mpr ⟨named, hnamed, (hfields (named?_eq_some_iff.mp hnamed)).mpr h⟩

/-! ## What a value tells -/

/-- An unsigned machine word: digits alone. -/
def TellsIndex (v : Json) (i : Nat) : Prop :=
  ∃ n, v = .number n ∧ n.negative = false ∧ n.fraction = [] ∧ n.exponent = none ∧ Numeral.value n.whole = i ∧
    i ≤ maxIndex

theorem toIndex?_eq_some_iff {v : Json} {i : Nat} : toIndex? v = some i ↔ v.TellsIndex i := by
  unfold TellsIndex
  cases v with
  | number n =>
    obtain ⟨negative, whole, fraction, exponent⟩ := n
    simp only [toIndex?, Numeral.toIndex?, Numeral.isWhole, number.injEq, Option.ite_none_right_eq_some,
      Bool.and_eq_true, Bool.not_eq_true', List.isEmpty_iff, Option.isNone_iff_eq_none, decide_eq_true_eq,
      Option.some.injEq]
    constructor
    · rintro ⟨⟨⟨⟨hfraction, hexponent⟩, hnegative⟩, hword⟩, rfl⟩
      exact ⟨_, rfl, hnegative, hfraction, hexponent, rfl, hword⟩
    · rintro ⟨_, rfl, hnegative, hfraction, hexponent, rfl, hword⟩
      exact ⟨⟨⟨⟨hfraction, hexponent⟩, hnegative⟩, hword⟩, rfl⟩
  | null | bool _ | string _ | array _ | object _ => simp [toIndex?]

/-- A string that names these characters. -/
def TellsText (v : Json) (s : String) : Prop := ∃ t, v = .string t ∧ Text.toString? t = some s

theorem toString?_eq_some_iff {v : Json} {s : String} : toString? v = some s ↔ v.TellsText s := by
  unfold TellsText
  cases v <;> simp [toString?]

/-- An array of numerals, which are read as these numbers. -/
def TellsNumbers (v : Json) (xs : List Float) : Prop :=
  ∃ items, v = .array items ∧ List.Forall₂ (fun item x => ∃ n, item = .number n ∧ n.toFloat? = some x) items xs

theorem list?_eq_some_iff {v : Json} {xs : List Float} : list? toFloat? v = some xs ↔ v.TellsNumbers xs := by
  have hone (item : Json) (x : Float) : toFloat? item = some x ↔ ∃ n, item = .number n ∧ n.toFloat? = some x := by
    cases item <;> simp [toFloat?]
  unfold TellsNumbers
  cases v with
  | array items => simp [list?, mapM_eq_some_iff, hone]
  | null | bool _ | number _ | string _ | object _ => simp [list?]

/-- An object of machine words, of which the last one under a label counts. -/
def TellsBindings (v : Json) (b : Bindings) : Prop :=
  ∃ members entries, v = .object members ∧
    List.Forall₂ (fun m e => Text.toString? m.1 = some e.1 ∧ m.2.TellsIndex e.2) members entries ∧
    ∀ label, b.get? label = entries.reverse.lookup label

theorem bindingsOfJson?_eq_some_iff {v : Json} {b : Bindings} :
    Record.bindingsOfJson? v = some b ↔ v.TellsBindings b := by
  have hone (m : Text × Json) (e : String × Nat) :
      (do return (← Text.toString? m.1, ← toIndex? m.2) : Option (String × Nat)) = some e ↔
        Text.toString? m.1 = some e.1 ∧ m.2.TellsIndex e.2 := by
    rw [← toIndex?_eq_some_iff]
    obtain ⟨label, i⟩ := e
    cases Text.toString? m.1 <;> cases toIndex? m.2 <;> simp
  have hread (entries : List (String × Nat)) :
      b = Bindings.ofList entries ↔ ∀ label, b.get? label = entries.reverse.lookup label := by
    constructor
    · rintro rfl label
      exact Bindings.get?_ofList entries label
    · intro h
      exact Bindings.ext_get? (funext fun label => (h label).trans (Bindings.get?_ofList entries label).symm)
  unfold TellsBindings Record.bindingsOfJson?
  cases v with
  | object members =>
    simp only [entries?, Option.map_eq_some_iff, mapM_eq_some_iff, hone, object.injEq, ← hread]
    constructor
    · rintro ⟨entries, hentries, rfl⟩
      exact ⟨members, entries, rfl, hentries, rfl⟩
    · rintro ⟨_, entries, rfl, hentries, rfl⟩
      exact ⟨entries, hentries, rfl⟩
  | null | bool _ | number _ | string _ | array _ => simp [entries?]

/-- The values under a key that may be missing, or have `null` under it. -/
inductive TellOptional (Tells : Json → α → Prop) : List Json → Option α → Prop
  | absent : TellOptional Tells [] none
  | null : TellOptional Tells [.null] none
  | present {v : Json} {a : α} : v ≠ .null → Tells v a → TellOptional Tells [v] (some a)

theorem length_of_one {vs : List Json} {P : Json → Prop} (h : ∃ v, vs = [v] ∧ P v) : vs.length = 1 := by
  obtain ⟨v, rfl, -⟩ := h
  rfl

theorem TellOptional.length_le {Tells : Json → α → Prop} {vs : List Json} {o : Option α}
    (h : TellOptional Tells vs o) : vs.length ≤ 1 := by
  cases h with
  | absent => exact Nat.zero_le 1
  | null | present _ _ => exact Nat.le_refl 1

theorem TellOptional.exists_field {Tells : Json → α → Prop} {vs : List Json} {o : Option α}
    (h : TellOptional Tells vs o) : ∃ field : Option Json, vs = field.toList := by
  cases h with
  | absent => exact ⟨none, rfl⟩
  | null | present _ _ => exact ⟨some _, rfl⟩

theorem optional?_eq_some_iff {read : Json → Option α} {Tells : Json → α → Prop}
    (h : ∀ v a, read v = some a ↔ Tells v a) {field : Option Json} {o : Option α} :
    optional? read field = some o ↔ TellOptional Tells field.toList o := by
  cases field with
  | none =>
    constructor
    · rintro ⟨⟩
      exact .absent
    · rintro ⟨⟩
      rfl
  | some v =>
    by_cases hv : v = .null
    · subst hv
      constructor
      · rintro ⟨⟩
        exact .null
      · intro htold
        cases htold with
        | null => rfl
        | present hne _ => exact absurd rfl hne
    · have hread : optional? read (some v) = (read v).map some := by
        cases v with
        | null => exact absurd rfl hv
        | bool _ | number _ | string _ | array _ | object _ => rfl
      rw [hread, Option.map_eq_some_iff]
      constructor
      · rintro ⟨a, ha, rfl⟩
        exact .present hv ((h v a).mp ha)
      · intro htold
        cases htold with
        | null => exact absurd rfl hv
        | @present _ a _ ha => exact ⟨a, (h v a).mpr ha, rfl⟩

end Json

/-! ## What an object tells -/

/-- A kind is told by its text, or by an object with the text for its only key and `null`
    under it. -/
def Kind.ToldBy (k : Kind) (v : Json) : Prop :=
  ∃ t, Json.Text.toString? t = some k.text ∧ (v = .string t ∨ v = .object [(t, .null)])

theorem Kind.ofText?_eq_some_iff {s : String} {k : Kind} : ofText? s = some k ↔ s = k.text := by
  unfold ofText?
  cases k with
  | dense =>
    by_cases h : s = dense.text
    · simp [h]
    · simp [h]
  | view =>
    by_cases h : s = dense.text
    · simp [h, text]
    · simp [h]

theorem Kind.ofJson?_eq_some_iff {v : Json} {k : Kind} : ofJson? v = some k ↔ k.ToldBy v := by
  have htext (t : Json.Text) : (Json.Text.toString? t).bind ofText? = some k ↔ Json.Text.toString? t = some k.text := by
    cases Json.Text.toString? t with
    | none => simp
    | some s => simp [ofText?_eq_some_iff]
  unfold ToldBy
  constructor
  · intro h
    unfold ofJson? at h
    split at h
    · exact ⟨_, (htext _).mp h, .inl rfl⟩
    · exact ⟨_, (htext _).mp h, .inr rfl⟩
    · cases h
  · rintro ⟨t, ht, rfl | rfl⟩
    · exact (htext t).mpr ht
    · exact (htext t).mpr ht

/-- The record an object tells by its members. Every key names characters. One member has the
    kind, one the size and one the values; at most one has a name and at most one bindings. Of
    further members nothing is asked. -/
structure Record.ToldBy (r : Record) (members : List (Json.Text × Json)) : Prop where
  keys : Json.KeysNamed members
  kind : ∃ v, Json.valuesOf "kind" members = [v] ∧ r.kind.ToldBy v
  name : Json.TellOptional Json.TellsText (Json.valuesOf "name" members) r.name
  size : ∃ v, Json.valuesOf "size" members = [v] ∧ v.TellsIndex r.size
  values : ∃ v, Json.valuesOf "values" members = [v] ∧ v.TellsNumbers r.values
  bindings : Json.TellOptional Json.TellsBindings (Json.valuesOf "bindings" members) r.bindings

theorem Record.ofJson?_eq_some_iff {members : List (Json.Text × Json)} {r : Record} :
    ofJson? (.object members) = some r ↔ r.ToldBy members := by
  constructor
  · intro h
    obtain ⟨fields, hfields, h⟩ := Option.bind_eq_some_iff.mp h
    split at h
    · obtain ⟨hkeys, hfields⟩ := Json.fields?_object_eq_some_iff.mp hfields
      simp only [List.forall₂_cons, List.forall₂_nil_left_iff, and_true] at hfields
      obtain ⟨hkind, hname, hsize, hvalues, hbindings⟩ := hfields
      obtain ⟨kind, hk, h⟩ := Option.bind_eq_some_iff.mp h
      obtain ⟨k, hk', h⟩ := Option.bind_eq_some_iff.mp h
      obtain ⟨name, hn, h⟩ := Option.bind_eq_some_iff.mp h
      obtain ⟨size, hs, h⟩ := Option.bind_eq_some_iff.mp h
      obtain ⟨n, hs', h⟩ := Option.bind_eq_some_iff.mp h
      obtain ⟨values, hv, h⟩ := Option.bind_eq_some_iff.mp h
      obtain ⟨xs, hv', h⟩ := Option.bind_eq_some_iff.mp h
      obtain ⟨bindings, hb, h⟩ := Option.bind_eq_some_iff.mp h
      cases h
      rw [hk] at hkind
      rw [hs] at hsize
      rw [hv] at hvalues
      exact {
        keys := hkeys
        kind := ⟨kind, hkind, Kind.ofJson?_eq_some_iff.mp hk'⟩
        name := hname ▸ (Json.optional?_eq_some_iff fun _ _ => Json.toString?_eq_some_iff).mp hn
        size := ⟨size, hsize, Json.toIndex?_eq_some_iff.mp hs'⟩
        values := ⟨values, hvalues, Json.list?_eq_some_iff.mp hv'⟩
        bindings := hbindings ▸ (Json.optional?_eq_some_iff fun _ _ => Json.bindingsOfJson?_eq_some_iff).mp hb }
    · cases h
  · rintro ⟨hkeys, ⟨kind, hkind, hk⟩, hname, ⟨size, hsize, hs⟩, ⟨values, hvalues, hv⟩, hbindings⟩
    obtain ⟨name, hn⟩ := hname.exists_field
    obtain ⟨bindings, hb⟩ := hbindings.exists_field
    have hfields : Json.fields? ["kind", "name", "size", "values", "bindings"] (.object members) =
        some [some kind, name, some size, some values, bindings] :=
      Json.fields?_object_eq_some_iff.mpr
        ⟨hkeys, .cons hkind (.cons hn (.cons hsize (.cons hvalues (.cons hb .nil))))⟩
    have hname' : Json.optional? Json.toString? name = some r.name :=
      (Json.optional?_eq_some_iff fun _ _ => Json.toString?_eq_some_iff).mpr (hn ▸ hname)
    have hbindings' : Json.optional? bindingsOfJson? bindings = some r.bindings :=
      (Json.optional?_eq_some_iff fun _ _ => Json.bindingsOfJson?_eq_some_iff).mpr (hb ▸ hbindings)
    rw [ofJson?, hfields]
    simp only [Option.bind_eq_bind, Option.bind_some, Kind.ofJson?_eq_some_iff.mpr hk, hname',
      Json.toIndex?_eq_some_iff.mpr hs, Json.list?_eq_some_iff.mpr hv, hbindings']
    rfl

/-! ## Texts of records -/

/-- The members of an object count for their values under these keys. -/
def Record.known : List String := ["kind", "name", "size", "values", "bindings"]

namespace Record

variable {r : Record} {members members' : List (Json.Text × Json)}

theorem forall_mem_known {P : String → Prop} :
    (∀ key ∈ known, P key) ↔ P "kind" ∧ P "name" ∧ P "size" ∧ P "values" ∧ P "bindings" := by
  simp [known]

/-- What an object tells hangs on its known members alone. -/
theorem ToldBy.congr (h : r.ToldBy members) (hkeys : Json.KeysNamed members')
    (hknown : ∀ key ∈ known, Json.valuesOf key members' = Json.valuesOf key members) : r.ToldBy members' := by
  obtain ⟨hkind, hname, hsize, hvalues, hbindings⟩ := forall_mem_known.mp hknown
  exact ⟨hkeys, hkind ▸ h.kind, hname ▸ h.name, hsize ▸ h.size, hvalues ▸ h.values, hbindings ▸ h.bindings⟩

/-- Under a known key stands one value or none. -/
theorem ToldBy.length_le (h : r.ToldBy members) : ∀ key ∈ known, (Json.valuesOf key members).length ≤ 1 :=
  forall_mem_known.mpr ⟨(Json.length_of_one h.kind).le, h.name.length_le, (Json.length_of_one h.size).le,
    (Json.length_of_one h.values).le, h.bindings.length_le⟩

/-- Three keys must stand there. -/
theorem ToldBy.ne_nil (h : r.ToldBy members) : ∀ key ∈ ["kind", "size", "values"], Json.valuesOf key members ≠ [] := by
  simp only [List.forall_mem_cons, List.not_mem_nil, false_implies, implies_true, and_true]
  exact ⟨List.ne_nil_of_length_eq_add_one (Json.length_of_one h.kind),
    List.ne_nil_of_length_eq_add_one (Json.length_of_one h.size),
    List.ne_nil_of_length_eq_add_one (Json.length_of_one h.values)⟩

/-- The members may stand in any order. -/
theorem ToldBy.perm (h : r.ToldBy members) (hperm : members.Perm members') : r.ToldBy members' := by
  refine h.congr (fun m hm => h.keys m (hperm.mem_iff.mpr hm)) fun key hkey => ?_
  have hvalues : (Json.valuesOf key members).Perm (Json.valuesOf key members') := hperm.filterMap _
  -- one value has no order
  have hlength := h.length_le key hkey
  cases hl : Json.valuesOf key members with
  | nil =>
    rw [hl] at hvalues
    exact hvalues.nil_eq.symm
  | cons v vs =>
    rw [hl] at hvalues hlength
    cases vs with
    | nil => exact (List.perm_singleton.mp hvalues.symm)
    | cons w vs => exact absurd hlength (by simp)

/-- Objects that tell the same are both read as it, or both as nothing. -/
theorem ofJson?_congr (h : ∀ r : Record, r.ToldBy members ↔ r.ToldBy members') :
    ofJson? (.object members') = ofJson? (.object members) :=
  Option.ext fun r => by
    rw [ofJson?_eq_some_iff, ofJson?_eq_some_iff, h]

/-- The vector of a record. That a view has none comes first, whatever its size. -/
theorem toDense_eq (r : Record) :
    r.toDense =
      if r.kind = .view then .error .orphanView
      else if r.size = r.values.length then
        .ok { Dense.ofList r.values with name := r.name, bindings := r.bindings }
      else .error (.cardinality r.size r.values.length) := by
  cases hkind : r.kind with
  | view => simp only [toDense, hkind, if_true]
  | dense =>
    by_cases hsize : r.size = r.values.length
    · rw [if_neg (by decide), if_pos hsize, toDense_of_size hkind hsize]
    · simp only [toDense, hkind, checkSize, if_neg hsize]
      rfl

end Record

namespace Dense

variable {s s' : String} {members members' : List (Json.Text × Json)}

theorem decode_of_spelledBy (hs : (Json.object members).SpelledBy s) :
    decode s = match Record.ofJson? (.object members) with
      | some r => r.toDense
      | none => .error .malformed := by
  have hparse : Json.parse? s = some (.object members) := Json.parse?_eq_some_iff.mpr hs
  rw [decode, Record.parse, hparse, Option.bind_some]
  cases Record.ofJson? (.object members) <;> rfl

theorem decode_of_toldBy (hs : (Json.object members).SpelledBy s) {r : Record} (hr : r.ToldBy members) :
    decode s = r.toDense := by
  rw [decode_of_spelledBy hs, Record.ofJson?_eq_some_iff.mpr hr]

theorem decode_of_not_toldBy (hs : (Json.object members).SpelledBy s) (h : ∀ r : Record, ¬ r.ToldBy members) :
    decode s = .error .malformed := by
  have hnone : Record.ofJson? (.object members) = none :=
    Option.eq_none_iff_forall_ne_some.mpr fun r hr => h r (Record.ofJson?_eq_some_iff.mp hr)
  rw [decode_of_spelledBy hs, hnone]

theorem decode_congr (hs : (Json.object members).SpelledBy s) (hs' : (Json.object members').SpelledBy s')
    (h : ∀ r : Record, r.ToldBy members ↔ r.ToldBy members') : decode s' = decode s := by
  rw [decode_of_spelledBy hs, decode_of_spelledBy hs', Record.ofJson?_congr h]

/-- A text of an object gives what its members tell. If they tell a record, that is the fault
    of a view, else the fault of a size that is not the number of values, else the vector with
    these values, name and bindings. If they tell none, as when a known key stands there twice
    or one that must stand there is missing, the text is malformed. Texts with the same values
    under the known keys give the same, and so do texts with the same members in another
    order. -/
theorem decode_by_content (hs : (Json.object members).SpelledBy s) :
    (∀ r : Record, r.ToldBy members → decode s =
      if r.kind = .view then .error .orphanView
      else if r.size = r.values.length then
        .ok { ofList r.values with name := r.name, bindings := r.bindings }
      else .error (.cardinality r.size r.values.length)) ∧
    ((∀ r : Record, ¬ r.ToldBy members) → decode s = .error .malformed) ∧
    (∀ key ∈ Record.known, 1 < (Json.valuesOf key members).length → decode s = .error .malformed) ∧
    (∀ key ∈ ["kind", "size", "values"], Json.valuesOf key members = [] → decode s = .error .malformed) ∧
    ∀ s' members', (Json.object members').SpelledBy s' →
      (members.Perm members' ∨ Json.KeysNamed members ∧ Json.KeysNamed members' ∧
        ∀ key ∈ Record.known, Json.valuesOf key members' = Json.valuesOf key members) →
      decode s' = decode s := by
  refine ⟨fun r hr => ?_, decode_of_not_toldBy hs, fun key hkey hrepeated => ?_, fun key hkey hmissing => ?_,
    fun s' members' hs' hsame => decode_congr hs hs' fun r => ?_⟩
  · rw [decode_of_toldBy hs hr, r.toDense_eq]
  · exact decode_of_not_toldBy hs fun r hr => absurd (hr.length_le key hkey) (Nat.not_le.mpr hrepeated)
  · exact decode_of_not_toldBy hs fun r hr => hr.ne_nil key hkey hmissing
  · rcases hsame with hperm | ⟨hkeys, hkeys', hknown⟩
    · exact ⟨fun hr => hr.perm hperm, fun hr => hr.perm hperm.symm⟩
    · exact ⟨fun hr => hr.congr hkeys' hknown, fun hr => hr.congr hkeys fun key hkey => (hknown key hkey).symm⟩

/-- In no usual order, with a key that is escaped, a member that names no character and a label
    bound twice. -/
def oddText : String :=
  " \x7b \"\\u0073ize\" : 2 ,\n \"note\":[\"\\ud800\"],\"values\":[1.5,-0]," ++
    "\"bindings\":\x7b\"a\":1,\"a\":0\x7d,\"name\":null,\"kind\":\"dense\" \x7d"

def oddMembers : List (Json.Text × Json) :=
  [(.ofString "size", .ofNat 2), (.ofString "note", .array [.string [.surrogate 0xd800]]),
    (.ofString "values", .array [.number ⟨false, ['1'], ['5'], none⟩, .number ⟨true, ['0'], [], none⟩]),
    (.ofString "bindings", .object [(.ofString "a", .ofNat 1), (.ofString "a", .ofNat 0)]),
    (.ofString "name", .null), (.ofString "kind", .ofString "dense")]

set_option maxRecDepth 2000 in
theorem spelledBy_oddText : (Json.object oddMembers).SpelledBy oddText := Json.parse?_eq_some_iff.mp rfl

theorem toldBy_oddMembers :
    Record.ToldBy ⟨.dense, none, 2, [1.5, Binary64.negZero], some (.ofList [("a", 1), ("a", 0)])⟩ oddMembers where
  keys := by decide
  kind := ⟨.ofString "dense", rfl, _, rfl, .inl rfl⟩
  name := .null
  size := ⟨.ofNat 2, rfl, _, rfl, rfl, rfl, rfl, rfl, by decide⟩
  values := ⟨_, rfl, _, rfl, .cons ⟨_, rfl, by decide⟩ (.cons ⟨_, rfl, by decide⟩ .nil)⟩
  bindings := .present (by simp) ⟨_, [("a", 1), ("a", 0)], rfl,
    .cons ⟨rfl, _, rfl, rfl, rfl, rfl, rfl, by decide⟩ (.cons ⟨rfl, _, rfl, rfl, rfl, rfl, rfl, by decide⟩ .nil),
    Bindings.get?_ofList _⟩

/-- The size is two, and there are no values. -/
def shortText (k : Kind) : String := "\x7b\"kind\":\"" ++ k.text ++ "\",\"size\":2,\"values\":[]\x7d"

def shortMembers (k : Kind) : List (Json.Text × Json) :=
  [(.ofString "kind", .ofString k.text), (.ofString "size", .ofNat 2), (.ofString "values", .array [])]

theorem spelledBy_shortText (k : Kind) : (Json.object (shortMembers k)).SpelledBy (shortText k) :=
  Json.parse?_eq_some_iff.mp (by cases k <;> rfl)

theorem toldBy_shortMembers (k : Kind) : Record.ToldBy ⟨k, none, 2, [], none⟩ (shortMembers k) := by
  cases k with
  | dense | view => exact {
      keys := by decide
      kind := ⟨_, rfl, _, rfl, .inl rfl⟩
      name := .absent
      size := ⟨.ofNat 2, rfl, _, rfl, rfl, rfl, rfl, rfl, by decide⟩
      values := ⟨.array [], rfl, _, rfl, .nil⟩
      bindings := .absent }

/-- The size counts for storage alone, the members' order and further members never; a member
    that stands there twice or not at all is a fault. -/
theorem decode_of_odd_texts :
    decode oddText = .ok { ofList [1.5, Binary64.negZero] with bindings := some (.ofList [("a", 0)]) } ∧
    decode (shortText .view) = .error .orphanView ∧
    decode (shortText .dense) = .error (.cardinality 2 0) ∧
    decode "\x7b\"values\":[],\"size\":2,\"kind\":\"dense\"\x7d" = decode (shortText .dense) ∧
    decode "\x7b\"note\":0,\"size\":2,\"kind\":\"dense\",\"values\":[]\x7d" = decode (shortText .dense) ∧
    decode "\x7b\"kind\":0,\"kind\":0\x7d" = .error .malformed ∧
    decode "\x7b\x7d" = .error .malformed := by
  have hsame := (decode_by_content (spelledBy_shortText .dense)).2.2.2.2
  have hfurther : Json.KeysNamed ((.ofString "note", .ofNat 0) :: (.ofString "size", .ofNat 2) ::
      (.ofString "kind", .ofString "dense") :: [(.ofString "values", .array [])]) := by decide
  have htwice : (Json.object [(.ofString "kind", .ofNat 0), (.ofString "kind", .ofNat 0)]).SpelledBy
      "\x7b\"kind\":0,\"kind\":0\x7d" := Json.parse?_eq_some_iff.mp rfl
  have hempty : (Json.object []).SpelledBy "\x7b\x7d" := Json.parse?_eq_some_iff.mp rfl
  exact ⟨(decode_by_content spelledBy_oddText).1 _ toldBy_oddMembers,
    (decode_by_content (spelledBy_shortText .view)).1 _ (toldBy_shortMembers .view),
    (decode_by_content (spelledBy_shortText .dense)).1 _ (toldBy_shortMembers .dense),
    hsame _ (shortMembers .dense).reverse (Json.parse?_eq_some_iff.mp rfl) (.inl (List.reverse_perm _).symm),
    hsame _ _ (Json.parse?_eq_some_iff.mp rfl) (.inr ⟨(toldBy_shortMembers .dense).keys, hfurther,
      Record.forall_mem_known.mpr ⟨rfl, rfl, rfl, rfl, rfl⟩⟩),
    (decode_by_content htwice).2.2.1 "kind" (by decide) (by decide),
    (decode_by_content hempty).2.2.2.1 "kind" (by decide) rfl⟩

end Dense

end FeatureVector
