/-
  FeatureVector.Proofs.EditLaws — what edits keep, when they fail, and when two of them
  cannot be told apart.

  `Keeps P e`: from a state with `P` the edit `e` comes to a state with `P`, whether it
  succeeds or fails. `Succeeds P e`: it comes to a state with `P` and does not fail.
  `Agree R e f`: from states related by `R` the two edits give the same answer or the same
  fault and come to related states. All pass through sequencing and loops, so they are
  settled for the few edits that touch the state and then follow for all that are composed
  of those. `Ensures P e s`: if `e` succeeds from `s`, it comes to a state with `P`; a loop does
  so if it has a first round and no round ends `P`.

  `Guarded P check e`: the edit looks before it leaps. It fails with what the check finds,
  before it has changed anything, and succeeds when the check finds nothing.
-/
import FeatureVector.Edit

namespace FeatureVector.Edit

variable {σ τ α β γ δ : Type}

/-! ## Outcomes -/

/-- Both parts of a sequence that succeeds succeed. -/
theorem bind_eq_ok {e : Except Fault α} {k : α → Except Fault β} {b : β} (h : (e >>= k) = .ok b) :
    ∃ a, e = .ok a ∧ k a = .ok b := by
  cases e with
  | error f => cases h
  | ok a => exact ⟨a, rfl, h⟩

theorem outcome_reading (f : σ → Except Fault α) (s : σ) : outcome (reading f) s = (f s, s) := by
  unfold outcome reading
  cases f s <;> rfl

theorem outcome_bind (e : Edit σ α) (k : α → Edit σ β) (s : σ) :
    outcome (e >>= k) s = match outcome e s with
      | (.ok a, s') => outcome (k a) s'
      | (.error f, s') => (.error f, s') := by
  have hbind : (e >>= k) s = EStateM.bind e k s := rfl
  unfold outcome
  rw [hbind, EStateM.bind]
  cases e s <;> rfl

/-- Giving an answer changes nothing. -/
theorem state_bind_pure (e : Edit σ α) (b : β) (s : σ) : (outcome (e >>= fun _ => pure b) s).2 = (outcome e s).2 := by
  rw [outcome_bind]
  rcases outcome e s with ⟨_ | a, s'⟩ <;> rfl

theorem exec_eq_ok {e : Edit σ α} {s s' : σ} {a : α} (h : e.outcome s = (.ok a, s')) : e.exec s = .ok s' := by
  unfold outcome at h
  unfold exec
  cases he : e s with
  | ok b t =>
    rw [he] at h
    exact congrArg Except.ok (Prod.ext_iff.mp h).2
  | error f t =>
    rw [he] at h
    cases h

theorem state_of_exec {e : Edit σ α} {s s' : σ} (h : e.exec s = .ok s') : (e.outcome s).2 = s' := by
  unfold exec at h
  unfold outcome
  cases he : e s with
  | ok b t =>
    rw [he] at h
    exact Except.ok.inj h
  | error f t =>
    rw [he] at h
    cases h

/-! ## Loops whose steps agree -/

section Loops

variable {m : Type → Type} [Monad m] {l : List β}

theorem mapM_congr_left [LawfulMonad m] {f g : β → m α} (h : ∀ b ∈ l, f b = g b) : l.mapM f = l.mapM g := by
  induction l with
  | nil => rfl
  | cons b l ih =>
    rw [List.mapM_cons, List.mapM_cons, h b List.mem_cons_self, ih fun c hc => h c (List.mem_cons_of_mem _ hc)]

theorem allM_congr_left {f g : β → m Bool} (h : ∀ b ∈ l, f b = g b) : l.allM f = l.allM g := by
  induction l with
  | nil => rfl
  | cons b l ih =>
    rw [List.allM_cons, List.allM_cons, h b List.mem_cons_self, ih fun c hc => h c (List.mem_cons_of_mem _ hc)]

theorem forM_congr_left {f g : β → m PUnit} (h : ∀ b ∈ l, f b = g b) : l.forM f = l.forM g := by
  induction l with
  | nil => rfl
  | cons b l ih =>
    show (f b >>= fun _ => l.forM f) = (g b >>= fun _ => l.forM g)
    rw [h b List.mem_cons_self, ih fun c hc => h c (List.mem_cons_of_mem _ hc)]

/-- Steps that all succeed give the list of their answers. -/
theorem mapM_ok {f : β → Except Fault α} {g : β → α} (h : ∀ b ∈ l, f b = .ok (g b)) :
    l.mapM f = .ok (l.map g) := by
  induction l with
  | nil => rfl
  | cons b l ih =>
    rw [List.mapM_cons, h b List.mem_cons_self, ih fun c hc => h c (List.mem_cons_of_mem _ hc)]
    rfl

/-- Steps that all succeed, tried until one answers no. -/
theorem allM_ok {f : β → Except Fault Bool} {g : β → Bool} (h : ∀ b ∈ l, f b = .ok (g b)) :
    l.allM f = .ok (l.all g) := by
  induction l with
  | nil => rfl
  | cons b l ih =>
    have hl := ih fun c hc => h c (List.mem_cons_of_mem _ hc)
    rw [List.allM_cons, h b List.mem_cons_self, List.all_cons]
    cases g b with
    | false => rfl
    | true => exact hl

end Loops

/-! ## What is kept -/

def Keeps (P : σ → Prop) (e : Edit σ α) : Prop := ∀ s, P s → P (e.outcome s).2

section Keeps

variable {P : σ → Prop}

theorem keeps_pure (a : α) : Keeps P (pure a : Edit σ α) := fun _ h => h

theorem keeps_reading (f : σ → Except Fault α) : Keeps P (reading f) := by
  intro s h
  rw [outcome_reading]
  exact h

theorem keeps_modify {f : σ → σ} (hf : ∀ s, P s → P (f s)) : Keeps P (modify f : Edit σ Unit) := fun s h => hf s h

theorem keeps_bind {e : Edit σ α} {k : α → Edit σ β} (he : Keeps P e) (hk : ∀ a, Keeps P (k a)) :
    Keeps P (e >>= k) := by
  intro s h
  have hs := he s h
  rw [outcome_bind]
  revert hs
  rcases outcome e s with ⟨_ | a, s'⟩ <;> intro hs
  · exact hs
  · exact hk a s' hs

theorem keeps_forM {body : β → Edit σ PUnit} {l : List β} (hb : ∀ b ∈ l, Keeps P (body b)) :
    Keeps P (l.forM body) := by
  induction l with
  | nil => exact keeps_pure _
  | cons b l ih =>
    exact keeps_bind (hb b List.mem_cons_self) fun _ => ih fun c hc => hb c (List.mem_cons_of_mem _ hc)

end Keeps

/-! ## What an edit that succeeds brings about -/

/-- If the edit succeeds from this state, it comes to a state with `P`. -/
def Ensures (P : σ → Prop) (e : Edit σ α) (s : σ) : Prop := ∀ a s', e.outcome s = (.ok a, s') → P s'

section Ensures

variable {P : σ → Prop} {s : σ}

theorem ensures_reading_bind {f : σ → Except Fault α} {k : α → Edit σ β} (hk : ∀ a, f s = .ok a → Ensures P (k a) s) :
    Ensures P (do let a ← reading f; k a) s := by
  intro b s' h
  rw [outcome_bind, outcome_reading] at h
  cases hf : f s with
  | error e =>
    rw [hf] at h
    cases h
  | ok a =>
    rw [hf] at h
    exact hk a hf b s' h

theorem ensures_bind {e : Edit σ α} {k : α → Edit σ β} (he : Ensures P e s) (hk : ∀ a, Keeps P (k a)) :
    Ensures P (e >>= k) s := by
  intro b s'' h
  rw [outcome_bind] at h
  rcases ho : outcome e s with ⟨_ | a, s'⟩
  · rw [ho] at h
    cases h
  · rw [ho] at h
    have hkept := hk a s' (he a s' ho)
    rw [show (outcome (k a) s').2 = s'' from congrArg Prod.snd h] at hkept
    exact hkept

/-- The first round brings it about, and the others keep it. -/
theorem ensures_forM {body : β → Edit σ PUnit} {l : List β} (hne : l ≠ []) (hb : ∀ b ∈ l, Ensures P (body b) s)
    (hk : ∀ b ∈ l, Keeps P (body b)) : Ensures P (l.forM body) s := by
  cases l with
  | nil => exact absurd rfl hne
  | cons b l =>
    exact ensures_bind (hb b List.mem_cons_self) fun _ => keeps_forM fun c hc => hk c (List.mem_cons_of_mem _ hc)

end Ensures

/-! ## Edits that do not fail, and edits that fail before they begin -/

/-- From every state with `P` the edit succeeds and comes to a state with `P`. -/
def Succeeds (P : σ → Prop) (e : Edit σ α) : Prop := ∀ s, P s → ∃ a s', e.outcome s = (.ok a, s') ∧ P s'

/-- From a state with `P` the edit fails with what the check finds and leaves the state as it
    is; if the check finds nothing, it succeeds and comes to a state with `P`. -/
def Guarded (P : σ → Prop) (check : σ → Except Fault γ) (e : Edit σ α) : Prop :=
  ∀ s, P s → match check s with
    | .error f => e.outcome s = (.error f, s)
    | .ok _ => ∃ a s', e.outcome s = (.ok a, s') ∧ P s'

section Guarded

variable {P : σ → Prop} {check : σ → Except Fault γ}

theorem succeeds_pure (a : α) : Succeeds P (pure a : Edit σ α) := fun s h => ⟨a, s, rfl, h⟩

theorem succeeds_reading {f : σ → Except Fault α} (hf : ∀ s, P s → ∃ a, f s = .ok a) : Succeeds P (reading f) := by
  intro s h
  obtain ⟨a, ha⟩ := hf s h
  exact ⟨a, s, by rw [outcome_reading, ha], h⟩

theorem succeeds_modify {f : σ → σ} (hf : ∀ s, P s → P (f s)) : Succeeds P (modify f : Edit σ Unit) :=
  fun s h => ⟨(), f s, rfl, hf s h⟩

theorem succeeds_bind {e : Edit σ α} {k : α → Edit σ β} (he : Succeeds P e) (hk : ∀ a, Succeeds P (k a)) :
    Succeeds P (e >>= k) := by
  intro s h
  obtain ⟨a, s', ha, h'⟩ := he s h
  obtain ⟨b, s'', hb, h''⟩ := hk a s' h'
  refine ⟨b, s'', ?_, h''⟩
  rw [outcome_bind, ha]
  exact hb

theorem succeeds_forM {body : β → Edit σ PUnit} {l : List β} (hb : ∀ b ∈ l, Succeeds P (body b)) :
    Succeeds P (l.forM body) := by
  induction l with
  | nil => exact succeeds_pure _
  | cons b l ih =>
    exact succeeds_bind (hb b List.mem_cons_self) fun _ => ih fun c hc => hb c (List.mem_cons_of_mem _ hc)

/-- An edit that does not fail is guarded by any check that finds nothing. -/
theorem Succeeds.guarded {e : Edit σ α} (he : Succeeds P e) (hc : ∀ s, P s → ∃ c, check s = .ok c) :
    Guarded P check e := by
  intro s h
  obtain ⟨c, hs⟩ := hc s h
  rw [hs]
  exact he s h

/-- The check comes first. What follows may rely on what it has found. -/
theorem guarded_reading {k : γ → Edit σ α}
    (hk : ∀ s c, P s → check s = .ok c → ∃ a s', (k c).outcome s = (.ok a, s') ∧ P s') :
    Guarded P check (reading check >>= k) := by
  intro s h
  rw [outcome_bind, outcome_reading]
  cases hs : check s with
  | error f => rfl
  | ok c => exact hk s c h hs

/-- A second check behind the first. -/
theorem guarded_reading_bind {check' : γ → σ → Except Fault δ} {k : γ → Edit σ α}
    (hk : ∀ c, Guarded P (check' c) (k c)) :
    Guarded P (fun s => check s >>= fun c => check' c s) (reading check >>= k) := by
  intro s h
  dsimp only
  rw [outcome_bind, outcome_reading]
  cases hs : check s with
  | error f => rfl
  | ok c => exact hk c s h

/-- What follows a guarded edit and does not fail is under the same guard. -/
theorem guarded_bind {e : Edit σ α} {k : α → Edit σ β} (he : Guarded P check e) (hk : ∀ a, Succeeds P (k a)) :
    Guarded P check (e >>= k) := by
  intro s h
  have hs := he s h
  rw [outcome_bind]
  cases hc : check s with
  | error f =>
    rw [hc] at hs
    rw [hs]
  | ok c =>
    rw [hc] at hs
    obtain ⟨a, s', ha, h'⟩ := hs
    rw [ha]
    exact hk a s' h'

/-- A guarded edit fails exactly when its check does, with the same fault. -/
theorem Guarded.error_iff {e : Edit σ α} (he : Guarded P check e) {s : σ} (h : P s) (f : Fault) :
    (e.outcome s).1 = .error f ↔ check s = .error f := by
  have hs := he s h
  cases hc : check s with
  | error g =>
    rw [hc] at hs
    simp [hs]
  | ok c =>
    rw [hc] at hs
    obtain ⟨a, s', ha, -⟩ := hs
    simp [ha]

theorem Guarded.keeps {e : Edit σ α} (he : Guarded P check e) : Keeps P e := by
  intro s h
  have hs := he s h
  cases hc : check s with
  | error f =>
    rw [hc] at hs
    rw [hs]
    exact h
  | ok c =>
    rw [hc] at hs
    obtain ⟨a, s', ha, h'⟩ := hs
    rw [ha]
    exact h'

/-- If the edit fails from this state, the state is left as it was. -/
def Atomic (e : Edit σ α) (s : σ) : Prop := ∀ f, (e.outcome s).1 = .error f → (e.outcome s).2 = s

theorem Guarded.state_eq {e : Edit σ α} (he : Guarded P check e) {s : σ} (h : P s) {f : Fault}
    (hf : check s = .error f) : (e.outcome s).2 = s := by
  have hs := he s h
  rw [hf] at hs
  rw [hs]

theorem Guarded.atomic {e : Edit σ α} (he : Guarded P check e) {s : σ} (h : P s) : Atomic e s :=
  fun f hf => he.state_eq h ((he.error_iff h f).mp hf)

end Guarded

/-! ## Edits that cannot be told apart -/

def Agree (R : σ → τ → Prop) (e : Edit σ α) (f : Edit τ α) : Prop :=
  ∀ s t, R s t → (e.outcome s).1 = (f.outcome t).1 ∧ R (e.outcome s).2 (f.outcome t).2

section Agree

variable {R : σ → τ → Prop}

theorem agree_pure (a : α) : Agree R (pure a : Edit σ α) (pure a : Edit τ α) := fun _ _ h => ⟨rfl, h⟩

theorem agree_reading {f : σ → Except Fault α} {g : τ → Except Fault α} (h : ∀ s t, R s t → f s = g t) :
    Agree R (reading f) (reading g) := by
  intro s t hr
  rw [outcome_reading, outcome_reading]
  exact ⟨h s t hr, hr⟩

theorem agree_modify {f : σ → σ} {g : τ → τ} (h : ∀ s t, R s t → R (f s) (g t)) :
    Agree R (modify f : Edit σ Unit) (modify g : Edit τ Unit) := fun s t hr => ⟨rfl, h s t hr⟩

theorem agree_bind {e : Edit σ α} {f : Edit τ α} {k : α → Edit σ β} {l : α → Edit τ β}
    (he : Agree R e f) (hk : ∀ a, Agree R (k a) (l a)) : Agree R (e >>= k) (f >>= l) := by
  intro s t hr
  obtain ⟨ha, hs⟩ := he s t hr
  rw [outcome_bind, outcome_bind]
  revert ha hs
  rcases outcome e s with ⟨_ | a, s'⟩ <;> rcases outcome f t with ⟨_ | b, t'⟩ <;> intro ha hs
  · exact ⟨congrArg _ (Except.error.inj ha), hs⟩
  · cases ha
  · cases ha
  · cases ha
    exact hk a s' t' hs

theorem agree_forM {body : β → Edit σ PUnit} {body' : β → Edit τ PUnit} {l : List β}
    (hb : ∀ b ∈ l, Agree R (body b) (body' b)) : Agree R (l.forM body) (l.forM body') := by
  induction l with
  | nil => exact agree_pure _
  | cons b l ih =>
    exact agree_bind (hb b List.mem_cons_self) fun _ => ih fun c hc => hb c (List.mem_cons_of_mem _ hc)

end Agree

end FeatureVector.Edit
