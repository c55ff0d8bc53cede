/-!
# Runs of effectful code

Parsers and checks read a context, change a state and may fail, and the state they have reached
outlives a failure. A run that gives a value is taken apart along the code: each construct has one
rule that says exactly when it gives a value.
-/

namespace ArkLang

variable {ρ ε σ α β : Type} {r : ρ} {s s' : σ} {a b : α} {e : ε}

/-- Code that reads a context, changes a state and may fail. -/
abbrev Code (ρ ε σ α : Type) := ReaderT ρ (ExceptT ε (StateM σ)) α

/-- The outcome of some code and the state it leaves. -/
def runAt (x : Code ρ ε σ α) (r : ρ) (s : σ) : Except ε α × σ :=
  (x.run r).run.run s

/-- The code gives a value and leaves a state. -/
def Gives (x : Code ρ ε σ α) (r : ρ) (s : σ) (a : α) (s' : σ) : Prop :=
  runAt x r s = (.ok a, s')

/-! ### Running each construct -/

theorem runAt_bind (x : Code ρ ε σ α) (f : α → Code ρ ε σ β) : runAt (x >>= f) r s =
    match runAt x r s with
    | (.ok a, s') => runAt (f a) r s'
    | (.error e, s') => (.error e, s') := by
  change (ExceptT.bindCont (fun a => f a r) (x r s).1) (x r s).2 = _
  simp only [runAt]
  rcases h : x r s with ⟨_ | a, s'⟩ <;> simp only [ReaderT.run, ExceptT.run, StateT.run, h] <;> rfl

theorem snd_runAt_map (x : Code ρ ε σ α) (f : α → β) :
    (runAt (f <$> x) r s).2 = (runAt x r s).2 := by
  rw [← bind_pure_comp, runAt_bind]
  rcases runAt x r s with ⟨_ | a, s'⟩ <;> rfl

/-- A handler starts from the state that the failure left. -/
theorem runAt_tryCatch (x : Code ρ ε σ α) (handle : ε → Code ρ ε σ α) :
    runAt (tryCatch x handle) r s =
      match runAt x r s with
      | (.ok a, s') => (.ok a, s')
      | (.error e, s') => runAt (handle e) r s' := by
  change (match (x r s).1 with
    | .ok a => fun s' => (.ok a, s')
    | .error e => handle e r : StateM σ (Except ε α)) (x r s).2 = _
  simp only [runAt]
  rcases h : x r s with ⟨_ | a, s'⟩ <;> simp only [ReaderT.run, ExceptT.run, StateT.run, h]

/-! ### When a construct gives a value -/

theorem gives_pure : Gives (pure a : Code ρ ε σ α) r s b s' ↔ b = a ∧ s' = s := by
  constructor
  · rintro ⟨⟩
    exact ⟨rfl, rfl⟩
  · rintro ⟨rfl, rfl⟩
    rfl

/-- A sequence gives a value if both of its parts do. -/
theorem gives_bind {x : Code ρ ε σ α} {f : α → Code ρ ε σ β} {b : β} :
    Gives (x >>= f) r s b s' ↔ ∃ a s₁, Gives x r s a s₁ ∧ Gives (f a) r s₁ b s' := by
  simp only [Gives, runAt_bind]
  rcases runAt x r s with ⟨_ | a, s₁⟩
  · simp
  · constructor
    · exact fun h => ⟨a, s₁, rfl, h⟩
    · rintro ⟨a', s₁', ⟨⟩, h⟩
      exact h

theorem gives_modify {f : σ → σ} {u : Unit} :
    Gives (modify f : Code ρ ε σ Unit) r s u s' ↔ s' = f s := by
  constructor
  · rintro ⟨⟩
    rfl
  · rintro rfl
    rfl

theorem gives_ite {c : Prop} [Decidable c] {x y : Code ρ ε σ α} :
    Gives (if c then x else y) r s a s' ↔ if c then Gives x r s a s' else Gives y r s a s' := by
  split <;> rfl

theorem not_gives_throw : ¬ Gives (throw e : Code ρ ε σ α) r s a s' := by
  rintro ⟨⟩

/-! ### When a construct reaches a property -/

/-- The code gives a value that, with the state it leaves, has a property. -/
def Reaches (x : Code ρ ε σ α) (r : ρ) (s : σ) (Q : α → σ → Prop) : Prop :=
  ∃ a s', Gives x r s a s' ∧ Q a s'

section Reaches

variable {Q Q' : α → σ → Prop}

theorem Reaches.mono {x : Code ρ ε σ α} (h : Reaches x r s Q) (hQ : ∀ a s', Q a s' → Q' a s') :
    Reaches x r s Q' := by
  obtain ⟨a, s', gives, q⟩ := h
  exact ⟨a, s', gives, hQ a s' q⟩

theorem Gives.reaches {x : Code ρ ε σ α} (h : Gives x r s a s') (q : Q a s') : Reaches x r s Q :=
  ⟨a, s', h, q⟩

theorem reaches_of_run {x : Code ρ ε σ α} (h : Gives x r s a s') : Reaches x r s Q ↔ Q a s' := by
  constructor
  · rintro ⟨b, s₁, h', q⟩
    cases h.symm.trans h'
    exact q
  · exact h.reaches

theorem reaches_pure : Reaches (pure a : Code ρ ε σ α) r s Q ↔ Q a s :=
  reaches_of_run rfl

/-- What a sequence reaches, its second part reaches. -/
theorem reaches_bind {x : Code ρ ε σ α} {f : α → Code ρ ε σ β} {Q : β → σ → Prop} :
    Reaches (x >>= f) r s Q ↔ Reaches x r s fun a s' => Reaches (f a) r s' Q := by
  simp only [Reaches, gives_bind]
  constructor
  · rintro ⟨b, s', ⟨a, s₁, h, h'⟩, q⟩
    exact ⟨a, s₁, h, b, s', h', q⟩
  · rintro ⟨a, s₁, h, b, s', h', q⟩
    exact ⟨b, s', ⟨a, s₁, h, h'⟩, q⟩

theorem reaches_get {Q : σ → σ → Prop} : Reaches (get : Code ρ ε σ σ) r s Q ↔ Q s s :=
  reaches_of_run rfl

theorem reaches_ite {c : Prop} [Decidable c] {x y : Code ρ ε σ α} :
    Reaches (if c then x else y) r s Q ↔ if c then Reaches x r s Q else Reaches y r s Q := by
  split <;> rfl

end Reaches

end ArkLang
