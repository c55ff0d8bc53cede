import ArkLang.Proofs.Readings

/-!
# Recovery agrees with plain parsing

A parser that goes on after errors does what it does without recovery up to the first error,
wherever that occurs. If the plain parser gives a tree, recovery gives the same one and keeps no
error. If the plain parser fails, its error is the first that recovery keeps.
-/

namespace ArkLang

variable {α β : Type}

/-- Without recovery a parser keeps no errors. With recovery it keeps those that there were, and
does the same as without, unless the plain parser fails: then it may keep that error first and go
on. -/
def Agrees (nx : Option (Token × Token)) (p : Parser α) : Prop :=
  ∀ tokens dialect st, (∀ u ∈ nx, st.next ⟨tokens, dialect, false⟩ = u.1) →
    let plain := runAt p ⟨tokens, dialect, false⟩ st
    let recovered := runAt p ⟨tokens, dialect, true⟩ st
    plain.2.errors = st.errors ∧ st.errors <+: recovered.2.errors ∧
      (recovered = plain ∨ ∃ e, plain.1 = .error e ∧ st.errors ++ [e] <+: recovered.2.errors)

namespace Agrees

variable {nx : Option (Token × Token)}

theorem of_same {p : Parser α} (h : ∀ tokens dialect st,
    runAt p ⟨tokens, dialect, true⟩ st = runAt p ⟨tokens, dialect, false⟩ st ∧
      (runAt p ⟨tokens, dialect, false⟩ st).2.errors = st.errors) : Agrees nx p := by
  intro tokens dialect st _
  obtain ⟨same, errors⟩ := h tokens dialect st
  refine ⟨errors, ?_, .inl same⟩
  rw [same, errors]

theorem bind {p : Parser α} {f : α → Parser β} (hp : Agrees nx p)
    (hf : ∀ a, Given p a → Agrees none (f a)) : Agrees nx (p >>= f) := by
  intro tokens dialect st known
  obtain ⟨none, kept, outcome⟩ := hp tokens dialect st known
  dsimp only
  rw [runAt_bind, runAt_bind]
  rcases plain : runAt p ⟨tokens, dialect, false⟩ st with ⟨e | a, st₁⟩
  · -- the plain parser ends here; recovery may have a value and go on, keeping what it has
    rw [plain] at none outcome
    rcases recovered : runAt p ⟨tokens, dialect, true⟩ st with ⟨e' | a, st₂⟩
    · rw [recovered] at kept outcome
      refine ⟨none, kept, ?_⟩
      rcases outcome with same | ⟨_, ⟨⟩, first⟩
      · cases same
        exact .inl rfl
      · exact .inr ⟨e, rfl, first⟩
    · rw [recovered] at kept outcome
      obtain ⟨-, more, -⟩ := hf a ⟨_, _, _, recovered⟩ tokens dialect st₂ (by simp)
      refine ⟨none, kept.trans more, ?_⟩
      rcases outcome with ⟨⟨⟩⟩ | ⟨_, ⟨⟩, first⟩
      exact .inr ⟨e, rfl, first.trans more⟩
  · rw [plain] at none outcome
    rcases outcome with same | ⟨_, ⟨⟩, _⟩
    rw [same, ← none]
    exact hf a ⟨_, _, _, plain⟩ tokens dialect st₁ (by simp)

theorem goOn (start : Nat) {stmt : Parser Stmt} {more : Bool → Parser (List Stmt)}
    (hstmt : Agrees none stmt) (hmore : ∀ afterChain, Agrees none (more afterChain)) :
    Agrees none (Parser.goOn start stmt more) := by
  intro tokens dialect st _
  obtain ⟨none, kept, outcome⟩ := hstmt tokens dialect st (by simp)
  have map (s : Stmt) : Agrees .none ((s :: ·) <$> more (Parser.isChain s)) := by
    rw [← bind_pure_comp]
    exact bind (hmore _) fun _ _ => of_same fun _ _ _ => ⟨rfl, rfl⟩
  -- whatever the statement gave, recovery goes on and keeps the errors so far
  have goesOn : (runAt stmt ⟨tokens, dialect, true⟩ st).2.errors <+:
      (runAt (Parser.goOn start stmt more) ⟨tokens, dialect, true⟩ st).2.errors := by
    rw [Parser.runAt_goOn]
    rcases runAt stmt ⟨tokens, dialect, true⟩ st with ⟨e | s, st₁⟩
    · have later := (hmore false tokens dialect (Parser.recoveredState start e st₁) (by simp)).2.1
      exact (List.prefix_append st₁.errors [e]).trans later
    · exact (map s tokens dialect st₁ (by simp)).2.1
  dsimp only
  rw [Parser.runAt_goOn start stmt more ⟨tokens, dialect, false⟩]
  rcases plain : runAt stmt ⟨tokens, dialect, false⟩ st with ⟨e | s, st₁⟩
  · rw [plain] at none outcome
    refine ⟨none, kept.trans goesOn, .inr ⟨e, rfl, ?_⟩⟩
    rcases outcome with same | ⟨_, ⟨⟩, first⟩
    · rw [Parser.runAt_goOn, same, ← none]
      exact (hmore false tokens dialect (Parser.recoveredState start e st₁) (by simp)).2.1
    · exact first.trans goesOn
  · rw [plain] at none outcome
    rcases outcome with same | ⟨_, ⟨⟩, _⟩
    rw [Parser.runAt_goOn, same, ← none]
    exact map s tokens dialect st₁ (by simp)

/-- Recovery agrees with plain parsing in every parser. -/
def law : TreeLaw where
  Holds _ nx _ p _ _ := Agrees nx p
  pure _ := of_same fun _ _ _ => ⟨rfl, rfl⟩
  bind := bind
  reduce _ h := h
  unknown h tokens dialect st _ := h tokens dialect st (by simp)
  spent _ _ h := h
  current {α N nx s f g after} h h' tokens dialect st known := by
    have same : ∀ u ∈ nx, u.1 = st.next ⟨tokens, dialect, false⟩ := fun u mem => (known u mem).symm
    by_cases eof : (st.next ⟨tokens, dialect, false⟩).kind = .eof
    · exact h' _ _ eof eof same tokens dialect st (by simp)
    · exact h _ eof same tokens dialect st (by simp)
  past _ h tokens dialect st _ := h tokens dialect st.past (by simp)
  stay eof _ h tokens dialect st known := by
    obtain rfl := known _ rfl
    dsimp only
    rw [Parser.runAt_stay eof, @Parser.runAt_stay _ ⟨tokens, dialect, true⟩ _ eof]
    exact h tokens dialect st known
  first {α N nx s f g after} hf _ hnone hsome tokens dialect st _ := by
    obtain ⟨_ | ⟨t, ts⟩, nextId, errors⟩ := st
    · exact hnone tokens dialect ⟨[], nextId, errors⟩ (by simp)
    by_cases eof : t.kind = .eof
    · rw [← hf, ← eof] at hnone
      exact hnone tokens dialect ⟨t :: ts, nextId, errors⟩ (by simp)
    · exact hsome t eof tokens dialect ⟨t :: ts, nextId, errors⟩ (by simp [ParseState.next])
  peek _ h tokens dialect st known := h _ tokens dialect st known
  look h tokens dialect st known := h st st rfl tokens dialect st known
  remaining h tokens dialect st known :=
    h 0 st.rest.length 0 (Nat.zero_le _) (Nat.zero_le _) (Nat.zero_le _) tokens dialect st known
  drop _ := of_same fun _ _ _ => ⟨rfl, rfl⟩
  freshId := of_same fun _ _ _ => ⟨rfl, rfl⟩
  failAt _ := of_same fun _ _ _ => ⟨rfl, rfl⟩
  failEnd _ _ := of_same fun _ _ _ => ⟨rfl, rfl⟩
  failOver _ := of_same fun _ _ _ => ⟨rfl, rfl⟩
  refuse {α N nx s d stop stop' rest rest' after} _ hstop hrest tokens dialect st known := by
    have run (ctx : ParseContext) : runAt (do if (← read).dialect = d then stop else rest) ctx st =
        runAt (if ctx.dialect = d then stop else rest) ctx st := rfl
    dsimp only
    rw [run, run]
    dsimp only
    split
    · exact hstop tokens dialect st known
    · exact hrest tokens dialect st known
  goOn {N t s stmt stmt' more more' topLevel afterChain} _ _ hstmt hmore tokens dialect st _ := by
    dsimp only
    rw [Parser.runAt_remaining, Parser.runAt_remaining]
    exact Agrees.goOn _ hstmt (fun afterChain => hmore 0 s afterChain (Nat.zero_le _))
      tokens dialect
      st (by simp)

end Agrees

/-! ### Programs -/

theorem program_start (tokens : List Token) (dialect : Dialect) :
    (ParserRun.start tokens dialect).program.1 =
      (runAt Parser.program ⟨tokens, dialect, false⟩ ⟨tokens, 0, []⟩).1 :=
  rfl

theorem recoveredProgram_start (tokens : List Token) (dialect : Dialect) :
    (ParserRun.start tokens dialect).recoveredProgram =
      match runAt Parser.program ⟨tokens, dialect, true⟩ ⟨tokens, 0, []⟩ with
      | (.ok p, st) => (p, st.errors, ⟨tokens, dialect, st.rest, st.nextId⟩)
      | (.error e, st) => (⟨[]⟩, st.errors ++ [e], ⟨tokens, dialect, st.rest, st.nextId⟩) := by
  have step : (ParserRun.start tokens dialect).step true Parser.program =
      let (outcome, st) := runAt Parser.program ⟨tokens, dialect, true⟩ ⟨tokens, 0, []⟩
      (outcome, st.errors, ⟨tokens, dialect, st.rest, st.nextId⟩) := rfl
  rw [ParserRun.recoveredProgram, step]
  rcases runAt Parser.program ⟨tokens, dialect, true⟩ ⟨tokens, 0, []⟩ with ⟨e | p, st⟩ <;> rfl

/-- Without errors, recovery gives what plain parsing gives; otherwise its first error is the error
of plain parsing. -/
theorem recoveredProgram_cases (tokens : List Token) (dialect : Dialect) :
    let run := ParserRun.start tokens dialect
    (∃ p, run.program.1 = .ok p ∧ run.recoveredProgram.1 = p ∧ run.recoveredProgram.2.1 = []) ∨
      ∃ e, run.program.1 = .error e ∧ run.recoveredProgram.2.1.head? = some e := by
  have agrees : Agrees .none Parser.program :=
    (@Parser.reads_program Agrees.law).here (N := 0) (s := [])
  obtain ⟨none, -, outcome⟩ := agrees tokens dialect ⟨tokens, 0, []⟩ (by simp)
  dsimp only
  rw [program_start, recoveredProgram_start]
  rcases plain : runAt Parser.program ⟨tokens, dialect, false⟩ ⟨tokens, 0, []⟩ with ⟨e | p, st⟩
  · refine .inr ⟨e, rfl, ?_⟩
    rw [plain] at none outcome
    have none : st.errors = [] := none
    rcases outcome with same | ⟨_, ⟨⟩, more, first⟩
    · simp [same, none]
    · rcases recovered : runAt Parser.program ⟨tokens, dialect, true⟩ ⟨tokens, 0, []⟩ with
        ⟨e' | p, st'⟩
      · have first : e :: more = st'.errors := by simpa [recovered] using first
        simp [← first]
      · have first : e :: more = st'.errors := by simpa [recovered] using first
        simp [← first]
  · refine .inl ⟨p, rfl, ?_⟩
    rw [plain] at none outcome
    have none : st.errors = [] := none
    rcases outcome with same | ⟨_, ⟨⟩, _⟩
    simp [same, none]

/-! ### Texts -/

theorem tokens_eq_ok {text : String} {ts : List Token} :
    tokens text = .ok ts ↔ tokensAndErrors text = (ts, []) := by
  simp only [tokens, tokensAndErrors]
  generalize lex text = items
  induction items generalizing ts with
  | nil =>
    constructor
    · rintro ⟨⟩
      rfl
    · rintro ⟨⟩
      rfl
  | cons item rest ih =>
    cases item with
    | error e =>
      constructor
      · rintro ⟨⟩
      · intro h
        cases congrArg Prod.snd h
    | ok t =>
      rw [List.mapM_cons]
      constructor
      · intro h
        cases more : rest.mapM id with
        | error e =>
          rw [more] at h
          cases h
        | ok more' =>
          rw [more] at h
          cases h
          exact congrArg (fun found => (t :: found.1, found.2)) (ih.mp more)
      · intro h
        obtain ⟨rfl, errors⟩ := Prod.ext_iff.mp h
        rw [ih.mpr (Prod.ext rfl errors)]
        rfl

/-- Recovery gives a program without errors exactly if plain parsing gives that program, with the
same numbers and spans; it gives errors exactly if plain parsing fails, with its error as the first.
So a text is read without any error exactly if it is a program. -/
theorem recoveredProgram_agrees (dialect : Dialect) :
    (∀ tokens, let run := ParserRun.start tokens dialect
      (∀ p, run.program.1 = .ok p ↔
        run.recoveredProgram.1 = p ∧ run.recoveredProgram.2.1 = []) ∧
      ∀ e, run.program.1 = .error e ↔ run.recoveredProgram.2.1.head? = some e) ∧
    ∀ text p, parseProgram dialect text = .ok p ↔
      (recoverProgram dialect text).isClean = true ∧ (recoverProgram dialect text).program = p := by
  have accepts (tokens : List Token) (p : Program) :
      (ParserRun.start tokens dialect).program.1 = .ok p ↔
        (ParserRun.start tokens dialect).recoveredProgram.1 = p ∧
          (ParserRun.start tokens dialect).recoveredProgram.2.1 = [] := by
    rcases recoveredProgram_cases tokens dialect with ⟨q, plain, same, none⟩ | ⟨e, plain, first⟩
    · rw [plain, same, none, Except.ok.injEq]
      exact (and_iff_left rfl).symm
    · rw [plain]
      constructor
      · rintro ⟨⟩
      · rintro ⟨-, none⟩
        rw [none] at first
        cases first
  refine ⟨fun tokens => ⟨accepts tokens, fun e => ?_⟩, fun text p => ?_⟩
  · rcases recoveredProgram_cases tokens dialect with ⟨q, plain, same, none⟩ | ⟨e', plain, first⟩
    · rw [plain, none]
      constructor <;> rintro ⟨⟩
    · rw [plain, first, Except.error.injEq, Option.some.injEq]
  · rw [Recovered.isClean, Bool.and_eq_true, List.isEmpty_iff, List.isEmpty_iff]
    cases htokens : tokens text with
    | error e =>
      -- a faulty lexeme is an error on both sides
      have rejects : parseProgram dialect text = .error (.lex e) := by
        rw [parseProgram, readTokens, htokens]
        rfl
      rw [rejects]
      constructor
      · rintro ⟨⟩
      · rintro ⟨⟨none, -⟩, -⟩
        have accepted := tokens_eq_ok.mpr (Prod.ext_iff.mpr ⟨rfl, none⟩ :
          tokensAndErrors text = ((tokensAndErrors text).1, []))
        rw [htokens] at accepted
        cases accepted
    | ok ts =>
      have plain : parseProgram dialect text =
          (ParserRun.start ts dialect).program.1.mapError .parse := by
        rw [parseProgram, readTokens, htokens]
        rfl
      have recovered : recoverProgram dialect text =
          ⟨(ParserRun.start ts dialect).recoveredProgram.1, [],
            (ParserRun.start ts dialect).recoveredProgram.2.1⟩ := by
        rw [recoverProgram, tokens_eq_ok.mp htokens]
      rw [plain, recovered]
      simp only [true_and]
      rw [and_comm, ← accepts]
      cases (ParserRun.start ts dialect).program.1 <;> simp [Except.mapError]

end ArkLang
