import ArkLang.Proofs.Progress

/-!
# Parsing finishes

Every loop of the parser stands under a bound: on how often it turns, or on how deep its parts are
nested. Each turn and each nesting level reads a token, so a bound that is at least the number of
tokens never decides what is read. With that, parsing with recovery reads every token up to the end
of input.
-/

namespace ArkLang

namespace Parser

/-- A loop whose bound does not decide what it reads, if the bound is at least the number of tokens
left. -/
def BoundFree {α : Type} (loop : Nat → Parser α) : Prop :=
  ∀ bound bound' ctx (st : ParseState), st.rest.length ≤ bound → st.rest.length ≤ bound' →
    runAt (loop bound) ctx st = runAt (loop bound') ctx st

/-! ### All loops -/

/-- The loops that stand under a bound: what is nested inside itself, and what is repeated. Those
that contain a nested part are taken at every depth of it. -/
inductive Loop : {α : Type} → (Nat → Parser α) → Prop
  | types : Loop typeWithin
  | exprs : Loop exprWithin
  | blocks : Loop blockWithin
  | typeItems (closing : Symbol) (depth : Nat) : Loop (commaList closing (typeWithin depth))
  | exprItems (closing : Symbol) (depth : Nat) : Loop (commaList closing (exprWithin depth))
  | suffixes (depth : Nat) (base : Expr) :
      Loop fun limit => suffixes (exprWithin depth) limit base
  | signs (depth : Nat) : Loop (signed (suffixed (exprWithin depth)))
  | operators (depth least : Nat) (left : Expr) :
      Loop fun limit =>
        climb (do signed (suffixed (exprWithin depth)) (← remaining)) limit least left
  | path : Loop pathSegments
  | params (defaulted : Bool) : Loop fun limit => paramList limit defaulted
  | members (depth : Nat) (name : Ident) : Loop (memberList (blockWithin depth) name)
  | arms (depth : Nat) (fallback : Option Block) (last : Span) :
      Loop fun limit => chainArms (blockWithin depth) limit fallback last
  | stmts (depth : Nat) (topLevel afterChain : Bool) :
      Loop fun limit => stmtsWith (blockWithin depth) topLevel limit afterChain

theorem Loop.boundFree {α : Type} {loop : Nat → Parser α} (h : Loop loop) : BoundFree loop := by
  intro a b ctx st ha hb
  have enough : Enough st.rest.length a b := .inr ⟨ha, hb⟩
  have type (depth : Nat) (law : TreeLaw) : law.Reads (typeWithin depth) .type :=
    fun _ => reads_typeWithin (.inl rfl)
  have expr (depth : Nat) (law : TreeLaw) : law.Reads (exprWithin depth) .expr :=
    fun _ => reads_exprWithin (.inl rfl)
  have block (depth : Nat) (law : TreeLaw) : law.Reads (blockWithin depth) .block :=
    fun _ => reads_blockWithin (.inl rfl) law
  have operand (depth : Nat) (law : TreeLaw) : law.Reads (suffixed (exprWithin depth)) .expr :=
    fun n => reads_suffixed (expr depth law (n - 1))
  have same {frag : α → Fragment} (h : ∀ law : TreeLaw,
    law.ReadsUpTo st.rest.length (loop a) (loop b) frag) :
      runAt (loop a) ctx st = runAt (loop b) ctx st :=
    (same_of_holds fun law => h law _ [] le_rfl).1
  cases h with
  | types => exact same fun _ => reads_typeWithin enough
  | exprs => exact same fun _ => reads_exprWithin enough
  | blocks => exact same fun law => reads_blockWithin enough law
  | typeItems closing depth =>
    exact same fun law => reads_commaList (type depth law _) (fun _ => le_rfl) .typesNil
      .typesCons enough
  | exprItems closing depth =>
    exact same fun law => reads_commaList (expr depth law _) Expr.weight_pos .exprsNil
      .exprsCons enough
  | suffixes depth base => exact (same_of_holds fun law =>
      reads_suffixes (s := []) (expr depth law _) enough le_rfl).1
  | signs depth => exact same fun law => reads_signed (operand depth law _) enough
  | operators depth least left =>
    have signs (law : TreeLaw) :
      law.Reads (do signed (suffixed (exprWithin depth)) (← remaining)) .expr :=
      fun _ N s _ => law.remaining fun m _ _ hc hd _ =>
        reads_signed (operand depth law m) (.inr ⟨hc, hd⟩) _ _ le_rfl
    exact (same_of_holds fun law => reads_climb (s := []) (signs law _) enough le_rfl).1
  | path => exact same fun _ => reads_pathSegments enough
  | params defaulted => exact same fun _ => reads_paramList enough defaulted
  | members depth name => exact same fun law => reads_memberList (block depth law _) name enough
  | arms depth fallback last =>
    cases fallback with
    | none => exact (same_of_holds fun law =>
        reads_chainArms (s := []) (block depth law _) le_rfl enough last).1
    | some body =>
      exact (same_of_holds fun law => @holds_catchAll law _ _ [] _ _ _ _ le_rfl enough body last).1
  | stmts depth topLevel afterChain =>
    exact same fun _ => reads_stmtsWith (fun law => block depth law _) topLevel enough afterChain

theorem reads_block_within {n depth : Nat} (enough : n < depth) (law : TreeLaw) :
    law.ReadsUpTo n block (blockWithin depth) .block := by
  intro N s few
  change law.Holds N none s (remaining >>= fun n => blockWithin (n + 1))
    (remaining >>= fun _ => blockWithin depth) _
  refine law.remaining fun m a b ha _ le => reads_blockWithin (.inr ⟨?_, ?_⟩) law _ _ le_rfl
  · omega
  · omega

end Parser

/-! ### Parsing with recovery finishes -/

namespace ParserRun

def recoveryContext (run : ParserRun) : ParseContext :=
  ⟨run.tokens, run.dialect, true⟩

def startState (run : ParserRun) : ParseState :=
  ⟨run.rest, run.nextId, []⟩

theorem rest_recoveredProgram (run : ParserRun) : run.recoveredProgram.2.2.rest =
    (runAt Parser.program run.recoveryContext run.startState).2.rest := by
  have step : run.step true Parser.program =
      ((runAt Parser.program run.recoveryContext run.startState).1,
        (runAt Parser.program run.recoveryContext run.startState).2.errors,
        { run with
          rest := (runAt Parser.program run.recoveryContext run.startState).2.rest
          nextId := (runAt Parser.program run.recoveryContext run.startState).2.nextId }) := rfl
  rw [recoveredProgram, step]
  cases (runAt Parser.program run.recoveryContext run.startState).1 <;> rfl

theorem rest_recoveredProgram_of_lt (run : ParserRun) {depth : Nat}
    (enough : run.rest.length < depth) : run.recoveredProgram.2.2.rest =
      (runAt (Parser.stmtsWith (Parser.blockWithin depth) true
      (run.rest.length + 1) false) run.recoveryContext run.startState).2.rest := by
  rw [rest_recoveredProgram, Parser.program, Parser.runAt_remaining, bind_pure_comp, snd_runAt_map]
  have stmts (law : TreeLaw) := @Parser.reads_stmtsWith law _ _ _ (Parser.reads_block_within enough)
    true (run.rest.length + 1) _ (.inl rfl) false run.startState.rest.length [] le_rfl
  have same := (@Parser.same_of_holds _ _ _ run.recoveryContext run.startState [] _ stmts).1
  exact congrArg (·.2.rest) same

theorem turns_recoveredProgram (run : ParserRun) {depth : Nat} (enough : run.rest.length < depth) :
    ∃ last,
      Relation.ReflTransGen
          (fun before after =>
            Parser.turn (Parser.blockWithin depth) true run.recoveryContext before = some after)
          (run.startState, false) last ∧
        Parser.turn (Parser.blockWithin depth) true run.recoveryContext last = none ∧
        run.recoveredProgram.2.2.rest = (Parser.pastSemis last.1).rest := by
  have more : run.startState.rest.length < run.rest.length + 1 := Nat.lt_succ_self _
  obtain ⟨last, turns, stop, same⟩ := @Parser.turns_stmtsWith _ true run.recoveryContext
    (fun law _ => Parser.reads_blockWithin (.inl rfl) law) rfl _ false _ more
  refine ⟨last, turns, stop, ?_⟩
  rw [rest_recoveredProgram_of_lt run enough, same]

/-- A parse with recovery reads everything. It takes one turn after the other until none is
possible, and then no token is left, or the next one is the end of input. Every turn, at the top
level or inside a block, moves forward, so the turns come to an end whatever the tokens are; and no
bound that a loop of the parser stands under decides what it reads. -/
theorem recoveredProgram_finishes (run : ParserRun) :
    (∀ t ∈ run.recoveredProgram.2.2.rest.head?, t.kind = .eof) ∧
    (∀ depth, run.rest.length < depth → ∃ last,
      Relation.ReflTransGen
          (fun before after =>
            Parser.turn (Parser.blockWithin depth) true run.recoveryContext before = some after)
          (run.startState, false) last ∧
        Parser.turn (Parser.blockWithin depth) true run.recoveryContext last = none ∧
        run.recoveredProgram.2.2.rest = (Parser.pastSemis last.1).rest) ∧
    (∀ depth topLevel ctx before after,
      Parser.turn (Parser.blockWithin depth) topLevel ctx before = some after →
        after.1.rest <:+ before.1.rest ∧ after.1.rest.length < before.1.rest.length) ∧
    ∀ {α : Type} (loop : Nat → Parser α), Parser.Loop loop → Parser.BoundFree loop := by
  refine ⟨fun t first => ?_, fun depth enough => run.turns_recoveredProgram enough, ?_,
    fun loop h => h.boundFree⟩
  · obtain ⟨last, -, stop, same⟩ := run.turns_recoveredProgram (Nat.lt_succ_self _)
    have next := Parser.next_of_turn_eq_none stop
    rw [same] at first
    rw [Option.mem_def, List.head?_eq_some_iff] at first
    obtain ⟨ts, rest⟩ := first
    rwa [ParseState.next, rest] at next
  · intro depth topLevel ctx before after turn
    exact Parser.turn_moves (fun law _ => Parser.reads_blockWithin (.inl rfl) law) turn

/-- Tokens with two closing braces that nothing has opened, and no end of input behind them. -/
def strayBraces : ParserRun :=
  .start
    [⟨.symbol .rbrace, ⟨0, 1⟩, ⟨1, 1⟩, false⟩, ⟨.symbol .rbrace, ⟨1, 1⟩, ⟨1, 2⟩, false⟩] .inferred

theorem recoveredProgram_finishes_strayBraces :
    strayBraces.recoveredProgram.2.2.rest = [] ∧
      ∃ after, Parser.turn (Parser.blockWithin 3) true strayBraces.recoveryContext
          (strayBraces.startState, false) = some after ∧
        after.1.rest.length < strayBraces.rest.length := by
  have stop : strayBraces.recoveredProgram.2.2.rest = [] := rfl
  refine ⟨stop, _, rfl, ?_⟩
  have forward := (recoveredProgram_finishes strayBraces).2.2.1
  exact (forward 3 true _ (strayBraces.startState, false) _ rfl).2

end ParserRun

end ArkLang
