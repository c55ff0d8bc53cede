import ArkLang.Proofs.Places
import ArkLang.Proofs.TwoRuns

/-!
# The end of input

The tokens of a text end with the end of input, but a parser needs no token to see where its input
ends. Without that token it reads the same program and reports the same errors; only errors that are
reported behind all other tokens may be reported at the last of these instead.
-/

namespace ArkLang

/-- Errors with the same cause, at the same place unless the first one starts behind some tokens. -/
def ParseError.SameUpTo (ts : List Token) (e e' : ParseError) : Prop :=
  e = e' ∨ e.fault = e'.fault ∧ ∀ t ∈ ts, t.span.offset < e.span.offset

/-- The last token of a text is the end of input. -/
theorem tokens_split (text : String) : ∃ ts eof, (tokensAndErrors text).1 = ts ++ [eof] ∧
    eof.kind = .eof ∧ ∀ t ∈ ts, t.span.offset < eof.span.offset := by
  obtain ⟨items, eof, split, kind, -⟩ := (cut_lex text).exists_last [] rfl rfl
  have split : (tokensAndErrors text).1 = items.filterMap LexItem.token? ++ [eof] := by
    rw [fst_tokensAndErrors, split, List.filterMap_append]
    rfl
  have inRow := inRow_tokens text
  rw [split, InRow, List.pairwise_append] at inRow
  exact ⟨_, eof, split, kind, fun t mem => (inRow.2.2 t mem eof List.mem_cons_self).1⟩

namespace InputEnd

variable {c : InputEnd}

/-- Runs from the start of the input give the same, with the end of input and without it. -/
theorem same_program : ∃ budget after, c.Same budget c.ctx.tokens after
    (runAt Parser.program c.full ⟨c.full.tokens, 0, []⟩)
    (runAt Parser.program c.ctx ⟨c.ctx.tokens, 0, []⟩) :=
  ⟨_, _, @Parser.reads_program c.law c.ctx.tokens.length c.ctx.tokens.length [] (by simp)
    ⟨c.full.tokens, 0, []⟩ ⟨c.ctx.tokens, 0, []⟩ ⟨rfl, rfl, .nil⟩ (by simp) (by simp)⟩

theorem SameError.sameUpTo {e e' : ParseError} (h : c.SameError e e') :
    e.SameUpTo c.ctx.tokens e' :=
  h.imp_right fun ends => ⟨ends.1, ends.2.2⟩

end InputEnd

/-- The end of input is optional. The tokens of a text are read the same way without it, whether or
not parsing goes on after errors: the program is the same, with its numbers and spans, and there are
as many errors with the same causes. Only errors behind all tokens may have other places. -/
theorem program_without_end (d : Dialect) (text : String) :
    let full := (tokensAndErrors text).1
    (full.getLast?.map Token.kind = some .eof ∧ ∀ ts, tokens text = .ok ts → ts = full) ∧
    (∀ p, (ParserRun.start full d).program.1 = .ok p ↔
      (ParserRun.start full.dropLast d).program.1 = .ok p) ∧
    (∀ e, (ParserRun.start full d).program.1 = .error e →
      ∃ e', (ParserRun.start full.dropLast d).program.1 = .error e' ∧ e.SameUpTo full.dropLast e') ∧
    (ParserRun.start full d).recoveredProgram.1 =
      (ParserRun.start full.dropLast d).recoveredProgram.1 ∧
    List.Forall₂ (ParseError.SameUpTo full.dropLast) (ParserRun.start full d).recoveredProgram.2.1
      (ParserRun.start full.dropLast d).recoveredProgram.2.1 := by
  obtain ⟨ts, eof, split, kind, behind⟩ := tokens_split text
  have lexed (l : List Token) (h : tokens text = .ok l) : l = ts ++ [eof] := by
    rw [← split, tokens_eq_ok.mp h]
  let c (recovering : Bool) : InputEnd :=
    ⟨⟨ts, d, recovering⟩, some eof, by simpa using kind, by simpa using behind⟩
  obtain ⟨_, _, plain⟩ := (c false).same_program
  obtain ⟨_, _, recovered⟩ := (c true).same_program
  have errors {es es' : List ParseError} (h : List.Forall₂ (c true).SameError es es') :
      List.Forall₂ (ParseError.SameUpTo ts) es es' :=
    h.imp fun _ _ same => same.sameUpTo
  dsimp only
  rw [split, List.dropLast_concat]
  refine ⟨⟨by simp [kind], lexed⟩, ?_⟩
  rw [program_start, program_start, recoveredProgram_start, recoveredProgram_start]
  change (c false).Same _ _ _ (runAt Parser.program ⟨ts ++ [eof], d, false⟩ ⟨ts ++ [eof], 0, []⟩)
    (runAt Parser.program ⟨ts, d, false⟩ ⟨ts, 0, []⟩) at plain
  change (c true).Same _ _ _ (runAt Parser.program ⟨ts ++ [eof], d, true⟩ ⟨ts ++ [eof], 0, []⟩)
    (runAt Parser.program ⟨ts, d, true⟩ ⟨ts, 0, []⟩) at recovered
  generalize runAt Parser.program ⟨ts ++ [eof], d, false⟩ _ = full,
    runAt Parser.program ⟨ts, d, false⟩ _ = cut at plain ⊢
  generalize runAt Parser.program ⟨ts ++ [eof], d, true⟩ _ = full',
    runAt Parser.program ⟨ts, d, true⟩ _ = cut' at recovered ⊢
  refine ⟨fun p => ?_, fun e failed => ?_, ?_⟩
  · cases plain <;> simp
  · cases plain with
    | ok => cases failed
    | error same =>
      cases failed
      exact ⟨_, rfl, same.sameUpTo⟩
  · cases recovered with
    | ok states => exact ⟨rfl, errors states.errors⟩
    | error same states =>
      exact ⟨rfl, List.rel_append (errors states.errors) (.cons same.sameUpTo .nil)⟩

end ArkLang
