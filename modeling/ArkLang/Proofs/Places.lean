import ArkLang.Proofs.LaidTrees
import ArkLang.Proofs.LineBreaks
import ArkLang.Proofs.ParsedTrees
import ArkLang.Proofs.Recovery

/-!
# Places in a text

The tokens of a text stand in a row, each at its position. So all nodes of the program that is read
from the text are written inside each other and one behind the other, and every error is reported at
the position where its span starts, also when faulty lexemes were left out.

## Main results

* `parseProgram_nested` — the nodes of a program in its text
* `parseError_position` — the positions of parse errors
* `pairwise_imports` — the imports of a unit stand in order
-/

namespace ArkLang

/-! ### Tokens in a text -/

/-- Tokens have the position of their first character. -/
theorem position_lexFrom (lines : LineIndex) (offset : Nat) (newline : Bool) (cs : List Char) :
    ∀ t, .ok t ∈ lexFrom lines offset newline cs → t.position = lines.position t.span.offset := by
  fun_induction lexFrom lines offset newline cs with
  | case1 offset newline => simp [Span.emptyAt]
  | case2 offset newline c cs found lexeme stop gap ih => exact ih
  | case3 offset newline c cs found lexeme stop span kind token ih =>
    intro t mem
    rcases List.mem_cons.mp mem with same | mem
    · cases same
      rfl
    · exact ih t mem
  | case4 offset newline c cs found lexeme stop span cause fault ih => simpa using ih

/-- A token as it stands in a text. -/
structure Token.Stands (text : String) (t : Token) : Prop where
  position : t.position = (LineIndex.ofText text).position t.span.offset
  inside : t.span.stop ≤ byteSize text.toList
  nonempty : t.kind ≠ .eof → 0 < t.span.length

theorem stands_of_mem_tokens {text : String} {t : Token} (mem : t ∈ (tokensAndErrors text).1) :
    t.Stands text := by
  rw [fst_tokensAndErrors, List.mem_filterMap] at mem
  obtain ⟨item, mem, isToken⟩ := mem
  obtain rfl : item = .ok t := by
    cases item <;> cases isToken
    rfl
  have position := position_lexFrom _ _ _ _ t mem
  obtain ⟨items, last, split, eof, place, stand⟩ := (cut_lex text).exists_last [] rfl rfl
  rw [split] at mem
  rcases List.mem_append.mp mem with mem | isLast
  · obtain ⟨-, nonempty, lexeme, ⟨before, behind, whole, span⟩, -⟩ := stand _ mem
    refine ⟨position, ?_, fun _ => nonempty⟩
    have size : byteSize text.toList = byteSize (before ++ lexeme ++ behind) := congrArg _ whole
    simp only [byteSize_append] at size
    rw [LexItem.span] at span
    simp only [span, Span.stop]
    omega
  · cases List.mem_singleton.mp isLast
    exact ⟨position, (congrArg Span.stop place).le, fun real => absurd eof real⟩

/-- The tokens of a text stand in a row, also when faulty lexemes between them are left out. -/
theorem inRow_tokens (text : String) : InRow (tokensAndErrors text).1 := by
  rw [InRow, fst_tokensAndErrors, List.pairwise_filterMap]
  refine (List.pairwise_map.mp (cut_lex text).pairwise).imp fun {a b} inRow t isA u isB => ?_
  cases a <;> cases isA
  cases b <;> cases isB
  exact inRow

theorem exists_eof (text : String) : ∃ t ∈ (tokensAndErrors text).1, t.kind = .eof := by
  obtain ⟨items, last, split, eof, -⟩ := (cut_lex text).exists_last [] rfl rfl
  refine ⟨last, ?_, eof⟩
  rw [fst_tokensAndErrors, split]
  simp [LexItem.token?]

/-- A parser starts with the tokens of a text and no node. -/
theorem laid_start (text : String) (d : Dialect) (recovering : Bool) :
    layout.Holds ⟨(tokensAndErrors text).1, d, recovering⟩ ⟨(tokensAndErrors text).1, 0, []⟩ [] :=
  ⟨⟨⟨inRow_tokens text, List.suffix_rfl, exists_eof text, by simp⟩,
    by simp, .nil, by simp⟩, by simp⟩

/-! ### Nodes -/

theorem laid_of_parseProgram {d : Dialect} {text : String} {p : Program}
    (h : parseProgram d text = .ok p) : ∃ ts, tokens text = .ok ts ∧
      (∀ x ∈ p.extents, x.FitsWhole ts) ∧ p.extents.Pairwise Extent.InFront := by
  obtain ⟨ts, st, lexed, run⟩ := parseProgram_eq_ok.mp h
  have start := laid_start text d false
  rw [tokens_eq_ok.mp lexed] at start
  obtain ⟨laid, -⟩ := (@Parser.reads_program layout.law).keeps.gives start run
  exact ⟨ts, lexed, laid.fits, laid.ordered⟩

/-- The nodes of a program that is read from a text: each of them starts with a token and ends with
one, it holds the nodes it is made of, and these are written one behind the other, as the statements
of the program are. -/
theorem parseProgram_nested (d : Dialect) (text : String) (p : Program)
    (h : parseProgram d text = .ok p) : ∃ ts, tokens text = .ok ts ∧
      (∀ x ∈ Extent.nodesAll p.extents, x.Fits ts) ∧ p.extents.Pairwise Extent.InFront := by
  obtain ⟨ts, lexed, fits, ordered⟩ := laid_of_parseProgram h
  refine ⟨ts, lexed, fun x mem => ?_, ordered⟩
  obtain ⟨y, memY, memX⟩ := Extent.mem_nodesAll.mp mem
  exact fits y memY x memX

theorem parseProgram_nested_parens : ∃ p,
    parseProgram .inferred "f(a: int) { |> (a + 1) * 2 == 4 { return [a, -(a)] } |> { a++ } }" =
      .ok p ∧
    ∃ ts, tokens "f(a: int) { |> (a + 1) * 2 == 4 { return [a, -(a)] } |> { a++ } }" = .ok ts ∧
      (∀ x ∈ Extent.nodesAll p.extents, x.Fits ts) ∧ p.extents.Pairwise Extent.InFront := by
  have accepted : (parseProgram .inferred
      "f(a: int) { |> (a + 1) * 2 == 4 { return [a, -(a)] } |> { a++ } }").isOk = true := by
    decide +kernel
  cases parsed : parseProgram .inferred
    "f(a: int) { |> (a + 1) * 2 == 4 { return [a, -(a)] } |> { a++ } }" with
  | error e => simp [parsed, Except.isOk, Except.toBool] at accepted
  | ok p => exact ⟨p, rfl, parseProgram_nested _ _ p parsed⟩

/-! ### Errors -/

/-- What is read from a text with recovery: its nodes stand in the text, its errors at tokens. -/
theorem laid_recoverProgram (d : Dialect) (text : String) :
    (∀ x ∈ (recoverProgram d text).program.extents, x.FitsWhole (tokensAndErrors text).1) ∧
      (recoverProgram d text).program.extents.Pairwise Extent.InFront ∧
      ∀ e ∈ (recoverProgram d text).parseErrors, AtTokens (tokensAndErrors text).1 e := by
  have leads := (@Parser.reads_program layout.law).keeps _ _ (by simp) (laid_start text d true)
  simp only [recoverProgram, recoveredProgram_start]
  rcases run : runAt Parser.program ⟨(tokensAndErrors text).1, d, true⟩
    ⟨(tokensAndErrors text).1, 0, []⟩ with ⟨e | p, st⟩
  · rw [run] at leads
    obtain ⟨atTokens, reading⟩ := leads
    refine ⟨by simp [Program.extents, Stmt.extents],
      by simp [Program.extents, Stmt.extents], fun e' mem => ?_⟩
    rcases List.mem_append.mp mem with mem | mem
    · exact reading.errors e' mem
    · rwa [List.mem_singleton.mp mem]
  · rw [run] at leads
    exact ⟨leads.1.fits, leads.1.ordered, leads.1.reading.errors⟩

/-- The error of a plain parse is one of those that recovery gives. -/
theorem mem_parseErrors {d : Dialect} {text : String} {e : ParseError}
    (h : parseProgram d text = .error (.parse e)) : e ∈ (recoverProgram d text).parseErrors := by
  rw [parseProgram, readTokens] at h
  cases lexed : tokens text with
  | error fault =>
    rw [lexed] at h
    cases h
  | ok ts =>
    rw [lexed] at h
    have h : (ParserRun.start ts d).program.1.mapError ReadError.parse = .error (.parse e) := h
    rw [recoverProgram, tokens_eq_ok.mp lexed]
    rcases recoveredProgram_cases ts d with ⟨p, plain, -⟩ | ⟨e', plain, first⟩
    · rw [plain] at h
      cases h
    · rw [plain] at h
      cases h
      exact List.mem_of_head? first

/-- A parse error has the line and column at which its span starts, and that span is in the text. -/
theorem parseError_position (d : Dialect) (text : String) (e : ParseError)
    (h : parseProgram d text = .error (.parse e) ∨ e ∈ (recoverProgram d text).parseErrors) :
    e.position = (LineIndex.ofText text).position e.span.offset ∧
      e.span.stop ≤ byteSize text.toList := by
  obtain ⟨⟨t, memT, offset, position⟩, u, memU, stop⟩ :=
    (laid_recoverProgram d text).2.2 e (h.elim mem_parseErrors id)
  have standsT := stands_of_mem_tokens memT
  have standsU := stands_of_mem_tokens memU
  rw [← position, ← offset, ← stop]
  exact ⟨standsT.position, standsU.inside⟩

theorem parseError_position_faulty :
    ∃ e ∈ (recoverProgram .inferred "x := ? 1\n(y := ?").parseErrors,
    e.position = (LineIndex.ofText "x := ? 1\n(y := ?").position e.span.offset ∧
      e.span.stop ≤ byteSize "x := ? 1\n(y := ?".toList := by
  have listed : (recoverProgram .inferred "x := ? 1\n(y := ?").parseErrors ≠ [] := by
    decide +kernel
  obtain ⟨e, mem⟩ := List.exists_mem_of_ne_nil _ listed
  exact ⟨e, mem, parseError_position _ _ e (.inr mem)⟩

/-! ### Imports -/

/-- The imports of a text stand one behind the other. -/
theorem pairwise_imports (d : Dialect) (text : String) :
    (recoverProgram d text).program.imports.Pairwise fun i j => i.span.offset < j.span.offset := by
  obtain ⟨fits, ordered, -⟩ := laid_recoverProgram d text
  rw [Program.extents, Stmt.extents_eq_map] at fits ordered
  rw [Program.imports, List.pairwise_filterMap]
  refine (List.pairwise_map.mp ordered).imp_of_mem fun {a b} memA _ before i isI j isJ => ?_
  obtain ⟨t, mem, real, starts, stops⟩ := (fits _ (List.mem_map_of_mem memA)).fits.starts
  have nonempty := (stands_of_mem_tokens mem).nonempty real
  cases a <;> cases isI
  cases b <;> cases isJ
  have before : i.span.stop ≤ j.span.offset := before
  have starts : t.span.offset = i.span.offset := starts
  have stops : t.span.offset + t.span.length ≤ i.span.stop := stops
  omega

/-- No two imports of a text have the same span. -/
theorem nodup_importSpans (d : Dialect) (text : String) :
    ((recoverProgram d text).program.imports.map Import.span).Nodup := by
  refine List.pairwise_map.mpr ((pairwise_imports d text).imp fun before same => ?_)
  rw [same] at before
  exact Nat.lt_irrefl _ before

end ArkLang
