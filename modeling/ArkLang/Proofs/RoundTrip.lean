import ArkLang.Proofs.PrintedText
import ArkLang.Proofs.SameStructure
import ArkLang.Proofs.StmtsReadBack

/-!
# Printed trees read back

A program that was read from a text is legible, so its own text reads as its tokens; these are read
as a program of the same structure, and programs of the same structure have the same normal form and
the same text. Expressions are read back whether or not a parser has built them.
-/

namespace ArkLang

/-! ### Expressions -/

theorem Expr.tokens_print {e : Expr} (h : e.Legible) :
    ∃ ts : List Token, tokens e.print = .ok ts ∧
      ts.map Token.mark = e.marks false ++ [(.eof, false)] := by
  have ends : e.EndsBefore [] := ApartFromNumber.ends (by simp [ApartFromNumber])
  have text : Reads false (e.print.toList ++ []) (e.marks false ++ [(.eof, false)]) :=
    e.reads h ends .nil
  rw [List.append_nil] at text
  exact text.tokens_eq

theorem parseExpr_of_gives {text : String} {ts : List Token} {e : Expr} {st : ParseState}
    (lexed : tokens text = .ok ts)
    (run : Gives Parser.wholeExpr ⟨ts, .inferred, false⟩ ⟨ts, 0, []⟩ e st) :
    parseExpr text = .ok e := by
  simp only [parseExpr, readTokens, lexed]
  change (runAt Parser.wholeExpr ⟨ts, .inferred, false⟩ ⟨ts, 0, []⟩).1.mapError ReadError.parse = _
  rw [show runAt Parser.wholeExpr _ _ = _ from run]
  rfl

/-- The text of an expression reads as an expression of the same structure, which has the same
normal form. The expression need not come from a parser, as long as its names are spelled like names
and its integers are in range. -/
theorem Expr.parse_print_faithful (e : Expr) (h : e.Legible) :
    ∃ q, parseExpr e.print = .ok q ∧ e.same q = true ∧ q.normalize = e.normalize := by
  obtain ⟨ts, lexed, marks⟩ := Expr.tokens_print h
  have read : Parses Parser.wholeExpr ⟨ts, .inferred, false⟩ (e.marks false ++ [(.eof, false)])
      fun q _ => e.same q = true :=
    (Parser.expr_recognizes e false).bind (.of_nextIs rfl rfl ⟨false, [], rfl⟩) fun q same =>
      .current rfl fun t next _ => by rw [if_pos next]; exact .pure same
  obtain ⟨q, st, run, same⟩ := read ⟨ts, 0, []⟩ marks
  exact ⟨q, parseExpr_of_gives lexed run, same, (alike_of_same e q same).normalize.symm⟩

/-- Two minus signs, a point behind a number, and a sum below a product keep their parentheses. -/
theorem Expr.parse_print_faithful_nested :
    let node : Node := ⟨7, ⟨3, 1⟩⟩
    let one : Expr := .member node (.int node 1) ⟨"x", ⟨0, 0⟩⟩
    let e : Expr := .binary node (.unary node .neg (.unary node .neg one)) .mul
      (.binary node (.str node "a\"b\n") .add (.float node .zero))
    e.Legible ∧ e.print = "-(-(1).x) * (\"a\\\"b\\n\" + 0.0)" ∧
      ∃ q, parseExpr e.print = .ok q ∧ e.same q = true ∧ q.normalize = e.normalize := by
  intro node one e
  have legible : e.Legible := by
    have small : 1 < intBound := by decide
    have name : IsName "x" := by constructor <;> decide
    exact ⟨⟨small, name⟩, trivial, trivial⟩
  exact ⟨legible, by decide +kernel, Expr.parse_print_faithful e legible⟩

/-! ### Programs -/

theorem Program.parse_print {d : Dialect} {p : Program} (h : p.Legible d) :
    ∃ q, parseProgram d p.print = .ok q ∧ p.same q = true := by
  obtain ⟨ts, lexed, marks⟩ := p.tokens_print h
  have read : Parses Parser.program ⟨ts, d, false⟩ p.marks fun q _ => p.same q = true :=
    Parser.program_recognizes h
  obtain ⟨q, st, parsed, same⟩ := read ⟨ts, 0, []⟩ marks
  exact ⟨q, parseProgram_eq_ok.mpr ⟨ts, st, lexed, parsed⟩, same⟩

/-- What a text is read as can be printed and read again: nothing is lost, and the text stays the
same from then on. -/
theorem parse_print_stable (d : Dialect) (text : String) (p : Program)
    (h : parseProgram d text = .ok p) :
    ∃ q, parseProgram d p.print = .ok q ∧ q.normalize = p.normalize ∧ q.print = p.print := by
  obtain ⟨q, parsed, same⟩ := Program.parse_print (parseProgram_builds h).1
  exact ⟨q, parsed, (Program.normalize_of_same same).symm, (Program.print_of_same same).symm⟩

/-- A procedure is read, printed and read again. -/
theorem parse_print_stable_proc :
    ∃ p, parseProgram .strict "f(x: int): int { return -x + 2 * 3 }" = .ok p ∧
    ∃ q, parseProgram .strict p.print = .ok q ∧ q.normalize = p.normalize ∧ q.print = p.print := by
  have accepted : (parseProgram .strict "f(x: int): int { return -x + 2 * 3 }").isOk = true := by
    decide +kernel
  cases parsed : parseProgram .strict "f(x: int): int { return -x + 2 * 3 }" with
  | ok p => exact ⟨p, rfl, parse_print_stable _ _ p parsed⟩
  | error e => simp [parsed, Except.isOk, Except.toBool] at accepted

end ArkLang
