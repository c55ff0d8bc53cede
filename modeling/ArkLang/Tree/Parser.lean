import ArkLang.Token.Lexer
import ArkLang.Tree.Parser.Stmt

/-!
# From text to trees

Parsing starts from the tokens of a text. A plain parse stops at the first error; a parse with
recovery goes on after errors and gives what it could read together with all errors. A parser can be
run several times over the same tokens, each run going on where the last one stopped.
-/

namespace ArkLang

/-- A parser over some tokens, with what it has not read yet. -/
structure ParserRun where
  tokens : List Token
  dialect : Dialect
  rest : List Token
  nextId : NodeId

namespace ParserRun

/-- A parser at the first of some tokens. -/
def start (tokens : List Token) (dialect : Dialect) : ParserRun :=
  ⟨tokens, dialect, tokens, 0⟩

/-- Runs a parser from where the last run stopped. -/
def step {α : Type} (run : ParserRun) (recovering : Bool) (p : Parser α) :
    Except ParseError α × List ParseError × ParserRun :=
  let (outcome, state) :=
    (p.run ⟨run.tokens, run.dialect, recovering⟩).run.run ⟨run.rest, run.nextId, []⟩
  (outcome, state.errors, { run with rest := state.rest, nextId := state.nextId })

def expr (run : ParserRun) : Except ParseError Expr × ParserRun :=
  let (outcome, _, run) := run.step false Parser.expr
  (outcome, run)

/-- Reads an expression up to the end of input. -/
def wholeExpr (run : ParserRun) : Except ParseError Expr × ParserRun :=
  let (outcome, _, run) := run.step false Parser.wholeExpr
  (outcome, run)

/-- Reads a program, up to its first error. -/
def program (run : ParserRun) : Except ParseError Program × ParserRun :=
  let (outcome, _, run) := run.step false Parser.program
  (outcome, run)

/-- Reads a program and goes on after errors. -/
def recoveredProgram (run : ParserRun) : Program × List ParseError × ParserRun :=
  match run.step true Parser.program with
  | (.ok program, errors, run) => (program, errors, run)
  | (.error error, errors, run) => (⟨[]⟩, errors ++ [error], run)

end ParserRun

/-- Why a text is not a program. -/
inductive ReadError where
  | lex (error : LexError)
  | parse (error : ParseError)
  deriving DecidableEq, Repr

def readTokens (text : String) : Except ReadError (List Token) :=
  (tokens text).mapError .lex

def parseProgram (dialect : Dialect) (text : String) : Except ReadError Program := do
  let tokens ← readTokens text
  (ParserRun.start tokens dialect).program.1.mapError .parse

def parseExpr (text : String) : Except ReadError Expr := do
  let tokens ← readTokens text
  (ParserRun.start tokens .inferred).wholeExpr.1.mapError .parse

/-- A program as far as it could be read, and all errors found on the way. -/
structure Recovered where
  program : Program
  lexErrors : List LexError
  parseErrors : List ParseError

/-- Whether nothing was wrong. -/
def Recovered.isClean (r : Recovered) : Bool :=
  r.lexErrors.isEmpty && r.parseErrors.isEmpty

/-- Reads a text as a program and goes on after errors: faulty lexemes are left out, and a statement
that fails is skipped. -/
def recoverProgram (dialect : Dialect) (text : String) : Recovered :=
  let (tokens, lexErrors) := tokensAndErrors text
  let (program, parseErrors, _) := (ParserRun.start tokens dialect).recoveredProgram
  ⟨program, lexErrors, parseErrors⟩

end ArkLang
