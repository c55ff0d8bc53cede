import ArkLang.C.Code
import ArkLang.C.Literal
import ArkLang.C.Tree

/-!
# Printing C

Expressions are printed with all their parentheses. Only a condition loses the pair that encloses it
whole, because the statement brings its own.
-/

namespace ArkLang

namespace C

/-! ### Expressions -/

/-- Texts with commas between them. -/
def commas (texts : List String) : String :=
  ", ".intercalate texts

mutual

def Expr.text : Expr → String
  | .int value => intLiteral value
  | .float value => value.literalText
  | .string value => stringLiteral value
  | .bool value => if value then "true" else "false"
  | .null => "NULL"
  | .zero => "0"
  | .ident name => name.text
  | .unary op operand => "(" ++ op ++ operand.text ++ ")"
  | .binary left op right => "(" ++ left.text ++ " " ++ op ++ " " ++ right.text ++ ")"
  | .cast type value => "((" ++ type ++ ")" ++ value.text ++ ")"
  | .after first result => "((void)" ++ first.text ++ ", " ++ result.text ++ ")"
  | .field base name => "(" ++ base.text ++ ")." ++ name
  | .arrow pointer target => pointer.text ++ "->" ++ target.text
  | .element base index => "(" ++ base.text ++ ").v[" ++ index.text ++ "]"
  | .deref pointer => "(*" ++ pointer.text ++ ")"
  | .address place => "&(" ++ place.text ++ ")"
  | .compound type fields => "((" ++ type ++ ")" ++ braced (commas (Expr.texts fields)) ++ ")"
  | .arrayOf type items =>
    "((" ++ type ++ ")" ++ braced (braced (commas (Expr.texts items))) ++ ")"
  | .elements type items => "(" ++ type ++ "[])" ++ braced (commas (Expr.texts items))
  | .call function args => function.text ++ "(" ++ commas (Expr.texts args) ++ ")"
termination_by structural e => e

def Expr.texts : List Expr → List String
  | [] => []
  | e :: es => e.text :: Expr.texts es
termination_by structural es => es

end

/-! ### Conditions -/

/-- Where a reader of C stands: between string literals, inside one, or behind a backslash in
one. -/
inductive Within where
  | code | literal | escape
  deriving DecidableEq, Repr

/-- Whether the parenthesis that opened last at depth zero stays open until the last character. -/
def closesLast : Within → Nat → List Char → Bool
  | _, _, [] => true
  | .escape, depth, _ :: rest => closesLast .literal depth rest
  | .literal, depth, c :: rest =>
    closesLast (if c = '\\' then .escape else if c = '"' then .code else .literal) depth rest
  | .code, depth, c :: rest =>
    if c = '"' then closesLast .literal depth rest
    else if c = '(' then closesLast .code (depth + 1) rest
    else if c = ')' then
      if depth - 1 = 0 && !rest.isEmpty then false else closesLast .code (depth - 1) rest
    else closesLast .code depth rest

/-- A text without its first and its last character, if these are parentheses that belong
together. -/
def unwrapChars (text : List Char) : List Char :=
  if text.head? = some '(' && text.getLast? = some ')' && closesLast .code 0 text then
    (text.drop 1).dropLast
  else
    text

/-- A condition without the parentheses that enclose it whole. -/
def unwrap (text : String) : String :=
  String.ofList (unwrapChars text.toList)

/-! ### Statements -/

mutual

def Stmt.lines : Stmt → Lines
  | .expr value => [value.text ++ ";"]
  | .drop value => ["(void)" ++ value.text ++ ";"]
  | .use name => ["(void)" ++ name.text ++ ";"]
  | .declare isConst type name value =>
    [(if isConst then "const " else "") ++ type ++ " " ++ name.text ++ " = " ++ value.text ++ ";"]
  | .reserve type name => [type ++ " " ++ name.text ++ ";"]
  | .assign target value => [target.text ++ " = " ++ value.text ++ ";"]
  | .setField field => [Name.result.text ++ "." ++ field.text ++ " = " ++ field.text ++ ";"]
  | .release type name => [type ++ "_free(&" ++ name.text ++ ");"]
  | .openEnv type => ["struct " ++ type.text ++ " *" ++ Name.env.text ++ " = " ++
      Name.envParam.text ++ ";"]
  | .newEnv type name => ["struct " ++ type.text ++ " *" ++ name.text ++
      " = ark_rt_arena_alloc(sizeof *" ++ name.text ++ ");"]
  | .bindProc type name env function => [type ++ " " ++ name.text ++ " = " ++
      braced (env.text ++ ", " ++ function.text) ++ ";"]
  | .cond arms fallback =>
    branches (Arm.branches "if" arms ++ (match fallback with
      | some body => [("else", Stmt.linesAll body)]
      | none => []))
  | .whileLoop cond body => block ("while (" ++ unwrap cond.text ++ ")") (Stmt.linesAll body)
  | .countLoop start stop counter var first last body =>
    let declareInt (name : Name) (value : String) :=
      "const int64_t " ++ name.text ++ " = " ++ value ++ ";"
    let (s, e, i) := (start.text, stop.text, counter.text)
    opening ::
      (indent ([declareInt start first.text, declareInt stop last.text] ++
        block ("for (int64_t " ++ i ++ " = " ++ s ++ "; " ++ i ++ " <= " ++ e ++ "; " ++ i ++ "++)")
          ([declareInt var i, "(void)" ++ var.text ++ ";"] ++ Stmt.linesAll body)) ++
        [closing])
  | .block body => opening :: (indent (Stmt.linesAll body) ++ [closing])
  | .breakLoop => ["break;"]
  | .continueLoop => ["continue;"]
  | .ret none => ["return;"]
  | .ret (some value) => ["return " ++ value.text ++ ";"]
termination_by structural s => s

def Stmt.linesAll : List Stmt → Lines
  | [] => []
  | s :: rest => s.lines ++ Stmt.linesAll rest
termination_by structural ss => ss

/-- The headings and bodies of conditions; the first heading starts with a given word. -/
def Arm.branches (word : String) : List Arm → List (String × Lines)
  | [] => []
  | ⟨cond, body⟩ :: rest =>
    (word ++ " (" ++ unwrap cond.text ++ ")", Stmt.linesAll body) :: Arm.branches "else if" rest
termination_by structural arms => arms

end

/-! ### Functions -/

def Param.text (p : Param) : String :=
  p.type ++ (if p.isPointer then " *" else " ") ++ p.name.text

/-- The type of a function as text. -/
def Signature.text (s : Signature) : String :=
  let params := if s.params.isEmpty then "void" else commas (s.params.map Param.text)
  s.ret ++ " " ++ s.name.text ++ "(" ++ params ++ ")"

def Function.lines (f : Function) : Lines :=
  block f.sig.text (Stmt.linesAll f.body) ++ [""]

def Environment.line (e : Environment) : String :=
  let fields := e.fields.map fun (type, symbol) => type ++ " " ++ (Name.capture symbol).text ++ ";"
  "struct " ++ e.name.text ++ " " ++ braced (" ".intercalate fields) ++ ";"

/-- A variable of file scope as a line. -/
def Global.line (g : Global) : String :=
  match g.value with
  | some value => "const " ++ g.type ++ " " ++ g.name.text ++ " = " ++ value.text ++ ";"
  | none => g.type ++ " " ++ g.name.text ++ ";"

end C

end ArkLang
