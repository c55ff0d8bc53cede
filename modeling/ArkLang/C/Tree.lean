import ArkLang.C.Name
import ArkLang.Number.Binary64

/-!
# C programs

The C that programs are lowered to: the forms of expressions and statements that the lowering
writes, and the sections of a program.
-/

namespace ArkLang

namespace C

/-- A type as it is spelled in C. -/
abbrev TypeName := String

/-- Expressions. -/
inductive Expr where
  | int (value : Int)
  | float (value : Binary64)
  | string (value : String)
  | bool (value : Bool)
  /-- The null pointer. -/
  | null
  /-- The number that comparisons compare with. -/
  | zero
  | ident (name : Name)
  /-- `-x`, `!x`, `~x` -/
  | unary (op : String) (operand : Expr)
  | binary (left : Expr) (op : String) (right : Expr)
  /-- A value converted to a type. -/
  | cast (type : TypeName) (value : Expr)
  /-- Evaluates a value, and gives another one. -/
  | after (first result : Expr)
  /-- A field of a structure. -/
  | field (base : Expr) (name : String)
  /-- A field behind a pointer. -/
  | arrow (pointer target : Name)
  /-- An element of an array. -/
  | element (base index : Expr)
  | deref (pointer : Expr)
  | address (place : Expr)
  /-- A structure of given fields. -/
  | compound (type : TypeName) (fields : List Expr)
  /-- An array of given elements, as a structure. -/
  | arrayOf (type : TypeName) (items : List Expr)
  /-- The elements of an array of their own. -/
  | elements (type : TypeName) (items : List Expr)
  | call (function : Name) (args : List Expr)
  deriving Repr, Inhabited

mutual

/-- Statements. -/
inductive Stmt where
  | expr (value : Expr)
  /-- Evaluates a value and drops it. -/
  | drop (value : Expr)
  /-- Marks a name as used. -/
  | use (name : Name)
  | declare (isConst : Bool) (type : TypeName) (name : Name) (value : Expr)
  /-- Declares a variable without a value. -/
  | reserve (type : TypeName) (name : Name)
  | assign (target value : Expr)
  /-- Sets a field of the record that a constructor fills. -/
  | setField (field : Name)
  /-- Releases a list. -/
  | release (type : TypeName) (name : Name)
  /-- Gives the environment of a procedure its own type. -/
  | openEnv (type : Name)
  /-- Makes an environment. -/
  | newEnv (type name : Name)
  /-- Declares a procedure as a value. -/
  | bindProc (type : TypeName) (name : Name) (env : Expr) (function : Name)
  /-- Conditions with what they guard, tried in order. -/
  | cond (arms : List Arm) (fallback : Option (List Stmt))
  | whileLoop (cond : Expr) (body : List Stmt)
  /-- Counts from one number up to another one, both included. -/
  | countLoop (start stop counter var : Name) (first last : Expr) (body : List Stmt)
  | block (body : List Stmt)
  | breakLoop
  | continueLoop
  | ret (value : Option Expr)

/-- A body under a condition. -/
structure Arm where
  cond : Expr
  body : List Stmt

end

instance : Inhabited Stmt := ⟨.breakLoop⟩

/-- A parameter, possibly a pointer. -/
structure Param where
  type : TypeName
  isPointer : Bool := false
  name : Name
  deriving DecidableEq, Repr, Inhabited

/-- The type of a function. -/
structure Signature where
  ret : TypeName
  name : Name
  params : List Param
  deriving DecidableEq, Repr, Inhabited

/-- A function. -/
structure Function where
  sig : Signature
  body : List Stmt
  deriving Inhabited

/-- The environment of a procedure: the symbols it captures, with their types. -/
structure Environment where
  name : Name
  fields : List (TypeName × SymbolId)
  deriving DecidableEq, Repr, Inhabited

/-- A variable of file scope. One with a value is constant. -/
structure Global where
  type : TypeName
  name : Name
  value : Option Expr
  deriving Repr, Inhabited

/-- What the units of a program contribute to its C file, in order. -/
structure Sections where
  environments : Array Environment := #[]
  enumCases : Array (Name × Int) := #[]
  prototypes : Array Signature := #[]
  globals : Array Global := #[]
  functions : Array Function := #[]
  /-- The modules, in the order of initialization. -/
  modules : Array ModuleId := #[]
  deriving Inhabited

end C

end ArkLang
