import ArkLang.Type.Basic

/-!
# Builtin procedures

The procedures that every unit can call without importing anything. A builtin has no signature of
its own: its result depends on the types of the arguments.
-/

namespace ArkLang

/-- The builtin procedures. -/
inductive Builtin where
  | print | int | float | str | bool | sqrt | abs | pow | len | input
  deriving DecidableEq, Repr, Inhabited

namespace Builtin

def all : List Builtin :=
  [print, int, float, str, bool, sqrt, abs, pow, len, input]

/-- The name under which a builtin is called. -/
def name : Builtin → String
  | print => "print"
  | int => "int"
  | float => "float"
  | str => "str"
  | bool => "bool"
  | sqrt => "sqrt"
  | abs => "abs"
  | pow => "pow"
  | len => "len"
  | input => "input"

def ofName? (name : String) : Option Builtin :=
  all.find? (·.name == name)

/-- The least and the greatest number of arguments. -/
def arity : Builtin → Nat × Nat
  | input => (0, 1)
  | pow => (2, 2)
  | _ => (1, 1)

def accepts : Builtin → String
  | print | int | str => "a number, string, bool or enum value"
  | float => "a number or string"
  | bool => "an int, bool or string"
  | sqrt | abs => "a number"
  | pow => "two numbers"
  | len => "a string, array or list"
  | input => "an optional string prompt"

/-- Whether values of a type are printed and converted whole. Of artifacts only enumerations are;
records are told apart by the caller, which knows what an artifact is. -/
def isScalar : Ty → Bool
  | .int | .float | .string | .bool | .artifact _ => true
  | _ => false

/-- The type of a call with arguments of given types, if the builtin accepts them. -/
def result? : Builtin → List Ty → Option Ty
  | print, [t] => if isScalar t then some .void else none
  | int, [t] => if isScalar t then some .int else none
  | str, [t] => if isScalar t then some .string else none
  | float, [.int] | float, [.float] | float, [.string] => some .float
  | bool, [.int] | bool, [.bool] | bool, [.string] => some .bool
  | sqrt, [t] => if t.isNumeric then some .float else none
  | abs, [.int] => some .int
  | abs, [.float] => some .float
  | pow, [t, u] => if t.isNumeric && u.isNumeric then some .float else none
  | len, [.string] | len, [.array _ _] | len, [.list _] => some .int
  | input, [] | input, [.string] => some .string
  | _, _ => none

end Builtin

end ArkLang
