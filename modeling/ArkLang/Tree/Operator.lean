/-!
# Operators

The operators of expressions, with their spellings and how tightly they bind. All binary operators
of one level associate to the left.
-/

namespace ArkLang

/-- Operators in front of their operand. -/
inductive UnaryOp where
  | neg | not | bitNot
  deriving DecidableEq, Repr

/-- Operators behind their operand, which they change. -/
inductive PostOp where
  | inc | dec
  deriving DecidableEq, Repr

/-- Operators between two operands. -/
inductive BinOp where
  | mul | div | rem | add | sub | shl | shr | lt | le | gt | ge | eq | ne
  | bitAnd | bitXor | bitOr | and | or
  deriving DecidableEq, Repr

/-- The spelling of an operator in front of its operand. -/
def UnaryOp.text : UnaryOp → String
  | .neg => "-"
  | .not => "!"
  | .bitNot => "~"

/-- The spelling of an operator behind its operand. -/
def PostOp.text : PostOp → String
  | .inc => "++"
  | .dec => "--"

namespace BinOp

/-- The spelling of an operator between its operands. -/
def text : BinOp → String
  | mul => "*"
  | div => "/"
  | rem => "%"
  | add => "+"
  | sub => "-"
  | shl => "<<"
  | shr => ">>"
  | lt => "<"
  | le => "<="
  | gt => ">"
  | ge => ">="
  | eq => "=="
  | ne => "!="
  | bitAnd => "&"
  | bitXor => "^"
  | bitOr => "|"
  | and => "&&"
  | or => "||"

/-- Binding strength, from one to ten; a higher one binds tighter. -/
def precedence : BinOp → Nat
  | mul | div | rem => 10
  | add | sub => 9
  | shl | shr => 8
  | lt | le | gt | ge => 7
  | eq | ne => 6
  | bitAnd => 5
  | bitXor => 4
  | bitOr => 3
  | and => 2
  | or => 1

/-- Whether an operator compares its operands. -/
def isComparison : BinOp → Bool
  | lt | le | gt | ge | eq | ne => true
  | _ => false

end BinOp

end ArkLang
