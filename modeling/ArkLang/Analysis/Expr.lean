import ArkLang.Analysis.Call

/-!
# Checking expressions

Every expression that passes gets a type, recorded under its node. What the context expects of an
expression only steers array literals: it tells arrays from lists and gives the elements their type.
-/

namespace ArkLang

namespace Check

variable (need : Item → Check Unit)

def literalType (node : Node) (items : List Expr) (args : Arguments) (expected : Option Ty) :
    Check Ty := do
  match expected with
  | some (.list elem) =>
    args.expect (items.map fun _ => elem)
    return .list elem
  | some (.array elem size) =>
    if items.length ≠ size then
      fail (.elementCount size items.length) node.span
    args.expect (items.map fun _ => elem)
    return .array elem size
  | _ =>
    let types ← args.types
    let elem ← elementType node ((items.map Expr.node).zip types)
    return .array elem items.length

/-- The type of an operator behind its operand, which it changes. -/
def postOpType (c : Context) (node : Node) (op : PostOp) (operand : Expr) (type : Ty) :
    Check Ty := do
  if type ≠ .int && !type.isUnknown then
    fail (.postOperand op type) node.span
  assign c operand
  return .int

/-- The type of `base.name`. `baseType` types the base as an expression. -/
def memberType (c : Context) (node : Node) (base : Expr) (name : Ident) (baseType : Check Ty) :
    Check Ty := do
  match ← staticPath c base with
  | some path => staticMember need c node path name
  | none => valueMember need node (← baseType) name

mutual

def exprType (c : Context) (e : Expr) (expected : Option Ty) : Check Ty := do
  let type ← match e with
    | .int _ _ => pure .int
    | .float _ _ => pure .float
    | .str _ _ => pure .string
    | .bool _ _ => pure .bool
    | .ident node name => identType need c node name
    | .selfProp node name => selfPropType need c node name
    | .array node items =>
      literalType node items ⟨items.length, exprTypes c items, fun want => expectTypes c items want⟩
        expected
    | .unary node op operand => do
      unaryType node op (← exprType c operand none)
    | .binary node left op right => do
      let l ← exprType c left none
      let r ← exprType c right none
      binaryType node left.id right.id op l r
    | .postOp node op operand => do
      postOpType c node op operand (← exprType c operand none)
    | .call node callee args =>
      let arguments : Arguments :=
        ⟨args.length, exprTypes c args, fun want => expectTypes c args want⟩
      let value : Check Ty := exprType c callee none
      match callee with
      | .ident calleeNode name => nameCall need c node calleeNode name value arguments
      | .selfProp calleeNode name => selfCall need c node calleeNode name value arguments
      | .member calleeNode base name =>
        memberCall need c node calleeNode base name (exprType c base none) arguments
      | _ => do
        applyValue node (← value) arguments
    | .index _ base place => do
      let baseType ← exprType c base none
      let placeType ← exprType c place none
      indexType base place baseType placeType
    | .member node base name => memberType need c node base name (exprType c base none)
  setType e.id type
  return type
termination_by structural e

def exprTypes (c : Context) : List Expr → Check (List Ty)
  | [] => return []
  | e :: es => do
    let type ← exprType c e none
    return type :: (← exprTypes c es)
termination_by structural es => es

/-- Checks expressions in order against the types of as many slots. -/
def expectTypes (c : Context) : List Expr → List Ty → Check Unit
  | e :: es, want :: wants => do
    coerce e.node (← exprType c e (some want)) want
    expectTypes c es wants
  | _, _ => return ()
termination_by structural es => es

end

variable {need} in
/-- A call whose callee is no name is a call of a value. -/
theorem exprType_call {c : Context} {node : Node} {callee : Expr} {args : List Expr}
    {expected : Option Ty} (ident : ∀ n name, callee ≠ .ident n name)
    (selfProp : ∀ n name, callee ≠ .selfProp n name)
    (member : ∀ n base name, callee ≠ .member n base name) :
    exprType need c (.call node callee args) expected = (do
      let value ← exprType need c callee none
      let type ← applyValue node value
        ⟨args.length, exprTypes need c args, fun want => expectTypes need c args want⟩
      setType node.id type
      return type) := by
  rw [exprType]
  · rfl
  · exact ident
  · exact selfProp
  · exact member

/-- Checks an expression in a slot of a given type. -/
def expectType (c : Context) (e : Expr) (want : Ty) : Check Unit := do
  coerce e.node (← exprType need c e (some want)) want

end Check

end ArkLang
