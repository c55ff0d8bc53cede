import ArkLang.Analysis.State

/-!
# Values, operators and literals

The typing rules that look at the types of the parts only. An integer may stand where a float is
wanted; the expression is then recorded as widened.
-/

namespace ArkLang

namespace Check

/-- Checks that a value fits a slot. -/
def coerce (node : Node) (found want : Ty) : Check Unit := do
  match found, want with
  | .int, .float => widen node.id
  | .array _ m, .array _ n =>
    if m ≠ n then fail (.expectedSize want found) node.span
    else if found.agrees want then return ()
    else fail (.expected want found) node.span
  | _, _ =>
    if found.agrees want then return ()
    else fail (.expected want found) node.span

def unaryType (node : Node) (op : UnaryOp) (operand : Ty) : Check Ty :=
  match op, operand with
  | _, .unknown => return .unknown
  | .neg, .int => return .int
  | .neg, .float => return .float
  | .not, .bool => return .bool
  | .bitNot, .int => return .int
  | _, _ => fail (.unaryOperand op operand) node.span

/-- The type of two numbers together; an integer beside a float is widened. -/
def numeric (left right : NodeId) : Ty → Ty → Check (Option Ty)
  | .int, .int => return some .int
  | .float, .float => return some .float
  | .int, .float => do
    widen left
    return some .float
  | .float, .int => do
    widen right
    return some .float
  | _, _ => return none

/-- Whether a value of a type can be joined to a string. -/
def isText : Ty → Bool
  | .string | .int | .float | .bool => true
  | _ => false

/-- Whether two values that are not numbers can be compared for equality: strings, booleans, and
values of one enumeration. -/
def isComparable (o : Outline) : Ty → Ty → Bool
  | .string, .string | .bool, .bool => true
  | .artifact a, .artifact b => a == b && o.artifactKind? a == some .enumeration
  | _, _ => false

/-- The type of an operator between operands of known types, if it takes them. -/
def binaryResult? (left right : NodeId) (op : BinOp) (l r : Ty) : Check (Option Ty) := do
  match op with
  | .add =>
    if l = .string || r = .string then
      return if isText l && isText r then some .string else none
    else
      numeric left right l r
  | .sub | .mul | .div | .rem => numeric left right l r
  | .shl | .shr | .bitAnd | .bitOr | .bitXor =>
    return if l = .int && r = .int then some .int else none
  | .and | .or => return if l = .bool && r = .bool then some .bool else none
  | .lt | .le | .gt | .ge =>
    let number ← numeric left right l r
    return if number.isSome || (l = .string && r = .string) then some .bool else none
  | .eq | .ne =>
    let number ← numeric left right l r
    return if number.isSome || isComparable (← read) l r then some .bool else none

/-- Whether an operator gives a boolean whatever its operands. -/
def givesBool : BinOp → Bool
  | .and | .or => true
  | op => op.isComparison

/-- The type of an operator between two operands. -/
def binaryType (node : Node) (left right : NodeId) (op : BinOp) (l r : Ty) : Check Ty := do
  if l.isUnknown || r.isUnknown then
    return if givesBool op then .bool else .unknown
  match ← binaryResult? left right op l r with
  | some type => return type
  | none => fail (.binaryOperands op l r) node.span

/-- The type of an element. Elements are counted from one; a constant place outside an array of
known size is refused. -/
def indexType (base place : Expr) (baseType placeType : Ty) : Check Ty := do
  if placeType ≠ .int && !placeType.isUnknown then
    fail (.indexType placeType) place.span
  match baseType with
  | .array elem size =>
    if let some index := place.constInt? then
      if index < 1 || (size : Int) < index then
        fail (.indexOutside index elem size) place.span
    return elem
  | .list elem =>
    if let some index := place.constInt? then
      if index < 1 then
        fail (.indexBelowOne index) place.span
    return elem
  | .unknown => return .unknown
  | _ => fail (.notIndexable baseType) base.span

/-! ### Array literals -/

/-- The type of the elements so far, joined with the type of one more. -/
def joinElement (span : Span) (elem next : Ty) : Check Ty :=
  match elem, next with
  | .unknown, _ => return next
  | _, .unknown => return elem
  | .int, .float | .float, .int => return .float
  | .array _ m, .array _ n =>
    if m ≠ n then fail (.elementSizes elem next) span
    else if elem.agrees next then return elem
    else fail (.elementTypes elem next) span
  | _, _ =>
    if elem.agrees next then return elem
    else fail (.elementTypes elem next) span

/-- The type of the elements so far, joined with the types of all others. -/
def joinElements (elem : Ty) : List (Node × Ty) → Check Ty
  | [] => return elem
  | (node, next) :: rest => do
    joinElements (← joinElement node.span elem next) rest

def widenIntegers : List (Node × Ty) → Check Unit
  | [] => return ()
  | (node, type) :: rest => do
    if type = .int then
      widen node.id
    widenIntegers rest

/-- The one type of the elements of an array literal: the first element decides, and an integer
beside a float is widened. -/
def elementType (node : Node) (items : List (Node × Ty)) : Check Ty := do
  match items with
  | [] => fail .emptyArray node.span
  | (_, first) :: rest =>
    let elem ← joinElements first rest
    if elem = .void then
      fail .elementsOfNothing node.span
    if elem.containsList then
      fail .arraysOfLists node.span
    if elem = .float then
      widenIntegers items
    return elem

end Check

end ArkLang
