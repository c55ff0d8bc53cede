import ArkLang.Lowering.Basic

/-!
# Lowering expressions

An expression is lowered to one C expression. What names storage stays a place: a list that is taken
from a place is copied where it gets a new owner, while a temporary one is moved.
-/

namespace ArkLang

/-- Whether an expression names storage rather than making a temporary value. -/
def isPlace (u : CheckedUnit) : Expr → Bool
  | .ident node _ =>
    match u.resolutions.get? node.id with
    | some (.var _) => true
    | _ => false
  | .selfProp node _ | .member node _ _ =>
    match u.resolutions.get? node.id with
    | some (.selfField _) | some (.field _) | some (.global _ _) => true
    | _ => false
  | .index _ base _ => isPlace u base
  | _ => false

/-- A part of an expression, with how it is lowered. -/
structure Operand where
  expr : Expr
  /-- The place or value of the part, before widening. -/
  raw : Lower C.Expr

namespace Operand

/-- The value of a part where it is used: an integer may be widened. -/
def value (o : Operand) : Lower C.Expr := do
  let raw ← o.raw
  return if (← Lower.unit).widened.contains o.expr.id then .cast "double" raw else raw

/-- The value of a part for a new owner: a list in a place is copied. -/
def owned (o : Operand) : Lower C.Expr := do
  let value ← o.value
  let u ← Lower.unit
  let type := u.typeOf o.expr.id
  if type.containsList && isPlace u o.expr then
    return .call (.helper (← Lower.cType type) "clone") [value]
  else
    return value

/-- The values of parts for new owners. -/
def ownedAll : List Operand → Lower (List C.Expr)
  | [] => return []
  | o :: rest => do
    let first ← o.owned
    return first :: (← ownedAll rest)

end Operand

namespace Lower

/-! ### Names -/

/-- The procedure being lowered, if it is the one that a symbol stands for. -/
def ownProc? (a : Activation) (sym : SymbolInfo) : Option ProcId :=
  match sym.kind with
  | .nestedProc proc => if a.proc = some proc then some proc else none
  | _ => none

/-- The storage of a symbol: captured symbols are found in the environment, and a procedure in a
block finds itself under the environment it was called with. -/
def varAccess (a : Activation) (id : SymbolId) : Lower C.Expr := do
  let sym ← symbol id
  if sym.isGlobal then
    return .ident (← globalName sym.name)
  match ownProc? a sym with
  | some proc =>
    let type ← cType sym.type
    return .compound type [.ident .envParam, .ident (← procNameOf proc)]
  | none =>
    if sym.owner = a.proc then return .ident (localName sym)
    else return .arrow .env (.capture id)

def procValue (e : Expr) (ref : ProcRef) : Lower C.Expr := do
  let type ← cType (← typeOf e)
  return .compound type [.null, .ident (.viaValue (.member ref.module ref.path))]

/-- What a name or member denotes. -/
def resolution (e : Expr) : Lower Resolution := do
  require ((← unit).resolutions.get? e.id) .missingResolution

def identValue (a : Activation) (e : Expr) (name : String) : Lower C.Expr := do
  match ← resolution e with
  | .var id => varAccess a id
  | .proc ref => procValue e ref
  | .global module path => return .ident (.member module path)
  | _ => throw (.notValue name)

/-- The value of `.name`. -/
def selfPropValue (e : Expr) (name : Ident) : Lower C.Expr := do
  match ← resolution e with
  | .selfField field => return .arrow .receiver (.field field)
  | .global module path => return .ident (.member module path)
  | .proc ref => procValue e ref
  | _ => throw (.notValue ("." ++ name.value))

/-- The value of `base.name`. -/
def memberValue (e : Expr) (base : Operand) (name : Ident) : Lower C.Expr := do
  match ← resolution e with
  | .field field => return .field (← base.value) (C.Name.field field).text
  | .global module path => return .ident (.member module path)
  | .proc ref => procValue e ref
  | .enumCase ref _ => return .ident (C.memberName ref name.value)
  | _ => throw (.notValue ("." ++ name.value))

/-! ### Literals and operators -/

/-- A call of a function of the support library. -/
def support (name : String) (args : List C.Expr) : C.Expr :=
  .call (.support name) args

def arrayValue (e : Expr) (items : List Operand) : Lower C.Expr := do
  let type ← typeOf e
  let name ← cType type
  let values ← Operand.ownedAll items
  match type with
  | .array _ _ => return .arrayOf name values
  | .list elem =>
    if values.isEmpty then
      return .call (.helper name "empty") []
    else
      let elemName ← cType elem
      return .call (.helper name "from") [.elements elemName values, .int values.length]
  | _ => throw (.arrayLiteral type)

def unaryValue (op : UnaryOp) (operand : Operand) : Lower C.Expr := do
  let inner ← operand.value
  match op with
  | .neg =>
    if (← valueType operand.expr) = .float then return .unary "-" inner
    else return support "ark_rt_neg" [inner]
  | .not => return .unary "!" inner
  | .bitNot => return .unary "~" inner

/-- A scalar as a string. -/
def toText (type : Ty) (value : C.Expr) : C.Expr :=
  match type with
  | .string => value
  | .float => support "ark_rt_float_str" [value]
  | .bool => support "ark_rt_bool_str" [value]
  | _ => support "ark_rt_int_str" [value]

/-- The value of an operator between operands, given the types of the result and of the operands:
arithmetic on integers is checked, strings are joined and compared by the support library. -/
def binaryResult (op : BinOp) (result leftType rightType : Ty) (l r : C.Expr) : C.Expr :=
  let plain := C.Expr.binary l op.text r
  let float := result = .float
  match op with
  | .and | .or | .bitAnd | .bitXor | .bitOr => plain
  | .add =>
    if result = .string then
      support "ark_rt_concat" [toText leftType l, toText rightType r]
    else if float then plain
    else support "ark_rt_add" [l, r]
  | .sub => if float then plain else support "ark_rt_sub" [l, r]
  | .mul => if float then plain else support "ark_rt_mul" [l, r]
  | .div => support (if float then "ark_rt_fdiv" else "ark_rt_div") [l, r]
  | .rem => support (if float then "ark_rt_fmod" else "ark_rt_rem") [l, r]
  | .shl => support "ark_rt_shl" [l, r]
  | .shr => support "ark_rt_shr" [l, r]
  | .lt | .le | .gt | .ge | .eq | .ne =>
    if leftType = .string then .binary (support "ark_rt_str_cmp" [l, r]) op.text .zero
    else plain

def binaryValue (e : Expr) (left : Operand) (op : BinOp) (right : Operand) : Lower C.Expr := do
  let result ← typeOf e
  let leftType ← valueType left.expr
  let rightType ← valueType right.expr
  let l ← left.value
  let r ← right.value
  return binaryResult op result leftType rightType l r

def postOpValue (op : PostOp) (operand : Operand) : Lower C.Expr := do
  let place ← operand.raw
  let name := match op with
    | .inc => "ark_rt_post_inc"
    | .dec => "ark_rt_post_dec"
  return support name [.address place]

/-- The element of an array or list. An element of a temporary list is taken out of it. -/
def indexValue (base place : Operand) : Lower C.Expr := do
  let u ← unit
  let baseType := u.typeOf base.expr.id
  let index ← place.value
  match baseType with
  | .array _ size =>
    return .element (← base.value) (support "ark_rt_index" [index, .int size])
  | .list _ =>
    let list ← cType baseType
    if isPlace u base.expr then
      return .deref (.call (.helper list "at") [.address (← base.raw), index])
    else
      return .call (.helper list "get_take") [← base.value, index]
  | _ => throw (.notIndexable baseType)

/-- The length of a list. A temporary list is released. -/
def listLength (list : Operand) (type : Ty) : Lower C.Expr := do
  if isPlace (← unit) list.expr then
    return .field (← list.raw) "len"
  else
    let name ← cType type
    return .call (.helper name "len_take") [← list.value]

/-- The length of an array. A temporary array is still evaluated. -/
def arrayLength (array : Operand) (size : Nat) : Lower C.Expr := do
  if isPlace (← unit) array.expr then
    return .int size
  else
    return .after (← array.value) (.int size)

/-! ### Calls -/

/-- The value of a builtin other than `input` and `len`, given the value of its first argument. -/
def builtinValue (builtin : Builtin) (type : Ty) (v : C.Expr) (rest : List Operand) :
    Lower C.Expr := do
  match builtin, type with
  | .print, .int | .print, .artifact _ => return support "ark_print_int" [v]
  | .print, .float => return support "ark_print_float" [v]
  | .print, .string => return support "ark_print_str" [v]
  | .print, .bool => return support "ark_print_bool" [v]
  | .int, .int | .int, .artifact _ => return v
  | .int, .float => return support "ark_rt_f2i" [v]
  | .int, .string => return support "ark_int_of_str" [v]
  | .int, .bool => return .cast "int64_t" v
  | .float, .int => return .cast "double" v
  | .float, .float => return v
  | .float, .string => return support "ark_float_of_str" [v]
  | .str, _ => return toText type v
  | .bool, .int => return .binary v "!=" .zero
  | .bool, .bool => return v
  | .bool, .string => return support "ark_bool_of_str" [v]
  | .sqrt, _ => return support "ark_sqrt" [v]
  | .abs, .int => return support "ark_abs_int" [v]
  | .abs, .float => return support "ark_abs_float" [v]
  | .pow, _ =>
    match rest with
    | exponent :: _ => return support "ark_pow" [v, ← exponent.value]
    | [] => throw .powArguments
  | _, _ => throw (.builtinArgument builtin type)

def builtinCall (builtin : Builtin) (args : List Operand) : Lower C.Expr := do
  match builtin, args with
  | .input, [] => return support "ark_input" [.null]
  | .input, prompt :: _ => return support "ark_input" [← prompt.value]
  | _, [] => throw (.builtinWithoutArgument builtin)
  | .len, arg :: _ =>
    let type ← valueType arg.expr
    match type with
    | .string => return support "ark_str_len" [← arg.value]
    | .array _ size => arrayLength arg size
    | .list _ => listLength arg type
    | _ => throw (.builtinArgument .len type)
  | _, arg :: rest =>
    let type ← valueType arg.expr
    let v ← arg.value
    builtinValue builtin type v rest

/-- The name of a function for a call with a number of arguments out of all. -/
def called (name : C.Name) (supplied total : Nat) : C.Name :=
  if supplied < total then .omitting name (total - supplied) else name

/-- The receiver of a method call; a temporary one is put into an array of its own. -/
def receiverValue (ref : ArtifactRef) (receiver : Receiver) (base : Option Operand) :
    Lower C.Expr := do
  match receiver with
  | .self => return .ident .receiver
  | .value =>
    let base ← require base .noMethodReceiver
    if isPlace (← unit) base.expr then
      return .address (← base.raw)
    else
      let record ← cType (.artifact ref)
      return .elements record [← base.value]

/-- A call, given its callee and, if the callee is a member, the base of it. -/
def callValue (a : Activation) (e : Expr) (callee : Operand) (base : Option Operand)
    (args : List Operand) : Lower C.Expr := do
  match ← require ((← unit).calls.get? e.id) .missingTarget with
  | .proc ref supplied total =>
    let values ← Operand.ownedAll args
    return .call (called (.member ref.module ref.path) supplied total) values
  | .nestedProc sym proc supplied total =>
    let env ← if a.proc = some proc then pure (.ident .envParam)
      else pure (.field (← varAccess a sym) "env")
    let values ← Operand.ownedAll args
    return .call (called (← procNameOf proc) supplied total) (env :: values)
  | .method ref name supplied total _ receiver =>
    let self ← receiverValue ref receiver base
    let values ← Operand.ownedAll args
    return .call (called (C.memberName ref name) supplied total) (self :: values)
  | .constructor ref supplied total =>
    let record ← cType (.artifact ref)
    if supplied = 0 then
      return .call (.defaultRecord record) []
    let values ← Operand.ownedAll args
    return .call (called (.constructor record) supplied total) values
  | .value =>
    let type ← cType (← typeOf callee.expr)
    let value ← callee.value
    let values ← Operand.ownedAll args
    return .call (.helper type "call") (value :: values)
  | .builtin which => builtinCall which args
  | .listPush =>
    let base ← require base .noListReceiver
    let list ← cType (← typeOf base.expr)
    let place ← base.raw
    let arg ← require args.head? .pushWithoutArgument
    return .call (.helper list "push") [.address place, ← arg.owned]
  | .listPop =>
    let base ← require base .noListReceiver
    let list ← cType (← typeOf base.expr)
    return .call (.helper list "pop") [.address (← base.raw)]

/-! ### Expressions -/

mutual

/-- The place or value of an expression, before widening. -/
def expr (a : Activation) (e : Expr) : Lower C.Expr :=
  match e with
  | .int _ value => return .int value
  | .float _ value => return .float value
  | .str _ value => return .string value
  | .bool _ value => return .bool value
  | .ident _ name => identValue a e name
  | .selfProp _ name => selfPropValue e name
  | .member _ base name => memberValue e ⟨base, expr a base⟩ name
  | .array _ items => arrayValue e (operands a items)
  | .unary _ op operand =>
    match op, operand with
    | .neg, .int _ value => return .unary "-" (.int value)
    | .neg, .float _ value => return .unary "-" (.float value)
    | _, _ => unaryValue op ⟨operand, expr a operand⟩
  | .binary _ left op right => binaryValue e ⟨left, expr a left⟩ op ⟨right, expr a right⟩
  | .postOp _ op operand => postOpValue op ⟨operand, expr a operand⟩
  | .index _ base place => indexValue ⟨base, expr a base⟩ ⟨place, expr a place⟩
  | .call _ callee args =>
    let value : Operand := ⟨callee, expr a callee⟩
    let base : Option Operand := match callee with
      | .member _ base _ => some ⟨base, expr a base⟩
      | _ => none
    callValue a e value base (operands a args)
termination_by structural e

/-- Expressions as parts of another one. -/
def operands (a : Activation) : List Expr → List Operand
  | [] => []
  | e :: es => ⟨e, expr a e⟩ :: operands a es
termination_by structural es => es

end

/-- An expression as a part of a statement. -/
def operand (a : Activation) (e : Expr) : Operand :=
  ⟨e, expr a e⟩

def value (a : Activation) (e : Expr) : Lower C.Expr :=
  (operand a e).value

def ownedValue (a : Activation) (e : Expr) : Lower C.Expr :=
  (operand a e).owned

end Lower

end ArkLang
