import ArkLang.Text.Span
import ArkLang.Tree.Operator
import ArkLang.Type.Builtin

/-!
# What a unit can do wrong

The causes of semantic errors, each with the facts its message speaks of.
-/

namespace ArkLang

/-- The kinds of semantic errors. -/
inductive SemanticKind where
  | undefinedSymbol | redeclaration | immutableAssignment | typeMismatch | returnTypeConflict
  | controlOutsideLoop | returnOutsideProc | unknownProperty | arraySizeMismatch
  | constantIndexOutOfRange | circularImport
  deriving DecidableEq, Repr, Inhabited

/-- The name of a class in reports. -/
def SemanticKind.name : SemanticKind → String
  | undefinedSymbol => "UndefinedSymbol"
  | redeclaration => "Redeclaration"
  | immutableAssignment => "ImmutableAssignment"
  | typeMismatch => "TypeMismatch"
  | returnTypeConflict => "ReturnTypeConflict"
  | controlOutsideLoop => "ControlOutsideLoop"
  | returnOutsideProc => "ReturnOutsideProc"
  | unknownProperty => "UnknownProperty"
  | arraySizeMismatch => "ArraySizeMismatch"
  | constantIndexOutOfRange => "ConstantIndexOutOfRange"
  | circularImport => "CircularImport"

/-- Why a place cannot be written to. -/
inductive Fixed where
  | captured (name : String)
  | param (name : String)
  | loopVar (name : String)
  | nestedProc (name : String)
  | var (name : String)
  /-- A name that is no variable. -/
  | otherName (name : String)
  | selfProperty (name : String)
  | namespaceConstant (name : String)
  /-- `.name` that is neither a property nor a constant. -/
  | selfName (name : String)
  | property (name : String)
  | imported (name : String)
  deriving DecidableEq, Repr, Inhabited

/-- The reason in words. -/
def Fixed.message : Fixed → String
  | captured name => s!"`{name}` is captured by value and cannot be modified"
  | param name => s!"parameter `{name}` is immutable"
  | loopVar name => s!"loop variable `{name}` is immutable"
  | nestedProc name => s!"procedure `{name}` cannot be modified"
  | var name => s!"`{name}` is immutable"
  | otherName name => s!"`{name}` cannot be modified"
  | selfProperty name => s!"property `.{name}` is immutable"
  | namespaceConstant name => s!"namespace constant `.{name}` is immutable"
  | selfName name => s!"`.{name}` cannot be modified"
  | property name => s!"property `{name}` is immutable"
  | imported name => s!"imported `{name}` is immutable"

/-- The statements that leave a turn of a loop. -/
inductive Jump where
  | breakLoop | skipTurn
  deriving DecidableEq, Repr, Inhabited

def Jump.text : Jump → String
  | breakLoop => "break"
  | skipTurn => "skip"

/-- The greatest number of elements of an array. -/
def maxArraySize : Nat := 65536

/-- The causes of semantic errors. -/
inductive SemanticFault where
  -- declarations
  | moduleNotFound (path : String)
  | circularImport (path : String)
  | declaredInModule (name : String)
  | declaredInScope (name : String)
  | memberTwice (member artifact : String)
  | paramTwice (name : String)
  | holdsNothing (name : String)
  | defaultOfNothing (name : String)
  | listProperty (record prop : String)
  | containsItself (record prop : String)
  -- types as written
  | voidValue
  | unknownType (name : String)
  | unknownModule (name : String)
  | noTypeInModule (module name : String)
  | namespaceAsType (name : String)
  | arraysOfLists
  | arraySizeZero
  | arraySizeLimit (size : Nat)
  -- statements
  | conditionType (found : Ty)
  | rangeEndType (found : Ty)
  | jumpOutsideLoop (jump : Jump)
  | returnOutsideProc
  | returnsValue (proc : String) (declared : Bool)
  | returnsDiffer (proc : String) (found earlier : Ty)
  | returnsCallOfNothing
  | returnsNothing (proc : String) (ret : Ty) (declared : Bool)
  -- values and slots
  | expected (want found : Ty)
  | expectedSize (want found : Ty)
  | assignsTemporary
  | assignsFixed (reason : Fixed)
  -- names
  | undefinedName (name : String)
  | typeAsValue (name : String)
  | moduleAsValue (name : String)
  | builtinAsValue (name : String)
  | usedBeforeDeclaration (name : String)
  | dependsOnItself (name : String)
  | capturesList (proc list : String)
  | recursiveReturn (proc : String)
  -- members
  | selfOutsideArtifact (name : String)
  | selfMethodNotCalled (name : String)
  | methodNotCalled (method artifact : String)
  | noProperty (owner name : String)
  | noProperties (type : Ty)
  | noNamespaceMember (artifact name : String)
  | noModuleMember (module : ModuleId) (name : String)
  | noEnumCase (artifact name : String)
  | recordMember (artifact : String)
  -- operators and literals
  | unaryOperand (op : UnaryOp) (found : Ty)
  | postOperand (op : PostOp) (found : Ty)
  | binaryOperands (op : BinOp) (left right : Ty)
  | indexType (found : Ty)
  | indexOutside (index : Int) (elem : Ty) (size : Nat)
  | indexBelowOne (index : Int)
  | notIndexable (found : Ty)
  | elementCount (want found : Nat)
  | emptyArray
  | elementSizes (first other : Ty)
  | elementTypes (first other : Ty)
  | elementsOfNothing
  -- calls
  | undefinedProc (name : String)
  | moduleCalled (name : String)
  | notCallable (found : Ty)
  | argumentCount (name : String) (least most found : Nat)
  | valueArgumentCount (want found : Nat)
  | propertyCount (record : String) (props found : Nat)
  | enumConstructed (artifact : String)
  | namespaceConstructed (artifact : String)
  | builtinTakesRecord (name : Builtin) (record : String)
  | builtinTakes (name : Builtin) (found : List Ty)
  | listTemporary (method : String)
  | listFixed (method : String) (reason : Fixed)
  | mutatesFixed (method : String) (reason : Fixed)
  deriving Repr, Inhabited

namespace SemanticFault

/-- A number of arguments in words. -/
def arguments (n : Nat) : String :=
  if n = 1 then "1 argument" else s!"{n} arguments"

/-- A number of properties in words. -/
def properties (n : Nat) : String :=
  if n = 1 then "1 property" else s!"{n} properties"

def kind : SemanticFault → SemanticKind
  | moduleNotFound _ | unknownType _ | unknownModule _ | noTypeInModule _ _ | undefinedName _
  | usedBeforeDeclaration _ | noModuleMember _ _ | undefinedProc _ => .undefinedSymbol
  | declaredInModule _ | declaredInScope _ | memberTwice _ _ | paramTwice _ => .redeclaration
  | circularImport _ => .circularImport
  | assignsFixed _ | listFixed _ _ | mutatesFixed _ _ => .immutableAssignment
  | returnsDiffer _ _ _ => .returnTypeConflict
  | returnsValue _ declared | returnsNothing _ _ declared =>
    if declared then .typeMismatch else .returnTypeConflict
  | jumpOutsideLoop _ => .controlOutsideLoop
  | returnOutsideProc => .returnOutsideProc
  | selfOutsideArtifact _ | noProperty _ _ | noProperties _ | noNamespaceMember _ _
  | noEnumCase _ _ => .unknownProperty
  | arraySizeZero | arraySizeLimit _ | expectedSize _ _ | elementCount _ _ | elementSizes _ _ =>
    .arraySizeMismatch
  | indexOutside _ _ _ | indexBelowOne _ => .constantIndexOutOfRange
  | _ => .typeMismatch

def message : SemanticFault → String
  | moduleNotFound path => s!"module `{path}` not found"
  | circularImport path => s!"circular import of module `{path}`"
  | declaredInModule name => s!"`{name}` is already declared in this module"
  | declaredInScope name => s!"`{name}` is already declared in this scope"
  | memberTwice member artifact => s!"`{member}` is declared twice in `{artifact}`"
  | paramTwice name => s!"parameter `{name}` is declared twice"
  | holdsNothing name => s!"`{name}` cannot hold the result of a procedure that returns nothing"
  | defaultOfNothing name => s!"default for `{name}` produces no value"
  | listProperty record prop => s!"record `{record}` cannot hold list property `{prop}`"
  | containsItself record prop => s!"record `{record}` contains itself through `{prop}`"
  | voidValue => "`void` is only valid as a return type"
  | unknownType name => s!"unknown type `{name}`"
  | unknownModule name => s!"unknown module `{name}`"
  | noTypeInModule module name => s!"module `{module}` has no type `{name}`"
  | namespaceAsType name => s!"namespace `{name}` is not a type"
  | arraysOfLists => "arrays cannot hold lists"
  | arraySizeZero => "array size must be at least 1"
  | arraySizeLimit size => s!"array size {size} exceeds the limit of {maxArraySize}"
  | conditionType found => s!"condition must be `bool`, found `{found.text}`"
  | rangeEndType found => s!"range end must be an int or an array or list, found `{found.text}`"
  | jumpOutsideLoop jump => s!"`{jump.text}` outside of a loop"
  | returnOutsideProc => "`return` outside of a procedure"
  | returnsValue proc _ => s!"`{proc}` returns a value here but returns nothing elsewhere"
  | returnsDiffer proc found earlier =>
    s!"`{proc}` returns `{found.text}` here but `{earlier.text}` earlier"
  | returnsCallOfNothing => "cannot return the result of a procedure that returns nothing"
  | returnsNothing proc ret _ =>
    s!"`return` without a value in `{proc}`, which returns `{ret.text}`"
  | expected want found | expectedSize want found =>
    s!"expected `{want.text}`, found `{found.text}`"
  | assignsTemporary => "cannot assign to a temporary value"
  | assignsFixed reason => reason.message
  | undefinedName name => s!"undefined name `{name}`"
  | typeAsValue name => s!"`{name}` is a type, not a value"
  | moduleAsValue name => s!"module `{name}` is not a value"
  | builtinAsValue name => s!"builtin `{name}` can only be called"
  | usedBeforeDeclaration name => s!"`{name}` is used before its declaration"
  | dependsOnItself name => s!"the type of `{name}` depends on itself"
  | capturesList proc list =>
    s!"procedure `{proc}` cannot capture list `{list}`; pass it as an argument"
  | recursiveReturn proc =>
    s!"cannot infer the return type of `{proc}` from a recursive call before its first `return`"
  | selfOutsideArtifact name => s!"`.{name}` can only be used inside an artifact"
  | selfMethodNotCalled name => s!"method `.{name}` must be called"
  | methodNotCalled method artifact => s!"method `{method}` of `{artifact}` must be called"
  | noProperty owner name => s!"`{owner}` has no property `{name}`"
  | noProperties type => s!"`{type.text}` values have no properties"
  | noNamespaceMember artifact name => s!"namespace `{artifact}` has no member `{name}`"
  | noModuleMember module name => s!"module `{module.name}` has no member `{name}`"
  | noEnumCase artifact name => s!"enum `{artifact}` has no case `{name}`"
  | recordMember artifact =>
    s!"record `{artifact}` has no static members; construct a value first"
  | unaryOperand op found => s!"unary `{op.text}` cannot be applied to `{found.text}`"
  | postOperand op found => s!"`{op.text}` needs an `int`, found `{found.text}`"
  | binaryOperands op left right =>
    s!"`{op.text}` cannot be applied to `{left.text}` and `{right.text}`"
  | indexType found => s!"index must be an `int`, found `{found.text}`"
  | indexOutside index elem size =>
    s!"index {index} is out of range for `[{elem.text}; {size}]`; indices run from 1 to {size}"
  | indexBelowOne index => s!"index {index} is out of range; indices start at 1"
  | notIndexable found => s!"`{found.text}` cannot be indexed"
  | elementCount want found => s!"expected {want} elements, found {found}"
  | emptyArray => "cannot infer the element type of an empty array literal; declare its type"
  | elementSizes first other =>
    s!"array elements must share one size, found `{first.text}` and `{other.text}`"
  | elementTypes first other =>
    s!"array elements must share one type, found `{first.text}` and `{other.text}`"
  | elementsOfNothing => "array elements must be values"
  | undefinedProc name => s!"undefined procedure `{name}`"
  | moduleCalled name => s!"module `{name}` is not callable"
  | notCallable found => s!"`{found.text}` is not callable"
  | argumentCount name least most found =>
    let want := if least = most then arguments most else s!"{least} to {most} arguments"
    s!"`{name}` expects {want}, found {found}"
  | valueArgumentCount want found =>
    s!"procedure value expects {arguments want}, found {found}"
  | propertyCount record props found =>
    s!"`{record}` has {properties props}, found {found} arguments"
  | enumConstructed artifact => s!"enum `{artifact}` cannot be constructed; use one of its cases"
  | namespaceConstructed artifact => s!"namespace `{artifact}` cannot be constructed"
  | builtinTakesRecord name record => s!"`{name.name}` cannot take record `{record}`"
  | builtinTakes name found =>
    let types := ", ".intercalate (found.map fun t => s!"`{t.text}`")
    s!"`{name.name}` takes {name.accepts}, found {types}"
  | listTemporary method => s!"`{method}` needs a list variable, not a temporary value"
  | listFixed method reason => s!"cannot `{method}`: {reason.message}"
  | mutatesFixed method reason => s!"cannot call mutating method `{method}` here: {reason.message}"

end SemanticFault

/-- A cause and the place it is reported at. -/
structure SemanticError where
  fault : SemanticFault
  span : Span
  deriving Repr, Inhabited

end ArkLang
