import ArkLang.C.Printer
import ArkLang.Lowering.Type

/-!
# Definitions of types

The C definitions of the types of a program, and the functions that belong to arrays, lists and
procedure types. Lists own their elements; a list of lists owns the inner lists as well.
-/

namespace ArkLang

namespace ArtifactTable

variable (table : ArtifactTable)

/-- Lines for each of some types, one behind the other. -/
def forTypes (lines : Ty → Except LowerFault C.Lines) : List Ty → Except LowerFault C.Lines
  | [] => .ok []
  | t :: ts => do
    let first ← lines t
    return first ++ (← forTypes lines ts)

def typeNames : List Ty → Except LowerFault (List C.TypeName)
  | [] => .ok []
  | t :: ts => do
    let name ← table.typeName t
    return name :: (← typeNames ts)

/-! ### Definitions -/

/-- The declaration of a record, in front of all definitions. -/
def declaration : Ty → Except LowerFault C.Lines
  | .artifact ref =>
    let name := (C.artifactName ref).text
    .ok ["typedef struct " ++ name ++ " " ++ name ++ ";"]
  | _ => .ok []

def fieldLines : List PropInfo → Except LowerFault C.Lines
  | [] => .ok []
  | p :: rest => do
    let type ← table.typeName p.type
    return (type ++ " " ++ (C.Name.field p.name).text ++ ";") :: (← fieldLines rest)

def structLine (name : C.TypeName) (fields : String) : C.Lines :=
  ["typedef struct " ++ name ++ " " ++ C.braced fields ++ " " ++ name ++ ";", ""]

def definition (type : Ty) : Except LowerFault C.Lines := do
  let name ← table.typeName type
  match type with
  | .artifact ref =>
    let a ← table.find ref
    let fields ← table.fieldLines a.props
    return C.blockThen ("struct " ++ name) fields ";" ++ [""]
  | .array elem size =>
    return structLine name ((← table.typeName elem) ++ " v[" ++ toString size ++ "];")
  | .list elem =>
    return structLine name ((← table.typeName elem) ++ " *data; int64_t len; int64_t cap;")
  | .proc params ret =>
    let args := C.commas ("void *" :: (← table.typeNames params))
    return structLine name ("void *env; " ++ (← table.typeName ret) ++ " (*fn)(" ++ args ++ ");")
  | _ => return []

def definitions (types : List Ty) : Except LowerFault C.Lines := do
  let declarations ← forTypes declaration types
  return declarations ++ [""] ++ (← forTypes table.definition types)

/-! ### Functions -/

/-- A function that is expanded where it is called, with a blank line behind it. -/
def inlineFunction (ret name params : String) (body : C.Lines) : C.Lines :=
  C.block ("static inline " ++ ret ++ " " ++ name ++ "(" ++ params ++ ")") body ++ [""]

/-- The functions of a list type, given its name, the name of its elements, and whether these are
lists themselves. -/
def listHelpers (l t : C.TypeName) (nested : Bool) : C.Lines :=
  let own (name params : String) (body : C.Lines) := inlineFunction l (l ++ name) params body
  let act (name params : String) (body : C.Lines) := inlineFunction "void" (l ++ name) params body
  let elem (name params : String) (body : C.Lines) := inlineFunction t (l ++ name) params body
  let ifNested (line : String) : C.Lines := if nested then [line] else []
  let copy := if nested then
      "for (int64_t i = 0; i < l.len; i++) c.data[i] = " ++ t ++ "_clone(l.data[i]);"
    else
      "memcpy(c.data, l.data, (size_t)l.len * sizeof *c.data);"
  own "_empty" "void"
    [l ++ " l;", "l.data = NULL;", "l.len = 0;", "l.cap = 0;", "return l;"] ++
  act "_free" (l ++ " *l")
    (ifNested ("for (int64_t i = 0; i < l->len; i++) " ++ t ++ "_free(&l->data[i]);") ++
      ["free(l->data);", "*l = " ++ l ++ "_empty();"]) ++
  act "_drop" (l ++ " l") [l ++ "_free(&l);"] ++
  act "_assign" (l ++ " *dst, " ++ l ++ " src") [l ++ "_free(dst);", "*dst = src;"] ++
  act "_push" (l ++ " *l, " ++ t ++ " v")
    (C.block "if (l->len == l->cap)"
      ["int64_t cap = l->cap ? l->cap * 2 : 4;",
       "l->data = ark_rt_realloc(l->data, (size_t)cap * sizeof *l->data);",
       "l->cap = cap;"] ++
      ["l->data[l->len++] = v;"]) ++
  elem "_pop" (l ++ " *l")
    ["if (l->len == 0) ark_rt_fault(\"pop from an empty list\");", "return l->data[--l->len];"] ++
  inlineFunction t ("*" ++ l ++ "_at") (l ++ " *l, int64_t i")
    ["return &l->data[ark_rt_index(i, l->len)];"] ++
  own "_from" ("const " ++ t ++ " *items, int64_t n")
    ([l ++ " l = " ++ l ++ "_empty();"] ++
      C.block "if (n > 0)"
        ["l.data = ark_rt_alloc((size_t)n * sizeof *l.data);",
         "memcpy(l.data, items, (size_t)n * sizeof *l.data);",
         "l.len = n;",
         "l.cap = n;"] ++
      ["return l;"]) ++
  own "_clone" (l ++ " l")
    [l ++ " c = " ++ l ++ "_empty();",
     "if (l.len == 0) return c;",
     "c.data = ark_rt_alloc((size_t)l.len * sizeof *c.data);",
     "c.len = l.len;",
     "c.cap = l.len;",
     copy,
     "return c;"] ++
  inlineFunction "int64_t" (l ++ "_len_take") (l ++ " l")
    ["int64_t n = l.len;", l ++ "_free(&l);", "return n;"] ++
  elem "_get_take" (l ++ " l, int64_t i")
    (["int64_t at = ark_rt_index(i, l.len);", t ++ " v = l.data[at];"] ++
      ifNested ("l.data[at] = " ++ t ++ "_empty();") ++
      [l ++ "_free(&l);", "return v;"])

/-- The function of an array type, given its name. -/
def arrayHelpers (name : C.TypeName) (size : Nat) (value : C.Expr) : C.Lines :=
  inlineFunction name (name ++ "_default") "void"
    [name ++ " a;",
     "for (int64_t i = 0; i < " ++ toString size ++ "; i++) a.v[i] = " ++ value.text ++ ";",
     "return a;"]

/-- The function of a procedure type, given its name and those of its parts. -/
def procHelpers (name : C.TypeName) (params : List C.TypeName) (ret : C.TypeName)
    (returnsNothing : Bool) : C.Lines :=
  let args := (List.range params.length).map fun i => "a" ++ toString i
  let decls := params.zipWith (fun type arg => type ++ " " ++ arg) args
  let call := "p.fn(" ++ C.commas ("p.env" :: args) ++ ");"
  inlineFunction ret (name ++ "_call") (C.commas ((name ++ " p") :: decls))
    [if returnsNothing then call else "return " ++ call]

/-- The functions that belong to a type. -/
def helper (type : Ty) : Except LowerFault C.Lines := do
  match type with
  | .list elem =>
    return listHelpers (← table.typeName type) (← table.typeName elem) elem.isList
  | .array elem size =>
    let name ← table.typeName type
    let value ← table.defaultValue (← table.typeName elem) elem
    return arrayHelpers name size value
  | .proc params ret =>
    let name ← table.typeName type
    let result ← table.typeName ret
    return procHelpers name (← table.typeNames params) result (ret = .void)
  | _ => return []

/-- The functions that belong to types, in order. -/
def helpers (types : List Ty) : Except LowerFault C.Lines :=
  forTypes table.helper types

end ArtifactTable

end ArkLang
