import ArkLang.Analysis.Stmt

/-!
# Checking on demand

The items of a unit are checked in the order of its statements, and earlier where another item needs
them. Every check that is running has begun an item that no other running check began, so that
checks nest at most as deep as there are items.
-/

namespace ArkLang

namespace Outline

/-- The number of items that module-level declarations have. -/
def itemCount (o : Outline) : Nat :=
  o.globals.size + 2 * o.procs.size + o.artifacts.length

end Outline

namespace Check

variable (need : Item → Check Unit)

/-- Checks the declaration of a variable of the module. -/
def globalType (id : SymbolId) (global : LocalGlobal) : Check Unit := do
  let c : Context := { position := some global.position }
  let type ← orNote (declType need c global.decl global.declared) .unknown
  setSymbolType id type

/-- Adds a property to those known of an artifact. -/
def addProp (artifact : String) (prop : PropInfo) : Check Unit :=
  modify fun s =>
    { s with props := s.props.insert artifact ((s.props.get? artifact).getD [] ++ [prop]) }

/-- Types properties in order. A constant of a namespace sees those before it. -/
def propTypes (c : Context) (a : LocalArtifact) : List VarDecl → Check Unit
  | [] => return ()
  | decl :: rest => do
    let type ← orNote (declType need c decl none) .unknown
    if a.kind = .record && type.containsList then
      note ⟨.listProperty a.name decl.name.value, decl.name.span⟩
    addProp a.name ⟨decl.name.value, type, decl.mutable⟩
    propTypes c a rest

/-- Types the properties of an artifact. Constants of a namespace belong to module-level code, while
defaults of a record are evaluated later. -/
def artifactPropTypes (a : LocalArtifact) : Check Unit := do
  let ref : ArtifactRef := ⟨(← read).module, a.name⟩
  let c : Context := match a.kind with
    | .namespaced => { self := some (.namespaced ref), position := some a.position }
    | _ => {}
  propTypes need c a a.decl.props

/-- Checks an item that was not begun before, given how to check those it needs. -/
def item : Item → Check Unit
  | .global id => do
    let some global := (← read).globals[id]? | return ()
    once (.global id) (globalType need id global)
  | .signature id => do
    let some proc := (← read).procs[id]? | return ()
    once (.signature id) (signature need id proc.decl)
  | .body id => do
    let some proc := (← read).procs[id]? | return ()
    once (.signature id) (signature need id proc.decl)
    once (.body id) (body {} proc.self id fun c => stmts need c proc.decl.body.stmts)
  | .props name => do
    let some a := (← read).artifacts.find? (·.name == name) | return ()
    once (.props name) (artifactPropTypes need a)

/-- Checks an item with what it needs, to a given depth. -/
def demand : Nat → Item → Check Unit
  | 0, _ => return ()
  | depth + 1, which => item (demand depth) which

def items : List Item → Check Unit
  | [] => return ()
  | which :: rest => do
    need which
    items rest

/-- Checks a module-level statement of a given number. -/
def topStmt (position : Nat) : Stmt → Check Unit
  | .importUnit _ => return ()
  | .var decl => do
    let some id := (← get).declSymbols.get? decl.node.id | return ()
    need (.global id)
  | .proc decl => do
    let some id := (← get).procDecls.get? decl.node.id | return ()
    need (.body id)
  | .artifact decl => do
    let some a := (← read).artifacts.find? (·.decl.node.id == decl.node.id) | return ()
    need (.props a.name)
    items need (a.methods.map fun (_, id) => .body id)
  | other => do
    let _ ← stmt need { position := some position } other

/-- Checks the module-level statements that are numbered from a given one. -/
def topStmts : Nat → List Stmt → Check Unit
  | _, [] => return ()
  | position, s :: rest => do
    topStmt need position s
    topStmts (position + 1) rest

def program (p : Program) : Check Unit := do
  topStmts (demand (← read).itemCount) 0 p.stmts

end Check

end ArkLang
