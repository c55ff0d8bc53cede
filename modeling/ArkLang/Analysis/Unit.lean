import ArkLang.Analysis.Item
import ArkLang.Analysis.Mutation
import ArkLang.Analysis.Record

/-!
# Checking a unit

A unit passes if no check finds an error. Its interface is then published.
-/

namespace ArkLang

namespace Analysis

/-- The symbol of a variable of the module. -/
def globalSymbol (id : SymbolId) (global : LocalGlobal) : SymbolInfo :=
  { id, name := global.decl.name.value, kind := .var, type := global.declared.getD .unknown,
    mutable := global.decl.mutable, isGlobal := true, owner := none, depth := 0,
    span := global.decl.name.span }

/-- The entry of a procedure that is not checked yet. -/
def procEntry (id : ProcId) (proc : LocalProc) : ProcEntry :=
  { info :=
      { id, name := proc.decl.name.value, path := proc.path, decl := proc.decl.node.id,
        params := [], ret := .unknown, kind := proc.kind, captures := [], nestedIn := none }
    hasDeclaredRet := proc.decl.ret.isSome }

/-- What is known before the first check. -/
def ofOutline (o : Outline) : Analysis :=
  let symbols := o.globals.mapIdx globalSymbol
  let procs := o.procs.mapIdx procEntry
  { symbols, procs
    declSymbols := .ofList (o.globals.mapIdx fun id g => (g.decl.node.id, id)).toList
    procDecls := .ofList (o.procs.mapIdx fun id p => (p.decl.node.id, id)).toList
    errors := o.errors }

/-- What is known after all checks. -/
def run (o : Outline) (p : Program) : Analysis :=
  let (_, checked) := (((Check.program p).run o).run).run (ofOutline o)
  let contained := checked.containmentErrors o
  { checked with errors := checked.errors ++ contained }.settleMutation o

/-! ### The published interface -/

/-- A method as importers see it. -/
def methodInfo (s : Analysis) (name : String) (id : ProcId) : MethodInfo :=
  let info := (s.procs.getD id default).info
  ⟨name, info.sig, info.mutatesSelf⟩

/-- An artifact as importers see it. -/
def artifactInfo (s : Analysis) (o : Outline) (a : LocalArtifact) : ArtifactInfo :=
  { name := a.name, module := o.module, kind := a.kind
    props := (s.props.get? a.name).getD []
    methods := a.methods.map fun (name, id) => s.methodInfo name id
    cases := a.cases }

/-- What the module offers to its importers. -/
def interface (s : Analysis) (o : Outline) : Interface :=
  { module := o.module
    globals := s.symbols.toList.foldl (fun table sym =>
      if sym.isGlobal then table.insert sym.name ⟨sym.type, sym.mutable⟩ else table) {}
    procs := s.procs.toList.foldl (fun table p =>
      if p.info.kind = .topLevel then table.insert p.info.name p.info.sig else table) {}
    artifacts := o.artifacts.foldl (fun table a =>
      table.insert a.name (s.artifactInfo o a)) {} }

/-- The checked unit of an analysis without errors. -/
def unit (s : Analysis) (o : Outline) (p : Program) : CheckedUnit :=
  { toFindings := s.toFindings
    module := o.module
    program := p
    symbols := s.symbols
    procs := s.procs.map ProcEntry.info
    artifacts := .ofList (o.artifacts.map fun a => (a.decl.node.id, s.artifactInfo o a))
    interface := s.interface o }

end Analysis

/-- Errors in the order of their places; errors of one place keep their order. -/
def sortErrors (errors : List SemanticError) : List SemanticError :=
  errors.mergeSort fun a b => a.span.offset ≤ b.span.offset

/-- The checked unit of a program, or all its errors. -/
def analyze (module : ModuleId) (resolver : Resolver) (p : Program) :
    Except (List SemanticError) CheckedUnit :=
  let o := Outline.ofProgram module resolver p
  let s := Analysis.run o p
  if s.errors.isEmpty then .ok (s.unit o p) else .error (sortErrors s.errors.toList)

end ArkLang
