import ArkLang.Analysis.Unit
import ArkLang.Proofs.Ownership

/-!
# What checks change

Checking goes from the first tables of a unit to the last ones in small steps: each writes one entry
of one table, or notes an error. Code writes at its own nodes only, but it may need an item that was
not checked before; then the check of that item takes place in between, and writes at the nodes of
the item.
-/

namespace ArkLang

theorem Expr.id_mem_ids (e : Expr) : e.id ∈ e.ids := by
  cases e <;> simp [Expr.id, Expr.node, Expr.ids]

/-- Where code may write: the entries of some nodes, the parameters of some procedures, and the
properties of some artifacts. -/
structure Region where
  nodes : List NodeId := []
  params : List ProcId := []
  props : List String := []

/-- Where the check of an item writes. -/
def Outline.region (o : Outline) (i : Item) : Region where
  nodes := o.code i
  params := match i with
    | .signature id => [id]
    | _ => []
  props := match i with
    | .props name => [name]
    | _ => []

/-- The items of procedures that are declared in blocks. They are checked where they
are declared. -/
def Outline.IsNested (o : Outline) : Item → Prop
  | .signature id | .body id => o.procs.size ≤ id
  | _ => False

def Check.content (need : Item → Check Unit) (o : Outline) : Item → Option (Check Unit)
  | .global id => o.globals[id]?.map (globalType need id)
  | .signature id => o.procs[id]?.map fun proc => signature need id proc.decl
  | .body id => o.procs[id]?.map fun proc =>
      body {} proc.self id fun c => stmts need c proc.decl.body.stmts
  | .props name => (o.artifacts.find? (·.name == name)).map (artifactPropTypes need)

/-- What checking does to a procedure: it fills in the parameters and the result, adds captures, and
notes that the receiver is written to. -/
structure ProcEntry.Filled (p q : ProcEntry) : Prop where
  info : q.info =
    { p.info with params := q.info.params, ret := q.info.ret, captures := q.info.captures }
  captures : p.info.captures <+: q.info.captures
  hasDeclaredRet : q.hasDeclaredRet = p.hasDeclaredRet
  writesSelf : p.writesSelf = true → q.writesSelf = true

def CallTarget.isMethod : CallTarget → Bool
  | .method .. => true
  | _ => false

namespace Analysis

/-- One step of code that writes in a region. -/
inductive Change (o : Outline) (K : Region) : Analysis → Analysis → Prop where
  | type (s t) {id} (mem : id ∈ K.nodes) :
    Change o K s { s with exprTypes := s.exprTypes.insert id t }
  /-- Whether a value is used as a float is for the code around it to say. -/
  | widened (s id) : Change o K s { s with widened := s.widened.insert id }
  | resolution (s r) {id} (mem : id ∈ K.nodes) :
    Change o K s { s with resolutions := s.resolutions.insert id r }
  | call (s) {target id} (mem : id ∈ K.nodes) (other : target.isMethod = false) :
    Change o K s { s with calls := s.calls.insert id target }
  | declSymbol (s symbol) {id} (mem : id ∈ K.nodes) :
    Change o K s { s with declSymbols := s.declSymbols.insert id symbol }
  /-- A call of a method is recorded together with its receiver. -/
  | method (s) {receiver} (supplied total how) (mem : receiver.call.id ∈ K.nodes)
      (known : (o.method? receiver.artifact receiver.method).isSome) :
    Change o K s { s with
      calls := s.calls.insert receiver.call.id
        (.method receiver.artifact receiver.method supplied total false how)
      pending := s.pending.push receiver }
  /-- New symbols are local, and only variables are ever mutable. -/
  | newSymbol (s) {symbol} (numbered : symbol.id = s.symbols.size)
      (isLocal : symbol.isGlobal = false) (isVar : symbol.mutable = true → symbol.kind = .var) :
    Change o K s { s with symbols := s.symbols.push symbol }
  | symbolType (s id type) :
    Change o K s { s with symbols := s.symbols.modify id fun x => { x with type } }
  | newProc (s) {entry} (mem : entry.info.decl ∈ K.nodes)
      (numbered : entry.info.id = s.procs.size) (isNested : entry.info.isNested = true) :
    Change o K s { s with
      procs := s.procs.push entry
      procDecls := s.procDecls.insert entry.info.decl s.procs.size }
  | proc (s id) {f : ProcEntry → ProcEntry} (filled : ∀ p, ProcEntry.Filled p (f p))
      (kept : ∀ p, (f p).info.params = p.info.params) :
    Change o K s { s with procs := s.procs.modify id f }
  | params (s) {id} {f : ProcEntry → ProcEntry} (filled : ∀ p, ProcEntry.Filled p (f p))
      (allowed : id ∈ K.params ∨ o.procs.size ≤ id) :
    Change o K s { s with procs := s.procs.modify id f }
  | prop (s prop) {artifact} (mem : artifact ∈ K.props) : Change o K s
    { s with props := s.props.insert artifact ((s.props.get? artifact).getD [] ++ [prop]) }
  | started (s) {item} (nested : o.IsNested item) :
    Change o K s { s with started := item :: s.started }
  | finished (s) {item} (nested : o.IsNested item) (begun : item ∈ s.started) :
    Change o K s { s with finished := item :: s.finished }
  | error (s e) : Change o K s { s with errors := s.errors.push e }

/-- The tables when the check of an item begins. -/
def begin (s : Analysis) (i : Item) : Analysis :=
  { s with started := i :: s.started }

/-- The tables when the check of an item is finished. -/
def finish (s : Analysis) (i : Item) : Analysis :=
  { s with finished := i :: s.finished }

end Analysis

/-- Steps of code that writes in a region, with the checks of the items that it needs. The body of a
procedure is not begun before its signature. -/
inductive Trace (o : Outline) : Region → Analysis → Analysis → Prop where
  | refl (K s) : Trace o K s s
  | change {K s s₁ s'} (first : s.Change o K s₁) (rest : Trace o K s₁ s') : Trace o K s s'
  | item {K s s₁ s'} {i : Item} {depth : Nat} {check : Check Unit}
      (found : Check.content (Check.demand depth) o i = some check) (new : i ∉ s.started)
      (ready : ∀ id, i = .body id → .signature id ∈ s.started)
      (run : Gives check o (s.begin i) () s₁) (inner : Trace o (o.region i) (s.begin i) s₁)
      (rest : Trace o K (s₁.finish i) s') : Trace o K s s'

namespace Trace

variable {o : Outline} {K : Region} {s s₁ s' : Analysis}

/-- A change is a trace. -/
theorem single (h : s.Change o K s') : Trace o K s s' :=
  .change h (.refl K s')

/-- Traces are joined at the tables between them. -/
theorem trans (h : Trace o K s s₁) (h' : Trace o K s₁ s') : Trace o K s s' := by
  induction h with
  | refl => exact h'
  | change first _ ih => exact .change first (ih h')
  | item found new ready run inner _ _ ih => exact .item found new ready run inner (ih h')

end Trace

end ArkLang
