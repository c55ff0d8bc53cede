import ArkLang.C.Tree

/-!
# Accesses to environments

A procedure in a block finds the symbols it captures in its environment. The code that declares the
procedure makes the environment. Which fields code accesses, and in which environments, can be read
off the code.
-/

namespace ArkLang

/-! ### Accesses to environments -/

namespace C

mutual

/-- The captured symbols that an expression reads, with the pointers it reads from. -/
def Expr.accesses : Expr → List (Name × SymbolId)
  | .arrow pointer (.capture id) => [(pointer, id)]
  | .unary _ e | .cast _ e | .field e _ | .deref e | .address e => e.accesses
  | .binary l _ r | .after l r | .element l r => l.accesses ++ r.accesses
  | .compound _ es | .arrayOf _ es | .elements _ es | .call _ es => Expr.accessesAll es
  | _ => []

def Expr.accessesAll : List Expr → List (Name × SymbolId)
  | [] => []
  | e :: es => e.accesses ++ Expr.accessesAll es

end

/-- An expression reads given symbols only, from the environment of its function. -/
def Expr.ReadsOnly (own : List SymbolId) (e : Expr) : Prop :=
  ∀ x ∈ e.accesses, x.1 = .env ∧ x.2 ∈ own

theorem Expr.readsOnly_capture {own : List SymbolId} {id : SymbolId} (h : id ∈ own) :
    ReadsOnly own (.arrow .env (.capture id)) :=
  List.forall_mem_singleton.mpr ⟨rfl, h⟩

theorem Expr.readsOnly_all {own : List SymbolId} {es : List Expr} (h : ∀ e ∈ es, ReadsOnly own e) :
    ∀ x ∈ Expr.accessesAll es, x.1 = .env ∧ x.2 ∈ own := by
  induction es with
  | nil => exact List.forall_mem_nil _
  | cons e es ih =>
    obtain ⟨first, others⟩ := List.forall_mem_cons.mp h
    exact List.forall_mem_append.mpr ⟨first, ih others⟩

theorem Expr.ReadsOnly.accesses_eq_nil {e : Expr} (h : ReadsOnly [] e) : e.accesses = [] :=
  List.eq_nil_iff_forall_not_mem.mpr fun x mem => by simpa using h x mem

theorem Expr.accessesAll_eq_nil {es : List Expr} :
    Expr.accessesAll es = [] ↔ ∀ e ∈ es, e.accesses = [] := by
  induction es with
  | nil => simp [Expr.accessesAll]
  | cons e es ih => simp [Expr.accessesAll, ih]

/-! ### Statements -/

mutual

/-- The captured symbols that a statement accesses, with the pointers. -/
def Stmt.accesses : Stmt → List (Name × SymbolId)
  | .expr e | .drop e | .declare _ _ _ e | .bindProc _ _ e _ | .ret (some e) => e.accesses
  | .assign target e => target.accesses ++ e.accesses
  | .cond arms fallback => Arm.accessesAll arms ++ Stmt.accessesOption fallback
  | .whileLoop cond body => cond.accesses ++ Stmt.accessesAll body
  | .countLoop _ _ _ _ first last body =>
    first.accesses ++ last.accesses ++ Stmt.accessesAll body
  | .block body => Stmt.accessesAll body
  | _ => []

def Stmt.accessesAll : List Stmt → List (Name × SymbolId)
  | [] => []
  | s :: ss => s.accesses ++ Stmt.accessesAll ss

def Arm.accessesAll : List Arm → List (Name × SymbolId)
  | [] => []
  | ⟨cond, body⟩ :: arms => cond.accesses ++ Stmt.accessesAll body ++ Arm.accessesAll arms

def Stmt.accessesOption : Option (List Stmt) → List (Name × SymbolId)
  | none => []
  | some body => Stmt.accessesAll body

end

mutual

/-- The pointers to environments that a statement declares, with the types of the environments. -/
def Stmt.opened : Stmt → List (Name × Name)
  | .openEnv type => [(.env, type)]
  | .newEnv type name => [(name, type)]
  | .cond arms fallback => Arm.openedAll arms ++ Stmt.openedOption fallback
  | .whileLoop _ body | .countLoop _ _ _ _ _ _ body | .block body => Stmt.openedAll body
  | _ => []

def Stmt.openedAll : List Stmt → List (Name × Name)
  | [] => []
  | s :: ss => s.opened ++ Stmt.openedAll ss

def Arm.openedAll : List Arm → List (Name × Name)
  | [] => []
  | ⟨_, body⟩ :: arms => Stmt.openedAll body ++ Arm.openedAll arms

def Stmt.openedOption : Option (List Stmt) → List (Name × Name)
  | none => []
  | some body => Stmt.openedAll body

end

theorem Stmt.accessesAll_append (ss ts : List Stmt) :
    Stmt.accessesAll (ss ++ ts) = Stmt.accessesAll ss ++ Stmt.accessesAll ts := by
  induction ss with
  | nil => rfl
  | cons s ss ih => simp [Stmt.accessesAll, ih]

theorem Stmt.accessesAll_eq_nil {ss : List Stmt} :
    Stmt.accessesAll ss = [] ↔ ∀ s ∈ ss, s.accesses = [] := by
  induction ss with
  | nil => simp [Stmt.accessesAll]
  | cons s ss ih => simp [Stmt.accessesAll, ih]

theorem Stmt.openedAll_append (ss ts : List Stmt) :
    Stmt.openedAll (ss ++ ts) = Stmt.openedAll ss ++ Stmt.openedAll ts := by
  induction ss with
  | nil => rfl
  | cons s ss ih => simp [Stmt.openedAll, ih]

/-- The environment of a procedure: it has a field for every symbol that the procedure captures. -/
structure Environment.IsFor (env : Environment) (u : CheckedUnit) (proc : ProcInfo) : Prop where
  name : env.name = .environment u.module proc.id
  fields : env.fields.map Prod.snd = proc.captures

/-- An access to a field of an environment that is made by the code itself. -/
def Made (u : CheckedUnit) (envs : List Environment) (opened : List (Name × Name))
    (x : Name × SymbolId) : Prop :=
  x.1 ≠ .env ∧ ∃ proc ∈ u.procs, ∃ env ∈ envs, env.IsFor u proc ∧ x.2 ∈ proc.captures ∧
    (x.1, env.name) ∈ opened

/-- All accesses lead to fields that are there: to given symbols in the environment of the function,
or to environments that are made by the code itself. -/
def CoveredBy (u : CheckedUnit) (envs : List Environment) (own : List SymbolId)
    (accesses : List (Name × SymbolId)) (opened : List (Name × Name)) : Prop :=
  ∀ x ∈ accesses, (x.1 = .env ∧ x.2 ∈ own) ∨ Made u envs opened x

/-- All accesses of some code lead to fields that are there. -/
def Covered (u : CheckedUnit) (envs : List Environment) (own : List SymbolId) (code : List Stmt) :
    Prop :=
  CoveredBy u envs own (Stmt.accessesAll code) (Stmt.openedAll code)

section Covered

variable {u : CheckedUnit} {envs envs' : List Environment} {own : List SymbolId}
variable {accesses accesses' : List (Name × SymbolId)} {opened opened' : List (Name × Name)}

theorem Made.mono {x : Name × SymbolId} (h : Made u envs opened x) (more : envs ⊆ envs')
    (sub : opened ⊆ opened') : Made u envs' opened' x := by
  obtain ⟨other, proc, mem, env, known, isFor, captured, here⟩ := h
  exact ⟨other, proc, mem, env, more known, isFor, captured, sub here⟩

theorem CoveredBy.mono (h : CoveredBy u envs own accesses opened) (more : envs ⊆ envs')
    (sub : opened ⊆ opened') : CoveredBy u envs' own accesses opened' :=
  fun x mem => (h x mem).imp_right fun made => made.mono more sub

theorem CoveredBy.append (h : CoveredBy u envs own accesses opened)
    (h' : CoveredBy u envs own accesses' opened') :
    CoveredBy u envs own (accesses ++ accesses') (opened ++ opened') :=
  List.forall_mem_append.mpr
    ⟨h.mono (List.Subset.refl _) (List.subset_append_left _ _),
      h'.mono (List.Subset.refl _) (List.subset_append_right _ _)⟩

theorem CoveredBy.of_readsOnly (h : ∀ x ∈ accesses, x.1 = .env ∧ x.2 ∈ own) :
    CoveredBy u envs own accesses opened :=
  fun x mem => .inl (h x mem)

/-- Accesses to the own environment need no other one. -/
theorem CoveredBy.behind (h : ∀ x ∈ accesses, x.1 = .env ∧ x.2 ∈ own)
    (h' : CoveredBy u envs own accesses' opened) :
    CoveredBy u envs own (accesses ++ accesses') opened :=
  List.forall_mem_append.mpr ⟨fun x mem => .inl (h x mem), h'⟩

theorem covered_nil : Covered u envs own [] :=
  fun _ mem => by cases mem

/-- Code in sequence: what is opened first covers the rest. -/
theorem covered_append {code code' : List Stmt} (h : Covered u envs own code)
    (h' : Covered u envs own code') : Covered u envs own (code ++ code') := by
  rw [Covered, Stmt.accessesAll_append, Stmt.openedAll_append]
  exact CoveredBy.append h h'

theorem Covered.mono {code : List Stmt} (h : Covered u envs own code) (more : envs ⊆ envs') :
    Covered u envs' own code :=
  CoveredBy.mono h more (List.Subset.refl _)

theorem covered_singleton {s : Stmt} (h : CoveredBy u envs own s.accesses s.opened) :
    Covered u envs own [s] := by
  rw [Covered, Stmt.accessesAll, Stmt.openedAll, Stmt.accessesAll, Stmt.openedAll, List.append_nil,
    List.append_nil]
  exact h

theorem covered_of_readsOnly {code : List Stmt}
    (h : ∀ s ∈ code, ∀ x ∈ s.accesses, x.1 = .env ∧ x.2 ∈ own) : Covered u envs own code := by
  induction code with
  | nil => exact covered_nil
  | cons s rest ih =>
    obtain ⟨first, others⟩ := List.forall_mem_cons.mp h
    exact covered_append (covered_singleton (.of_readsOnly first)) (ih others)

end Covered

end C

end ArkLang
