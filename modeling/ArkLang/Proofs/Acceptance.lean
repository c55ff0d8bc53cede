import ArkLang.Proofs.Confinement

/-!
# Errors stay

No step of a check takes an error back. So whatever was wrong with the declarations of a unit, or
was noted on the way, stands in the end, and a unit is accepted only if there was nothing.
-/

namespace ArkLang

open List

/-! ### Errors stay -/

namespace Analysis

variable {s : Analysis} {o : Outline}

theorem errors_prefix_judge (mutating : List ProcId) (p : PendingReceiver) :
    s.errors.toList <+: (judge o mutating s p).errors.toList := by
  unfold judge
  dsimp only
  split
  · split
    · simp
    · exact prefix_rfl
  · exact prefix_rfl

theorem errors_prefix_settleMutation : s.errors.toList <+: (s.settleMutation o).errors.toList := by
  have judged (mutating : List ProcId) (ps : List PendingReceiver) :
      s.errors.toList <+: (ps.foldl (judge o mutating) s).errors.toList := by
    induction ps generalizing s with
    | nil => exact prefix_rfl
    | cons p rest ih => exact (errors_prefix_judge mutating p).trans ih
  exact judged _ _

/-- Settling what calls change takes no error back. -/
theorem errors_prefix_checked (o : Outline) (p : Program) :
    (runAt (Check.program p) o (ofOutline o)).2.errors.toList <+: (run o p).errors.toList := by
  have settled (s : Analysis) (errors : List SemanticError) :
      s.errors.toList <+:
        ({ s with errors := s.errors ++ errors }.settleMutation o).errors.toList :=
    .trans (by simp) errors_prefix_settleMutation
  exact settled _ _

/-- The errors of an outline stay to the end. -/
theorem errors_prefix_run (o : Outline) (p : Program) :
    o.errors.toList <+: (run o p).errors.toList :=
  (Check.trace_program o p).grows.errors.trans (errors_prefix_checked o p)

end Analysis

/-! ### Declarations that are wrong -/

namespace Outline

variable {o : Outline} {before : List SemanticError}

theorem errors_prefix_report (h : before <+: o.errors.toList) (fault : SemanticFault)
    (span : Span) : before <+: (o.report fault span).errors.toList :=
  h.trans (by simp [report])

theorem errors_prefix_bind (h : before <+: o.errors.toList) (name : Ident) (binding : Binding) :
    before <+: (o.bind name binding).errors.toList := by
  unfold bind
  split
  · exact errors_prefix_report h _ _
  · exact h

theorem errors_prefix_addImport (resolver : Resolver) (decl : Import) :
    o.errors.toList <+: (o.addImport resolver decl).errors.toList := by
  have reported := errors_prefix_report (o := o) prefix_rfl
  unfold addImport
  split
  · exact errors_prefix_bind (by simp) _ _
  · exact errors_prefix_bind (reported _ _) _ _
  · exact errors_prefix_bind (reported _ _) _ _
  · exact errors_prefix_bind (by simp) _ _

theorem errors_prefix_addMember (artifact : ArtifactDecl) (m : Members) (member : Member) :
    m.outline.errors.toList <+: (m.add artifact member).outline.errors.toList := by
  have reported := errors_prefix_report (o := m.outline) prefix_rfl
  cases member with
  | _ decl =>
    unfold Members.add
    dsimp only
    split
    · exact reported _ _
    · exact prefix_rfl

theorem errors_prefix_addMembers (artifact : ArtifactDecl) (members : List Member) (m : Members) :
    m.outline.errors.toList <+:
      (members.foldl (Members.add artifact) m).outline.errors.toList := by
  induction members generalizing m with
  | nil => exact prefix_rfl
  | cons member rest ih => exact (errors_prefix_addMember artifact m member).trans (ih _)

theorem errors_prefix_addArtifact (position : Nat) (decl : ArtifactDecl) :
    o.errors.toList <+: (o.addArtifact position decl).errors.toList := by
  have named := errors_prefix_bind (o := o) prefix_rfl decl.name
    (.artifact ⟨o.module, decl.name.value⟩)
  unfold addArtifact
  dsimp only
  split
  · exact named
  · exact named.trans (errors_prefix_addMembers decl decl.members { outline := o.bind decl.name _ })

theorem errors_prefix_addGlobal (position : Nat) (decl : VarDecl) :
    o.errors.toList <+: (o.addGlobal position decl).errors.toList := by
  unfold addGlobal
  dsimp only
  split
  · exact errors_prefix_bind (by simp) _ _
  · exact errors_prefix_bind (by simp) _ _
  · exact errors_prefix_bind (by simp) _ _

theorem errors_prefix_addTypes (resolver : Resolver) (position : Nat) (stmts : List Stmt) :
    o.errors.toList <+: (o.addTypes resolver position stmts).errors.toList := by
  induction stmts generalizing position o with
  | nil => exact prefix_rfl
  | cons stmt rest ih =>
    cases stmt with
    | importUnit decl => exact (errors_prefix_addImport resolver decl).trans (ih _)
    | artifact decl => exact (errors_prefix_addArtifact position decl).trans (ih _)
    | _ => exact ih _

theorem errors_prefix_addValues (position : Nat) (stmts : List Stmt) :
    o.errors.toList <+: (o.addValues position stmts).errors.toList := by
  induction stmts generalizing position o with
  | nil => exact prefix_rfl
  | cons stmt rest ih =>
    cases stmt with
    | proc decl =>
      have named : o.errors.toList <+: (o.addTopLevel decl).errors.toList :=
        errors_prefix_bind (by simp [addProc]) _ _
      exact named.trans (ih _)
    | var decl => exact (errors_prefix_addGlobal position decl).trans (ih _)
    | _ => exact ih _

theorem errors_eq_empty {o₁ : Outline} (later : o.errors.toList <+: o₁.errors.toList)
    (free : o₁.errors = #[]) : o.errors = #[] := by
  rwa [free, prefix_nil, Array.toList_eq_nil_iff] at later

theorem resolve_of_addTypes {resolver : Resolver} {position : Nat} {stmts : List Stmt}
    (free : (o.addTypes resolver position stmts).errors = #[]) {decl : Import}
    (mem : .importUnit decl ∈ stmts) (path : String) :
    resolver.resolve decl ≠ .error (.notFound path) ∧
      resolver.resolve decl ≠ .error (.circular path) := by
  induction stmts generalizing position o with
  | nil => simp at mem
  | cons stmt rest ih =>
    rcases List.mem_cons.mp mem with rfl | mem
    · -- a fault of the import is reported at once, and the report stays
      have later := errors_prefix_addTypes (o := o.addImport resolver decl) resolver
        (position + 1) rest
      have none : (o.addImport resolver decl).errors.toList = [] := by
        have free :
            ((o.addImport resolver decl).addTypes resolver (position + 1) rest).errors = #[] :=
          free
        rwa [free, prefix_nil] at later
      have reported (fault : SemanticFault) (binding : Binding) :
          ((o.report fault decl.span).bind decl.name binding).errors.toList ≠ [] := by
        intro h
        have := errors_prefix_bind (o := o.report fault decl.span) prefix_rfl decl.name binding
        rw [h, prefix_nil] at this
        simp [report] at this
      constructor
      · intro missing
        rw [addImport, missing] at none
        exact reported _ _ none
      · intro circular
        rw [addImport, circular] at none
        exact reported _ _ none
    · exact ih free mem

end Outline

/-- No import of an accepted unit is missing or circular. -/
theorem resolve_of_analyze {module : ModuleId} {resolver : Resolver} {p : Program}
    {unit : CheckedUnit} (accepted : analyze module resolver p = .ok unit) {i : Import}
    (mem : i ∈ p.imports) (path : String) :
    resolver.resolve i ≠ .error (.notFound path) ∧
    resolver.resolve i ≠ .error (.circular path) := by
  have free : (Analysis.run (.ofProgram module resolver p) p).errors = #[] := by
    unfold analyze at accepted
    dsimp only at accepted
    split at accepted
    · next h => simpa using h
    · cases accepted
  have outline := Analysis.errors_prefix_run (.ofProgram module resolver p) p
  have types := (Outline.errors_prefix_addValues 0 p.stmts).trans outline
  rw [free, prefix_nil, Array.toList_eq_nil_iff] at types
  refine Outline.resolve_of_addTypes types ?_ path
  obtain ⟨stmt, hstmt, found⟩ := List.mem_filterMap.mp mem
  cases stmt with
  | importUnit decl =>
    obtain rfl : decl = i := by simpa using found
    exact hstmt
  | _ => simp at found

end ArkLang
