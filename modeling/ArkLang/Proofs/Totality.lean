import ArkLang.Analysis.Item
import ArkLang.Proofs.Run

/-!
# Checks that always go on

The check of an expression may end with an error. The check of a statement, of a declaration or of a
whole item notes the errors of its parts and goes on, so it always comes to its end.
-/

namespace ArkLang

variable {α β : Type}

/-- A check that gives a value, whatever it starts from. -/
def Total (x : Check α) : Prop :=
  ∀ o s, ∃ a s', Gives x o s a s'

@[grind ←]
theorem total_pure (a : α) : Total (pure a) :=
  fun _ s => ⟨a, s, rfl⟩

@[grind ←]
theorem total_read : Total (read : Check Outline) :=
  fun o s => ⟨o, s, rfl⟩

@[grind ←]
theorem total_get : Total (get : Check Analysis) :=
  fun _ s => ⟨s, s, rfl⟩

@[grind ←]
theorem total_modify (f : Analysis → Analysis) : Total (modify f : Check Unit) :=
  fun _ s => ⟨(), f s, rfl⟩

@[grind ←]
theorem total_bind {x : Check α} {f : α → Check β} (hx : Total x) (hf : ∀ a, Total (f a)) :
    Total (x >>= f) := by
  intro o s
  obtain ⟨a, s₁, first⟩ := hx o s
  obtain ⟨b, s₂, second⟩ := hf a o s₁
  exact ⟨b, s₂, gives_bind.mpr ⟨a, s₁, first, second⟩⟩

theorem total_tryCatch (x : Check α) {handle : SemanticError → Check α}
    (hh : ∀ e, Total (handle e)) : Total (tryCatch x handle) := by
  intro o s
  rcases run : runAt x o s with ⟨e | a, s₁⟩
  · obtain ⟨a, s₂, handled⟩ := hh e o s₁
    exact ⟨a, s₂, by rwa [Gives, runAt_tryCatch, run]⟩
  · exact ⟨a, s₁, by rw [Gives, runAt_tryCatch, run]⟩

namespace Check

/-! ### Errors and tables -/

@[grind ←]
theorem total_note (e : SemanticError) : Total (note e) :=
  total_modify _

@[grind ←]
theorem total_attempt (x : Check α) : Total (attempt x) :=
  total_tryCatch _ fun _ => total_pure _

@[grind ←]
theorem total_orNote (x : Check α) (missing : α) : Total (orNote x missing) :=
  total_tryCatch x fun e => total_bind (total_note e) fun _ => total_pure missing

@[grind ←]
theorem total_noteOutcome (outcome : Except SemanticError α) : Total (noteOutcome outcome) := by
  cases outcome with
  | ok => exact total_pure ()
  | error e => exact total_note e

@[grind ←]
theorem total_procEntry (id : ProcId) : Total (procEntry id) :=
  total_bind total_get fun _ => total_pure _

@[grind ←]
theorem total_newSymbol (c : Context) (name : Ident) (kind : SymbolKind) (type : Ty)
    (mutable : Bool) : Total (newSymbol c name kind type mutable) :=
  total_bind total_get fun _ => total_bind (total_modify _) fun _ => total_pure _

/-- An item that was begun before is passed over. -/
@[grind ←]
theorem total_once (i : Item) {check : Check Unit} (h : Total check) : Total (once i check) := by
  unfold once isUntouched
  grind

/-! ### Declarations and statements -/

section Stmts

variable {need : Item → Check Unit} {c : Context}

@[grind ←]
theorem total_declareParam (name : Ident) (type : Ty) : Total (declareParam c name type) := by
  unfold declareParam
  grind

@[grind ←]
theorem total_paramInfos (params : List Param) : Total (paramInfos need c params) := by
  induction params generalizing c with
  | nil => exact total_pure []
  | cons param rest ih =>
    unfold paramInfos setDeclSymbol
    grind

@[grind ←]
theorem total_signature (id : ProcId) (decl : ProcDecl) : Total (signature need id decl) := by
  unfold signature updateProc
  grind

@[grind ←]
theorem total_newProc (decl : ProcDecl) : Total (newProc c decl) :=
  total_bind total_get fun _ => total_bind (total_modify _) fun _ => total_pure _

theorem total_body (self : Option SelfContext) (id : ProcId) {code : Context → Check Unit}
    (hcode : ∀ c, Total (code c)) : Total (body c self id code) :=
  total_bind (total_bind (total_procEntry id) fun _ => total_pure _) fun inner =>
    total_bind (hcode inner) fun _ => total_modify _

@[grind ←]
theorem total_localVar (decl : VarDecl) : Total (localVar need c decl) := by
  unfold localVar setDeclSymbol
  grind

@[grind ←]
theorem total_rangeEnds (start stop : Expr) : Total (rangeEnds need c start stop) := by
  unfold rangeEnds
  grind

mutual

/-- Statements note the errors of their parts. -/
theorem total_stmt (c : Context) : (s : Stmt) → Total (stmt need c s)
  | .importUnit _ | .artifact _ => total_pure c
  | .var decl => total_localVar decl
  | .proc decl => total_nestedProc c decl
  | .assign _ target value | .ret _ value | .expr value =>
    total_bind (total_orNote _ _) fun _ => total_pure c
  | .breakLoop span | .skipTurn span => total_bind (total_orNote _ _) fun _ => total_pure c
  | .cond ⟨_, cond, body⟩ | .whileLoop ⟨_, cond, body⟩ =>
    total_bind (total_attempt _) fun outcome => total_bind (total_block c _ body) fun _ =>
      total_bind (total_noteOutcome outcome) fun _ => total_pure c
  | .chain _ arms (some body) =>
    total_bind (total_chainArms c arms) fun _ => total_bind (total_block c _ body) fun _ =>
      total_pure c
  | .chain _ arms none => total_bind (total_chainArms c arms) fun _ => total_pure c
  | .rangeLoop node var start stop body => by
    refine total_bind (total_rangeEnds start stop) fun outcome => ?_
    refine total_bind (total_attempt _) fun declared => ?_
    cases declared with
    | error e => exact total_bind (total_note e) fun _ => total_pure c
    | ok declared =>
      exact total_bind (total_modify _) fun _ => total_bind (total_block _ _ body) fun _ =>
        total_bind (total_noteOutcome outcome) fun _ => total_pure c
  | .block body => total_bind (total_block c _ body) fun _ => total_pure c

theorem total_block (c : Context) (inLoop : Bool) : (b : Block) → Total (block need c inLoop b)
  | ⟨_, code⟩ => total_stmts (c.enter inLoop) code

theorem total_stmts (c : Context) : (ss : List Stmt) → Total (stmts need c ss)
  | [] => total_pure ()
  | s :: rest => total_bind (total_stmt c s) fun inner => total_stmts inner rest

theorem total_chainArms (c : Context) : (arms : List Guarded) → Total (chainArms need c arms)
  | [] => total_pure ()
  | ⟨_, _, body⟩ :: rest =>
    total_bind (total_orNote _ _) fun _ => total_bind (total_block c false body) fun _ =>
      total_chainArms c rest

theorem total_nestedProc (c : Context) : (decl : ProcDecl) → Total (nestedProc need c decl)
  | ⟨node, name, params, ret, ⟨span, code⟩⟩ => by
    refine total_bind (total_newProc _) fun id => total_bind (total_attempt _) fun declared => ?_
    cases declared with
    | error e => exact total_bind (total_note e) fun _ => total_pure c
    | ok declared =>
      refine total_bind (total_modify _) fun _ => ?_
      refine total_bind (total_once _ (total_signature id _)) fun _ => ?_
      refine total_bind (total_once _ (total_body _ id fun c => total_stmts c code)) fun _ => ?_
      exact total_bind (total_procEntry id) fun entry => total_bind (total_modify _) fun _ =>
        total_pure _

end

end Stmts

/-! ### Items -/

section Items

variable {need : Item → Check Unit}

@[grind ←]
theorem total_globalType (id : SymbolId) (global : LocalGlobal) :
    Total (globalType need id global) := by
  unfold globalType setSymbolType
  grind

theorem total_propTypes (c : Context) (a : LocalArtifact) (decls : List VarDecl) :
    Total (propTypes need c a decls) := by
  induction decls with
  | nil => exact total_pure ()
  | cons decl rest ih =>
    unfold propTypes addProp
    grind

@[grind ←]
theorem total_artifactPropTypes (a : LocalArtifact) : Total (artifactPropTypes need a) :=
  total_bind total_read fun _ => total_propTypes _ a a.decl.props

@[grind ←]
theorem total_item (i : Item) : Total (item need i) := by
  have code (id : ProcId) (proc : LocalProc) :
      Total (body {} proc.self id fun c => stmts need c proc.decl.body.stmts) :=
    total_body _ id fun c => total_stmts c _
  cases i <;> unfold item <;> grind

theorem total_demand (depth : Nat) (i : Item) : Total (demand depth i) := by
  cases depth with
  | zero => exact total_pure ()
  | succ depth => exact total_item i

section Units

variable (hneed : ∀ i, Total (need i))

include hneed

@[grind ←]
theorem total_items (is : List Item) : Total (items need is) := by
  induction is with
  | nil => exact total_pure ()
  | cons i rest ih => exact total_bind (hneed i) fun _ => ih

theorem total_topStmt (position : Nat) (s : Stmt) : Total (topStmt need position s) := by
  have other := @total_stmt need { position := some position }
  unfold topStmt
  cases s with
  | importUnit _ => exact total_pure ()
  | var decl | proc decl | artifact decl => grind
  | _ => exact total_bind (other _) fun _ => total_pure ()

theorem total_topStmts (position : Nat) (ss : List Stmt) : Total (topStmts need position ss) := by
  induction ss generalizing position with
  | nil => exact total_pure ()
  | cons s rest ih => exact total_bind (total_topStmt hneed position s) fun _ => ih (position + 1)

end Units

/-- The check of a program comes to its end. -/
theorem total_program (p : Program) : Total (program p) :=
  total_bind total_read fun o => total_topStmts (total_demand o.itemCount) 0 p.stmts

end Items

end Check

end ArkLang
