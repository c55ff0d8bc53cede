import ArkLang.Proofs.Ownership

/-!
# Where nodes stand

The innermost procedure around each node of a program, read off its tree alone. Procedures are told
by the nodes that declare them. The defaults of parameters stand in their procedure too, but they
see nothing of the code around it.
-/

namespace ArkLang

open List

/-- Where a node stands. -/
structure Site where
  /-- The node that declares the innermost procedure around it; none for module-level code. -/
  proc : Option NodeId := none
  /-- Whether it belongs to the default of a parameter. -/
  isDefault : Bool := false
  /-- Whether it declares a variable. -/
  isVar : Bool := false
  deriving DecidableEq, Repr, Inhabited

def Site.mark (site : Site) (ids : List NodeId) : List (NodeId × Site) :=
  ids.map (·, site)

def VarDecl.sites (proc : Option NodeId) (decl : VarDecl) : List (NodeId × Site) :=
  (decl.node.id, { proc, isVar := true }) :: Site.mark { proc } (Expr.idsOption decl.value)

def Param.sitesAll (proc : NodeId) : List Param → List (NodeId × Site)
  | [] => []
  | p :: ps => Site.mark { proc := some proc, isDefault := true } p.ids ++ Param.sitesAll proc ps

mutual

/-- The nodes of a statement with their sites; of an artifact, those of the values of its
properties. -/
def Stmt.sites (proc : Option NodeId) : Stmt → List (NodeId × Site)
  | .importUnit _ | .breakLoop _ | .skipTurn _ => []
  | .artifact decl => Site.mark { proc } decl.propIds
  | .var decl => decl.sites proc
  | .proc decl => decl.sites proc
  | .assign _ target value => Site.mark { proc } target.ids ++ Site.mark { proc } value.ids
  | .cond ⟨_, cond, body⟩ => Site.mark { proc } cond.ids ++ body.sites proc
  | .chain _ arms fallback => Guarded.sitesAll proc arms ++ Block.sitesOption proc fallback
  | .whileLoop ⟨_, cond, body⟩ => Site.mark { proc } cond.ids ++ body.sites proc
  | .rangeLoop node _ start stop body =>
    (node.id, { proc }) :: Site.mark { proc } start.ids ++ Site.mark { proc } stop.ids ++
      body.sites proc
  | .ret _ value => Site.mark { proc } (Expr.idsOption value)
  | .block body => body.sites proc
  | .expr value => Site.mark { proc } value.ids

def Stmt.sitesAll (proc : Option NodeId) : List Stmt → List (NodeId × Site)
  | [] => []
  | s :: ss => s.sites proc ++ Stmt.sitesAll proc ss

def Guarded.sitesAll (proc : Option NodeId) : List Guarded → List (NodeId × Site)
  | [] => []
  | ⟨_, cond, body⟩ :: arms =>
    Site.mark { proc } cond.ids ++ body.sites proc ++ Guarded.sitesAll proc arms

def Block.sites (proc : Option NodeId) : Block → List (NodeId × Site)
  | ⟨_, stmts⟩ => Stmt.sitesAll proc stmts

def Block.sitesOption (proc : Option NodeId) : Option Block → List (NodeId × Site)
  | none => []
  | some body => body.sites proc

def ProcDecl.sites (outer : Option NodeId) : ProcDecl → List (NodeId × Site)
  | ⟨node, _, params, _, body⟩ =>
    (node.id, { proc := outer }) :: Param.sitesAll node.id params ++ body.sites (some node.id)

end

mutual

/-- Jumps stand in what they leave: `break` and `skip` in a loop of the same procedure, `return` in
a procedure. Artifacts stand at module level only. -/
@[simp]
def Stmt.JumpsIn (inLoop inProc : Bool) : Stmt → Prop
  | .importUnit _ | .artifact _ | .var _ | .assign .. | .expr _ => True
  | .proc decl => decl.JumpsIn
  | .cond ⟨_, _, body⟩ | .block body => body.JumpsIn inLoop inProc
  | .chain _ arms fallback =>
    Guarded.AllJumpIn inLoop inProc arms ∧ Block.OptionJumpsIn inLoop inProc fallback
  | .whileLoop ⟨_, _, body⟩ | .rangeLoop _ _ _ _ body => body.JumpsIn true inProc
  | .breakLoop _ | .skipTurn _ => inLoop = true
  | .ret _ _ => inProc = true

@[simp]
def Stmt.AllJumpIn (inLoop inProc : Bool) : List Stmt → Prop
  | [] => True
  | s :: ss => s.JumpsIn inLoop inProc ∧ Stmt.AllJumpIn inLoop inProc ss

@[simp]
def Guarded.AllJumpIn (inLoop inProc : Bool) : List Guarded → Prop
  | [] => True
  | ⟨_, _, body⟩ :: arms => body.JumpsIn inLoop inProc ∧ Guarded.AllJumpIn inLoop inProc arms

@[simp]
def Block.JumpsIn (inLoop inProc : Bool) : Block → Prop
  | ⟨_, stmts⟩ => Stmt.AllJumpIn inLoop inProc stmts

@[simp]
def Block.OptionJumpsIn (inLoop inProc : Bool) : Option Block → Prop
  | none => True
  | some body => body.JumpsIn inLoop inProc

/-- The body of a procedure belongs to no loop around the procedure. -/
@[simp]
def ProcDecl.JumpsIn : ProcDecl → Prop
  | ⟨_, _, _, _, body⟩ => body.JumpsIn false true

end

theorem ProcDecl.jumpsIn_iff {d : ProcDecl} :
    d.JumpsIn ↔ Stmt.AllJumpIn false true d.body.stmts := by
  rcases d with ⟨_, _, _, _, ⟨_, _⟩⟩
  exact Iff.rfl

theorem Stmt.allJumpIn_iff {inLoop inProc : Bool} {ss : List Stmt} :
    Stmt.AllJumpIn inLoop inProc ss ↔ ∀ s ∈ ss, s.JumpsIn inLoop inProc := by
  induction ss with
  | nil => simp
  | cons s ss ih => simp [ih]

/-- All jumps of a program stand in what they leave, those in the procedures of artifacts too. -/
def Program.JumpsIn (p : Program) : Prop :=
  Stmt.AllJumpIn false false p.stmts ∧
    ∀ a, .artifact a ∈ p.stmts → ∀ d ∈ a.procs, d.JumpsIn

def Member.sites : Member → List (NodeId × Site)
  | .prop decl => decl.sites none
  | .proc decl => decl.sites none
  | .enumCase _ => []

/-- The nodes of a statement at module level with their sites. -/
def Stmt.topSites : Stmt → List (NodeId × Site)
  | .artifact decl => decl.members.flatMap Member.sites
  | s => s.sites none

def Program.sites (p : Program) : List (NodeId × Site) :=
  p.stmts.flatMap Stmt.topSites

def Program.siteOf (p : Program) (n : NodeId) : Site :=
  (p.sites.lookup n).getD {}

/-! ### Each node has one site -/

theorem Site.mark_fst (site : Site) (ids : List NodeId) : (site.mark ids).map Prod.fst = ids := by
  rw [mark, map_map]
  exact map_id ids

theorem VarDecl.sites_fst (proc : Option NodeId) (decl : VarDecl) :
    (decl.sites proc).map Prod.fst = decl.ids := by
  rw [sites, map_cons, Site.mark_fst, ids]

theorem Param.sitesAll_fst (proc : NodeId) (ps : List Param) :
    (Param.sitesAll proc ps).map Prod.fst = Param.idsAll ps := by
  induction ps with
  | nil => rfl
  | cons p ps ih => rw [sitesAll, map_append, Site.mark_fst, ih, idsAll]

theorem ArtifactDecl.propIds_sublist (decl : ArtifactDecl) : decl.propIds.Sublist decl.ids := by
  obtain ⟨node, name, kind, members⟩ := decl
  have all : (ArtifactDecl.mk node name kind members).propIds.Sublist (Member.idsAll members) := by
    induction members with
    | nil => exact nil_sublist _
    | cons member rest ih =>
      cases member with
      | prop decl => exact (sublist_cons_self _ _).append ih
      | _ => exact ih.trans (sublist_append_right _ _)
  rw [ArtifactDecl.ids]
  exact all.trans (sublist_cons_self _ _)

mutual

/-- Nodes of a statement have one site each. -/
theorem Stmt.sites_fst (proc : Option NodeId) :
    (s : Stmt) → ((s.sites proc).map Prod.fst).Sublist s.ids
  | .importUnit _ | .breakLoop _ | .skipTurn _ => by simp [Stmt.sites]
  | .artifact decl => by
    rw [Stmt.sites, Site.mark_fst, Stmt.ids]
    exact decl.propIds_sublist
  | .var decl => by
    simp only [Stmt.sites, VarDecl.sites_fst, Stmt.ids, List.Sublist.refl]
  | .proc decl => by
    rw [Stmt.sites, Stmt.ids]
    exact decl.sites_fst proc
  | .assign _ target value => by
    simp only [Stmt.sites, Stmt.ids, map_append, Site.mark_fst, Site.mark_fst, List.Sublist.refl]
  | .cond ⟨_, cond, body⟩ | .whileLoop ⟨_, cond, body⟩ => by
    rw [Stmt.sites, Stmt.ids, map_append, Site.mark_fst]
    exact (body.sites_fst proc).append_left _
  | .chain _ arms fallback => by
    rw [Stmt.sites, Stmt.ids, map_append]
    exact (Guarded.sitesAll_fst proc arms).append (Block.sitesOption_fst proc fallback)
  | .rangeLoop node _ start stop body => by
    rw [Stmt.sites, Stmt.ids, map_append, map_append, map_cons, Site.mark_fst,
      Site.mark_fst]
    exact (body.sites_fst proc).append_left _
  | .ret .. | .expr _ => by
    simp only [Stmt.sites, Stmt.ids, Site.mark_fst, List.Sublist.refl]
  | .block body => by
    rw [Stmt.sites, Stmt.ids]
    exact body.sites_fst proc

theorem Stmt.sitesAll_fst (proc : Option NodeId) :
    (ss : List Stmt) → ((Stmt.sitesAll proc ss).map Prod.fst).Sublist (Stmt.idsAll ss)
  | [] => by simp [Stmt.sitesAll]
  | s :: ss => by
    rw [Stmt.sitesAll, Stmt.idsAll, map_append]
    exact (s.sites_fst proc).append (Stmt.sitesAll_fst proc ss)

theorem Guarded.sitesAll_fst (proc : Option NodeId) :
    (arms : List Guarded) →
      ((Guarded.sitesAll proc arms).map Prod.fst).Sublist (Guarded.idsAll arms)
  | [] => by simp [Guarded.sitesAll]
  | ⟨_, cond, body⟩ :: arms => by
    rw [Guarded.sitesAll, Guarded.idsAll, map_append, map_append, Site.mark_fst]
    exact ((body.sites_fst proc).append_left _).append (Guarded.sitesAll_fst proc arms)

theorem Block.sites_fst (proc : Option NodeId) :
    (b : Block) → ((b.sites proc).map Prod.fst).Sublist b.ids
  | ⟨_, stmts⟩ => by
    rw [Block.sites, Block.ids]
    exact Stmt.sitesAll_fst proc stmts

theorem Block.sitesOption_fst (proc : Option NodeId) :
    (b : Option Block) → ((Block.sitesOption proc b).map Prod.fst).Sublist (Block.idsOption b)
  | none => by simp [Block.sitesOption]
  | some body => by
    rw [Block.sitesOption, Block.idsOption]
    exact body.sites_fst proc

theorem ProcDecl.sites_fst (outer : Option NodeId) :
    (decl : ProcDecl) → ((decl.sites outer).map Prod.fst).Sublist decl.ids
  | ⟨node, _, params, _, body⟩ => by
    rw [ProcDecl.sites, ProcDecl.ids, map_append, map_cons, Param.sitesAll_fst]
    exact (body.sites_fst (some node.id)).append_left _

end

theorem Member.sites_fst (members : List Member) :
    ((members.flatMap Member.sites).map Prod.fst).Sublist (Member.idsAll members) := by
  induction members with
  | nil => simp
  | cons m ms ih =>
    rw [flatMap_cons, map_append, Member.idsAll]
    refine List.Sublist.append ?_ ih
    cases m with
    | prop decl =>
      simp only [Member.sites, VarDecl.sites_fst, Member.ids, List.Sublist.refl]
    | proc decl => exact decl.sites_fst none
    | enumCase decl => simp [Member.sites]

theorem Stmt.topSites_fst (s : Stmt) : (s.topSites.map Prod.fst).Sublist s.ids := by
  cases s with
  | artifact decl =>
    obtain ⟨node, name, kind, members⟩ := decl
    rw [Stmt.ids, ArtifactDecl.ids]
    exact (Member.sites_fst members).trans (sublist_cons_self _ _)
  | _ => exact Stmt.sites_fst none _

theorem Program.sites_fst (p : Program) : (p.sites.map Prod.fst).Sublist p.ids := by
  have all (ss : List Stmt) :
      ((ss.flatMap Stmt.topSites).map Prod.fst).Sublist (Stmt.idsAll ss) := by
    induction ss with
    | nil => simp [Stmt.idsAll]
    | cons s ss ih =>
      rw [flatMap_cons, map_append, Stmt.idsAll]
      exact s.topSites_fst.append ih
  exact all p.stmts

/-- The site of a node is where it stands. -/
theorem Program.siteOf_eq {p : Program} (distinct : p.ids.Nodup) {n : NodeId} {site : Site}
    (h : (n, site) ∈ p.sites) : p.siteOf n = site := by
  have once : (p.sites.map Prod.fst).Nodup := distinct.sublist p.sites_fst
  have find (entries : List (NodeId × Site)) (once : (entries.map Prod.fst).Nodup)
      (mem : (n, site) ∈ entries) : entries.lookup n = some site := by
    induction entries with
    | nil => cases mem
    | cons entry rest ih =>
      rw [map_cons, nodup_cons] at once
      rw [lookup_cons]
      rcases List.mem_cons.mp mem with rfl | mem
      · simp
      · have other : n ≠ entry.1 := by
          rintro rfl
          exact once.1 (List.mem_map.mpr ⟨_, mem, rfl⟩)
        rw [beq_false_of_ne other]
        exact ih once.2 mem
  rw [siteOf, find p.sites once h, Option.getD_some]

end ArkLang
