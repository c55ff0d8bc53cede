import ArkLang.Proofs.ParsedTrees
import ArkLang.Tree.Normal

/-!
# Parsed trees are in normal order

The parser and the normal form number nodes in the same order. So the identities of a parsed program
are those of its normal form, and taking the normal form only drops the places. A parser that is
asked again and again never gives an identity twice, whatever it was asked for and whether it
failed.
-/

namespace ArkLang

open List

/-! ### Trees without places -/

def Node.unplaced (node : Node) : Node :=
  ⟨node.id, nowhere⟩

mutual

/-- An expression without places. -/
def Expr.unplaced : Expr → Expr
  | .int node value => .int node.unplaced value
  | .float node value => .float node.unplaced value
  | .str node value => .str node.unplaced value
  | .bool node value => .bool node.unplaced value
  | .ident node name => .ident node.unplaced name
  | .selfProp node name => .selfProp node.unplaced (Ident.normalize name)
  | .array node items => .array node.unplaced (Expr.unplacedAll items)
  | .unary node op operand => .unary node.unplaced op operand.unplaced
  | .binary node left op right => .binary node.unplaced left.unplaced op right.unplaced
  | .postOp node op operand => .postOp node.unplaced op operand.unplaced
  | .call node callee args => .call node.unplaced callee.unplaced (Expr.unplacedAll args)
  | .index node base place => .index node.unplaced base.unplaced place.unplaced
  | .member node base name => .member node.unplaced base.unplaced (Ident.normalize name)

def Expr.unplacedAll : List Expr → List Expr
  | [] => []
  | e :: es => e.unplaced :: Expr.unplacedAll es

end

def VarDecl.unplaced (d : VarDecl) : VarDecl :=
  ⟨d.node.unplaced, Ident.normalize d.name, d.mutable, d.type.map TypeExpr.normalize,
    d.value.map Expr.unplaced⟩

def Param.unplaced (p : Param) : Param :=
  ⟨p.node.unplaced, Ident.normalize p.name, p.type.map TypeExpr.normalize,
    p.default.map Expr.unplaced⟩

mutual

def Stmt.unplaced : Stmt → Stmt
  | .importUnit decl => .importUnit ⟨nowhere, decl.path, decl.quoted, Ident.normalize decl.name⟩
  | .var decl => .var decl.unplaced
  | .proc decl => .proc decl.unplaced
  | .artifact decl => .artifact decl.unplaced
  | .assign _ target value => .assign nowhere target.unplaced value.unplaced
  | .cond ⟨_, cond, body⟩ => .cond ⟨nowhere, cond.unplaced, body.unplaced⟩
  | .chain _ arms fallback => .chain nowhere (Guarded.unplacedAll arms)
      (Block.unplacedOption fallback)
  | .whileLoop ⟨_, cond, body⟩ => .whileLoop ⟨nowhere, cond.unplaced, body.unplaced⟩
  | .rangeLoop node var start stop body =>
    .rangeLoop node.unplaced (Ident.normalize var) start.unplaced stop.unplaced body.unplaced
  | .breakLoop _ => .breakLoop nowhere
  | .skipTurn _ => .skipTurn nowhere
  | .ret _ value => .ret nowhere (value.map Expr.unplaced)
  | .block body => .block body.unplaced
  | .expr value => .expr value.unplaced

def Stmt.unplacedAll : List Stmt → List Stmt
  | [] => []
  | s :: ss => s.unplaced :: Stmt.unplacedAll ss

def Guarded.unplacedAll : List Guarded → List Guarded
  | [] => []
  | ⟨_, cond, body⟩ :: gs => ⟨nowhere, cond.unplaced, body.unplaced⟩ :: Guarded.unplacedAll gs

def Block.unplaced : Block → Block
  | ⟨_, stmts⟩ => ⟨nowhere, Stmt.unplacedAll stmts⟩

def Block.unplacedOption : Option Block → Option Block
  | none => none
  | some body => some body.unplaced

def ProcDecl.unplaced : ProcDecl → ProcDecl
  | ⟨node, name, params, ret, body⟩ => ⟨node.unplaced, Ident.normalize name,
      params.map Param.unplaced, ret.map TypeExpr.normalize, body.unplaced⟩

def ArtifactDecl.unplaced : ArtifactDecl → ArtifactDecl
  | ⟨node, name, kind, members⟩ =>
    ⟨node.unplaced, Ident.normalize name, kind, Member.unplacedAll members⟩

def Member.unplaced : Member → Member
  | .prop decl => .prop decl.unplaced
  | .proc decl => .proc decl.unplaced
  | .enumCase decl => .enumCase decl.normalize

def Member.unplacedAll : List Member → List Member
  | [] => []
  | m :: ms => m.unplaced :: Member.unplacedAll ms

end

def Program.unplaced (p : Program) : Program :=
  ⟨Stmt.unplacedAll p.stmts⟩

/-! ### Normal forms of trees in order -/

section Keeps

variable {α β : Type} {m : Numbering α} {f : α → Numbering β} {ids ids' : List NodeId}
    {a : α} {b : β}

/-- Numbering that gives `a` back if the identities are those that are given next. -/
def Keeps (m : Numbering α) (ids : List NodeId) (a : α) : Prop :=
  ∀ n, ids = List.range' n ids.length → m.run n = (a, n + ids.length)

theorem Keeps.pure : Keeps (pure a) [] a :=
  fun _ _ => rfl

theorem Keeps.bind (hm : Keeps m ids a) (hf : Keeps (f a) ids' b) :
    Keeps (m >>= f) (ids ++ ids') b := by
  intro n counted
  rw [length_append, ← range'_append_1] at counted
  obtain ⟨first, second⟩ := append_inj counted (by simp)
  rw [StateT.run_bind, hm n first, length_append, ← Nat.add_assoc]
  exact hf _ second

theorem Keeps.map {g : α → β} (hm : Keeps m ids a) :
    Keeps (m >>= fun a => Pure.pure (g a)) ids (g a) :=
  append_nil ids ▸ hm.bind .pure

theorem Keeps.next (node : Node) : Keeps .next [node.id] node.unplaced := by
  intro n counted
  obtain rfl : node.id = n := by simpa using counted
  rfl

end Keeps

mutual

theorem Expr.keeps : (e : Expr) → Keeps e.normalize e.ids e.unplaced
  | .int node _ | .float node _ | .str node _ | .bool node _ | .ident node _ | .selfProp node _ =>
    (Keeps.next node).map
  | .array node items => (Expr.keepsAll items).bind (Keeps.next node).map
  | .unary node _ base | .postOp node _ base | .member node base _ =>
    base.keeps.bind (Keeps.next node).map
  | .binary node left _ right | .index node left right => by
    rw [Expr.ids, append_assoc]
    exact left.keeps.bind (right.keeps.bind (Keeps.next node).map)
  | .call node callee args => by
    rw [Expr.ids, append_assoc]
    exact callee.keeps.bind ((Expr.keepsAll args).bind (Keeps.next node).map)

theorem Expr.keepsAll : (es : List Expr) →
    Keeps (Expr.normalizeAll es) (Expr.idsAll es) (Expr.unplacedAll es)
  | [] => .pure
  | e :: es => e.keeps.bind (Expr.keepsAll es).map

end

theorem Expr.keepsOption (e : Option Expr) :
    Keeps (Expr.normalizeOption e) (Expr.idsOption e) (e.map Expr.unplaced) := by
  cases e with
  | none => exact .pure
  | some e => exact e.keeps.map

theorem VarDecl.keeps (d : VarDecl) : Keeps d.normalize d.ids d.unplaced :=
  (Keeps.next d.node).bind (Expr.keepsOption d.value).map

theorem Param.keeps (p : Param) : Keeps p.normalize p.ids p.unplaced :=
  (Keeps.next p.node).bind (Expr.keepsOption p.default).map

theorem Param.keepsAll (ps : List Param) :
    Keeps (Param.normalizeAll ps) (Param.idsAll ps) (ps.map Param.unplaced) := by
  induction ps with
  | nil => exact .pure
  | cons p ps ih => exact p.keeps.bind ih.map

mutual

theorem Stmt.keeps : (s : Stmt) → Keeps s.normalize s.ids s.unplaced
  | .importUnit _ | .breakLoop _ | .skipTurn _ => .pure
  | .var decl | .proc decl | .artifact decl | .block decl | .expr decl => decl.keeps.map
  | .assign _ target value => target.keeps.bind value.keeps.map
  | .cond ⟨_, cond, body⟩ | .whileLoop ⟨_, cond, body⟩ => (cond.keeps.bind body.keeps.map).map
  | .chain _ arms fallback => (Guarded.keepsAll arms).bind (Block.keepsOption fallback).map
  | .rangeLoop node _ start stop body => by
    rw [Stmt.ids, append_assoc]
    exact (Keeps.next node).bind (start.keeps.bind (stop.keeps.bind body.keeps.map))
  | .ret _ value => (Expr.keepsOption value).map

theorem Stmt.keepsAll : (ss : List Stmt) →
    Keeps (Stmt.normalizeAll ss) (Stmt.idsAll ss) (Stmt.unplacedAll ss)
  | [] => .pure
  | s :: ss => s.keeps.bind (Stmt.keepsAll ss).map

theorem Guarded.keepsAll : (gs : List Guarded) →
    Keeps (Guarded.normalizeAll gs) (Guarded.idsAll gs) (Guarded.unplacedAll gs)
  | [] => .pure
  | ⟨_, cond, body⟩ :: gs => (cond.keeps.bind body.keeps.map).bind (Guarded.keepsAll gs).map

theorem Block.keeps : (body : Block) → Keeps body.normalize body.ids body.unplaced
  | ⟨_, stmts⟩ => (Stmt.keepsAll stmts).map

theorem Block.keepsOption : (body : Option Block) →
    Keeps (Block.normalizeOption body) (Block.idsOption body) (Block.unplacedOption body)
  | none => .pure
  | some body => body.keeps.map

theorem ProcDecl.keeps : (d : ProcDecl) → Keeps d.normalize d.ids d.unplaced
  | ⟨node, _, params, _, body⟩ =>
      (Keeps.next node).bind ((Param.keepsAll params).bind body.keeps.map)

theorem ArtifactDecl.keeps : (d : ArtifactDecl) → Keeps d.normalize d.ids d.unplaced
  | ⟨node, _, _, members⟩ => (Keeps.next node).bind (Member.keepsAll members).map

theorem Member.keeps : (m : Member) → Keeps m.normalize m.ids m.unplaced
  | .prop decl => decl.keeps.map
  | .proc decl => decl.keeps.map
  | .enumCase _ => .pure

theorem Member.keepsAll : (ms : List Member) →
    Keeps (Member.normalizeAll ms) (Member.idsAll ms) (Member.unplacedAll ms)
  | [] => .pure
  | m :: ms => m.keeps.bind (Member.keepsAll ms).map

end

theorem Program.normalize_eq_unplaced {p : Program} (h : p.ids = List.range p.ids.length) :
    p.normalize = p.unplaced := by
  rw [range_eq_range'] at h
  have kept := Stmt.keepsAll p.stmts 0 h
  rw [Program.normalize, kept, Program.unplaced]

/-! ### A parser that is asked again -/

/-- What a parser can be asked for. -/
inductive ParserCall where
  | expr
  | wholeExpr
  | program
  | recoveredProgram

/-- What a parser gives. -/
inductive ParsedTree where
  | expr (e : Expr)
  | program (p : Program)

def ParsedTree.ids : ParsedTree → List NodeId
  | .expr e => e.ids
  | .program p => p.ids

namespace ParserRun

/-- Asks a parser once: the tree, unless it fails, and the parser behind it. -/
def call (run : ParserRun) : ParserCall → Option ParsedTree × ParserRun
  | .expr => (run.expr.1.toOption.map .expr, run.expr.2)
  | .wholeExpr => (run.wholeExpr.1.toOption.map .expr, run.wholeExpr.2)
  | .program => (run.program.1.toOption.map .program, run.program.2)
  | .recoveredProgram => (some (.program run.recoveredProgram.1), run.recoveredProgram.2.2)

/-- The trees that a parser gives when it is asked again and again. -/
def trees (run : ParserRun) : List ParserCall → List ParsedTree
  | [] => []
  | call :: calls => (run.call call).1.toList ++ (run.call call).2.trees calls

variable {α : Type} (run : ParserRun) (recovering : Bool) {p : Parser α}

theorem numbered_step {frag : α → Fragment} {a : α} (h : ∀ law : TreeLaw, law.Reads p frag)
    (given : (run.step recovering p).1 = .ok a) :
    Numbered recovering (frag a).ids run.nextId (run.step recovering p).2.2.nextId :=
  numbered_of_reads h (Prod.ext given rfl)

/-- One answer of a parser: the numbers of a failure are lost. -/
theorem numbered_answer {frag : α → Fragment} (tree : α → ParsedTree)
    (h : ∀ law : TreeLaw, law.Reads p frag)
    (same : ∀ a, (tree a).ids = (frag a).ids) :
    Numbered true (((run.step recovering p).1.toOption.map tree).toList.flatMap ParsedTree.ids)
      run.nextId (run.step recovering p).2.2.nextId := by
  cases given : (run.step recovering p).1 with
  | error e =>
    have forward : Forward p := .of_holds fun law => h law 0 0 [] (Nat.zero_le _)
    have rises := (forward ⟨run.tokens, run.dialect, recovering⟩ ⟨run.rest, run.nextId, []⟩).2
    exact Numbered.nil.lose rises
  | ok a =>
    have numbered := (run.numbered_step recovering h given).weaken
    simpa [Except.toOption, same] using numbered

theorem numbered_call (call : ParserCall) :
    Numbered true ((run.call call).1.toList.flatMap ParsedTree.ids) run.nextId
      (run.call call).2.nextId := by
  cases call with
  | expr =>
    exact run.numbered_answer false .expr @Parser.reads_expr fun _ => rfl
  | wholeExpr =>
    exact run.numbered_answer false .expr @Parser.reads_wholeExpr fun _ => rfl
  | program =>
    exact run.numbered_answer false .program @Parser.reads_program fun _ => rfl
  | recoveredProgram =>
    have answer := run.numbered_answer true .program @Parser.reads_program fun _ => rfl
    rw [call, recoveredProgram]
    rcases outcome : run.step true Parser.program with ⟨e | p, errors, after⟩
    · simpa [outcome, Except.toOption, ParsedTree.ids, Program.ids, Stmt.idsAll] using answer
    · simpa [outcome, Except.toOption] using answer

theorem numbered_trees (calls : List ParserCall) :
    ∃ next, Numbered true ((run.trees calls).flatMap ParsedTree.ids) run.nextId next := by
  induction calls generalizing run with
  | nil => exact ⟨_, .nil⟩
  | cons call calls ih =>
    obtain ⟨next, more⟩ := ih (run.call call).2
    refine ⟨next, ?_⟩
    rw [trees, flatMap_append]
    exact (run.numbered_call call).append more

end ParserRun

/-- The identities of a parsed program are `0`, `1`, `2`, … in the order of its normal form, which
therefore only drops the places; and the trees that a parser gives one after the other, whether or
not some calls fail, have no identity in common. -/
theorem numbered_in_normal_order (tokens : List Token) (dialect : Dialect) :
    (∀ p, (ParserRun.start tokens dialect).program.1 = .ok p →
      (∃ n, p.ids = List.range n) ∧ p.normalize = p.unplaced) ∧
    ∀ calls, (((ParserRun.start tokens dialect).trees calls).flatMap ParsedTree.ids).Nodup := by
  constructor
  · intro p parsed
    have numbered : p.ids = _ :=
      ((ParserRun.start tokens dialect).numbered_step false @Parser.reads_program
        parsed).gapless rfl
    have counted : p.ids = List.range p.ids.length := by
      rw [numbered, length_range', range_eq_range']
      rfl
    exact ⟨⟨_, counted⟩, Program.normalize_eq_unplaced counted⟩
  · intro calls
    obtain ⟨next, numbered⟩ := (ParserRun.start tokens dialect).numbered_trees calls
    exact numbered.sublist.nodup nodup_range'

/-- A declaration is read and numbered. Another parser reads an expression, fails, and goes on with
new numbers after each of two errors. -/
theorem numbered_in_normal_order_sum :
    (∃ p, (ParserRun.start (tokensAndErrors "x := a + f(b)").1 .inferred).program.1 = .ok p ∧
      (∃ n, p.ids = List.range n) ∧ p.normalize = p.unplaced) ∧
    let run := ParserRun.start
      (tokensAndErrors "-x\nf(b) + ]\ny := 2\nz := 1 + )\nw := 2").1 .inferred
    (run.trees [.expr, .program, .recoveredProgram]).map ParsedTree.ids = [[0, 1], [5, 6, 9, 10]] ∧
      ((run.trees [.expr, .program, .recoveredProgram]).flatMap ParsedTree.ids).Nodup := by
  refine ⟨?_, by decide +kernel, (numbered_in_normal_order _ _).2 _⟩
  have accepted : (ParserRun.start (tokensAndErrors "x := a + f(b)").1 .inferred).program.1.isOk =
    true := by decide +kernel
  cases parsed : (ParserRun.start (tokensAndErrors "x := a + f(b)").1 .inferred).program.1 with
  | ok p => exact ⟨p, rfl, (numbered_in_normal_order _ _).1 p parsed⟩
  | error e => simp [parsed, Except.isOk, Except.toBool] at accepted

end ArkLang
