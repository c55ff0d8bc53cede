import ArkLang.Tree.Parser

/-!
# Nodes in the text

Every node of a tree has a place in the text. It starts with a token and ends with one, and it holds
the nodes it is made of, which are written one behind the other. Parentheses leave no node, so a
node may start behind a parenthesis that is opened for it, and end in front of the one that closes
it.

## Main definitions

* `Extent` — the place of a node, and those of its parts
* `Extent.Fits` — a node as it stands in a text
* `Program.extents` — the nodes of a program
-/

namespace ArkLang

/-- The place of a node, and the nodes it is made of in the order of the tree. -/
structure Extent where
  span : Span
  parts : List Extent

namespace Extent

mutual

/-- A node and all nodes inside it. -/
def nodes : Extent → List Extent
  | ⟨span, parts⟩ => ⟨span, parts⟩ :: nodesAll parts

def nodesAll : List Extent → List Extent
  | [] => []
  | x :: xs => x.nodes ++ nodesAll xs

end

theorem mem_nodesAll {x : Extent} {xs : List Extent} :
    x ∈ nodesAll xs ↔ ∃ y ∈ xs, x ∈ y.nodes := by
  induction xs with
  | nil => simp [nodesAll]
  | cons y ys ih => simp [nodesAll, ih]

/-- A node ends before another one starts. -/
def InFront (x y : Extent) : Prop :=
  x.span.stop ≤ y.span.offset

/-- A node as it stands in a text with some tokens: it starts with a token and ends with one, it
holds its parts, and these are written one behind the other. -/
structure Fits (ts : List Token) (x : Extent) : Prop where
  starts : ∃ t ∈ ts, t.kind ≠ .eof ∧ t.span.offset = x.span.offset ∧ t.span.stop ≤ x.span.stop
  stops : ∃ t ∈ ts, t.kind ≠ .eof ∧ t.span.stop = x.span.stop ∧ x.span.offset ≤ t.span.offset
  holds : ∀ y ∈ x.parts, x.span.offset ≤ y.span.offset ∧ y.span.stop ≤ x.span.stop
  ordered : x.parts.Pairwise InFront

def FitsWhole (ts : List Token) (x : Extent) : Prop :=
  ∀ y ∈ x.nodes, y.Fits ts

theorem FitsWhole.fits {ts : List Token} {x : Extent} (h : x.FitsWhole ts) : x.Fits ts :=
  h x (by cases x; exact List.mem_cons_self)

/-- A node fits with all nodes that it is made of. -/
theorem fitsWhole_iff {ts : List Token} {x : Extent} :
    x.FitsWhole ts ↔ x.Fits ts ∧ ∀ y ∈ x.parts, y.FitsWhole ts := by
  obtain ⟨span, parts⟩ := x
  simp only [FitsWhole, nodes, List.forall_mem_cons, mem_nodesAll]
  constructor
  · rintro ⟨here, inside⟩
    exact ⟨here, fun y mem z mem' => inside z ⟨y, mem, mem'⟩⟩
  · rintro ⟨here, inside⟩
    refine ⟨here, ?_⟩
    rintro z ⟨y, mem, mem'⟩
    exact inside y mem z mem'

end Extent

/-! ### The nodes of trees -/

def Located.extent {α : Type} (x : Located α) : Extent :=
  ⟨x.span, []⟩

mutual

def TypeExpr.extent : TypeExpr → Extent
  | .named span name => ⟨span, [name.extent]⟩
  | .qualified span module name => ⟨span, [module.extent, name.extent]⟩
  | .array span elem _ | .list span elem => ⟨span, [elem.extent]⟩
  | .proc span params ret => ⟨span, TypeExpr.extents params ++ [ret.extent]⟩

def TypeExpr.extents : List TypeExpr → List Extent
  | [] => []
  | t :: ts => t.extent :: TypeExpr.extents ts

end

mutual

def Expr.extent : Expr → Extent
  | .int node _ | .float node _ | .str node _ | .bool node _ | .ident node _ => ⟨node.span, []⟩
  | .selfProp node name => ⟨node.span, [name.extent]⟩
  | .array node items => ⟨node.span, Expr.extents items⟩
  | .unary node _ operand | .postOp node _ operand => ⟨node.span, [operand.extent]⟩
  | .binary node left _ right => ⟨node.span, [left.extent, right.extent]⟩
  | .call node callee args => ⟨node.span, callee.extent :: Expr.extents args⟩
  | .index node base place => ⟨node.span, [base.extent, place.extent]⟩
  | .member node base name => ⟨node.span, [base.extent, name.extent]⟩

def Expr.extents : List Expr → List Extent
  | [] => []
  | e :: es => e.extent :: Expr.extents es

end

def Import.extent (i : Import) : Extent :=
  ⟨i.span, [i.name.extent]⟩

def VarDecl.extent (v : VarDecl) : Extent :=
  ⟨v.node.span,
    v.name.extent :: (v.type.toList.map TypeExpr.extent ++ v.value.toList.map Expr.extent)⟩

def Param.extent (p : Param) : Extent :=
  ⟨p.node.span,
    p.name.extent :: (p.type.toList.map TypeExpr.extent ++ p.default.toList.map Expr.extent)⟩

def EnumCase.extent (c : EnumCase) : Extent :=
  ⟨c.span, c.name.extent :: c.value.toList.map Located.extent⟩

mutual

def Stmt.extent : Stmt → Extent
  | .importUnit decl => decl.extent
  | .var decl => decl.extent
  | .proc decl => decl.extent
  | .artifact decl => decl.extent
  | .assign span target value => ⟨span, [target.extent, value.extent]⟩
  | .cond arm | .whileLoop arm => arm.extent
  | .chain span arms fallback => ⟨span, Guarded.extents arms ++ Block.fallbackExtent fallback⟩
  | .rangeLoop node var start stop body =>
    ⟨node.span, [var.extent, start.extent, stop.extent, body.extent]⟩
  | .breakLoop span | .skipTurn span => ⟨span, []⟩
  | .ret span value => ⟨span, value.toList.map Expr.extent⟩
  | .block body => body.extent
  | .expr value => value.extent

def Stmt.extents : List Stmt → List Extent
  | [] => []
  | s :: ss => s.extent :: Stmt.extents ss

def Guarded.extent : Guarded → Extent
  | ⟨span, cond, body⟩ => ⟨span, [cond.extent, body.extent]⟩

def Guarded.extents : List Guarded → List Extent
  | [] => []
  | g :: gs => g.extent :: Guarded.extents gs

def Block.extent : Block → Extent
  | ⟨span, stmts⟩ => ⟨span, Stmt.extents stmts⟩

def Block.fallbackExtent : Option Block → List Extent
  | none => []
  | some body => [body.extent]

def ProcDecl.extent : ProcDecl → Extent
  | ⟨node, name, params, ret, body⟩ =>
    ⟨node.span,
      name.extent :: (params.map Param.extent ++ ret.toList.map TypeExpr.extent ++ [body.extent])⟩

def ArtifactDecl.extent : ArtifactDecl → Extent
  | ⟨node, name, _, members⟩ => ⟨node.span, name.extent :: Member.extents members⟩

def Member.extent : Member → Extent
  | .prop decl => decl.extent
  | .proc decl => decl.extent
  | .enumCase decl => decl.extent

def Member.extents : List Member → List Extent
  | [] => []
  | m :: ms => m.extent :: Member.extents ms

end

def Program.extents (p : Program) : List Extent :=
  Stmt.extents p.stmts

@[simp] theorem Located.span_extent {α : Type} (x : Located α) : x.extent.span = x.span := rfl

@[simp] theorem TypeExpr.span_extent (t : TypeExpr) : t.extent.span = t.span := by
  cases t <;> rfl

/-- The place of an expression is its span. -/
@[simp] theorem Expr.span_extent (e : Expr) : e.extent.span = e.span := by
  cases e <;> rfl

@[simp] theorem Block.span_extent (b : Block) : b.extent.span = b.span := by
  cases b
  rfl

@[simp] theorem Import.span_extent (i : Import) : i.extent.span = i.span := rfl

@[simp] theorem Guarded.span_extent (g : Guarded) : g.extent.span = g.span := by
  cases g
  rfl

@[simp] theorem ArtifactDecl.span_extent (a : ArtifactDecl) : a.extent.span = a.node.span := by
  cases a
  rfl

theorem Member.mem_extents {m : Member} {ms : List Member} (h : m ∈ ms) :
    m.extent ∈ Member.extents ms := by
  induction ms with
  | nil => cases h
  | cons n ms ih => rcases List.mem_cons.mp h with rfl | h <;> simp_all [extents]

theorem Stmt.extents_eq_map (ss : List Stmt) : Stmt.extents ss = ss.map extent := by
  induction ss with
  | nil => rfl
  | cons s ss ih => rw [extents, ih, List.map_cons]

end ArkLang
