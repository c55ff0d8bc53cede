import ArkLang.Proofs.SameStructure

/-!
# Normal forms decide sameness

The normal form of a tree has the structure of the tree, whatever number its first node gets: every
part of it is a copy that is the same as the part it was made from, and the same as no other trees
than that one is. So trees with one normal form have one structure, and a normal form is its own.
-/

namespace ArkLang

section Makes

variable {α β : Type} {m : Numbering α} {f : α → Numbering β} {P : α → Prop} {Q : β → Prop} {a : α}

/-- What holds of the result of a numbering, whatever numbers it gives. -/
def Makes (m : Numbering α) (P : α → Prop) : Prop :=
  ∀ n, P (m.run n).1

theorem Makes.pure (h : P a) : Makes (pure a) P :=
  fun _ => h

theorem Makes.bind (hm : Makes m P) (hf : ∀ a, P a → Makes (f a) Q) : Makes (m >>= f) Q :=
  fun n => hf _ (hm n) _

theorem Makes.map {g : α → β} (hm : Makes m P) (hg : ∀ a, P a → Q (g a)) :
    Makes (m >>= fun a => Pure.pure (g a)) Q :=
  hm.bind fun a ha => .pure (hg a ha)

theorem Makes.next : Makes .next fun _ => True :=
  fun _ => trivial

end Makes

/-- A tree that is the same as another one, and the same as no other trees than that one is. -/
structure CopyOf {α : Type} (alike : α → α → Bool) (a b : α) : Prop where
  same : alike a b = true
  congr : ∀ c, alike a c = alike b c

/-! ### Types and expressions -/

mutual

theorem TypeExpr.copy_normalize : (t : TypeExpr) → CopyOf same t.normalize t
  | .named .. | .qualified .. =>
    ⟨by simp [normalize, same, Ident.normalize], fun c => by cases c <;> rfl⟩
  | .array _ elem _ | .list _ elem =>
    have h := elem.copy_normalize
    ⟨by simp [normalize, same, h.same], fun c => by cases c <;> simp [normalize, same, h.congr]⟩
  | .proc _ params ret =>
    have h := TypeExpr.copy_normalizeAll params
    have h' := ret.copy_normalize
    ⟨by simp [normalize, same, h.same, h'.same],
      fun c => by cases c <;> simp [normalize, same, h.congr, h'.congr]⟩

theorem TypeExpr.copy_normalizeAll : (ts : List TypeExpr) → CopyOf sameAll (normalizeAll ts) ts
  | [] => ⟨rfl, fun _ => rfl⟩
  | t :: ts =>
    have h := t.copy_normalize
    have h' := TypeExpr.copy_normalizeAll ts
    ⟨by simp [normalizeAll, sameAll, h.same, h'.same],
      fun c => by cases c <;> simp [normalizeAll, sameAll, h.congr, h'.congr]⟩

end

mutual

theorem Expr.copies : (e : Expr) → Makes e.normalize (CopyOf same · e)
  | .int .. | .float .. | .str .. | .bool .. | .ident .. | .selfProp .. => Makes.next.map fun _ _ =>
    ⟨by simp [same, Ident.normalize], fun c => by cases c <;> rfl⟩
  | .array _ items => (Expr.copiesAll items).bind fun _ h => Makes.next.map fun _ _ =>
    ⟨h.same, fun c => by cases c <;> simp [same, h.congr]⟩
  | .unary _ _ e | .postOp _ _ e | .member _ e _ => e.copies.bind fun _ h =>
      Makes.next.map fun _ _ =>
    ⟨by simp [same, h.same, Ident.normalize],
      fun c => by cases c <;> simp [same, h.congr, Ident.normalize]⟩
  | .binary _ l _ r | .index _ l r => l.copies.bind fun _ h => r.copies.bind fun _ h' =>
    Makes.next.map fun _ _ =>
      ⟨by simp [same, h.same, h'.same], fun c => by cases c <;> simp [same, h.congr, h'.congr]⟩
  | .call _ callee args => callee.copies.bind fun _ h => (Expr.copiesAll args).bind fun _ h' =>
    Makes.next.map fun _ _ =>
      ⟨by simp [same, h.same, h'.same], fun c => by cases c <;> simp [same, h.congr, h'.congr]⟩

theorem Expr.copiesAll : (es : List Expr) → Makes (normalizeAll es) (CopyOf sameAll · es)
  | [] => .pure ⟨rfl, fun _ => rfl⟩
  | e :: es => e.copies.bind fun _ h => (Expr.copiesAll es).map fun _ h' =>
    ⟨by simp [sameAll, h.same, h'.same], fun c => by cases c <;> simp [sameAll, h.congr, h'.congr]⟩

end

/-! ### Declarations -/

theorem copy_mapType (t : Option TypeExpr) :
    CopyOf (sameOption TypeExpr.same) (t.map TypeExpr.normalize) t := by
  cases t with
  | none => exact ⟨rfl, fun _ => rfl⟩
  | some t =>
    refine ⟨t.copy_normalize.same, fun c => ?_⟩
    cases c <;> simp [sameOption, t.copy_normalize.congr]

theorem Expr.copiesOption (e : Option Expr) :
    Makes (normalizeOption e) (CopyOf (sameOption same) · e) := by
  cases e with
  | none => exact .pure ⟨rfl, fun _ => rfl⟩
  | some e => exact e.copies.map fun _ h =>
    ⟨h.same, fun c => by cases c <;> simp [sameOption, h.congr]⟩

theorem VarDecl.copies (d : VarDecl) : Makes d.normalize (CopyOf same · d) :=
  have t := copy_mapType d.type
  Makes.next.bind fun _ _ => (Expr.copiesOption d.value).map fun _ h =>
    ⟨by simp [same, Ident.normalize, t.same, h.same],
      fun c => by simp [same, Ident.normalize, t.congr, h.congr]⟩

theorem Param.copies (p : Param) : Makes p.normalize (CopyOf same · p) :=
  have t := copy_mapType p.type
  Makes.next.bind fun _ _ => (Expr.copiesOption p.default).map fun _ h =>
    ⟨by simp [same, Ident.normalize, t.same, h.same],
      fun c => by simp [same, Ident.normalize, t.congr, h.congr]⟩

theorem Param.copiesAll : (ps : List Param) → Makes (normalizeAll ps) (CopyOf sameAll · ps)
  | [] => .pure ⟨rfl, fun _ => rfl⟩
  | p :: ps => p.copies.bind fun _ h => (Param.copiesAll ps).map fun _ h' =>
    ⟨by simp [sameAll, h.same, h'.same], fun c => by cases c <;> simp [sameAll, h.congr, h'.congr]⟩

theorem EnumCase.copy_normalize (c : EnumCase) : CopyOf same c.normalize c := by
  have values : (c.value.map fun v => Located.mk v.value nowhere).map Located.value =
      c.value.map Located.value := by
    cases c.value <;> rfl
  exact ⟨by simp [same, normalize, Ident.normalize, values],
    fun d => by simp only [same, normalize, Ident.normalize, values]⟩

/-! ### Statements -/

mutual

theorem Stmt.copies : (s : Stmt) → Makes s.normalize (CopyOf Stmt.same · s)
  | .importUnit decl => .pure ⟨by simp [Stmt.same, Ident.normalize], fun c => by cases c <;> rfl⟩
  | .var x | .proc x | .artifact x | .cond x | .whileLoop x | .block x | .expr x =>
    x.copies.map fun _ h => ⟨h.same, fun c => by cases c <;> simp [Stmt.same, h.congr]⟩
  | .assign _ target value => target.copies.bind fun _ h => value.copies.map fun _ h' =>
    ⟨by simp [Stmt.same, h.same, h'.same],
      fun c => by cases c <;> simp [Stmt.same, h.congr, h'.congr]⟩
  | .chain _ arms fallback => (Guarded.copiesAll arms).bind fun _ h =>
    (Block.copiesOption fallback).map fun _ h' =>
      ⟨by simp [Stmt.same, h.same, h'.same],
        fun c => by cases c <;> simp [Stmt.same, h.congr, h'.congr]⟩
  | .rangeLoop _ _ start stop body => Makes.next.bind fun _ _ => start.copies.bind fun _ h =>
    stop.copies.bind fun _ h' => body.copies.map fun _ h'' =>
      ⟨by simp [Stmt.same, Ident.normalize, h.same, h'.same, h''.same],
        fun c => by cases c <;> simp [Stmt.same, Ident.normalize, h.congr, h'.congr, h''.congr]⟩
  | .breakLoop _ | .skipTurn _ => .pure ⟨rfl, fun c => by cases c <;> rfl⟩
  | .ret _ value => (Expr.copiesOption value).map fun _ h =>
    ⟨h.same, fun c => by cases c <;> simp [Stmt.same, h.congr]⟩

theorem Stmt.copiesAll : (ss : List Stmt) → Makes (Stmt.normalizeAll ss) (CopyOf Stmt.sameAll · ss)
  | [] => .pure ⟨rfl, fun _ => rfl⟩
  | s :: ss => s.copies.bind fun _ h => (Stmt.copiesAll ss).map fun _ h' =>
    ⟨by simp [Stmt.sameAll, h.same, h'.same],
      fun c => by cases c <;> simp [Stmt.sameAll, h.congr, h'.congr]⟩

theorem Guarded.copies : (g : Guarded) → Makes g.normalize (CopyOf Guarded.same · g)
  | ⟨_, cond, body⟩ => cond.copies.bind fun _ h => body.copies.map fun _ h' =>
    ⟨by simp [Guarded.same, h.same, h'.same],
      fun c => by cases c; simp [Guarded.same, h.congr, h'.congr]⟩

theorem Guarded.copiesAll : (gs : List Guarded) →
    Makes (Guarded.normalizeAll gs) (CopyOf Guarded.sameAll · gs)
  | [] => .pure ⟨rfl, fun _ => rfl⟩
  | g :: gs => g.copies.bind fun _ h => (Guarded.copiesAll gs).map fun _ h' =>
    ⟨by simp [Guarded.sameAll, h.same, h'.same],
      fun c => by cases c <;> simp [Guarded.sameAll, h.congr, h'.congr]⟩

theorem Block.copies : (b : Block) → Makes b.normalize (CopyOf Block.same · b)
  | ⟨_, stmts⟩ => (Stmt.copiesAll stmts).map fun _ h =>
    ⟨h.same, fun c => by cases c; simp [Block.same, h.congr]⟩

theorem Block.copiesOption : (b : Option Block) →
    Makes (Block.normalizeOption b) (CopyOf Block.sameOption · b)
  | none => .pure ⟨rfl, fun _ => rfl⟩
  | some body => body.copies.map fun _ h =>
    ⟨h.same, fun c => by cases c <;> simp [Block.sameOption, h.congr]⟩

theorem ProcDecl.copies : (d : ProcDecl) → Makes d.normalize (CopyOf ProcDecl.same · d)
  | ⟨_, _, params, ret, body⟩ => Makes.next.bind fun _ _ => (Param.copiesAll params).bind fun _ h =>
    have t := copy_mapType ret
    body.copies.map fun _ h' =>
      ⟨by simp [ProcDecl.same, Ident.normalize, h.same, t.same, h'.same],
        fun c => by cases c; simp [ProcDecl.same, Ident.normalize, h.congr, t.congr, h'.congr]⟩

theorem ArtifactDecl.copies : (d : ArtifactDecl) → Makes d.normalize (CopyOf ArtifactDecl.same · d)
  | ⟨_, _, _, members⟩ => Makes.next.bind fun _ _ => (Member.copiesAll members).map fun _ h =>
    ⟨by simp [ArtifactDecl.same, Ident.normalize, h.same],
      fun c => by cases c; simp [ArtifactDecl.same, Ident.normalize, h.congr]⟩

theorem Member.copies : (m : Member) → Makes m.normalize (CopyOf Member.same · m)
  | .prop x | .proc x =>
    x.copies.map fun _ h => ⟨h.same, fun c => by cases c <;> simp [Member.same, h.congr]⟩
  | .enumCase decl =>
    have h := decl.copy_normalize
    .pure ⟨h.same, fun c => by cases c <;> simp [Member.same, h.congr]⟩

theorem Member.copiesAll : (ms : List Member) →
    Makes (Member.normalizeAll ms) (CopyOf Member.sameAll · ms)
  | [] => .pure ⟨rfl, fun _ => rfl⟩
  | m :: ms => m.copies.bind fun _ h => (Member.copiesAll ms).map fun _ h' =>
    ⟨by simp [Member.sameAll, h.same, h'.same],
      fun c => by cases c <;> simp [Member.sameAll, h.congr, h'.congr]⟩

end

/-! ### Programs -/

theorem Program.copy_normalize (p : Program) : CopyOf Program.same p.normalize p :=
  have h := Stmt.copiesAll p.stmts 0
  ⟨h.same, fun q => h.congr q.stmts⟩

/-- Two programs have one normal form if and only if they differ at most in places and identities,
and a normal form is its own normal form. -/
theorem Program.normalize_eq_iff (p q : Program) :
    (p.normalize = q.normalize ↔ p.same q = true) ∧ p.normalize.normalize = p.normalize := by
  refine ⟨⟨fun h => ?_, normalize_of_same⟩, normalize_of_same p.copy_normalize.same⟩
  rw [← p.copy_normalize.congr q, h]
  exact q.copy_normalize.same

end ArkLang
