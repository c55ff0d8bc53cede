import ArkLang.Tree.Normal
import ArkLang.Tree.Printer

/-!
# Trees of the same structure

Trees that differ at most in places and identities have the same normal form and the same text. The
normal form of a tree numbers its nodes anew and the text of a tree shows neither places nor
identities, so both only depend on the structure.
-/

namespace ArkLang

/-! ### Types -/

theorem TypeExpr.eq_of_same :
    (∀ s t : TypeExpr, s.same t = true → s.normalize = t.normalize ∧ s.print = t.print) ∧
      ∀ ss ts : List TypeExpr, TypeExpr.sameAll ss ts = true →
        TypeExpr.normalizeAll ss = TypeExpr.normalizeAll ts ∧
          TypeExpr.printAll ss = TypeExpr.printAll ts := by
  apply TypeExpr.same.mutual_induct <;>
    simp +contextual [same, sameAll, normalize, normalizeAll, print, printAll, Ident.normalize]

/-! ### Expressions -/

namespace Expr

theorem level_of_same {a b : Expr} (h : a.same b = true) : a.level = b.level := by
  revert h
  fun_cases Expr.same a b <;> simp_all [level]

theorem isNumber_of_same {a b : Expr} (h : a.same b = true) : a.isNumber = b.isNumber := by
  revert h
  fun_cases Expr.same a b <;> simp_all [isNumber]

theorem isNamedCall_of_same {a b : Expr} (h : a.same b = true) :
    a.isNamedCall = b.isNamedCall := by
  cases a with
  | call node callee args =>
    cases b with
    | call node' callee' args' =>
      have callee : callee.same callee' = true := (Bool.and_eq_true_iff.mp h).1
      revert callee
      fun_cases Expr.same callee callee' <;> simp [isNamedCall]
    | _ => cases h
  | _ => cases b <;> first | rfl | cases h

/-- What the text and the normal form of an expression are made of. -/
structure Alike (a b : Expr) : Prop where
  normalize : a.normalize = b.normalize
  print : a.print = b.print
  startsWithMinus : a.startsWithMinus = b.startsWithMinus

mutual

/-- Expressions of the same structure look alike. -/
theorem alike_of_same (a b : Expr) (h : a.same b = true) : a.Alike b := by
  cases a <;> cases b <;> try cases h
  case int.int _ v _ w | float.float _ v _ w | str.str _ v _ w | bool.bool _ v _ w
      | ident.ident _ v _ w =>
    obtain rfl : v = w := by simpa [same] using h
    exact ⟨rfl, rfl, rfl⟩
  case selfProp.selfProp _ m _ n =>
    have name : m.value = n.value := by simpa [same] using h
    exact ⟨by simp [normalize, Ident.normalize, name], by simp [print, name], rfl⟩
  case array.array _ as _ bs =>
    obtain ⟨items, texts⟩ := eq_of_sameAll as bs h
    exact ⟨by simp [normalize, items], by simp [print, texts], rfl⟩
  case unary.unary _ o a _ p b =>
    obtain ⟨rfl, operand⟩ : o = p ∧ a.same b = true := by simpa [same] using h
    have ih := alike_of_same a b operand
    refine ⟨by simp [normalize, ih.normalize], ?_, by cases o <;> rfl⟩
    simp [print, ih.print, ih.startsWithMinus, level_of_same operand]
  case binary.binary _ a o c _ b p d =>
    obtain ⟨⟨left, rfl⟩, right⟩ : (a.same b = true ∧ o = p) ∧ c.same d = true := by
      simpa [same] using h
    have ihl := alike_of_same a b left
    have ihr := alike_of_same c d right
    refine ⟨by simp [normalize, ihl.normalize, ihr.normalize], ?_, ?_⟩
    · simp [print, ihl.print, ihr.print, level_of_same left, level_of_same right]
    · simp [startsWithMinus, ihl.startsWithMinus]
  case postOp.postOp _ o a _ p b =>
    obtain ⟨rfl, base⟩ : o = p ∧ a.same b = true := by simpa [same] using h
    have ih := alike_of_same a b base
    refine ⟨by simp [normalize, ih.normalize], ?_, ?_⟩
    · simp [print, ih.print, level_of_same base]
    · simp [startsWithMinus, ih.startsWithMinus, level_of_same base]
  case call.call _ a as _ b bs =>
    obtain ⟨callee, args⟩ : a.same b = true ∧ sameAll as bs = true := by simpa [same] using h
    have ih := alike_of_same a b callee
    obtain ⟨items, texts⟩ := eq_of_sameAll as bs args
    refine ⟨by simp [normalize, ih.normalize, items], ?_, ?_⟩
    · simp [print, ih.print, texts, level_of_same callee]
    · simp [startsWithMinus, ih.startsWithMinus, level_of_same callee]
  case index.index _ a c _ b d =>
    obtain ⟨base, place⟩ : a.same b = true ∧ c.same d = true := by simpa [same] using h
    have ih := alike_of_same a b base
    have ihp := alike_of_same c d place
    refine ⟨by simp [normalize, ih.normalize, ihp.normalize], ?_, ?_⟩
    · simp [print, ih.print, ihp.print, level_of_same base]
    · simp [startsWithMinus, ih.startsWithMinus, level_of_same base]
  case member.member _ a m _ b n =>
    obtain ⟨base, name⟩ : a.same b = true ∧ m.value = n.value := by simpa [same] using h
    have ih := alike_of_same a b base
    refine ⟨by simp [normalize, Ident.normalize, ih.normalize, name], ?_, ?_⟩
    · simp [print, ih.print, name, isNumber_of_same base, level_of_same base]
    · simp [startsWithMinus, ih.startsWithMinus, level_of_same base]

theorem eq_of_sameAll (as bs : List Expr) (h : sameAll as bs = true) :
    normalizeAll as = normalizeAll bs ∧ printAll as = printAll bs := by
  cases as <;> cases bs <;> try cases h
  case nil.nil => exact ⟨rfl, rfl⟩
  case cons.cons a as b bs =>
    obtain ⟨first, more⟩ := Bool.and_eq_true_iff.mp h
    have ih := alike_of_same a b first
    simp [normalizeAll, printAll, ih.normalize, ih.print, eq_of_sameAll as bs more]

end

theorem printFirst_of_same {a b : Expr} (h : a.same b = true) (isCond : Bool) :
    a.printFirst isCond = b.printFirst isCond := by
  have alike := alike_of_same a b h
  simp [printFirst, alike.print, alike.startsWithMinus, isNamedCall_of_same h]

end Expr

/-! ### Declarations -/

theorem eq_of_sameOption_type {s t : Option TypeExpr} (h : sameOption TypeExpr.same s t = true) :
    s.map TypeExpr.normalize = t.map TypeExpr.normalize ∧
      s.map TypeExpr.print = t.map TypeExpr.print := by
  cases s <;> cases t <;> first | cases h | skip
  · exact ⟨rfl, rfl⟩
  · simp [TypeExpr.eq_of_same.1 _ _ h]

theorem eq_of_sameOption_expr {a b : Option Expr} (h : sameOption Expr.same a b = true) :
    Expr.normalizeOption a = Expr.normalizeOption b ∧ a.map Expr.print = b.map Expr.print := by
  cases a <;> cases b <;> first | cases h | skip
  · exact ⟨rfl, rfl⟩
  · have alike := Expr.alike_of_same _ _ h
    simp [Expr.normalizeOption, alike.normalize, alike.print]

theorem VarDecl.eq_of_same {a b : VarDecl} (h : a.same b = true) :
    a.normalize = b.normalize ∧ a.print = b.print := by
  obtain ⟨_, m, v, s, x⟩ := a
  obtain ⟨_, n, w, t, y⟩ := b
  simp only [VarDecl.same, Bool.and_eq_true, beq_iff_eq] at h
  obtain ⟨⟨⟨name, rfl⟩, type⟩, value⟩ := h
  obtain ⟨types, typeTexts⟩ := eq_of_sameOption_type type
  obtain ⟨values, valueTexts⟩ := eq_of_sameOption_expr value
  refine ⟨by simp [normalize, Ident.normalize, name, types, values], ?_⟩
  cases s <;> cases t <;> cases x <;> cases y <;> simp_all [print]

theorem Param.eq_of_same {a b : Param} (h : a.same b = true) :
    a.normalize = b.normalize ∧ a.print = b.print := by
  obtain ⟨_, m, s, x⟩ := a
  obtain ⟨_, n, t, y⟩ := b
  simp only [Param.same, Bool.and_eq_true, beq_iff_eq] at h
  obtain ⟨⟨name, type⟩, value⟩ := h
  obtain ⟨types, typeTexts⟩ := eq_of_sameOption_type type
  obtain ⟨values, valueTexts⟩ := eq_of_sameOption_expr value
  refine ⟨by simp [normalize, Ident.normalize, name, types, values], ?_⟩
  cases s <;> cases t <;> cases x <;> cases y <;> simp_all [print]

theorem Param.eq_of_sameAll {as bs : List Param} (h : Param.sameAll as bs = true) :
    Param.normalizeAll as = Param.normalizeAll bs ∧ as.map Param.print = bs.map Param.print := by
  induction as generalizing bs with
  | nil =>
    cases bs with
    | nil => exact ⟨rfl, rfl⟩
    | cons => cases h
  | cons a as ih =>
    cases bs with
    | nil => cases h
    | cons b bs =>
      obtain ⟨first, more⟩ := Bool.and_eq_true_iff.mp h
      simp [normalizeAll, Param.eq_of_same first, ih more]

theorem EnumCase.eq_of_same {a b : EnumCase} (h : a.same b = true) :
    a.normalize = b.normalize ∧ a.print = b.print := by
  obtain ⟨_, m, v⟩ := a
  obtain ⟨_, n, w⟩ := b
  simp only [EnumCase.same, Bool.and_eq_true, beq_iff_eq] at h
  obtain ⟨name, value⟩ := h
  cases v <;> cases w <;> simp_all [normalize, print, Ident.normalize]

theorem printHead_of_same {m n : Ident} {ps qs : List Param} {r s : Option TypeExpr}
    (name : m.value = n.value) (params : Param.sameAll ps qs = true)
    (ret : sameOption TypeExpr.same r s = true) : printHead m ps r = printHead n qs s := by
  have texts := (eq_of_sameOption_type ret).2
  simp only [printHead, name, (Param.eq_of_sameAll params).2]
  cases r <;> cases s <;> simp_all

theorem startsWithChain_of_same {s t : Stmt} (h : s.same t = true) (ss ts : List Stmt) :
    startsWithChain (s :: ss) = startsWithChain (t :: ts) := by
  revert h
  fun_cases Stmt.same s t <;> simp [startsWithChain]

theorem startsWithChain_of_sameAll {ss ts : List Stmt} (h : Stmt.sameAll ss ts = true) :
    startsWithChain ss = startsWithChain ts := by
  cases ss <;> cases ts <;> first | rfl | cases h | skip
  exact startsWithChain_of_same (Bool.and_eq_true_iff.mp h).1 _ _

/-! ### Statements -/

mutual

/-- Statements of the same structure, at any depth. -/
theorem Stmt.eq_of_same (a b : Stmt) (h : a.same b = true) :
    a.normalize = b.normalize ∧ ∀ depth, a.print depth = b.print depth := by
  cases a <;> cases b <;> try cases h
  case importUnit.importUnit a b =>
    obtain ⟨⟨path, quoted⟩, name⟩ :
        (a.path = b.path ∧ a.quoted = b.quoted) ∧ a.name.value = b.name.value := by
      simpa [Stmt.same] using h
    simp [Stmt.normalize, Stmt.print, Ident.normalize, path, quoted, name]
  case var.var a b => simp [Stmt.normalize, Stmt.print, VarDecl.eq_of_same h]
  case proc.proc a b => simp [Stmt.normalize, Stmt.print, ProcDecl.eq_of_same a b h]
  case artifact.artifact a b => simp [Stmt.normalize, Stmt.print, ArtifactDecl.eq_of_same a b h]
  case assign.assign _ a c _ b d =>
    obtain ⟨target, value⟩ := Bool.and_eq_true_iff.mp h
    have target := Expr.alike_of_same a b target
    have value := Expr.alike_of_same c d value
    simp [Stmt.normalize, Stmt.print, target.normalize, target.print, value.normalize, value.print]
  case cond.cond a b =>
    obtain ⟨normal, cond, text⟩ := Guarded.eq_of_same a b h
    rcases a with ⟨_, a, c⟩
    rcases b with ⟨_, b, d⟩
    simp [Stmt.normalize, Stmt.print, normal, Expr.printFirst_of_same cond, text]
  case chain.chain _ as c _ bs d =>
    obtain ⟨arms, fallback⟩ := Bool.and_eq_true_iff.mp h
    simp [Stmt.normalize, Stmt.print, Guarded.eq_of_sameAll as bs arms,
      Block.eq_of_sameOption c d fallback]
  case whileLoop.whileLoop a b =>
    obtain ⟨normal, cond, text⟩ := Guarded.eq_of_same a b h
    rcases a with ⟨_, a, c⟩
    rcases b with ⟨_, b, d⟩
    simp [Stmt.normalize, Stmt.print, normal, (Expr.alike_of_same _ _ cond).print, text]
  case rangeLoop.rangeLoop _ m a c e _ n b d f =>
    simp only [Stmt.same, Bool.and_eq_true, beq_iff_eq] at h
    obtain ⟨⟨⟨name, start⟩, stop⟩, body⟩ := h
    have start := Expr.alike_of_same a b start
    have stop := Expr.alike_of_same c d stop
    simp [Stmt.normalize, Stmt.print, Ident.normalize, name, start.normalize, start.print,
      stop.normalize, stop.print, Block.eq_of_same e f body]
  case breakLoop.breakLoop | skipTurn.skipTurn => exact ⟨rfl, fun _ => rfl⟩
  case ret.ret _ a _ b =>
    obtain ⟨normal, text⟩ := eq_of_sameOption_expr h
    refine ⟨by simp [Stmt.normalize, normal], fun depth => ?_⟩
    cases a <;> cases b <;> simp_all [Stmt.print]
  case block.block a b => simp [Stmt.normalize, Stmt.print, Block.eq_of_same a b h]
  case expr.expr a b =>
    simp [Stmt.normalize, Stmt.print, (Expr.alike_of_same a b h).normalize,
      Expr.printFirst_of_same h]
termination_by structural a

theorem Stmt.eq_of_sameAll (as bs : List Stmt) (h : Stmt.sameAll as bs = true) :
    Stmt.normalizeAll as = Stmt.normalizeAll bs ∧
      ∀ depth, Stmt.printAll depth as = Stmt.printAll depth bs := by
  cases as <;> cases bs <;> try cases h
  case nil.nil => exact ⟨rfl, fun _ => rfl⟩
  case cons.cons a as b bs =>
    obtain ⟨first, more⟩ := Bool.and_eq_true_iff.mp h
    simp [Stmt.normalizeAll, Stmt.printAll, Stmt.eq_of_same a b first,
      Stmt.eq_of_sameAll as bs more, startsWithChain_of_same first [] [],
      startsWithChain_of_sameAll more]
termination_by structural as

theorem Guarded.eq_of_same (a b : Guarded) (h : a.same b = true) :
    a.normalize = b.normalize ∧ a.cond.same b.cond = true ∧
      ∀ depth, a.body.print depth = b.body.print depth := by
  obtain ⟨_, a, c⟩ := a
  obtain ⟨_, b, d⟩ := b
  obtain ⟨cond, body⟩ := Bool.and_eq_true_iff.mp h
  obtain ⟨normal, text⟩ := Block.eq_of_same c d body
  exact ⟨by simp [Guarded.normalize, (Expr.alike_of_same a b cond).normalize, normal], cond, text⟩
termination_by structural a

theorem Guarded.eq_of_sameAll (as bs : List Guarded) (h : Guarded.sameAll as bs = true) :
    Guarded.normalizeAll as = Guarded.normalizeAll bs ∧
      ∀ depth, Guarded.printAll depth as = Guarded.printAll depth bs := by
  cases as <;> cases bs <;> try cases h
  case nil.nil => exact ⟨rfl, fun _ => rfl⟩
  case cons.cons a as b bs =>
    obtain ⟨first, more⟩ := Bool.and_eq_true_iff.mp h
    obtain ⟨normal, cond, text⟩ := Guarded.eq_of_same a b first
    rcases a with ⟨_, a, c⟩
    rcases b with ⟨_, b, d⟩
    simp [Guarded.normalizeAll, Guarded.printAll, normal, (Expr.alike_of_same _ _ cond).print, text,
      Guarded.eq_of_sameAll as bs more]
termination_by structural as

theorem Block.eq_of_same (a b : Block) (h : a.same b = true) :
    a.normalize = b.normalize ∧ ∀ depth, a.print depth = b.print depth := by
  obtain ⟨_, as⟩ := a
  obtain ⟨_, bs⟩ := b
  obtain ⟨normals, texts⟩ := Stmt.eq_of_sameAll as bs h
  refine ⟨by simp [Block.normalize, normals], fun depth => ?_⟩
  cases as <;> cases bs <;> try cases h
  case nil.nil => rfl
  case cons.cons => simp only [Block.print, texts]
termination_by structural a

theorem Block.eq_of_sameOption (a b : Option Block) (h : Block.sameOption a b = true) :
    Block.normalizeOption a = Block.normalizeOption b ∧
      ∀ depth, Block.printFallback depth a = Block.printFallback depth b := by
  cases a <;> cases b <;> try cases h
  case none.none => exact ⟨rfl, fun _ => rfl⟩
  case some.some a b =>
    simp [Block.normalizeOption, Block.printFallback, Block.eq_of_same a b h]
termination_by structural a

theorem ProcDecl.eq_of_same (a b : ProcDecl) (h : a.same b = true) :
    a.normalize = b.normalize ∧ ∀ depth, a.print depth = b.print depth := by
  obtain ⟨_, m, ps, r, a⟩ := a
  obtain ⟨_, n, qs, s, b⟩ := b
  simp only [ProcDecl.same, Bool.and_eq_true, beq_iff_eq] at h
  obtain ⟨⟨⟨name, params⟩, ret⟩, body⟩ := h
  simp [ProcDecl.normalize, ProcDecl.print, Ident.normalize, name, Param.eq_of_sameAll params,
    eq_of_sameOption_type ret, printHead_of_same name params ret, Block.eq_of_same a b body]
termination_by structural a

theorem ArtifactDecl.eq_of_same (a b : ArtifactDecl) (h : a.same b = true) :
    a.normalize = b.normalize ∧ ∀ depth, a.print depth = b.print depth := by
  obtain ⟨_, m, k, as⟩ := a
  obtain ⟨_, n, l, bs⟩ := b
  simp only [ArtifactDecl.same, Bool.and_eq_true, beq_iff_eq] at h
  obtain ⟨⟨name, rfl⟩, members⟩ := h
  obtain ⟨normals, texts⟩ := Member.eq_of_sameAll as bs members
  refine ⟨by simp [ArtifactDecl.normalize, Ident.normalize, name, normals], fun depth => ?_⟩
  cases as <;> cases bs <;> try cases members
  case nil.nil => simp only [ArtifactDecl.print, name]
  case cons.cons => simp only [ArtifactDecl.print, name, texts]
termination_by structural a

theorem Member.eq_of_same (a b : Member) (h : a.same b = true) :
    a.normalize = b.normalize ∧ ∀ depth, a.print depth = b.print depth := by
  cases a <;> cases b <;> try cases h
  case prop.prop a b => simp [Member.normalize, Member.print, VarDecl.eq_of_same h]
  case proc.proc a b => simp [Member.normalize, Member.print, ProcDecl.eq_of_same a b h]
  case enumCase.enumCase a b => simp [Member.normalize, Member.print, EnumCase.eq_of_same h]
termination_by structural a

theorem Member.eq_of_sameAll (as bs : List Member) (h : Member.sameAll as bs = true) :
    Member.normalizeAll as = Member.normalizeAll bs ∧
      ∀ depth, Member.printAll depth as = Member.printAll depth bs := by
  cases as <;> cases bs <;> try cases h
  case nil.nil => exact ⟨rfl, fun _ => rfl⟩
  case cons.cons a as b bs =>
    obtain ⟨first, more⟩ := Bool.and_eq_true_iff.mp h
    simp [Member.normalizeAll, Member.printAll, Member.eq_of_same a b first,
      Member.eq_of_sameAll as bs more]
termination_by structural as

end

/-! ### Programs -/

/-- The normal form only depends on the structure. -/
theorem Program.normalize_of_same {p q : Program} (h : p.same q = true) :
    p.normalize = q.normalize := by
  rw [normalize, normalize, (Stmt.eq_of_sameAll p.stmts q.stmts h).1]

theorem Program.print_of_same {p q : Program} (h : p.same q = true) : p.print = q.print :=
  (Stmt.eq_of_sameAll p.stmts q.stmts h).2 0

end ArkLang
