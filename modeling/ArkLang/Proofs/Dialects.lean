import ArkLang.Proofs.Recovery

/-!
# What dialects share

The two dialects differ in what a declaration may leave out and in whether there are procedure
types. A program in the strict dialect is annotated throughout, one in the inferred dialect has no
procedure type, and a program that is both is read the same way in either dialect, numbers and spans
included.
-/

namespace ArkLang

/-! ### The parts of a program -/

/-- A part of a program that dialects look at. -/
inductive TreePart where
  | var (decl : VarDecl)
  | param (decl : Param)
  | proc (decl : ProcDecl)
  | type (expr : TypeExpr)

def TypeExpr.partsOption : Option TypeExpr → List TreePart
  | some expr => [.type expr]
  | none => []

def VarDecl.parts (v : VarDecl) : List TreePart :=
  .var v :: TypeExpr.partsOption v.type

def Param.parts (p : Param) : List TreePart :=
  .param p :: TypeExpr.partsOption p.type

mutual

@[simp]
def Stmt.parts : Stmt → List TreePart
  | .importUnit _ | .assign .. | .breakLoop _ | .skipTurn _ | .ret .. | .expr _ => []
  | .var decl => decl.parts
  | .proc decl => decl.parts
  | .artifact decl => decl.parts
  | .cond ⟨_, _, body⟩ => body.parts
  | .chain _ arms fallback => Guarded.partsAll arms ++ Block.partsOption fallback
  | .whileLoop ⟨_, _, body⟩ => body.parts
  | .rangeLoop _ _ _ _ body => body.parts
  | .block body => body.parts

@[simp]
def Stmt.partsAll : List Stmt → List TreePart
  | [] => []
  | s :: ss => s.parts ++ Stmt.partsAll ss

@[simp]
def Guarded.partsAll : List Guarded → List TreePart
  | [] => []
  | ⟨_, _, body⟩ :: gs => body.parts ++ Guarded.partsAll gs

@[simp]
def Block.parts : Block → List TreePart
  | ⟨_, stmts⟩ => Stmt.partsAll stmts

@[simp]
def Block.partsOption : Option Block → List TreePart
  | none => []
  | some body => body.parts

@[simp]
def ProcDecl.parts : ProcDecl → List TreePart
  | ⟨node, name, params, ret, body⟩ =>
    .proc ⟨node, name, params, ret, body⟩ :: params.flatMap Param.parts ++
      TypeExpr.partsOption ret ++ body.parts

@[simp]
def ArtifactDecl.parts : ArtifactDecl → List TreePart
  | ⟨_, _, _, members⟩ => Member.partsAll members

@[simp]
def Member.parts : Member → List TreePart
  | .prop decl => decl.parts
  | .proc decl => decl.parts
  | .enumCase _ => []

@[simp]
def Member.partsAll : List Member → List TreePart
  | [] => []
  | m :: ms => m.parts ++ Member.partsAll ms

end

/-- The variables, properties, parameters, procedures and types of a program. -/
def Program.parts (p : Program) : List TreePart :=
  Stmt.partsAll p.stmts

def TypeExpr.ProcFree : TypeExpr → Prop
  | .named .. | .qualified .. => True
  | .array _ elem _ => elem.ProcFree
  | .list _ elem => elem.ProcFree
  | .proc .. => False

instance TypeExpr.decidableProcFree : DecidablePred TypeExpr.ProcFree
  | .named .. | .qualified .. => .isTrue trivial
  | .array _ elem _ => decidableProcFree elem
  | .list _ elem => decidableProcFree elem
  | .proc .. => .isFalse nofun

namespace TreePart

/-- A variable or property has a type and a value, a parameter a type, a procedure a type of its
result. -/
def Annotated : TreePart → Prop
  | .var decl => decl.type.isSome ∧ decl.value.isSome
  | .param decl => decl.type.isSome
  | .proc decl => decl.ret.isSome
  | .type _ => True

/-- A part is not a type with a procedure type in it. -/
def ProcFree : TreePart → Prop
  | .type expr => expr.ProcFree
  | _ => True

instance : DecidablePred Annotated
  | .var decl => inferInstanceAs (Decidable (decl.type.isSome ∧ decl.value.isSome))
  | .param decl => inferInstanceAs (Decidable decl.type.isSome)
  | .proc decl => inferInstanceAs (Decidable decl.ret.isSome)
  | .type _ => .isTrue trivial

instance : DecidablePred ProcFree
  | .type expr => inferInstanceAs (Decidable expr.ProcFree)
  | .var _ | .param _ | .proc _ => .isTrue trivial

/-- What a dialect asks of the parts of a program. -/
def In (d : Dialect) (part : TreePart) : Prop :=
  match d with
  | .strict => part.Annotated
  | .inferred => part.ProcFree

end TreePart

def Program.Annotated (p : Program) : Prop :=
  ∀ part ∈ p.parts, part.Annotated

/-- No procedure type stands in a program. -/
def Program.ProcFree (p : Program) : Prop :=
  ∀ part ∈ p.parts, part.ProcFree

instance (p : Program) : Decidable p.Annotated :=
  inferInstanceAs (Decidable (∀ part ∈ p.parts, part.Annotated))

instance (p : Program) : Decidable p.ProcFree :=
  inferInstanceAs (Decidable (∀ part ∈ p.parts, part.ProcFree))

/-! ### What a dialect allows -/

def Dialect.Allows (d : Dialect) (parts : List TreePart) : Prop :=
  ∀ part ∈ parts, part.In d

section Allows

variable {d : Dialect}

@[simp] theorem Dialect.allows_nil : d.Allows [] ↔ True := by
  simp [Allows]

@[simp] theorem Dialect.allows_cons {part : TreePart} {parts : List TreePart} :
    d.Allows (part :: parts) ↔ part.In d ∧ d.Allows parts := by
  simp [Allows]

@[simp] theorem Dialect.allows_append {parts more : List TreePart} :
    d.Allows (parts ++ more) ↔ d.Allows parts ∧ d.Allows more := by
  simp [Allows, or_imp, forall_and]

@[simp] theorem TreePart.in_var {v : VarDecl} :
    (TreePart.var v).In d ↔ (d = .strict → v.type.isSome ∧ v.value.isSome) := by
  cases d <;> simp [In, Annotated, ProcFree]

@[simp] theorem TreePart.in_param {p : Param} :
    (TreePart.param p).In d ↔ (d = .strict → p.type.isSome) := by
  cases d <;> simp [In, Annotated, ProcFree]

@[simp] theorem TreePart.in_proc {decl : ProcDecl} :
    (TreePart.proc decl).In d ↔ (d = .strict → decl.ret.isSome) := by
  cases d <;> simp [In, Annotated, ProcFree]

@[simp] theorem TreePart.in_type_named {span : Span} {name : Ident} :
    (TreePart.type (.named span name)).In d := by
  cases d <;> trivial

@[simp] theorem TreePart.in_type_qualified {span : Span} {module name : Ident} :
    (TreePart.type (.qualified span module name)).In d := by
  cases d <;> trivial

@[simp] theorem TreePart.in_type_array {span : Span} {elem : TypeExpr} {size : Nat} :
    (TreePart.type (.array span elem size)).In d ↔ (TreePart.type elem).In d := by
  cases d <;> rfl

@[simp] theorem TreePart.in_type_list {span : Span} {elem : TypeExpr} :
    (TreePart.type (.list span elem)).In d ↔ (TreePart.type elem).In d := by
  cases d <;> rfl

@[simp] theorem TreePart.in_type_proc {span : Span} {params : List TypeExpr} {ret : TypeExpr} :
    (TreePart.type (.proc span params ret)).In d ↔ d = .strict := by
  cases d <;> simp [In, Annotated, ProcFree, TypeExpr.ProcFree]

theorem TreePart.in_type_strict {t : TypeExpr} : (TreePart.type t).In .strict :=
  trivial

end Allows

/-! ### Parsers that speak a dialect -/

namespace Fragment

variable {d : Dialect} {s s' : List Fragment}

@[simp]
def Allowed (d : Dialect) : Fragment → Prop
  | otherThan d' => d ≠ d'
  | type t => (TreePart.type t).In d
  | types ts => ∀ t ∈ ts, (TreePart.type t).In d
  | var v => d.Allows v.parts
  | param p => d.Allows p.parts
  | params _ ps => d.Allows (ps.flatMap Param.parts)
  | proc p => d.Allows p.parts
  | member m => d.Allows m.parts
  | members ms => d.Allows (Member.partsAll ms)
  | artifact a => d.Allows a.parts
  | block b => d.Allows b.parts
  | arms gs fallback => d.Allows (Guarded.partsAll gs ++ Block.partsOption fallback)
  | stmt s | admitted _ _ s => d.Allows s.parts
  | stmts _ _ ss => d.Allows (Stmt.partsAll ss)
  | _ => True

@[simp]
def AllAllowed (d : Dialect) : List Fragment → Prop
  | [] => True
  | f :: s => AllAllowed d s ∧ f.Allowed d

theorem allAllowed_reduces (h : Reduces s s') : AllAllowed d s ↔ AllAllowed d s' := by
  cases h <;> cases d <;>
    simp [VarDecl.parts, Param.parts, TypeExpr.partsOption, TreePart.in_type_strict, and_assoc]

end Fragment

open Fragment in
/-- A parser that is run with a stack that the dialect allows. What it leaves is allowed by the
dialect, and it does the same in every other dialect that allows it. -/
def Speaks {α : Type} (nx : Option (Token × Token)) (s : List Fragment) (p : Parser α)
    (after : α → List Fragment) : Prop :=
  ∀ ⦃tokens d st a st'⦄, (∀ u ∈ nx, st.next ⟨tokens, d, false⟩ = u.1) →
    Gives p ⟨tokens, d, false⟩ st a st' → AllAllowed d s → AllAllowed d (after a) ∧
      ∀ d', AllAllowed d' (after a) → AllAllowed d' s ∧ Gives p ⟨tokens, d', false⟩ st a st'

namespace Speaks

variable {α β : Type} {nx : Option (Token × Token)} {s : List Fragment}

theorem pure {after : α → List Fragment} {a : α} (h : s = after a) :
    Speaks nx s (pure a) after := by
  intro tokens d st b st' _ run allowed
  obtain ⟨rfl, rfl⟩ := gives_pure.mp run
  subst h
  exact ⟨allowed, fun d' allowed => ⟨allowed, gives_pure.mpr ⟨rfl, rfl⟩⟩⟩

theorem reduce {s' : List Fragment} {p : Parser α} {after : α → List Fragment}
    (reduces : Reduces s s') (h : Speaks nx s' p after) : Speaks nx s p after := by
  intro tokens d st a st' known run allowed
  rw [Fragment.allAllowed_reduces reduces] at allowed
  simpa only [Fragment.allAllowed_reduces reduces] using h known run allowed

theorem bind {p : Parser α} {f : α → Parser β} {mid : α → List Fragment}
    {after : β → List Fragment} (hp : Speaks nx s p mid)
    (hf : ∀ a, Given p a → Speaks none (mid a) (f a) after) : Speaks nx s (p >>= f) after := by
  intro tokens d st b st' known run allowed
  obtain ⟨a, st₁, first, second⟩ := gives_bind.mp run
  obtain ⟨allowed, same⟩ := hp known first allowed
  obtain ⟨allowed, same'⟩ := hf a ⟨_, _, _, first⟩ (by simp) second allowed
  refine ⟨allowed, fun d' allowed => ?_⟩
  obtain ⟨allowed, second⟩ := same' d' allowed
  exact ⟨(same d' allowed).1, gives_bind.mpr ⟨a, st₁, (same d' allowed).2, second⟩⟩

theorem refuse {d : Dialect} {stop rest : Parser α} {after : α → List Fragment}
    (hstop : ∀ ctx st a st', ¬ Gives stop ctx st a st')
    (hrest : Speaks nx (.otherThan d :: s) rest after) :
    Speaks nx s (do if (← read).dialect = d then stop else rest) after := by
  intro tokens d₁ st a st' known run allowed
  have chosen (d₂ : Dialect) : Gives (do if (← read).dialect = d then stop else rest)
      ⟨tokens, d₂, false⟩ st a st' ↔
        Gives (if d₂ = d then stop else rest) ⟨tokens, d₂, false⟩ st a st' := Iff.rfl
  rw [chosen] at run
  split at run
  · exact absurd run (hstop _ _ _ _)
  · next other =>
    obtain ⟨allowed, same⟩ := hrest known run ⟨allowed, other⟩
    refine ⟨allowed, fun d' allowed => ?_⟩
    obtain ⟨⟨allowed, other⟩, run⟩ := same d' allowed
    exact ⟨allowed, by rwa [chosen, if_neg other]⟩

theorem goOn {start : Nat} {stmt : Parser Stmt} {more : Bool → Parser (List Stmt)}
    {topLevel afterChain : Bool}
    (hstmt : Speaks none s stmt fun x => .admitted topLevel afterChain x :: s)
    (hmore : ∀ afterChain s, Speaks none s (more afterChain) fun xs =>
      .stmts topLevel afterChain xs :: s) :
    Speaks none s (Parser.goOn start stmt more) fun xs => .stmts topLevel afterChain xs :: s := by
  have plain (tokens : List Token) (d : Dialect) (st : ParseState) :
      runAt (Parser.goOn start stmt more) ⟨tokens, d, false⟩ st =
        runAt (stmt >>= fun s => (s :: ·) <$> more (Parser.isChain s)) ⟨tokens, d, false⟩ st := by
    rw [Parser.runAt_goOn, runAt_bind]
    rcases runAt stmt ⟨tokens, d, false⟩ st with ⟨e | s, st'⟩ <;> rfl
  have both : Speaks none s (stmt >>= fun x => (x :: ·) <$> more (Parser.isChain x)) fun xs =>
      .stmts topLevel afterChain xs :: s := by
    refine hstmt.bind fun x _ => ?_
    rw [← bind_pure_comp]
    exact (hmore _ _).bind fun xs _ => reduce .stmtsCons (pure rfl)
  intro tokens d st ss st' known run allowed
  simp only [Gives, plain] at run ⊢
  exact both known run allowed

/-- Parsers speak their dialect, because their steps do. -/
def law : TreeLaw where
  Holds _ nx s p _ after := Speaks nx s p after
  pure _ := Speaks.pure rfl
  bind := Speaks.bind
  reduce := Speaks.reduce
  unknown h _ _ _ _ _ _ run := h (by simp) run
  spent _ _ h := h
  current {α N nx s f g after} h h' tokens d st a st' known run := by
    have same : ∀ u ∈ nx, u.1 = st.next ⟨tokens, d, false⟩ := fun u mem => (known u mem).symm
    by_cases eof : (st.next ⟨tokens, d, false⟩).kind = .eof
    · exact h' _ _ eof eof same (by simp) run
    · exact h _ eof same (by simp) run
  past _ h _ _ _ _ _ _ run allowed := by
    obtain ⟨allowed, same⟩ := h (by simp) run ⟨allowed, trivial⟩
    exact ⟨allowed, fun d' allowed => ⟨(same d' allowed).1.1, (same d' allowed).2⟩⟩
  stay {α N t t' s f g after} eof _ h tokens d st a st' known run := by
    obtain rfl := known _ rfl
    have code (d : Dialect) : runAt (Parser.advance >>= f) ⟨tokens, d, false⟩ st =
        runAt (f ()) ⟨tokens, d, false⟩ st := @Parser.runAt_stay _ ⟨tokens, d, false⟩ st eof f
    simp only [Gives, code] at run ⊢
    exact h known run
  first {α N nx s f g after} hf _ hnone hsome tokens d st a st' _ run := by
    obtain ⟨_ | ⟨t, ts⟩, nextId, errors⟩ := st
    · exact hnone (by simp) run
    by_cases eof : t.kind = .eof
    · rw [← hf, ← eof] at hnone
      exact hnone (by simp) run
    · exact hsome t eof (by simp [ParseState.next]) run
  peek _ h _ _ _ _ _ known run := h _ known run
  look h _ _ st _ _ known run := h st st rfl known run
  remaining h _ _ st _ _ known run :=
    h 0 st.rest.length 0 (Nat.zero_le _) (Nat.zero_le _) (Nat.zero_le _) known run
  drop _ _ _ _ _ _ _ run allowed := ⟨allowed, fun _ allowed => ⟨allowed, run⟩⟩
  freshId _ run allowed := ⟨⟨allowed, trivial⟩, fun _ allowed => ⟨allowed.1, run⟩⟩
  failAt _ _ _ _ _ _ _ run := absurd run nofun
  failEnd _ _ _ _ _ _ _ _ run := absurd run nofun
  failOver _ _ _ _ _ _ _ run := absurd run nofun
  refuse hstop _ hrest := Speaks.refuse hstop hrest
  goOn {N t s stmt stmt' more more' topLevel afterChain} _ _ hstmt hmore tokens d st a
    st' _ run := by
    have goes : Speaks none s (Parser.goOn st.rest.length stmt more) _ :=
      Speaks.goOn hstmt fun afterChain s' => hmore 0 s' afterChain (Nat.zero_le _)
    have code (ctx : ParseContext) : runAt (Parser.remaining >>= fun start =>
        Parser.goOn start stmt more) ctx st = runAt (Parser.goOn st.rest.length stmt more) ctx st :=
      Parser.runAt_remaining _
    simp only [Gives, code] at run ⊢
    exact goes (by simp) run

end Speaks

/-! ### Programs -/

theorem program_of_allows {tokens : List Token} {d : Dialect} {p : Program}
    (h : (ParserRun.start tokens d).program.1 = .ok p) :
    d.Allows p.parts ∧ ∀ d' : Dialect, d'.Allows p.parts →
      (ParserRun.start tokens d').program.1 = .ok p := by
  rw [program_start] at h
  have run : Gives Parser.program ⟨tokens, d, false⟩ ⟨tokens, 0, []⟩ p
      (runAt Parser.program ⟨tokens, d, false⟩ ⟨tokens, 0, []⟩).2 := Prod.ext h rfl
  have speaks : Speaks none [] Parser.program _ := (@Parser.reads_program Speaks.law).here (N := 0)
  obtain ⟨allowed, same⟩ := speaks (by simp) run trivial
  refine ⟨allowed.2, fun d' allowed' => ?_⟩
  rw [program_start, (same d' ⟨trivial, allowed'⟩).2]

/-- A program that the strict dialect accepts is annotated throughout, and one that the inferred
dialect accepts has no procedure type. If what one dialect accepts has the property of the other,
the other accepts it as well and reads it the same way, numbers and spans included. -/
theorem program_dialects (tokens : List Token) (p : Program) :
    ((ParserRun.start tokens .strict).program.1 = .ok p →
      p.Annotated ∧ (p.ProcFree → (ParserRun.start tokens .inferred).program.1 = .ok p)) ∧
    ((ParserRun.start tokens .inferred).program.1 = .ok p →
      p.ProcFree ∧ (p.Annotated → (ParserRun.start tokens .strict).program.1 = .ok p)) := by
  constructor
  · intro accepted
    obtain ⟨annotated, same⟩ := program_of_allows accepted
    exact ⟨annotated, same .inferred⟩
  · intro accepted
    obtain ⟨procFree, same⟩ := program_of_allows accepted
    exact ⟨procFree, same .strict⟩

/-- A record with a procedure, written so that both dialects accept it. -/
def sharedText : String :=
  "R :: \x7b\n    x: int = 1\n    f(a: [int; 2] = [1, 2]): int \x7b\n" ++
    "        b: int = a[0]\n        return b\n    \x7d\n\x7d\n"

/-- The two dialects read the record alike, and what they read is annotated without procedure
types. -/
theorem program_dialects_shared : ∃ tokens p, p.Annotated ∧ p.ProcFree ∧
    (ParserRun.start tokens .strict).program.1 = .ok p ∧
      (ParserRun.start tokens .inferred).program.1 = .ok p := by
  have evaluated : (ParserRun.start (tokensAndErrors sharedText).1 .inferred).program.1.toOption.any
      (fun p => decide p.Annotated) = true := by
    decide +kernel
  cases accepted : (ParserRun.start (tokensAndErrors sharedText).1 .inferred).program.1 with
  | error e => simp [accepted, Except.toOption] at evaluated
  | ok p =>
    have annotated : p.Annotated := by simpa [accepted, Except.toOption] using evaluated
    obtain ⟨procFree, same⟩ := (program_dialects _ p).2 accepted
    obtain ⟨-, back⟩ := (program_dialects _ p).1 (same annotated)
    exact ⟨_, p, annotated, procFree, same annotated, back procFree⟩

end ArkLang
