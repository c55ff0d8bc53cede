import ArkLang.Proofs.Extents
import ArkLang.Proofs.Forward
import ArkLang.Proofs.Legible

/-!
# Parsers build trees from fragments

A parser steps over tokens, numbers nodes, and makes nodes of what it has read. What it holds at a
moment is a stack of fragments, the last one on top: tokens, numbers, and trees that are not part of
a larger tree yet. Each way to make a fragment of others is a production.

## Main definitions

* `Fragment` — what a parser has read or built and not used yet
* `Reduces` — the productions
* `TreeLaw` — a property of parsers with a stack that all steps and productions keep
-/

namespace ArkLang

/-- What a parser has read or built and not used yet. -/
inductive Fragment where
  | token (t : Token)
  /-- A number for a node. -/
  | number (id : NodeId)
  /-- The dialect is not the given one. -/
  | otherThan (d : Dialect)
  | name (x : Ident)
  | names (xs : List Ident)
  | type (t : TypeExpr)
  | types (ts : List TypeExpr)
  | expr (e : Expr)
  | exprs (es : List Expr)
  | importUnit (i : Import)
  | var (v : VarDecl)
  | param (p : Param)
  /-- Parameters behind others, of which one has a default or not. -/
  | params (defaulted : Bool) (ps : List Param)
  | proc (p : ProcDecl)
  | enumCase (c : EnumCase)
  | member (m : Member)
  | members (ms : List Member)
  | artifact (a : ArtifactDecl)
  | block (b : Block)
  /-- Arms of a chain, and the last one, which has no condition. -/
  | arms (gs : List Guarded) (fallback : Option Block)
  | stmt (s : Stmt)
  /-- A statement where it may stand. -/
  | admitted (topLevel afterChain : Bool) (s : Stmt)
  | stmts (topLevel afterChain : Bool) (ss : List Stmt)

namespace Fragment

@[simp]
def extents : Fragment → List Extent
  | number _ | otherThan _ => []
  | token t => [⟨t.span, []⟩]
  | name x => [x.extent]
  | names xs => xs.map Located.extent
  | type t => [t.extent]
  | types ts => TypeExpr.extents ts
  | expr e => [e.extent]
  | exprs es => Expr.extents es
  | importUnit i => [i.extent]
  | var v => [v.extent]
  | param p => [p.extent]
  | params _ ps => ps.map Param.extent
  | proc p => [p.extent]
  | enumCase c => [c.extent]
  | member m => [m.extent]
  | members ms => Member.extents ms
  | artifact a => [a.extent]
  | block b => [b.extent]
  | arms gs fallback => Guarded.extents gs ++ Block.fallbackExtent fallback
  | stmt s | admitted _ _ s => [s.extent]
  | stmts _ _ ss => Stmt.extents ss

/-- The nodes on a stack, in the order in which they were built. -/
@[simp]
def extentsAll : List Fragment → List Extent
  | [] => []
  | f :: s => extentsAll s ++ f.extents

end Fragment

/-- How many tokens an expression takes at least. -/
@[simp]
def Expr.weight : Expr → Nat
  | .unary _ _ e | .postOp _ _ e | .call _ e _ | .index _ e _ | .member _ e _ => e.weight + 1
  | .binary _ l _ r => l.weight + r.weight
  | _ => 1

theorem Expr.weight_pos (e : Expr) : 1 ≤ e.weight := by
  fun_induction Expr.weight e <;> omega

namespace Fragment

/-- How many tokens a fragment takes at least. -/
@[simp]
def weight : Fragment → Nat
  | expr e => e.weight
  | number _ | otherThan _ | names _ | types _ | exprs _ | params .. | members _ | arms ..
  | stmts .. => 0
  | _ => 1

@[simp]
def weightAll : List Fragment → Nat
  | [] => 0
  | f :: s => weightAll s + f.weight

end Fragment

/-- Whether a statement may stand at the top level or not, and behind a chain or not. -/
def Parser.admits (topLevel afterChain : Bool) : Stmt → Bool
  | .importUnit _ | .artifact _ => topLevel
  | .cond _ => !afterChain
  | _ => true

/-- Where a chain ends whose first arm ends with a span. -/
def chainEnd (last : Span) (gs : List Guarded) : Option Block → Span
  | some body => body.span
  | none => (gs.getLast?.map (·.body.span)).getD last

section Reduces

open Fragment

/-- The productions: what a parser makes of the fragments on top of its stack. -/
inductive Reduces : List Fragment → List Fragment → Prop
  | forget {t s} : Reduces (token t :: s) s
  | name {t : Token} {x s} : t.kind = .ident x → Reduces (token t :: s) (name ⟨x, t.span⟩ :: s)
  | namesNil {s} : Reduces s (names [] :: s)
  | namesCons {x xs s} : Reduces (names xs :: name x :: s) (names (x :: xs) :: s)
  -- types
  | named {x s} : Reduces (name x :: s) (type (.named x.span x) :: s)
  | qualified {x y s} :
    Reduces (name y :: name x :: s) (type (.qualified (x.span.join y.span) x y) :: s)
  | arrayType {open' size close : Token} {n e s} : size.kind = .int n →
    Reduces (token close :: token size :: type e :: token open' :: s)
      (type (.array (open'.span.join close.span) e n) :: s)
  | listType {open' close e s} : Reduces (token close :: type e :: token open' :: s)
      (type (.list (open'.span.join close.span) e) :: s)
  | procType {open' close arrow ts t s} : Reduces
      (type t :: token arrow :: token close :: types ts :: token open' :: otherThan .inferred :: s)
      (type (.proc (open'.span.join t.span) ts t) :: s)
  | typesNil {s} : Reduces s (types [] :: s)
  | typesCons {t ts s} : Reduces (types ts :: type t :: s) (types (t :: ts) :: s)
  -- expressions
  | int {t : Token} {v n s} : t.kind = .int v →
    Reduces (number n :: token t :: s) (expr (.int ⟨n, t.span⟩ v) :: s)
  | float {t v n s} : Reduces (number n :: token t :: s) (expr (.float ⟨n, t.span⟩ v) :: s)
  | str {t v n s} : Reduces (number n :: token t :: s) (expr (.str ⟨n, t.span⟩ v) :: s)
  | bool {t v n s} : Reduces (number n :: token t :: s) (expr (.bool ⟨n, t.span⟩ v) :: s)
  | ident {t : Token} {v n s} : t.kind = .ident v →
    Reduces (number n :: token t :: s) (expr (.ident ⟨n, t.span⟩ v) :: s)
  | selfProp {dot x n s} : Reduces (number n :: name x :: token dot :: s)
      (expr (.selfProp ⟨n, dot.span.join x.span⟩ x) :: s)
  | parens {open' close e s} : Reduces (token close :: expr e :: token open' :: s) (expr e :: s)
  | array {open' close es n s} : Reduces (number n :: token close :: exprs es :: token open' :: s)
      (expr (.array ⟨n, open'.span.join close.span⟩ es) :: s)
  | unary {t op e n s} : Reduces (number n :: expr e :: token t :: s)
      (expr (.unary ⟨n, t.span.join e.span⟩ op e) :: s)
  | binary {l op r n s} : Reduces (number n :: expr r :: expr l :: s)
      (expr (.binary ⟨n, l.span.join r.span⟩ l op r) :: s)
  | postOp {t op e n s} : Reduces (number n :: token t :: expr e :: s)
      (expr (.postOp ⟨n, e.span.join t.span⟩ op e) :: s)
  | call {open' close e es n s} :
    Reduces (number n :: token close :: exprs es :: token open' :: expr e :: s)
      (expr (.call ⟨n, e.span.join close.span⟩ e es) :: s)
  | index {open' close e i n s} :
    Reduces (number n :: token close :: expr i :: token open' :: expr e :: s)
      (expr (.index ⟨n, e.span.join close.span⟩ e i) :: s)
  | memberOf {dot e x n s} : Reduces (number n :: name x :: token dot :: expr e :: s)
      (expr (.member ⟨n, e.span.join x.span⟩ e x) :: s)
  | exprsNil {s} : Reduces s (exprs [] :: s)
  | exprsCons {e es s} : Reduces (exprs es :: expr e :: s) (exprs (e :: es) :: s)
  -- imports and variables
  | quoted {kw t path s} : isNameText (Parser.moduleAlias path).toList →
    Reduces (token t :: token kw :: s)
      (importUnit ⟨kw.span.join t.span, path, true, ⟨Parser.moduleAlias path, t.span⟩⟩ :: s)
  | bare {kw x xs s} : Reduces (names xs :: name x :: token kw :: s)
      (importUnit ⟨kw.span.join (xs.getLastD x).span,
        String.intercalate "/" ((x :: xs).map Located.value), false, xs.getLastD x⟩ :: s)
  | inferredVar {sign x mutable e n s} :
    Reduces (expr e :: otherThan .strict :: token sign :: name x :: number n :: s)
      (var ⟨⟨n, x.span.join e.span⟩, x, mutable, none, some e⟩ :: s)
  | typedVar {x mutable t e n s} : Reduces (expr e :: type t :: name x :: number n :: s)
      (var ⟨⟨n, x.span.join e.span⟩, x, mutable, some t, some e⟩ :: s)
  | bareVar {x t n s} : Reduces (otherThan .strict :: type t :: name x :: number n :: s)
      (var ⟨⟨n, x.span.join t.span⟩, x, true, some t, none⟩ :: s)
  -- procedures
  | typedParam {x t n s} : Reduces (type t :: name x :: number n :: s)
      (param ⟨⟨n, x.span.join t.span⟩, x, some t, none⟩ :: s)
  | defaultParam {x t e n s} : Reduces (expr e :: type t :: name x :: number n :: s)
      (param ⟨⟨n, x.span.join e.span⟩, x, some t, some e⟩ :: s)
  | untypedParam {x e n s} : Reduces (otherThan .strict :: expr e :: name x :: number n :: s)
      (param ⟨⟨n, x.span.join e.span⟩, x, none, some e⟩ :: s)
  | paramsNil {defaulted s} : Reduces s (params defaulted [] :: s)
  | paramsCons {defaulted : Bool} {p : Param} {ps s} : (defaulted → p.default.isSome) →
    Reduces (params (defaulted || p.default.isSome) ps :: param p :: s)
      (params defaulted (p :: ps) :: s)
  | typedProc {open' close x ps t b n s} : Reduces
      (block b :: type t :: token close :: params false ps :: token open' :: name x ::
      number n :: s)
      (proc ⟨⟨n, x.span.join b.span⟩, x, ps, some t, b⟩ :: s)
  | untypedProc {open' close x ps b n s} : Reduces
      (block b :: otherThan .strict :: token close :: params false ps :: token open' :: name x ::
        number n :: s)
      (proc ⟨⟨n, x.span.join b.span⟩, x, ps, none, b⟩ :: s)
  -- artifacts
  | bareCase {x s} : Reduces (name x :: s) (enumCase ⟨x.span, x, none⟩ :: s)
  | valueCase {t : Token} {v : Nat} {i : Int} {x s} : t.kind = .int v → i.natAbs = v →
    Reduces (token t :: name x :: s) (enumCase ⟨x.span.join t.span, x, some ⟨i, t.span⟩⟩ :: s)
  | propMember {v s} : Reduces (var v :: s) (member (.prop v) :: s)
  | procMember {p s} : Reduces (proc p :: s) (member (.proc p) :: s)
  | caseMember {c s} : Reduces (enumCase c :: s) (member (.enumCase c) :: s)
  | membersNil {s} : Reduces s (members [] :: s)
  | membersCons {m ms s} : Reduces (members ms :: member m :: s) (members (m :: ms) :: s)
  | artifact {sign open' close x ms n s} : CasesApart ms →
    Reduces (token close :: members ms :: token open' :: token sign :: name x :: number n :: s)
      (artifact ⟨⟨n, x.span.join close.span⟩, x, artifactKindOf ms, ms⟩ :: s)
  -- statements
  | armsNil {s} : Reduces s (arms [] none :: s)
  | fallback {bar b s} : Reduces (block b :: token bar :: s) (arms [] (some b) :: s)
  | armsCons {bar c b gs f s} : Reduces (arms gs f :: block b :: expr c :: token bar :: s)
      (arms (⟨bar.span.join b.span, c, b⟩ :: gs) f :: s)
  | chain {bar c b gs f s} : Reduces (arms gs f :: block b :: expr c :: token bar :: s)
      (stmt (.chain (bar.span.join (chainEnd b.span gs f))
      (⟨bar.span.join b.span, c, b⟩ :: gs) f) ::
        s)
  | whileLoop {kw c b s} : Reduces (block b :: expr c :: token kw :: s)
      (stmt (.whileLoop ⟨kw.span.join b.span, c, b⟩) :: s)
  | rangeLoop {comma x e f b n s} :
    Reduces (block b :: expr f :: expr e :: token comma :: name x :: number n :: s)
      (stmt (.rangeLoop ⟨n, x.span.join b.span⟩ x e f b) :: s)
  | breakLoop {t s} : Reduces (token t :: s) (stmt (.breakLoop t.span) :: s)
  | skipTurn {t s} : Reduces (token t :: s) (stmt (.skipTurn t.span) :: s)
  | ret {kw s} : Reduces (token kw :: s) (stmt (.ret kw.span none) :: s)
  | retValue {kw e s} : Reduces (expr e :: token kw :: s)
      (stmt (.ret (kw.span.join e.span) (some e)) :: s)
  | cond {c b s} : Reduces (block b :: expr c :: s)
      (stmt (.cond ⟨c.span.join b.span, c, b⟩) :: s)
  | assign {e f : Expr} {s} : e.isAssignable → Reduces (expr f :: expr e :: s)
      (stmt (.assign (e.span.join f.span) e f) :: s)
  | exprStmt {e s} : Reduces (expr e :: s) (stmt (.expr e) :: s)
  | blockStmt {b s} : Reduces (block b :: s) (stmt (.block b) :: s)
  | importStmt {i s} : Reduces (importUnit i :: s) (stmt (.importUnit i) :: s)
  | varStmt {v s} : Reduces (var v :: s) (stmt (.var v) :: s)
  | procStmt {p s} : Reduces (proc p :: s) (stmt (.proc p) :: s)
  | artifactStmt {a s} : Reduces (artifact a :: s) (stmt (.artifact a) :: s)
  | admitted {topLevel afterChain x s} : Parser.admits topLevel afterChain x →
    Reduces (stmt x :: s) (admitted topLevel afterChain x :: s)
  | stmtsNil {topLevel afterChain s} : Reduces s (stmts topLevel afterChain [] :: s)
  | stmtsCons {topLevel afterChain x xs s} :
    Reduces (stmts topLevel (Parser.isChain x) xs :: admitted topLevel afterChain x :: s)
      (stmts topLevel afterChain (x :: xs) :: s)
  | block {open' close ss s} : Reduces (token close :: stmts false false ss :: token open' :: s)
      (block ⟨open'.span.join close.span, ss⟩ :: s)

end Reduces

/-- No production adds weight. -/
theorem Fragment.weightAll_reduces {s s' : List Fragment} (h : Reduces s s') :
    weightAll s' ≤ weightAll s := by
  cases h <;> simp <;> grind [Expr.weight_pos]

/-- A value that a parser gives somewhere. -/
def Given {α : Type} (p : Parser α) (a : α) : Prop :=
  ∃ ctx st st', Gives p ctx st a st'

/-- A property of two parsers that find a stack and leave a stack with every value they give. The
number bounds the tokens that the stack was made of and those that are left together, and the next
tokens, one for each parser, may be known. Steps have it, and sequences and productions keep it. The
parsers may differ in their bounds, and in what they see of the end of input. -/
structure TreeLaw where
  Holds : {α : Type} → (budget : Nat) → Option (Token × Token) → List Fragment → Parser α →
    Parser α → (α → List Fragment) → Prop
  pure : ∀ {α N nx} {after : α → List Fragment} (a : α),
    Holds N nx (after a) (pure a) (pure a) after
  bind : ∀ {α β N nx s} {p q : Parser α} {f g : α → Parser β} {mid after}, Holds N nx s p q mid →
    (∀ a, Given p a → Holds N none (mid a) (f a) (g a) after) →
    Holds N nx s (p >>= f) (q >>= g) after
  reduce : ∀ {α N nx s s'} {p q : Parser α} {after}, Reduces s s' → Holds N nx s' p q after →
    Holds N nx s p q after
  unknown : ∀ {α N nx s} {p q : Parser α} {after}, Holds N none s p q after → Holds N nx s p q after
  /-- When no token is left, the second parser only counts at the end of input. -/
  spent : ∀ {α N nx s} {p q q' : Parser α} {after}, N ≤ Fragment.weightAll s →
    (∀ ctx st, (st.next ctx).kind = .eof → runAt q ctx st = runAt q' ctx st) →
    Holds N nx s p q' after → Holds N nx s p q after
  current : ∀ {α N nx s} {f g : Token → Parser α} {after},
    (∀ t, t.kind ≠ .eof → (∀ u ∈ nx, u.1 = t) → Holds N (some (t, t)) s (f t) (g t) after) →
    (∀ t t', t.kind = .eof → t'.kind = .eof → (∀ u ∈ nx, u.1 = t) →
      Holds N (some (t, t')) s (f t) (g t') after) →
    Holds N nx s (Parser.current >>= f) (Parser.current >>= g) after
  past : ∀ {α N t s} {f g : Unit → Parser α} {after}, t.kind ≠ .eof →
    Holds N none (.token t :: s) (f ()) (g ()) after →
    Holds N (some (t, t)) s (Parser.advance >>= f) (Parser.advance >>= g) after
  stay : ∀ {α N t t' s} {f g : Unit → Parser α} {after}, t.kind = .eof → t'.kind = .eof →
    Holds N (some (t, t')) s (f ()) (g ()) after →
    Holds N (some (t, t')) s (Parser.advance >>= f) (Parser.advance >>= g) after
  first : ∀ {α N nx s} {f g : Option TokenKind → Parser α} {after}, f (some .eof) = f none →
    g (some .eof) = g none → Holds N none s (f none) (g none) after →
    (∀ t, t.kind ≠ .eof → Holds N (some (t, t)) s (f (some t.kind)) (g (some t.kind)) after) →
    Holds N nx s (Parser.peek? 0 >>= f) (Parser.peek? 0 >>= g) after
  peek : ∀ {α N nx s n} {f g : Option TokenKind → Parser α} {after}, g (some .eof) = g none →
    (∀ k, Holds N nx s (f k) (g k) after) →
    Holds N nx s (Parser.peek? n >>= f) (Parser.peek? n >>= g) after
  look : ∀ {α N nx s} {f g : ParseState → Parser α} {after},
    (∀ st st', Parser.opensProc st.rest = Parser.opensProc st'.rest →
      Holds N nx s (f st) (g st') after) → Holds N nx s (get >>= f) (get >>= g) after
  remaining : ∀ {α N nx s} {f g : Nat → Parser α} {after},
    (∀ n a b, n ≤ a → n ≤ b → n ≤ N - Fragment.weightAll s →
      Holds (n + Fragment.weightAll s) nx s (f a) (g b) after) →
    Holds N nx s (Parser.remaining >>= f) (Parser.remaining >>= g) after
  drop : ∀ {N s} {skipped : Token → Bool}, (∀ t, t.kind = .eof → skipped t = false) →
    Holds N none s (modify fun st => { st with rest := st.rest.dropWhile skipped } : Parser Unit)
      (modify fun st => { st with rest := st.rest.dropWhile skipped }) fun _ => s
  freshId : ∀ {N nx s}, Holds N nx s Parser.freshId Parser.freshId fun id => .number id :: s
  failAt : ∀ {α N nx s t fault} {after : α → List Fragment}, nx = some (t, t) ∨ .token t ∈ s →
    Holds N nx s (Parser.failAt t fault) (Parser.failAt t fault) after
  failEnd : ∀ {α N t t' s fault} {after : α → List Fragment}, t.kind = .eof → t'.kind = .eof →
    Holds N (some (t, t')) s (Parser.failAt t fault) (Parser.failAt t' fault) after
  failOver : ∀ {α N nx s span fault} {after : α → List Fragment},
    span ∈ nx.map (·.1.span) ∨ span ∈ (Fragment.extentsAll s).map Extent.span →
    Holds N nx s (Parser.failOver span fault) (Parser.failOver span fault) after
  refuse : ∀ {α N nx s d} {stop stop' rest rest' : Parser α} {after},
    (∀ ctx st a st', ¬ Gives stop ctx st a st') → Holds N nx s stop stop' after →
    Holds N nx (.otherThan d :: s) rest rest' after →
    Holds N nx s (do if (← read).dialect = d then stop else rest)
      (do if (← read).dialect = d then stop' else rest') after
  goOn : ∀ {N t s stmt stmt' more more' topLevel afterChain}, t.kind ≠ .eof → Forward stmt →
    Holds N none s stmt stmt' (fun x => .admitted topLevel afterChain x :: s) →
    (∀ N' s' afterChain, N' ≤ N + Fragment.weightAll s' - Fragment.weightAll s - 1 →
      Holds N' none s' (more afterChain) (more' afterChain) fun xs =>
        .stmts topLevel afterChain xs :: s') →
    Holds N (some (t, t)) s (Parser.remaining >>= fun start => Parser.goOn start stmt more)
      (Parser.remaining >>= fun start => Parser.goOn start stmt' more')
      fun xs => .stmts topLevel afterChain xs :: s

end ArkLang
