import ArkLang.Proofs.Readings

/-!
# What a parser builds

A parser numbers the nodes it builds in the order of reading: a declaration before its parts, an
expression after its operands. No number is given twice, also when parsing goes on after an error;
then the nodes of what failed are lost, and their numbers with them. What is read from the tokens of
a text without an error is legible.
-/

namespace ArkLang

open List

/-! ### Identities in the order of reading -/

mutual

/-- The identities of an expression, those of its operands first. -/
def Expr.ids : Expr → List NodeId
  | .int node _ | .float node _ | .str node _ | .bool node _ | .ident node _ | .selfProp node _ =>
    [node.id]
  | .array node items => Expr.idsAll items ++ [node.id]
  | .unary node _ operand => operand.ids ++ [node.id]
  | .binary node left _ right => left.ids ++ right.ids ++ [node.id]
  | .postOp node _ operand => operand.ids ++ [node.id]
  | .call node callee args => callee.ids ++ Expr.idsAll args ++ [node.id]
  | .index node base place => base.ids ++ place.ids ++ [node.id]
  | .member node base _ => base.ids ++ [node.id]

def Expr.idsAll : List Expr → List NodeId
  | [] => []
  | e :: es => e.ids ++ Expr.idsAll es

end

def Expr.idsOption : Option Expr → List NodeId
  | none => []
  | some e => e.ids

def VarDecl.ids (v : VarDecl) : List NodeId :=
  v.node.id :: Expr.idsOption v.value

def Param.ids (p : Param) : List NodeId :=
  p.node.id :: Expr.idsOption p.default

def Param.idsAll : List Param → List NodeId
  | [] => []
  | p :: ps => p.ids ++ Param.idsAll ps

mutual

@[simp]
def Stmt.ids : Stmt → List NodeId
  | .importUnit _ | .breakLoop _ | .skipTurn _ => []
  | .var decl => decl.ids
  | .proc decl => decl.ids
  | .artifact decl => decl.ids
  | .assign _ target value => target.ids ++ value.ids
  | .cond ⟨_, cond, body⟩ => cond.ids ++ body.ids
  | .chain _ arms fallback => Guarded.idsAll arms ++ Block.idsOption fallback
  | .whileLoop ⟨_, cond, body⟩ => cond.ids ++ body.ids
  | .rangeLoop node _ start stop body => node.id :: start.ids ++ stop.ids ++ body.ids
  | .ret _ value => Expr.idsOption value
  | .block body => body.ids
  | .expr value => value.ids

@[simp]
def Stmt.idsAll : List Stmt → List NodeId
  | [] => []
  | s :: ss => s.ids ++ Stmt.idsAll ss

@[simp]
def Guarded.idsAll : List Guarded → List NodeId
  | [] => []
  | ⟨_, cond, body⟩ :: gs => cond.ids ++ body.ids ++ Guarded.idsAll gs

@[simp]
def Block.ids : Block → List NodeId
  | ⟨_, stmts⟩ => Stmt.idsAll stmts

@[simp]
def Block.idsOption : Option Block → List NodeId
  | none => []
  | some body => body.ids

@[simp]
def ProcDecl.ids : ProcDecl → List NodeId
  | ⟨node, _, params, _, body⟩ => node.id :: Param.idsAll params ++ body.ids

@[simp]
def ArtifactDecl.ids : ArtifactDecl → List NodeId
  | ⟨node, _, _, members⟩ => node.id :: Member.idsAll members

@[simp]
def Member.ids : Member → List NodeId
  | .prop decl => decl.ids
  | .proc decl => decl.ids
  | .enumCase _ => []

@[simp]
def Member.idsAll : List Member → List NodeId
  | [] => []
  | m :: ms => m.ids ++ Member.idsAll ms

end

def Program.ids (p : Program) : List NodeId :=
  Stmt.idsAll p.stmts

/-! ### Numbers that were given -/

/-- The identities were given between two numbers: all of these in order or, if some nodes may be
lost, some of them. -/
structure Numbered (lossy : Bool) (ids : List NodeId) (first next : Nat) : Prop where
  le : first ≤ next
  sublist : ids.Sublist (List.range' first (next - first))
  gapless : lossy = false → ids = List.range' first (next - first)

namespace Numbered

variable {lossy : Bool} {ids ids' : List NodeId} {first middle next : Nat}

theorem range'_split (h : first ≤ middle) (h' : middle ≤ next) : List.range' first (next - first) =
    List.range' first (middle - first) ++ List.range' middle (next - middle) := by
  have size : next - first = (middle - first) + (next - middle) := by omega
  rw [size, ← range'_append_1, Nat.add_sub_cancel' h]

theorem nil : Numbered lossy [] first first :=
  ⟨Nat.le_refl _, nil_sublist _, fun _ => by simp⟩

theorem append (h : Numbered lossy ids first middle) (h' : Numbered lossy ids' middle next) :
    Numbered lossy (ids ++ ids') first next where
  le := h.le.trans h'.le
  sublist := range'_split h.le h'.le ▸ h.sublist.append h'.sublist
  gapless plain := by rw [range'_split h.le h'.le, ← h.gapless plain, ← h'.gapless plain]

theorem snoc (h : Numbered lossy ids first next) :
    Numbered lossy (ids ++ [next]) first (next + 1) :=
  h.append ⟨Nat.le_succ _, by simp, fun _ => by simp⟩

theorem weaken (h : Numbered lossy ids first next) : Numbered true ids first next :=
  ⟨h.le, h.sublist, nofun⟩

theorem lose (h : Numbered true ids first middle) (le : middle ≤ next) :
    Numbered true ids first next where
  le := h.le.trans le
  sublist := range'_split h.le le ▸ h.sublist.trans (sublist_append_left _ _)
  gapless := nofun

end Numbered

/-! ### Legible tokens -/

/-- A token that stands in the text of a legible tree. -/
def TokenKind.Legible : TokenKind → Prop
  | .ident name => IsName name
  | .int value => value < intBound
  | _ => True

/-- Tokens that a parser may read. -/
def TokensLegible (ts : List Token) : Prop :=
  ∀ t ∈ ts, t.kind.Legible

variable {st : ParseState}

theorem TokensLegible.past (h : TokensLegible st.rest) :
    TokensLegible st.past.rest :=
  fun t mem => h t ((Parser.afterNext_suffix _).subset mem)

theorem TokensLegible.next (h : TokensLegible st.rest) (ctx : ParseContext) :
    (st.next ctx).kind.Legible := by
  by_cases eof : (st.next ctx).kind = .eof
  · rw [eof]
    trivial
  · exact h _ (by simp [Parser.rest_of_next eof])

/-! ### Numbers -/

namespace Fragment

@[simp]
def ids : Fragment → List NodeId
  | number id => [id]
  | expr e => e.ids
  | exprs es => Expr.idsAll es
  | var v => v.ids
  | param p => p.ids
  | params _ ps => Param.idsAll ps
  | proc p => p.ids
  | member m => m.ids
  | members ms => Member.idsAll ms
  | artifact a => a.ids
  | block b => b.ids
  | arms gs fallback => Guarded.idsAll gs ++ Block.idsOption fallback
  | stmt s | admitted _ _ s => s.ids
  | stmts _ _ ss => Stmt.idsAll ss
  | _ => []

@[simp]
def idsAll : List Fragment → List NodeId
  | [] => []
  | f :: s => idsAll s ++ f.ids

/-- Productions keep the order of numbers. -/
theorem idsAll_reduces {s s' : List Fragment} (h : Reduces s s') : idsAll s = idsAll s' := by
  cases h <;>
    simp [Expr.ids, Expr.idsAll, Expr.idsOption, VarDecl.ids, Param.ids, Param.idsAll]

end Fragment

/-- The identities on the stack were given from a first number on. -/
def numbering (first : Nat) : StackInvariant where
  Holds ctx st s := Numbered ctx.recovering (Fragment.idsAll s) first st.nextId
  Failed _ _ _ := True
  reduce reduces here := Fragment.idsAll_reduces reduces ▸ here
  past _ here := by simpa [ParseState.past] using here
  skip _ _ here := here
  numbered here := here.snoc
  otherThan _ here := by simpa using here
  failAt _ _ := trivial
  failOver _ _ := trivial
  recover recovering here _ _ le := by
    rw [recovering] at here ⊢
    exact here.lose le
  behind _ here := here

/-- Parsers number nodes in the order of reading. -/
theorem numbered_of_reads {α : Type} {p : Parser α} {frag : α → Fragment} {ctx : ParseContext}
    {st' : ParseState} {a : α} (h : ∀ law : TreeLaw, law.Reads p frag)
    (run : Gives p ctx st a st') :
    Numbered ctx.recovering (frag a).ids st.nextId st'.nextId := by
  have start : (numbering st.nextId).Holds ctx st [] := Numbered.nil
  exact (h (numbering st.nextId).law).keeps.gives start run

/-! ### Legible fragments -/

theorem pathSegmentsOf_intercalate {names : List String} (nonempty : names ≠ [])
    (h : ∀ name ∈ names, IsName name) : pathSegmentsOf (String.intercalate "/" names) = names := by
  have noSlash : ∀ cs ∈ names.map String.toList, '/' ∉ cs := by
    intro cs mem slash
    obtain ⟨name, hname, rfl⟩ := List.mem_map.mp mem
    obtain ⟨spelled, -⟩ := h name hname
    cases chars : name.toList with
    | nil => simp [chars] at slash
    | cons c cs =>
      simp only [chars, isNameText, Bool.and_eq_true, all_eq_true] at spelled
      rw [chars] at slash
      rcases List.mem_cons.mp slash with rfl | slash
      · exact absurd spelled.1 (by decide)
      · exact absurd (spelled.2 _ slash) (by decide)
  rw [pathSegmentsOf, String.toList_intercalate]
  have split := splitOn_intercalate '/' noSlash (by simpa using nonempty)
  rw [show "/".toList = ['/'] from rfl, split]
  simp [Function.comp_def]

namespace Fragment

@[simp]
def Legible (d : Dialect) : Fragment → Prop
  | token t => t.kind.Legible
  | number _ => True
  | otherThan d' => d ≠ d'
  | name x => IsName x.value
  | names xs => ∀ x ∈ xs, IsName x.value
  | type t => t.Legible d
  | types ts => TypeExpr.AllLegible d ts
  | expr e => e.Legible
  | exprs es => Expr.AllLegible es
  | importUnit i => i.Legible
  | var v => v.Legible d
  | param p => p.Legible d
  | params defaulted ps => Param.AllLegible d defaulted ps
  | proc p => p.Legible d
  | enumCase c => c.Legible
  | member m => m.Legible d
  | members ms => Member.AllLegible d ms
  | artifact a => a.Legible d
  | block b => b.Legible d
  | arms gs fallback => Guarded.AllLegible d gs ∧ Block.OptionLegible d fallback
  | stmt s => s.Legible d true
  | admitted topLevel afterChain s => s.Legible d topLevel ∧ (afterChain → ∀ arm, s ≠ .cond arm)
  | stmts topLevel afterChain ss => Stmt.AllLegible d topLevel afterChain ss

theorem legible_of_admits {d : Dialect} {s : Stmt} (h : s.Legible d true)
    {topLevel afterChain : Bool}
    (admitted : Parser.admits topLevel afterChain s) :
    s.Legible d topLevel ∧ (afterChain → ∀ arm, s ≠ .cond arm) := by
  refine ⟨?_, ?_⟩
  · cases s with
    | importUnit | artifact => exact ⟨admitted, h.2⟩
    | cond arm => cases arm; exact h
    | whileLoop loop => cases loop; exact h
    | _ => exact h
  · rintro rfl arm rfl
    exact absurd admitted (by simp [Parser.admits])

@[simp]
def AllLegible (d : Dialect) : List Fragment → Prop
  | [] => True
  | f :: s => f.Legible d ∧ AllLegible d s

/-- Productions make legible trees of legible parts. -/
theorem allLegible_reduces {d : Dialect} {s s' : List Fragment} (h : Reduces s s')
    (legible : AllLegible d s) : AllLegible d s' := by
  cases h with
  | @bare kw x xs s =>
    obtain ⟨others, first, -, rest⟩ := legible
    have names : ∀ name ∈ (x :: xs).map Located.value, IsName name := by
      simpa using ⟨first, others⟩
    refine ⟨?_, rest⟩
    rw [Legible, Import.Legible, if_neg (by simp), pathSegmentsOf_intercalate (by simp) names]
    exact ⟨names, by simp [getLast?_cons]⟩
  | admitted admits => exact ⟨legible_of_admits legible.1 admits, legible.2⟩
  | _ =>
    cases d <;>
    simp_all [TypeExpr.Legible, TypeExpr.AllLegible, Expr.Legible, Expr.AllLegible,
      Import.Legible, VarDecl.Legible, Param.Legible, Param.AllLegible, ProcDecl.Legible,
      EnumCase.Legible, Member.Legible, Member.AllLegible, ArtifactDecl.Legible, Guarded.AllLegible,
      Block.OptionLegible, Block.Legible, Stmt.Legible, Stmt.AllLegible, TokenKind.Legible]

end Fragment

/-- What is read without an error from legible tokens is legible. -/
def legibility : StackInvariant where
  Holds ctx st s :=
    ctx.recovering = false ∧ TokensLegible st.rest ∧ Fragment.AllLegible ctx.dialect s
  Failed _ _ _ := True
  reduce reduces here := ⟨here.1, here.2.1, Fragment.allLegible_reduces reduces here.2.2⟩
  past _ here := ⟨here.1, here.2.1.past, here.2.1.next _, here.2.2⟩
  skip suffix _ here := ⟨here.1, fun t mem => here.2.1 t ((suffix _).subset mem), here.2.2⟩
  numbered here := ⟨here.1, here.2.1, trivial, here.2.2⟩
  otherThan other here := ⟨here.1, here.2.1, other, here.2.2⟩
  failAt _ _ := trivial
  failOver _ _ := trivial
  recover recovering here := absurd recovering (by simp [here.1])
  behind recovering here := absurd recovering (by simp [here.1])

/-! ### The tokens of a text -/

variable {cs : List Char} {kind : TokenKind}

theorem isName_of_scanWord {c : Char} (start : isNameStart c)
    (plain : Keyword.ofText? (String.ofList (c :: cs.takeWhile isNameChar)) = none) :
    IsName (String.ofList (c :: cs.takeWhile isNameChar)) := by
  refine ⟨?_, plain⟩
  simp only [String.toList_ofList, isNameText, start, Bool.true_and]
  exact all_takeWhile

theorem legible_of_scanNumber {c : Char}
    (h : (scanNumber c cs).piece = .token kind) : kind.Legible := by
  simp only [scanNumber] at h
  split at h
  · simp only [intPiece] at h
    split at h
    · rename_i bound
      cases h
      exact bound
    · cases h
  · split at h
    · simp only [floatPiece] at h
      generalize Binary64.ofDecimal? _ _ = read at h
      cases read <;> cases h
      trivial
    · cases h
  · cases h

theorem legible_of_scanString {quote : Char}
    (h : (scanString quote cs).piece = .token kind) : kind.Legible := by
  simp only [scanString] at h
  split at h
  · split at h
    · split at h <;> cases h
      trivial
    · split at h <;> cases h
  · cases h

theorem legible_of_scanSymbol {c : Char}
    (h : (scanSymbol c cs).piece = .token kind) : kind.Legible := by
  simp only [scanSymbol] at h
  split at h <;> cases h
  trivial

theorem scanComment?_ne_token {found : Lexeme} (h : scanComment? cs = some found)
    (kind : TokenKind) : found.piece ≠ .token kind := by
  unfold scanComment? at h
  split at h
  · cases h
    simp
  · split at h <;> cases h <;> simp
  · cases h

/-- Tokens that are found in a text are legible. -/
theorem legible_of_scan {c : Char}
    (h : (scan c cs).piece = .token kind) : kind.Legible := by
  unfold scan at h
  split at h
  · cases h
  split at h
  · rename_i start
    simp only [scanWord] at h
    split at h
    · cases h
      trivial
    · rename_i plain
      cases h
      exact isName_of_scanWord start plain
  split at h
  · exact legible_of_scanNumber h
  split at h
  · exact legible_of_scanString h
  split at h
  · cases comment : scanComment? cs with
    | none => exact legible_of_scanSymbol (by simpa [comment] using h)
    | some found =>
      rw [comment, Option.getD_some] at h
      exact absurd h (scanComment?_ne_token comment kind)
  · exact legible_of_scanSymbol h

theorem legible_of_mem_lexFrom {lines : LineIndex} {offset : Nat} {newline : Bool}
    {t : Token} (h : .ok t ∈ lexFrom lines offset newline cs) : t.kind.Legible := by
  fun_induction lexFrom lines offset newline cs with
  | case1 =>
    cases List.mem_singleton.mp h
    trivial
  | case2 offset newline c cs found lexeme stop gap ih => exact ih h
  | case3 offset newline c cs found lexeme stop span kind scanned ih =>
    rcases List.mem_cons.mp h with here | later
    · cases here
      exact legible_of_scan scanned
    · exact ih later
  | case4 offset newline c cs found lexeme stop span cause fault ih =>
    rcases List.mem_cons.mp h with here | later
    · cases here
    · exact ih later

theorem mapM_id_eq_ok {ε α : Type} {items : List (Except ε α)} {as : List α}
    (h : items.mapM id = .ok as) : items = as.map .ok := by
  induction items generalizing as with
  | nil =>
    cases h
    rfl
  | cons item items ih =>
    rw [mapM_cons] at h
    cases item with
    | error e => cases h
    | ok a =>
      cases rest : items.mapM id with
      | error e =>
        rw [rest] at h
        cases h
      | ok more =>
        rw [rest] at h
        cases h
        rw [ih rest, map_cons]

theorem tokensLegible_of_tokens {text : String} {ts : List Token} (h : tokens text = .ok ts) :
    TokensLegible ts := by
  intro t mem
  have items : lex text = ts.map .ok := mapM_id_eq_ok h
  have listed : .ok t ∈ lex text := items ▸ List.mem_map.mpr ⟨t, mem, rfl⟩
  exact legible_of_mem_lexFrom listed

/-! ### Whole programs -/

theorem parseProgram_eq_ok {d : Dialect} {text : String} {p : Program} :
    parseProgram d text = .ok p ↔ ∃ ts st', tokens text = .ok ts ∧
      Gives Parser.program ⟨ts, d, false⟩ ⟨ts, 0, []⟩ p st' := by
  simp only [parseProgram, readTokens]
  cases tokens text with
  | error e =>
    constructor
    · rintro ⟨⟩
    · rintro ⟨_, _, ⟨⟩, _⟩
  | ok ts =>
    change ((runAt Parser.program ⟨ts, d, false⟩ ⟨ts, 0, []⟩).1.mapError ReadError.parse) = _ ↔ _
    constructor
    · intro h
      rcases run : runAt Parser.program ⟨ts, d, false⟩ ⟨ts, 0, []⟩ with ⟨_ | q, st'⟩
      · simp [run, Except.mapError] at h
      · obtain rfl : q = p := by simpa [run, Except.mapError] using h
        exact ⟨ts, st', rfl, run⟩
    · rintro ⟨_, st', ⟨⟩, run⟩
      rw [Gives] at run
      rw [run]
      rfl

/-- A program that is read is legible, and numbered from zero. -/
theorem parseProgram_builds {d : Dialect} {text : String} {p : Program}
    (h : parseProgram d text = .ok p) : p.Legible d ∧ ∃ n, p.ids = List.range n := by
  obtain ⟨ts, st', lexed, run⟩ := parseProgram_eq_ok.mp h
  have start : legibility.Holds ⟨ts, d, false⟩ ⟨ts, 0, []⟩ [] :=
    ⟨rfl, tokensLegible_of_tokens lexed, trivial⟩
  have legible := (@Parser.reads_program legibility.law).keeps.gives start run
  refine ⟨legible.2.2.1, st'.nextId - 0, ?_⟩
  rw [range_eq_range']
  exact (numbered_of_reads @Parser.reads_program run).gapless rfl

end ArkLang
