import ArkLang.Proofs.ProcHeads

/-!
# Reading the tokens of statements

A parser that finds the tokens of a statement in front of some others gives a statement of that
structure, and stops behind them, provided that what follows ends a statement: a semicolon, a line
break, or the end of the block.

A block is read by the parser of statements one nesting level further in. What is said of statements
is therefore relative to a parser of blocks, and the nesting is taken care of once, at the end.
-/

namespace ArkLang.Parser

open List

/-! ### What follows a statement -/

/-- The kinds of token that a statement may start with. -/
def startsStmt : TokenKind → Bool
  | .symbol s => s == .dot || s == .lparen || s == .lbracket || s == .bang || s == .tilde ||
    s == .chain || s == .lbrace
  | .eof => false
  | _ => true

/-- What may follow a statement. -/
structure StmtEnds (rest : List Mark) : Prop where
  next : ∃ kind nl tail, rest = (kind, nl) :: tail ∧ (kind = .symbol .semi ∨
    nl = true ∧ (startsStmt kind = true ∨ kind = .symbol .rbrace ∨ kind = .eof))
  goesOn : GoesOn rest

variable {ctx : ParseContext} {st : ParseState} {rest : List Mark}

theorem StmtEnds.exprEnds (h : StmtEnds rest) : ExprEnds rest := by
  obtain ⟨kind, nl, tail, rfl, ends⟩ := h.next
  constructor
  · rintro _ _ ⟨⟩
    obtain rfl | ⟨⟨⟩, -⟩ := ends
    rfl
  · rintro _ _ _ op ⟨⟩ found
    rcases ends with rfl | ⟨-, starts | rfl | rfl⟩
    · cases found
    · cases kind with
      | symbol s => cases s <;> simp_all [startsStmt, binOp?]
      | _ => cases found
    · cases found
    · cases found

theorem StmtEnds.typeEnds (h : StmtEnds rest) : TypeEnds rest := by
  obtain ⟨kind, nl, tail, rfl, ends⟩ := h.next
  rintro ms ⟨⟩
  rcases ends with ends | ⟨ends, -⟩ <;> cases ends

theorem StmtEnds.noEq (h : StmtEnds rest) : ¬ NextIs (.symbol .eq) rest := by
  obtain ⟨kind, nl, tail, rfl, ends⟩ := h.next
  rintro ⟨_, _, ⟨⟩⟩
  rcases ends with ends | ⟨-, ends | ends | ends⟩ <;> cases ends

/-! ### Variables -/

/-- A declaration behind its name and sign: `w` has this name and the given type and value. -/
structure Declares (name : Ident) (mutable : Bool) (type : Option TypeExpr) (value : Option Expr)
    (w : VarDecl) : Prop where
  name : w.name = name
  mutable : w.mutable = mutable
  type : sameOption TypeExpr.same type w.type = true
  value : sameOption Expr.same value w.value = true

variable {nl afterChain : Bool} {ss : List Stmt} {kind : TokenKind} {name : Ident} {d : Dialect}
variable {limit : Nat} {fallback : Option Block} {s : Stmt} {ms ms' : List Member}
variable {value : Option Expr} {span : Span}

theorem Declares.same {node : Node} {mutable : Bool}
    {type : Option TypeExpr} {w : VarDecl}
    (h : Declares ⟨name.value, span⟩ mutable type value w) :
    VarDecl.same ⟨node, name, mutable, type, value⟩ w = true := by
  simp [VarDecl.same, h.name, h.mutable, h.type, h.value]

theorem inferredVar_recognizes {id : NodeId} {sign : Token} {mutable : Bool}
    {symbol : Symbol} {value : Expr} (inferred : ctx.dialect = .inferred) :
    Recognizes (inferredVar id name sign mutable symbol) ctx (value.marks false) StmtEnds
      (Declares name mutable none (some value)) :=
  fun _ ends => .refuse (by simp [inferred]) ((expr_recognizes value false).bind ends.exprEnds
    fun _ same => .pure ⟨rfl, rfl, rfl, rfl, same⟩)

theorem typedVar_recognizes {id : NodeId} {mutable : Bool} {type : TypeExpr}
    (legible : type.Legible ctx.dialect)
    (valueless : value = none → ctx.dialect = .inferred ∧ mutable) :
    Recognizes (typedVar id name mutable) ctx (type.marks ++ valueMarks .eq value) StmtEnds
      (Declares name mutable (some type) value) := by
  intro rest ends
  rw [append_assoc]
  cases value with
  | some value =>
    refine (typeExpr_recognizes legible).bind (by rintro _ ⟨⟩) fun type' sameType =>
      .ifSign ⟨_, _, rfl⟩ ?_
    exact .advance (by simp) ((expr_recognizes value false).bind ends.exprEnds fun _ sameValue =>
      .pure ⟨rfl, rfl, rfl, sameType, sameValue⟩)
  | none =>
    obtain ⟨inferred, rfl⟩ := valueless rfl
    refine (typeExpr_recognizes legible).bind ends.typeEnds fun type' sameType => ?_
    exact .ifOther ends.noEq (.refuse (by simp [inferred]) (.pure ⟨rfl, rfl, rfl, sameType, rfl⟩))

theorem varDecl_recognizes {v : VarDecl} (legible : v.Legible ctx.dialect) (nl : Bool) :
    Recognizes varDecl ctx (v.marks nl) StmtEnds (fun w => v.same w = true) := by
  intro rest ends
  obtain ⟨node, name, mutable, type, value⟩ := v
  obtain ⟨-, legibleType, -, untyped, valueless⟩ := legible
  refine .freshId fun id => .expectIdent fun span => ?_
  cases type with
  | none =>
    obtain ⟨inferred, some_value⟩ := untyped rfl
    obtain ⟨value, rfl⟩ := Option.isSome_iff_exists.mp some_value
    cases mutable <;>
    · refine .bump (by simp) fun sign next => ?_
      rw [next]
      exact (inferredVar_recognizes inferred ends).mono fun w ms read => ⟨read.1, read.2.same⟩
  | some type =>
    cases mutable <;>
    · refine .bump (by simp) fun sign next => ?_
      rw [next]
      exact (typedVar_recognizes (legibleType type rfl) valueless ends).mono fun w ms read =>
        ⟨read.1, read.2.same⟩

theorem varDeclMarks_cons {v : VarDecl} (legible : v.Legible d) (nl : Bool) :
    ∃ sign kind nl' tail,
      v.marks nl = (.ident v.name.value, nl) :: (.symbol sign, false) :: (kind, nl') :: tail ∧
        (sign = .colon ∨ sign = .colonColon ∨ sign = .colonEq ∨ sign = .colonColonEq) ∧
          kind ≠ .symbol .lbrace := by
  obtain ⟨node, name, mutable, type, value⟩ := v
  obtain ⟨-, -, -, untyped, -⟩ := legible
  cases type with
  | none =>
    obtain ⟨value, rfl⟩ := Option.isSome_iff_exists.mp (untyped rfl).2
    obtain ⟨kind, tail, marks, starts⟩ := value.startsExpr_marks false
    simp only [VarDecl.marks, valueMarks, marks]
    refine ⟨_, kind, false, tail, rfl, by cases mutable <;> simp, ?_⟩
    rintro rfl
    cases starts
  | some type =>
    obtain ⟨kind, tail, marks, starts⟩ := type.marks_cons
    simp only [VarDecl.marks, typeMarks, marks, cons_append]
    refine ⟨_, kind, false, _, rfl, by cases mutable <;> simp, ?_⟩
    rcases starts with ⟨name, rfl⟩ | rfl | rfl <;> simp

/-! ### Procedures -/

def ParamEnds (rest : List Mark) : Prop :=
  NextIs (.symbol .comma) rest ∨ NextIs (.symbol .rparen) rest

theorem ParamEnds.exprEnds (h : ParamEnds rest) : ExprEnds rest := by
  rcases h with next | next <;> exact .of_nextIs rfl rfl next

theorem ParamEnds.typeEnds (h : ParamEnds rest) : TypeEnds rest := by
  rcases h with next | next <;> exact .of_nextIs (by simp) next

theorem ParamEnds.noEq (h : ParamEnds rest) : ¬ NextIs (.symbol .eq) rest := by
  rintro ⟨nl, tail, rfl⟩
  rcases h with ⟨_, _, ⟨⟩⟩ | ⟨_, _, ⟨⟩⟩

theorem param_recognizes {p : Param} (legible : p.Legible ctx.dialect) :
    Recognizes param ctx p.marks ParamEnds (fun q => p.same q = true) := by
  intro rest ends
  obtain ⟨node, name, type, default⟩ := p
  obtain ⟨-, legibleType, -, untyped⟩ := legible
  simp only [Param.marks, cons_append, append_assoc, param, pure_bind]
  refine .freshId fun id => .expectIdent fun span => ?_
  cases type with
  | none =>
    obtain ⟨inferred, some_default⟩ := untyped rfl
    obtain ⟨value, rfl⟩ := Option.isSome_iff_exists.mp some_default
    refine .ifOther (by simp [typeMarks, valueMarks, NextIs])
      (.ifSign ⟨_, _, rfl⟩ (.advance (by simp) ?_))
    refine (expr_recognizes value false).map_bind ends.exprEnds fun value' same => ?_
    exact .refuse (by simp [inferred]) (.pure ⟨rfl, by simp [Param.same, sameOption, same]⟩)
  | some type =>
    refine .ifSign ⟨_, _, rfl⟩ (.advance (by simp) ?_)
    cases default with
    | none =>
      refine (typeExpr_recognizes (legibleType type rfl)).map_bind ends.typeEnds
        fun type' same => ?_
      exact .ifOther ends.noEq (.pure ⟨rfl, by simp [Param.same, sameOption, same]⟩)
    | some value =>
      refine (typeExpr_recognizes (legibleType type rfl)).map_bind (by rintro _ ⟨⟩)
        fun type' sameType => .ifSign ⟨_, _, rfl⟩ (.advance (by simp) ?_)
      refine (expr_recognizes value false).map_bind ends.exprEnds fun value' sameValue => ?_
      exact .pure ⟨rfl, by simp [Param.same, sameOption, sameType, sameValue]⟩

theorem isSome_default_of_same {p q : Param} (h : p.same q = true) :
    q.default.isSome = p.default.isSome := by
  obtain ⟨_, _, _, a⟩ := p
  obtain ⟨_, _, _, b⟩ := q
  cases a <;> cases b <;> simp_all [Param.same, sameOption]

theorem paramList_recognizes {params : List Param} {defaulted : Bool}
    (legible : Param.AllLegible ctx.dialect defaulted params)
    (enough : (separated .comma (params.map Param.marks)).length < limit) :
    Recognizes (paramList limit defaulted) ctx (separated .comma (params.map Param.marks))
      (NextIs (.symbol .rparen)) fun params' => Param.sameAll params params' = true := by
  obtain ⟨limit, rfl⟩ : ∃ n, limit = n + 1 := ⟨limit - 1, by omega⟩
  induction params generalizing limit defaulted with
  | nil =>
    rintro _ ⟨nl, tail, rfl⟩
    exact .isSign rfl (.isEnd rfl (.pure ⟨rfl, rfl⟩))
  | cons p params ih =>
    intro rest closes
    obtain ⟨legibleFirst, order, legible⟩ := legible
    -- the first parameter has a default if those before it do
    have first {behind : List Mark} {f : Param → Parser (List Param)}
        {Q : List Param → List Mark → Prop} (follow : ParamEnds behind)
        (h : ∀ q, p.same q = true → Parses (f q) ctx behind Q) :
        Parses (do
          if (← isSign .rparen) || (← isEnd) then return []
          let first ← param
          if defaulted && first.default.isNone then
            failOver first.node.span (.defaultOrder first.name.value)
          f first) ctx (p.marks ++ behind) Q := by
      refine .isSign rfl (.isEnd rfl ((param_recognizes legibleFirst).bind follow fun q same => ?_))
      rw [if_neg]
      · exact h q same
      · rw [← Option.not_isSome, isSome_default_of_same same]
        cases defaulted <;> simp_all
    cases params with
    | nil =>
      simp only [map_cons, map_nil, separated, intercalate_singleton]
      refine first (.inr closes) fun q same =>
        .ifOther ?_ (.pure ⟨rfl, by simp [Param.sameAll, same]⟩)
      obtain ⟨nl, tail, rfl⟩ := closes
      simp [NextIs]
    | cons second more =>
      have split : separated .comma ((p :: second :: more).map Param.marks) =
          p.marks ++ Symbol.comma.mark :: separated .comma ((second :: more).map Param.marks) := by
        simp [separated, intercalate_cons_cons]
      rw [split] at enough ⊢
      simp only [Param.marks, cons_append, length_cons, length_append] at enough
      obtain ⟨limit, rfl⟩ : ∃ n, limit = n + 1 := ⟨limit - 1, by omega⟩
      rw [append_assoc]
      refine first (.inl ⟨false, _, rfl⟩) fun q same => .ifSign ⟨_, _, rfl⟩ (.advance (by simp) ?_)
      rw [isSome_default_of_same same]
      refine (ih legible limit (by omega)).bind closes fun more' sameMore => .pure ⟨rfl, ?_⟩
      simp [Param.sameAll, same, sameMore]

/-- A parser that reads back all blocks up to some length. -/
def ReadsBlocks (block : Parser Block) (ctx : ParseContext) (bound : Nat) : Prop :=
  ∀ (body : Block) (nl : Bool), body.Legible ctx.dialect → (body.marks nl).length ≤ bound →
    Recognizes block ctx (body.marks nl) (fun _ => True) (fun body' => body.same body' = true)

theorem blockMarks_cons (body : Block) (nl : Bool) :
    ∃ tail, body.marks nl = (.symbol .lbrace, nl) :: tail := by
  rcases body with ⟨_, _ | ⟨s, ss⟩⟩ <;> exact ⟨_, rfl⟩

theorem nextIs_block (body : Block) (nl : Bool) (rest : List Mark) :
    NextIs (.symbol .lbrace) (body.marks nl ++ rest) := by
  obtain ⟨tail, marks⟩ := blockMarks_cons body nl
  exact ⟨nl, tail ++ rest, by rw [marks, cons_append]⟩

theorem exprEnds_block (body : Block) (nl : Bool) (rest : List Mark) :
    ExprEnds (body.marks nl ++ rest) :=
  .of_nextIs rfl rfl (nextIs_block body nl rest)

variable {block : Parser Block} {bound : Nat} {topLevel : Bool}

theorem procDecl_recognizes (hblock : ReadsBlocks block ctx bound) {p : ProcDecl}
    (legible : p.Legible ctx.dialect) (size : (p.marks nl).length ≤ bound) :
    Recognizes (procDecl block) ctx (p.marks nl) (fun _ => True) (fun q => p.same q = true) := by
  intro rest _
  obtain ⟨node, name, params, ret, body⟩ := p
  obtain ⟨-, legibleParams, legibleRet, untyped, legibleBody⟩ := legible
  have shorter : (body.marks false).length ≤ bound := by
    simp [ProcDecl.marks] at size
    omega
  simp only [ProcDecl.marks, headMarks, cons_append, append_assoc]
  refine .freshId fun id => .expectIdent fun span => .expectSign fun _ => .remaining ?_
  refine (paramList_recognizes legibleParams (by simp)).bind ⟨false, _, rfl⟩ fun ps same => ?_
  refine .closing fun _ => ?_
  have readBody (ret' : Option TypeExpr) (sameRet : sameOption TypeExpr.same ret ret' = true) :
      Parses (do
        let body ← block
        return ⟨⟨id, span.join body.span⟩, ⟨name.value, span⟩, ps, ret', body⟩) ctx
          (body.marks false ++ rest) fun q ms => ms = rest ∧
            (ProcDecl.mk node name params ret body).same q = true :=
    (hblock body false legibleBody shorter).bind trivial fun body' sameBody =>
      .pure ⟨rfl, by simp [ProcDecl.same, same, sameRet, sameBody]⟩
  cases ret with
  | some type =>
    refine .isSign rfl (.reading (.advance (by simp) ?_))
    exact (typeExpr_recognizes (legibleRet type rfl)).map_bind
      (.of_nextIs (by simp) (nextIs_block body false rest)) fun type' => readBody (some type')
  | none =>
    obtain ⟨nl', tail, here⟩ := nextIs_block body false rest
    exact .isSign here (.refuse (by simp [untyped rfl]) (readBody none rfl))

/-! ### Artifacts -/

theorem caseValue_recognizes {value : Int} :
    Recognizes (caseValue name) ctx (intMarks value) (fun _ => True)
      (fun c => c.name = name ∧ c.value.map Located.value = some value) := by
  intro rest _
  by_cases negative : value < 0
  · rw [intMarks, if_pos negative]
    refine .isSign rfl (.advance (by simp) (.bump (by simp) fun t next => ?_))
    rw [next]
    refine .pure ⟨rfl, rfl, ?_⟩
    simp only [Option.map_some, Option.some.injEq]
    rw [if_pos (by simp)]
    omega
  · rw [intMarks, if_neg negative]
    refine .isSign rfl (.bump (by simp) fun t next => ?_)
    rw [next]
    refine .pure ⟨rfl, rfl, ?_⟩
    rw [if_neg (by simp)]
    simp only [Option.map_some, Option.some.injEq]
    omega

def MemberEnds (rest : List Mark) : Prop :=
  ∃ kind tail, rest = (kind, true) :: tail ∧ ((∃ name, kind = .ident name) ∨ kind = .symbol .rbrace)

theorem MemberEnds.stmtEnds (h : MemberEnds rest) : StmtEnds rest := by
  obtain ⟨kind, tail, rfl, ⟨name, rfl⟩ | rfl⟩ := h
  · exact ⟨⟨_, _, _, rfl, .inr ⟨rfl, .inl rfl⟩⟩, .of_kind (by simp) (by simp)⟩
  · exact ⟨⟨_, _, _, rfl, .inr ⟨rfl, .inr (.inl rfl)⟩⟩, .of_kind (by simp) (by simp)⟩

theorem member_recognizes (hblock : ReadsBlocks block ctx bound) {m : Member}
    (legible : m.Legible ctx.dialect) (size : m.marks.length ≤ bound) :
    Recognizes (member block) ctx m.marks MemberEnds (fun m' => m.same m' = true) := by
  intro rest ends
  refine .peek (.peek ?_)
  cases m with
  | prop decl =>
    obtain ⟨sign, kind, nl, tail, marks, which, -⟩ := varDeclMarks_cons legible true
    have read : Parses (do return Member.prop (← varDecl)) ctx (decl.marks true ++ rest)
        fun m ms => ms = rest ∧ (Member.prop decl).same m = true :=
      (varDecl_recognizes legible true).bind ends.stmtEnds fun v same => .pure ⟨rfl, same⟩
    rw [marks] at read
    rw [Member.marks, marks]
    rcases which with rfl | rfl | rfl | rfl <;> exact read
  | proc decl =>
    have read : Parses (do return Member.proc (← procDecl block)) ctx (decl.marks true ++ rest)
        fun m ms => ms = rest ∧ (Member.proc decl).same m = true :=
      (procDecl_recognizes hblock legible size).bind trivial fun p same => .pure ⟨rfl, same⟩
    cases decl
    exact read
  | enumCase decl =>
    obtain ⟨span, name, value⟩ := decl
    cases value with
    | none =>
      have other : ¬ NextIs (.symbol .eq) rest := ends.stmtEnds.noEq
      have read : Parses (do
          let name ← expectIdent
          if ← isSign .eq then
            advance
            return Member.enumCase (← caseValue name)
          else
            return Member.enumCase ⟨name.span, name, none⟩) ctx ((.ident name.value, true) :: rest)
              fun m' ms => ms = rest ∧ (Member.enumCase ⟨span, name, none⟩).same m' = true :=
        .expectIdent fun _ => .ifOther other (.pure ⟨rfl, by simp [Member.same, EnumCase.same]⟩)
      obtain ⟨kind, tail, rfl, ⟨next, rfl⟩ | rfl⟩ := ends <;> exact read
    | some value =>
      refine .expectIdent fun _ => .ifSign ⟨_, _, rfl⟩ (.advance (by simp) ?_)
      refine caseValue_recognizes.bind trivial fun c same => .pure ⟨rfl, ?_⟩
      simp [Member.same, EnumCase.same, same.1, same.2]

theorem memberMarks_cons (m : Member) : ∃ name tail, m.marks = (.ident name, true) :: tail := by
  rcases m with decl | ⟨_, _, _, _, _⟩ | decl <;> exact ⟨_, _, rfl⟩

theorem length_le_marksAll (ms : List Member) : ms.length ≤ (Member.marksAll ms).length := by
  induction ms with
  | nil => exact Nat.le_refl _
  | cons m ms ih =>
    obtain ⟨name, tail, marks⟩ := memberMarks_cons m
    simp only [Member.marksAll, marks, length_append, length_cons]
    omega

theorem memberEnds_marksAll (ms : List Member) (rest : List Mark) :
    MemberEnds (Member.marksAll ms ++ (.symbol .rbrace, true) :: rest) := by
  cases ms with
  | nil => exact ⟨_, _, rfl, .inr rfl⟩
  | cons m ms =>
    obtain ⟨name, tail, marks⟩ := memberMarks_cons m
    rw [Member.marksAll, marks]
    exact ⟨_, _, rfl, .inl ⟨name, rfl⟩⟩

/-- Nothing is dropped in front of a token that stays. -/
theorem parses_drop {α : Type} {skipped : Token → Bool} {f : Unit → Parser α} {marks : List Mark}
    {Q : α → List Mark → Prop} (here : marks = (kind, nl) :: rest)
    (kept : ∀ t : Token, t.kind = kind → skipped t = false) (h : Parses (f ()) ctx marks Q) :
    Parses (modify (fun st => { st with rest := st.rest.dropWhile skipped }) >>= f) ctx
    marks Q := by
  subst here
  refine h.of_run fun st here => ⟨st, here, ?_⟩
  obtain ⟨t, ts, tokens, mark, -⟩ := List.map_eq_cons_iff.mp here
  rw [runAt_modify, tokens, dropWhile_cons_of_neg
    (by simp [kept t (congrArg Prod.fst mark)]), ← tokens]

theorem memberList_recognizes (hblock : ReadsBlocks block ctx bound) {ms : List Member}
    (legible : Member.AllLegible ctx.dialect ms)
    (size : (Member.marksAll ms).length ≤ bound) (closes : ms ≠ [] → nl = true)
    (enough : ms.length < limit) :
    Parses (memberList block name limit) ctx (Member.marksAll ms ++ (.symbol .rbrace, nl) :: rest)
      fun ms' marks => marks = (.symbol .rbrace, nl) :: rest ∧ Member.sameAll ms ms' = true := by
  obtain ⟨limit, rfl⟩ : ∃ n, limit = n + 1 := ⟨limit - 1, by omega⟩
  induction ms generalizing limit with
  | nil =>
    exact parses_drop rfl (by simp +contextual [isSeparator])
      (.isSign rfl (.isEnd rfl (.pure ⟨rfl, rfl⟩)))
  | cons m ms ih =>
    obtain ⟨limit, rfl⟩ : ∃ n, limit = n + 1 := ⟨limit - 1, by simp at enough; omega⟩
    obtain rfl := closes (by simp)
    obtain ⟨legibleFirst, legible⟩ := legible
    obtain ⟨first, tail, marks⟩ := memberMarks_cons m
    rw [Member.marksAll, length_append] at size
    rw [Member.marksAll, append_assoc]
    obtain ⟨kind, behind, next, -⟩ := memberEnds_marksAll ms rest
    have here := congrArg (· ++ (Member.marksAll ms ++ (.symbol .rbrace, true) :: rest)) marks
    refine parses_drop here (by simp +contextual [isSeparator]) (.isSign here (.isEnd here ?_))
    refine (member_recognizes hblock legibleFirst (by omega)).bind (memberEnds_marksAll ms rest)
      fun m' same => .current next fun t _ newline => ?_
    rw [endsMember, newline, Bool.true_or, Bool.true_or, Bool.true_or, if_pos rfl]
    refine (ih legible (by omega) (fun _ => rfl) limit (by simpa using enough)).bind ?_
    rintro ms' _ ⟨rfl, sameMore⟩
    exact .pure ⟨rfl, by rw [Member.sameAll, same, sameMore, Bool.and_self]⟩

theorem classify_gives {members : List Member} (apart : CasesApart members) :
    Gives (classify name members) ctx st (artifactKindOf members) st := by
  obtain ⟨kind, st', h⟩ : ∃ kind st', Gives (classify name members) ctx st kind st' := by
    simp only [classify]
    split
    case h_1 first more cases =>
      refine ⟨.enumeration, st, ?_⟩
      rw [gives_ite, if_neg, gives_pure]
      · exact ⟨rfl, rfl⟩
      rw [Nat.not_lt]
      refine Nat.le_of_eq (List.filterMap_length_eq_length.mpr fun m mem => ?_).symm
      rcases apart with isCase | noCase
      · cases m <;> first | rfl | exact absurd (isCase _ mem) (by simp [Member.isCase])
      · have found : first ∈ first :: more := mem_cons_self
        rw [← cases] at found
        obtain ⟨m', mem', eq⟩ := List.mem_filterMap.mp found
        cases m' <;> first | exact absurd rfl (noCase _ mem') | cases eq
    case h_2 => exact ⟨_, _, gives_pure.mpr ⟨rfl, rfl⟩⟩
  obtain ⟨rfl, -, rfl⟩ := gives_classify h
  exact h

theorem isCase_of_same {m m' : Member} (h : m.same m' = true) : m'.isCase = m.isCase := by
  cases m <;> cases m' <;> simp_all [Member.same, Member.isCase]

theorem isChangeable_of_same {m m' : Member} (h : m.same m' = true) :
    m'.isChangeable = m.isChangeable := by
  cases m <;> cases m' <;> simp_all [Member.same, Member.isChangeable, VarDecl.same]

theorem any_of_sameAll {p : Member → Bool} (h : ∀ m m', m.same m' = true → p m' = p m)
    (same : Member.sameAll ms ms' = true) : ms'.any p = ms.any p := by
  induction ms generalizing ms' with
  | nil => cases ms' <;> simp_all [Member.sameAll]
  | cons m ms ih =>
    cases ms' with
    | nil => simp [Member.sameAll] at same
    | cons m' ms' =>
      rw [Member.sameAll, Bool.and_eq_true] at same
      rw [any_cons, any_cons, h m m' same.1, ih same.2]

theorem artifactKindOf_of_sameAll (same : Member.sameAll ms ms' = true) :
    artifactKindOf ms' = artifactKindOf ms := by
  rw [artifactKindOf, artifactKindOf, any_of_sameAll (fun _ _ => isCase_of_same) same,
    any_of_sameAll (fun _ _ => isChangeable_of_same) same]

theorem casesApart_iff (ms : List Member) :
    CasesApart ms ↔ ms.any (!·.isCase) = false ∨ ms.any Member.isCase = false := by
  simp [CasesApart]

theorem casesApart_of_sameAll (same : Member.sameAll ms ms' = true)
    (apart : CasesApart ms) : CasesApart ms' := by
  rw [casesApart_iff] at apart ⊢
  rwa [any_of_sameAll (fun _ _ h => by rw [isCase_of_same h]) same,
    any_of_sameAll (fun _ _ => isCase_of_same) same]

theorem artifactDecl_recognizes (hblock : ReadsBlocks block ctx bound) {a : ArtifactDecl}
    (legible : a.Legible ctx.dialect) (size : (a.marks nl).length ≤ bound) :
    Recognizes (artifactDecl block) ctx (a.marks nl) (fun _ => True)
      (fun b => a.same b = true) := by
  intro rest _
  obtain ⟨node, name, kind, ms⟩ := a
  obtain ⟨-, rfl, apart, legible⟩ := legible
  obtain ⟨nl', closes, marks⟩ : ∃ nl', (ms ≠ [] → nl' = true) ∧
      (ArtifactDecl.mk node name (artifactKindOf ms) ms).marks nl = (.ident name.value, nl) ::
        Symbol.colonColon.mark :: Symbol.lbrace.mark ::
          (Member.marksAll ms ++ [(.symbol .rbrace, nl')]) := by
    cases ms with
    | nil => exact ⟨false, by simp, rfl⟩
    | cons m ms => exact ⟨true, by simp, rfl⟩
  rw [marks] at size ⊢
  simp only [cons_append, append_assoc, length_cons, length_append] at size ⊢
  have many := length_le_marksAll ms
  refine .freshId fun id => .expectIdent fun span => .expectSign fun _ => .expectSign fun _ => ?_
  refine .remaining ((memberList_recognizes hblock legible (by omega) closes ?_).bind ?_)
  · rw [length_append]
    omega
  rintro ms' _ ⟨rfl, same⟩
  refine .closing fun _ st here => ?_
  refine reaches_bind.mpr ((classify_gives (casesApart_of_sameAll same apart)).reaches ?_)
  rw [reaches_pure]
  exact ⟨here, by simp [ArtifactDecl.same, same, artifactKindOf_of_sameAll same]⟩

/-! ### Control flow -/

/-- What follows is no further arm of a chain. -/
def NoArm (rest : List Mark) : Prop :=
  ¬ NextIs (.symbol .chain) rest

theorem chainArms_stops {last : Span} (noArm : NoArm rest)
    {Q : List Guarded × Option Block × Span → List Mark → Prop} (h : Q ([], fallback, last) rest) :
    Parses (chainArms block limit fallback last) ctx rest Q := by
  cases limit with
  | zero => exact .pure h
  | succ limit => exact .ifOther noArm (.pure h)

theorem chainArms_recognizes (hblock : ReadsBlocks block ctx bound) {arms : List Guarded}
    (legible : Guarded.AllLegible ctx.dialect arms)
    (legibleLast : Block.OptionLegible ctx.dialect fallback)
    (size : (Guarded.marksAll nl arms ++ Block.fallbackMarks fallback).length ≤ bound) {last : Span}
    (enough : (Guarded.marksAll nl arms ++ Block.fallbackMarks fallback).length ≤ limit) :
    Recognizes (chainArms block limit none last) ctx
      (Guarded.marksAll nl arms ++ Block.fallbackMarks fallback) NoArm fun r =>
        Guarded.sameAll arms r.1 = true ∧ Block.sameOption fallback r.2.1 = true := by
  induction arms generalizing limit nl last with
  | nil =>
    intro rest noArm
    cases fallback with
    | none => exact chainArms_stops noArm ⟨rfl, rfl, rfl⟩
    | some body =>
      simp only [Guarded.marksAll, Block.fallbackMarks, nil_append, cons_append, length_cons]
        at size enough ⊢
      obtain ⟨limit, rfl⟩ : ∃ n, limit = n + 1 := ⟨limit - 1, by omega⟩
      refine .ifSign ⟨_, _, rfl⟩ (.bump (by simp) fun bar _ => ?_)
      refine .ifSign (nextIs_block body false rest) ?_
      exact (hblock body false legibleLast (by omega)).bind trivial fun body' same =>
        chainArms_stops noArm ⟨rfl, rfl, same⟩
  | cons arm arms ih =>
    intro rest noArm
    obtain ⟨span, cond, body⟩ := arm
    obtain ⟨-, legibleBody, legible⟩ := legible
    simp only [Guarded.marksAll, cons_append, append_assoc, length_cons, length_append]
      at size enough ih ⊢
    obtain ⟨limit, rfl⟩ : ∃ n, limit = n + 1 := ⟨limit - 1, by omega⟩
    refine .ifSign ⟨_, _, rfl⟩ (.bump (by simp) fun bar _ => .ifOther ?_ ?_)
    · obtain ⟨kind, tail, marks, starts⟩ := cond.startsExpr_marks false
      rw [marks]
      rintro ⟨_, _, ⟨⟩⟩
      cases starts
    refine (expr_recognizes cond false).bind (exprEnds_block body false _) fun cond' sameCond => ?_
    refine (hblock body false legibleBody (by omega)).bind trivial fun body' sameBody => ?_
    rw [← append_assoc]
    refine (ih legible (by omega) (by omega)).bind noArm fun r same => .pure ⟨rfl, ?_, same.2⟩
    simp [Guarded.sameAll, Guarded.same, sameCond, sameBody, same.1]

theorem chain_recognizes (hblock : ReadsBlocks block ctx bound) {arms : List Guarded}
    (legible : (Stmt.chain span arms fallback).Legible ctx.dialect topLevel)
    (size : ((Stmt.chain span arms fallback).marks nl).length ≤ bound) :
    Recognizes (chain block) ctx ((Stmt.chain span arms fallback).marks nl) NoArm
      (fun s => (Stmt.chain span arms fallback).same s = true) := by
  intro rest noArm
  obtain ⟨some_arm, legible, legibleLast⟩ := legible
  obtain ⟨⟨span', cond, body⟩, more, rfl⟩ := exists_cons_of_ne_nil some_arm
  refine .current rfl fun t _ _ => .remaining ?_
  refine (chainArms_recognizes hblock legible legibleLast size (by simp [Stmt.marks])).bind noArm
    fun r same => ?_
  obtain ⟨_ | ⟨arm', more'⟩, fallback', last⟩ := r
  · simp [Guarded.sameAll] at same
  · exact .pure ⟨rfl, by simpa [Stmt.same] using same⟩

theorem whileLoop_recognizes (hblock : ReadsBlocks block ctx bound) {loop : Guarded}
    (legible : (Stmt.whileLoop loop).Legible ctx.dialect topLevel)
    (size : ((Stmt.whileLoop loop).marks nl).length ≤ bound) :
    Recognizes (whileLoop block) ctx ((Stmt.whileLoop loop).marks nl) (fun _ => True)
      (fun s => (Stmt.whileLoop loop).same s = true) := by
  intro rest _
  obtain ⟨span, cond, body⟩ := loop
  simp only [Stmt.marks, cons_append, append_assoc, length_cons, length_append] at size ⊢
  refine .expect (by simp) fun kw => ?_
  refine (expr_recognizes cond false).bind (exprEnds_block body false _) fun cond' sameCond => ?_
  refine (hblock body false legible.2 (by omega)).bind trivial fun body' sameBody => ?_
  exact .pure ⟨rfl, by simp [Stmt.same, Guarded.same, sameCond, sameBody]⟩

theorem rangeLoop_recognizes (hblock : ReadsBlocks block ctx bound) {node : Node} {var : Ident}
    {start stop : Expr} {body : Block}
    (legible : (Stmt.rangeLoop node var start stop body).Legible ctx.dialect topLevel)
    (size : ((Stmt.rangeLoop node var start stop body).marks nl).length ≤ bound) :
    Recognizes (rangeLoop block) ctx ((Stmt.rangeLoop node var start stop body).marks nl)
      (fun _ => True) (fun s => (Stmt.rangeLoop node var start stop body).same s = true) := by
  intro rest _
  simp only [Stmt.marks, cons_append, append_assoc, length_cons, length_append] at size ⊢
  refine .freshId fun id => .expectIdent fun span => .expectSign fun _ => ?_
  refine (expr_recognizes start false).bind (.of_nextIs rfl rfl ⟨false, _, rfl⟩)
    fun start' sameStart => .current rfl fun t next _ => ?_
  rw [if_pos next]
  refine .advance (by simp) ((expr_recognizes stop false).bind (exprEnds_block body false _) ?_)
  refine fun stop' sameStop => (hblock body false legible.2.2.2 (by omega)).bind trivial ?_
  exact fun body' sameBody => .pure ⟨rfl, by simp [Stmt.same, sameStart, sameStop, sameBody]⟩

theorem returnStmt_recognizes :
    Recognizes returnStmt ctx ((Stmt.ret span value).marks nl) StmtEnds
      (fun s => (Stmt.ret span value).same s = true) := by
  intro rest ends
  refine .expect (by simp) fun kw => ?_
  cases value with
  | none =>
    obtain ⟨kind, nl, tail, rfl, which⟩ := ends.next
    refine .current rfl fun t next newline => ?_
    rw [next, newline, if_pos (by rcases which with rfl | ⟨rfl, -⟩ <;> simp)]
    exact .pure ⟨rfl, by simp [Stmt.same, sameOption]⟩
  | some value =>
    obtain ⟨kind, tail, marks, starts⟩ := value.startsExpr_marks false
    refine .current (congrArg (· ++ rest) marks) fun t next newline => ?_
    rw [next, newline, if_neg]
    · exact (expr_recognizes value false).bind ends.exprEnds fun value' same =>
        .pure ⟨rfl, by simp [Stmt.same, sameOption, same]⟩
    · cases kind with
      | symbol s => cases s <;> simp_all [TokenKind.startsExpr]
      | _ => simp_all [TokenKind.startsExpr]

/-! ### Imports -/

theorem pathSegments_recognizes {segments : List String} (enough : 2 * segments.length ≤ limit) :
    Recognizes (pathSegments limit) ctx
      (segments.flatMap fun segment => [Symbol.slash.mark, (.ident segment, false)])
      (¬ NextIs (.symbol .slash) ·) fun names => names.map Located.value = segments := by
  induction segments generalizing limit with
  | nil =>
    intro rest noSlash
    cases limit with
    | zero => exact .pure ⟨rfl, rfl⟩
    | succ limit => exact .ifOther noSlash (.pure ⟨rfl, rfl⟩)
  | cons segment segments ih =>
    intro rest noSlash
    rw [length_cons] at enough
    obtain ⟨limit, rfl⟩ : ∃ n, limit = n + 1 := ⟨limit - 1, by omega⟩
    refine .ifSign ⟨_, _, rfl⟩ (.advance (by simp) (.expectIdent fun span => ?_))
    exact (ih (by omega)).bind noSlash fun names same => .pure ⟨rfl, by simp [same]⟩

theorem separated_slash (first : String) (more : List String) :
    separated .slash ((first :: more).map fun segment => [(.ident segment, false)]) =
      (.ident first, false) :: more.flatMap
        fun segment => [Symbol.slash.mark, (.ident segment, false)] := by
  rw [separated]
  induction more generalizing first with
  | nil => rfl
  | cons second more ih =>
    have more' := ih second
    rw [map_cons] at more'
    rw [map_cons, map_cons, intercalate_cons_cons, more']
    rfl

theorem importDecl_recognizes {i : Import} (legible : i.Legible) (nl : Bool) :
    Recognizes importDecl ctx (i.marks nl) StmtEnds (fun j => j.path = i.path ∧
      j.quoted = i.quoted ∧ j.name.value = i.name.value) := by
  intro rest ends
  obtain ⟨span, path, quoted, name⟩ := i
  refine .expect (by simp) fun kw => ?_
  cases quoted with
  | true =>
    obtain ⟨fromPath, isName⟩ := legible
    refine .current rfl fun t next _ => ?_
    rw [next]
    refine .advance (by simp) ?_
    rw [if_pos (by simpa [← fromPath] using isName)]
    exact .pure ⟨rfl, rfl, rfl, fromPath.symm⟩
  | false =>
    obtain ⟨-, isLast⟩ := legible
    obtain ⟨first, more, segments⟩ : ∃ first more, pathSegmentsOf path = first :: more := by
      rcases segments : pathSegmentsOf path with _ | ⟨first, more⟩
      · simp [segments] at isLast
      · exact ⟨first, more, rfl⟩
    have noSlash : ¬ NextIs (.symbol .slash) rest := by
      rintro ⟨nl, tail, rfl⟩
      exact absurd (ends.exprEnds.noOperator _ _ _ .div rfl rfl) (by decide)
    rw [if_neg (by simp), segments, separated_slash]
    refine .current rfl fun t next _ => ?_
    rw [next]
    refine .expectIdent fun span => .remaining ((pathSegments_recognizes ?_).bind noSlash ?_)
    · simp [length_flatMap, Nat.mul_comm]
    refine fun names same => .pure ⟨rfl, ?_, rfl, ?_⟩
    · rw [map_cons, same, ← segments]
      apply String.ext
      rw [String.toList_intercalate]
      exact intercalate_pathSegmentsOf path
    · rw [segments, getLast?_cons, Option.some.injEq, ← same] at isLast
      rw [← isLast, getLastD_eq_getLast?, getLast?_map]
      cases names.getLast? <;> rfl

/-! ### Statements that start with an expression -/

theorem expr_recognizes_parenthesized (e : Expr) (needed nl : Bool) :
    Recognizes expr ctx (parenthesizedMarks needed nl fun nl => e.marks nl) ExprEnds
      (fun e' => e.same e' = true) := by
  refine fun rest ends => .remaining ?_
  have enough : (parenthesizedMarks needed nl fun nl => e.marks nl).length ≤
      (parenthesizedMarks needed nl (fun nl => e.marks nl) ++ rest).length + 1 := by
    rw [length_append]
    omega
  obtain ⟨level, positive, readable⟩ :=
    (readsBack ctx e).parenthesized 1 (fun _ => one_le_level e) enough
  exact readable.climbable.recognizes positive ends

theorem stmtWith_of_exprStmt {marks tail : List Mark} {Q : Stmt → List Mark → Prop}
    (here : marks = (kind, nl) :: tail) (starts : kind.startsExpr = true)
    (goesOn : ∀ name, kind = .ident name → GoesOn tail) (h : Parses (exprStmt block) ctx marks Q) :
    Parses (stmtWith block) ctx marks Q := by
  subst here
  refine .peek ?_
  cases kind with
  | int | float | str => exact h
  | keyword word => cases word <;> first | exact h | cases starts
  | symbol s => cases s <;> first | exact h | cases starts
  | eof => cases starts
  | ident name =>
    have goesOn := goesOn name rfl
    refine .peek (.peek ?_)
    rcases tail with _ | ⟨⟨second, nl'⟩, more⟩
    · exact h
    · have noSign := goesOn.noSign second nl' more rfl
      simp only [getElem?_cons_succ, getElem?_cons_zero, Option.map_some]
      split
      case h_7 isParen =>
        obtain rfl : second = .symbol .lparen := Option.some.inj isParen
        intro st here
        have noHead : opensProc st.rest = false := by
          refine goesOn.noHead nl' more rfl (st.rest.drop 2) ?_
          rw [map_drop, ← ParseState.marks, here]
          rfl
        rw [reaches_bind, reaches_get, noHead]
        exact h st here
      case h_8 => exact h
      all_goals simp_all

theorem parenthesizedMarks_starts (e : Expr) (needed nl : Bool) {rest : List Mark}
    (follows : GoesOn rest) (noBody : needed = false → e.isNamedCall = true → NoBody rest) :
    ∃ kind tail, parenthesizedMarks needed nl (fun nl => e.marks nl) ++ rest = (kind, nl) :: tail ∧
      kind.startsExpr = true ∧ ∀ name, kind = .ident name → GoesOn tail := by
  cases needed with
  | true => exact ⟨_, _, rfl, rfl, by simp⟩
  | false =>
    obtain ⟨kind, tail, marks, starts⟩ := e.startsExpr_marks nl
    refine ⟨kind, tail ++ rest, by simp [parenthesizedMarks, marks], starts, ?_⟩
    rintro name rfl
    exact goesOn_marks e marks (fun _ => follows) (noBody rfl)

theorem isAssignable_of_same {e e' : Expr} (h : e.same e' = true) :
    e'.isAssignable = e.isAssignable := by
  cases e <;> cases e' <;> simp_all [Expr.same, Expr.isAssignable]

theorem StmtEnds.noBody (h : StmtEnds rest) : NoBody rest := by
  obtain ⟨kind, nl, tail, rfl, which⟩ := h.next
  rintro _ _ ⟨⟩
  rcases which with rfl | ⟨⟨⟩, -⟩
  simp

theorem cond_recognizes (hblock : ReadsBlocks block ctx bound) {arm : Guarded}
    (legible : (Stmt.cond arm).Legible ctx.dialect topLevel)
    (size : ((Stmt.cond arm).marks nl).length ≤ bound) :
    Recognizes (stmtWith block) ctx ((Stmt.cond arm).marks nl) (fun _ => True)
      (fun s => (Stmt.cond arm).same s = true) := by
  intro rest _
  obtain ⟨span, cond, body⟩ := arm
  simp only [Stmt.marks, Expr.marksFirst, append_assoc, length_append] at size ⊢
  obtain ⟨bodyTail, bodyMarks⟩ := blockMarks_cons body false
  have here := congrArg (· ++ rest) bodyMarks
  have follows : GoesOn (body.marks false ++ rest) := here ▸ .of_kind (by simp) (by simp)
  obtain ⟨kind, tail, start, starts, goesOn⟩ := parenthesizedMarks_starts cond
    (cond.startsWithMinus || (true && cond.isNamedCall)) nl follows
    (fun bare named => by simp [named] at bare)
  refine stmtWith_of_exprStmt start starts goesOn ?_
  refine (expr_recognizes_parenthesized cond _ nl).bind (exprEnds_block body false rest)
    fun cond' sameCond => .current here fun t next sameLine => ?_
  rw [if_pos (by simp [next, sameLine])]
  refine (hblock body false legible.2 (by omega)).bind trivial fun body' sameBody => ?_
  exact .pure ⟨rfl, by simp [Stmt.same, Guarded.same, sameCond, sameBody]⟩

theorem assign_recognizes {target value : Expr}
    (legible : (Stmt.assign span target value).Legible ctx.dialect topLevel) :
    Recognizes (stmtWith block) ctx ((Stmt.assign span target value).marks nl) StmtEnds
      (fun s => (Stmt.assign span target value).same s = true) := by
  intro rest ends
  simp only [Stmt.marks, append_assoc]
  have follows : GoesOn (Symbol.eq.mark :: value.marks false ++ rest) :=
    .of_kind (by simp) (by simp)
  obtain ⟨kind, tail, start, starts, goesOn⟩ := parenthesizedMarks_starts target false nl follows
    (fun _ _ => noBody_cons (by simp))
  refine stmtWith_of_exprStmt start starts goesOn ?_
  refine (expr_recognizes target nl).bind (.of_nextIs rfl rfl ⟨false, _, rfl⟩)
    fun target' sameTarget => .current rfl fun t next _ => ?_
  rw [next, if_neg (by simp), if_pos (by decide),
    if_neg (by simp [isAssignable_of_same sameTarget, legible.1])]
  refine .advance (by simp) ((expr_recognizes value false).bind ends.exprEnds
    fun value' sameValue => ?_)
  obtain ⟨kind, nl, tail, here, -⟩ := ends.next
  refine .current here fun t next _ => ?_
  have other := ends.noEq
  rw [if_neg (by rintro eq; exact other ⟨nl, tail, by rw [here, ← next, beq_iff_eq.mp eq]⟩)]
  exact .pure ⟨rfl, by simp [Stmt.same, sameTarget, sameValue]⟩

theorem expr_recognizes_stmt {value : Expr} :
    Recognizes (stmtWith block) ctx ((Stmt.expr value).marks nl) StmtEnds
      (fun s => (Stmt.expr value).same s = true) := by
  intro rest ends
  obtain ⟨kind, tail, start, starts, goesOn⟩ :=
    parenthesizedMarks_starts value _ nl ends.goesOn (fun _ _ => ends.noBody)
  refine stmtWith_of_exprStmt start starts goesOn ?_
  refine (expr_recognizes_parenthesized value _ nl).bind ends.exprEnds fun value' same => ?_
  obtain ⟨kind, nl, tail, here, which⟩ := ends.next
  refine .current here fun t next newline => ?_
  have other := ends.noEq
  rw [next, newline, if_neg (by rcases which with rfl | ⟨rfl, -⟩ <;> simp),
    if_neg (by rintro eq; exact other ⟨nl, tail, by rw [here, beq_iff_eq.mp eq]⟩)]
  exact .pure ⟨rfl, by simp [Stmt.same, same]⟩

/-! ### Statements -/

/-- What may follow a given statement. A chain is not followed by one. -/
def EndsStmt (s : Stmt) (rest : List Mark) : Prop :=
  StmtEnds rest ∧ (isChain s = true → NoArm rest)

/-- The tokens of a statement are read back. -/
theorem stmtWith_recognizes (hblock : ReadsBlocks block ctx bound)
    (legible : s.Legible ctx.dialect topLevel) (size : (s.marks nl).length ≤ bound) :
    Recognizes (stmtWith block) ctx (s.marks nl) (EndsStmt s) (fun t => s.same t = true) := by
  rintro rest ⟨ends, noArm⟩
  cases s with
  | importUnit decl =>
    refine .peek ((importDecl_recognizes legible.2 nl).bind ends fun i same => .pure ⟨rfl, ?_⟩)
    simp [Stmt.same, same.1, same.2.1, same.2.2]
  | var decl =>
    have read : Parses (do return Stmt.var (← varDecl)) ctx (decl.marks nl ++ rest)
        fun s ms => ms = rest ∧ (Stmt.var decl).same s = true :=
      (varDecl_recognizes legible nl).bind ends fun v same => .pure ⟨rfl, same⟩
    obtain ⟨sign, kind, nl', tail, marks, which, notBlock⟩ := varDeclMarks_cons legible nl
    rw [marks] at read
    rw [Stmt.marks, marks]
    refine .peek (.peek (.peek ?_))
    rcases which with rfl | rfl | rfl | rfl
    case inr.inl =>
      simp only [cons_append, getElem?_cons_succ, getElem?_cons_zero, Option.map_some]
      split
      case h_2 isBlock => exact absurd (Option.some.inj isBlock) notBlock
      case h_4 => exact read
      all_goals simp_all
    all_goals exact read
  | proc decl =>
    have read : Parses (do return Stmt.proc (← procDecl block)) ctx (decl.marks nl ++ rest)
        fun s ms => ms = rest ∧ (Stmt.proc decl).same s = true :=
      (procDecl_recognizes hblock legible size).bind trivial fun p same => .pure ⟨rfl, same⟩
    obtain ⟨node, name, params, ret, body⟩ := decl
    obtain ⟨tail, marks⟩ := blockMarks_cons body false
    refine .peek (.peek (.peek fun st here => ?_))
    have head : st.rest.map Token.mark =
        headMarks nl name params ret ++ Symbol.lbrace.mark :: (tail ++ rest) := by
      rw [← ParseState.marks, here, Stmt.marks, ProcDecl.marks, marks, append_assoc]
      rfl
    change Reaches (do if opensProc (← get).rest then _ else _) ctx st _
    rw [reaches_bind, reaches_get, if_pos (opensProc_headMarks legible.2.1 head)]
    exact read st here
  | artifact decl =>
    have read : Parses (do return Stmt.artifact (← artifactDecl block)) ctx (decl.marks nl ++ rest)
        fun s ms => ms = rest ∧ (Stmt.artifact decl).same s = true :=
      (artifactDecl_recognizes hblock legible.2 size).bind trivial fun a same => .pure ⟨rfl, same⟩
    obtain ⟨node, name, kind, _ | ⟨m, ms⟩⟩ := decl <;> exact .peek (.peek (.peek read))
  | assign span target value => exact assign_recognizes legible ends
  | cond arm => exact cond_recognizes hblock legible size trivial
  | chain span arms fallback =>
    have read := chain_recognizes hblock legible size (noArm rfl)
    obtain ⟨⟨span', cond, body⟩, more, rfl⟩ := exists_cons_of_ne_nil legible.1
    exact .peek read
  | whileLoop loop =>
    obtain ⟨span', cond, body⟩ := loop
    exact .peek (whileLoop_recognizes hblock legible size trivial)
  | rangeLoop node var start stop body =>
    exact .peek (.peek (.peek (rangeLoop_recognizes hblock legible size trivial)))
  | breakLoop span | skipTurn span => exact .peek (.bump (by simp) fun _ _ => .pure ⟨rfl, rfl⟩)
  | ret span value => exact .peek (returnStmt_recognizes ends)
  | block body =>
    have read : Parses (do return Stmt.block (← block)) ctx (body.marks nl ++ rest)
        fun s ms => ms = rest ∧ (Stmt.block body).same s = true :=
      (hblock body nl legible size).bind trivial fun b same => .pure ⟨rfl, same⟩
    obtain ⟨tail, marks⟩ := blockMarks_cons body nl
    rw [marks] at read
    rw [Stmt.marks, marks]
    exact .peek read
  | expr value => exact expr_recognizes_stmt ends

/-! ### Sequences of statements -/

theorem not_startsWithMinus : (e : Expr) → Expr.suffixedLevel ≤ e.level → e.startsWithMinus = false
  | .int .., _ | .float .., _ | .str .., _ | .bool .., _ | .ident .., _ | .selfProp .., _
  | .array .., _ => rfl
  | .unary .., tight => absurd tight (by simp [Expr.level, Expr.signedLevel, Expr.suffixedLevel])
  | .binary _ _ op _, tight =>
    absurd tight (Nat.not_le.mpr ((precedence_lt_signedLevel op).trans (Nat.lt_succ_self _)))
  | .postOp _ _ base, _ | .call _ base _, _ | .index _ base _, _ | .member _ base _, _ => by
    rw [Expr.startsWithMinus, Bool.and_eq_false_iff]
    by_cases tight : Expr.suffixedLevel ≤ base.level
    · exact .inr (not_startsWithMinus base tight)
    · exact .inl (by simpa using tight)

theorem marks_ne_minus : (e : Expr) → e.startsWithMinus = false → ∀ {nl nl' : Bool}
    {kind : TokenKind} {tail : List Mark}, e.marks nl = (kind, nl') :: tail →
      kind ≠ .symbol .minus
  | .int .., _, _, _, _, _, h | .float .., _, _, _, _, _, h | .str .., _, _, _, _, _, h
  | .bool .., _, _, _, _, _, h | .ident .., _, _, _, _, _, h | .selfProp .., _, _, _, _, _, h
  | .array .., _, _, _, _, _, h => by
    cases h
    simp
  | .unary _ op _, plain, _, _, _, _, h => by
    cases h
    cases op with
    | neg => cases plain
    | not | bitNot => simp [UnaryOp.sign]
  | .binary _ left _ _, plain, _, _, _, _, h => by
    rintro rfl
    obtain ⟨-, front, marks, -⟩ := front_of_append h (by simp)
    exact marks_ne_minus left plain marks rfl
  | .postOp _ _ base, _, _, _, _, _, h | .member _ base _, _, _, _, _, _, h => by
    rintro rfl
    obtain ⟨bare, front, marks, -⟩ := front_of_append h (by simp)
    exact marks_ne_minus base (not_startsWithMinus base (by simp at bare; omega)) marks rfl
  | .call _ base _, _, _, _, _, _, h | .index _ base _, _, _, _, _, _, h => by
    rintro rfl
    rw [Expr.marks, append_assoc] at h
    obtain ⟨bare, front, marks, -⟩ := front_of_append h (by simp)
    exact marks_ne_minus base (not_startsWithMinus base (by simp at bare; omega)) marks rfl

theorem startsStmt_of_startsExpr (h : kind.startsExpr = true)
    (other : kind ≠ .symbol .minus) : startsStmt kind = true ∧ kind ≠ .symbol .chain := by
  cases kind with
  | symbol s => cases s <;> simp_all [TokenKind.startsExpr, startsStmt]
  | eof => cases h
  | _ => exact ⟨rfl, by simp⟩

theorem level_of_isAssignable {e : Expr} (h : e.isAssignable = true) :
    Expr.suffixedLevel ≤ e.level := by
  cases e <;> simp_all [Expr.isAssignable, Expr.level, Expr.suffixedLevel]

theorem StmtEnds.noColon (h : StmtEnds rest) : NoColon rest := by
  rintro ms rfl
  exact (h.goesOn.noSign _ _ _ rfl).2.1 rfl

theorem goesOn_of_startsStmt {ms : List Mark}
    (h : startsStmt kind = true) (other : kind ≠ .symbol .lparen) : GoesOn ((kind, nl) :: ms) := by
  refine .of_kind ?_ other
  refine ⟨?_, ?_, ?_, ?_, ?_⟩ <;> rintro rfl <;> cases h

theorem starts_parenthesizedMarks (e : Expr) (needed nl : Bool)
    (minus : needed = false → e.startsWithMinus = false) (noColon : NoColon rest) :
    ∃ kind tail, parenthesizedMarks needed nl (fun nl => e.marks nl) ++ rest = (kind, nl) :: tail ∧
      startsStmt kind = true ∧ kind ≠ .symbol .chain ∧ GoesOn ((kind, nl) :: tail) := by
  cases needed with
  | true =>
    refine ⟨.symbol .lparen, e.marks false ++ Symbol.rparen.mark :: rest, ?_, rfl, by simp,
      goesOn_of_lparen noColon⟩
    simp [parenthesizedMarks]
  | false =>
    obtain ⟨kind, tail, marks, starts⟩ := e.startsExpr_marks nl
    obtain ⟨startsStmt, noChain⟩ :=
      startsStmt_of_startsExpr starts (marks_ne_minus e (minus rfl) marks)
    refine ⟨kind, tail ++ rest, by simp [parenthesizedMarks, marks], startsStmt, noChain, ?_⟩
    by_cases paren : kind = .symbol .lparen
    · subst paren
      obtain ⟨inner, more, split, noColon'⟩ := marks_eq_lparen_cons e marks noColon
      rw [split]
      exact goesOn_of_lparen noColon'
    · exact goesOn_of_startsStmt startsStmt paren

theorem starts_stmtMarks (legible : s.Legible d topLevel) (nl : Bool)
    (noColon : NoColon rest) :
    ∃ kind tail, s.marks nl ++ rest = (kind, nl) :: tail ∧ startsStmt kind = true ∧
      (isChain s = false → kind ≠ .symbol .chain) ∧ GoesOn ((kind, nl) :: tail) := by
  cases s with
  | importUnit | var | rangeLoop | breakLoop | skipTurn | ret =>
    exact ⟨_, _, rfl, rfl, by simp, goesOn_of_startsStmt rfl (by simp)⟩
  | whileLoop decl | proc decl =>
    cases decl
    exact ⟨_, _, rfl, rfl, by simp, goesOn_of_startsStmt rfl (by simp)⟩
  | artifact decl =>
    obtain ⟨node, name, kind, _ | ⟨m, ms⟩⟩ := decl <;>
    exact ⟨_, _, rfl, rfl, by simp, goesOn_of_startsStmt rfl (by simp)⟩
  | chain span arms fallback =>
    obtain ⟨⟨span', cond, body⟩, more, rfl⟩ := exists_cons_of_ne_nil legible.1
    exact ⟨_, _, rfl, rfl, by simp [isChain], goesOn_of_startsStmt rfl (by simp)⟩
  | block body =>
    obtain ⟨tail, marks⟩ := blockMarks_cons body nl
    rw [Stmt.marks, marks]
    exact ⟨_, _, rfl, rfl, by simp, goesOn_of_startsStmt rfl (by simp)⟩
  | assign span target value =>
    have minus := not_startsWithMinus target (level_of_isAssignable legible.1)
    have follows : NoColon (Symbol.eq.mark :: value.marks false ++ rest) := by rintro ms ⟨⟩
    obtain ⟨kind, tail, start, starts, noChain, goesOn⟩ :=
      starts_parenthesizedMarks target false nl (fun _ => minus) follows
    refine ⟨kind, tail, ?_, starts, fun _ => noChain, goesOn⟩
    rw [Stmt.marks, append_assoc]
    exact start
  | cond arm =>
    obtain ⟨span, cond, body⟩ := arm
    obtain ⟨bodyTail, marks⟩ := blockMarks_cons body false
    have follows : NoColon (body.marks false ++ rest) := by
      rw [marks]
      rintro ms ⟨⟩
    obtain ⟨kind, tail, start, starts, noChain, goesOn⟩ :=
      starts_parenthesizedMarks cond _ nl (fun bare => (Bool.or_eq_false_iff.mp bare).1) follows
    refine ⟨kind, tail, ?_, starts, fun _ => noChain, goesOn⟩
    rw [Stmt.marks, append_assoc]
    exact start
  | expr value =>
    obtain ⟨kind, tail, start, starts, noChain, goesOn⟩ :=
      starts_parenthesizedMarks value _ nl (fun bare => (Bool.or_eq_false_iff.mp bare).1) noColon
    exact ⟨kind, tail, start, starts, fun _ => noChain, goesOn⟩

def stmtSeparator (s : Stmt) (ss : List Stmt) : List Mark :=
  if startsWithChain [s] && startsWithChain ss then [Symbol.semi.mark] else []

theorem stmtEnds_separator (h : StmtEnds rest) :
    StmtEnds (stmtSeparator s ss ++ rest) := by
  rw [stmtSeparator]
  split
  · exact ⟨⟨_, _, _, rfl, .inl rfl⟩, .of_kind (by simp) (by simp)⟩
  · exact h

theorem starts_marksAll (legible : s.Legible d topLevel) (nl : Bool)
    (follows : StmtEnds (Stmt.marksAll true ss ++ rest)) :
    ∃ kind tail, Stmt.marksAll nl (s :: ss) ++ rest = (kind, nl) :: tail ∧ startsStmt kind = true ∧
      (isChain s = false → kind ≠ .symbol .chain) ∧ GoesOn ((kind, nl) :: tail) := by
  have ends : StmtEnds (stmtSeparator s ss ++ _) := stmtEnds_separator follows
  obtain ⟨kind, tail, start, starts⟩ := starts_stmtMarks legible nl ends.noColon
  refine ⟨kind, tail, ?_, starts⟩
  rw [← start, Stmt.marksAll, stmtSeparator, append_assoc, append_assoc]

/-- The statements behind a statement end it, and so does the end of the block. -/
theorem stmtEnds_marksAll
    (legible : Stmt.AllLegible d topLevel afterChain ss)
    (closes : kind = .symbol .rbrace ∨ kind = .eof) (rest : List Mark) :
    StmtEnds (Stmt.marksAll true ss ++ (kind, true) :: rest) ∧
      ¬ NextIs (.symbol .semi) (Stmt.marksAll true ss ++ (kind, true) :: rest) := by
  induction ss generalizing afterChain with
  | nil =>
    refine ⟨⟨⟨kind, true, rest, rfl, .inr ⟨rfl, .inr closes⟩⟩, .of_kind ?_ ?_⟩, ?_⟩
    · rcases closes with rfl | rfl <;> simp
    · rcases closes with rfl | rfl <;> simp
    · rintro ⟨nl, ms, ⟨⟩⟩
      simp at closes
  | cons s ss ih =>
    obtain ⟨first, tail, start, starts, -, goesOn⟩ :=
      starts_marksAll legible.1 true (ih legible.2.2).1
    rw [start]
    refine ⟨⟨⟨first, true, tail, rfl, .inr ⟨rfl, .inl starts⟩⟩, goesOn⟩, ?_⟩
    rintro ⟨nl, ms, ⟨⟩⟩
    cases starts

theorem startsWithChain_singleton (s : Stmt) : startsWithChain [s] = isChain s := by
  cases s <;> rfl

theorem noArm_separator
    (legible : Stmt.AllLegible d topLevel afterChain ss)
    (closes : kind = .symbol .rbrace ∨ kind = .eof) (isChain : isChain s = true) :
    NoArm (stmtSeparator s ss ++ (Stmt.marksAll true ss ++ (kind, true) :: rest)) := by
  rw [stmtSeparator, startsWithChain_singleton, isChain, Bool.true_and]
  split
  · rintro ⟨nl, ms, ⟨⟩⟩
  cases ss with
  | nil =>
    rintro ⟨nl, ms, ⟨⟩⟩
    simp at closes
  | cons t ss =>
    obtain ⟨first, tail, start, -, noChain, -⟩ :=
      starts_marksAll legible.1 true (stmtEnds_marksAll legible.2.2 closes rest).1
    rw [nil_append, start]
    rintro ⟨nl, ms, ⟨⟩⟩
    refine noChain ?_ rfl
    cases t <;> simp_all [startsWithChain, Parser.isChain]

theorem stmtEnd_of_ends (ends : StmtEnds rest) (noSemi : ¬ NextIs (.symbol .semi) rest) :
    Parses stmtEnd ctx (stmtSeparator s ss ++ rest) fun _ ms => ms = rest := by
  rw [stmtSeparator]
  split
  · refine .current rfl fun t next _ => ?_
    rw [if_pos next, ← bind_pure advance]
    exact .advance (by simp) (.pure rfl)
  · obtain ⟨kind, nl, tail, here, which⟩ := ends.next
    refine .current here fun t next newline => ?_
    rw [next, newline, if_neg, if_pos]
    · exact .pure rfl
    · rcases which with rfl | ⟨rfl, -⟩
      · exact absurd ⟨_, _, here⟩ noSemi
      · rfl
    · rintro rfl
      exact noSemi ⟨_, _, here⟩

theorem admits_of_same {s s' : Stmt} (same : s.same s' = true) :
    admits topLevel afterChain s' = admits topLevel afterChain s := by
  cases s <;> cases s' <;> first | rfl | simp [Stmt.same] at same

theorem admits_of_legible
    (legible : s.Legible d topLevel) (behind : afterChain → ∀ arm, s ≠ .cond arm) :
    admits topLevel afterChain s = true := by
  cases s with
  | importUnit | artifact => exact legible.1
  | cond arm =>
    cases afterChain with
    | false => rfl
    | true => exact absurd rfl (behind rfl arm)
  | _ => rfl

theorem isChain_of_same {s s' : Stmt} (same : s.same s' = true) : isChain s' = isChain s := by
  cases s <;> cases s' <;> first | rfl | simp [Stmt.same] at same

theorem terminatedStmt_recognizes (hblock : ReadsBlocks block ctx bound)
    {nl afterChain : Bool} (legible : s.Legible ctx.dialect topLevel)
    (behind : afterChain → ∀ arm, s ≠ .cond arm) (size : (s.marks nl).length ≤ bound)
    (ends : StmtEnds rest) (noSemi : ¬ NextIs (.symbol .semi) rest)
    (noArm : isChain s = true → NoArm (stmtSeparator s ss ++ rest)) :
    Parses (terminatedStmt block topLevel afterChain) ctx
      (s.marks nl ++ (stmtSeparator s ss ++ rest)) fun s' ms => ms = rest ∧ s.same s' = true := by
  have follows : StmtEnds (stmtSeparator s ss ++ rest) := stmtEnds_separator ends
  obtain ⟨kind, tail, start, starts, -, -⟩ := starts_stmtMarks legible nl follows.noColon
  refine .current start fun t next _ => ?_
  rw [next, if_neg (by rintro rfl; cases starts)]
  refine (stmtWith_recognizes hblock legible size).bind ⟨follows, noArm⟩ fun s' same => ?_
  have admitted : admits topLevel afterChain s' = true :=
    (admits_of_same same).trans (admits_of_legible legible behind)
  have ended : Parses (do stmtEnd; return s') ctx (stmtSeparator s ss ++ rest) fun s' ms =>
      ms = rest ∧ s.same s' = true :=
    (stmtEnd_of_ends ends noSemi).bind fun _ _ done => .pure ⟨done, same⟩
  split <;> first | exact ended | (rw [if_neg (by simpa [admits] using admitted)]; exact ended)

theorem parses_attempt {α β : Type} {p : Parser α} {f : Except ParseError α → Parser β}
    {marks : List Mark} {R : α → List Mark → Prop} {Q : β → List Mark → Prop}
    (hp : Parses p ctx marks R) (hf : ∀ a ms, R a ms → Parses (f (.ok a)) ctx ms Q) :
    Parses (attempt p >>= f) ctx marks Q := by
  intro st here
  obtain ⟨a, st', run, reached⟩ := hp st here
  have more := hf a _ reached st' rfl
  simpa only [Reaches, Gives, runAt_bind, runAt_attempt,
    show runAt p ctx st = _ from run] using more

theorem stmtsWith_recognizes (hblock : ReadsBlocks block ctx bound)
    {nl nl' afterChain : Bool} (legible : Stmt.AllLegible ctx.dialect topLevel afterChain ss)
    (size : (Stmt.marksAll nl ss).length ≤ bound)
    (closes : kind = .symbol .rbrace ∧ topLevel = false ∨ kind = .eof) (line : ss ≠ [] → nl' = true)
    (enough : ss.length < limit) :
    Parses (stmtsWith block topLevel limit afterChain) ctx
    (Stmt.marksAll nl ss ++ (kind, nl') :: rest)
      fun ss' ms => ms = (kind, nl') :: rest ∧ Stmt.sameAll ss ss' = true := by
  obtain ⟨limit, rfl⟩ : ∃ n, limit = n + 1 := ⟨limit - 1, by omega⟩
  induction ss generalizing nl afterChain limit with
  | nil =>
    rcases closes with ⟨rfl, rfl⟩ | rfl
    · exact parses_drop rfl (by simp +contextual) (.isEnd rfl (.isSign rfl (.pure ⟨rfl, rfl⟩)))
    · exact parses_drop rfl (by simp +contextual) (.isEnd rfl (.pure ⟨rfl, rfl⟩))
  | cons s ss ih =>
    obtain ⟨limit, rfl⟩ : ∃ n, limit = n + 1 := ⟨limit - 1, by simp at enough; omega⟩
    obtain rfl := line (by simp)
    have closes' : kind = .symbol .rbrace ∨ kind = .eof := closes.imp_left And.left
    obtain ⟨ends, noSemi⟩ := stmtEnds_marksAll legible.2.2 closes' rest
    have noArm : isChain s = true →
        NoArm (stmtSeparator s ss ++ (Stmt.marksAll true ss ++ (kind, true) :: rest)) :=
      noArm_separator legible.2.2 closes'
    obtain ⟨first, tail, start, starts, -, -⟩ := starts_marksAll legible.1 nl ends
    have split : Stmt.marksAll nl (s :: ss) ++ (kind, true) :: rest =
        s.marks nl ++ (stmtSeparator s ss ++ (Stmt.marksAll true ss ++ (kind, true) :: rest)) := by
      rw [Stmt.marksAll, stmtSeparator, append_assoc, append_assoc]
    rw [Stmt.marksAll, length_append, length_append] at size
    rw [split] at start ⊢
    have other : ∀ k : TokenKind, startsStmt k = false → first ≠ k := by
      rintro k no rfl
      simp [no] at starts
    refine parses_drop start (by simp +contextual [other (.symbol .semi) rfl]) (.isEnd start ?_)
    rw [if_neg (by simp [other .eof rfl])]
    refine .isSign start ?_
    rw [if_neg (by simp [other (.symbol .rbrace) rfl])]
    refine .remaining (parses_attempt (terminatedStmt_recognizes hblock legible.1 legible.2.1
      (by omega) ends noSemi noArm) ?_)
    rintro s' _ ⟨rfl, same⟩
    dsimp only
    rw [isChain_of_same same]
    refine (ih legible.2.2 (by omega) (fun _ => rfl) limit (by simpa using enough)).bind ?_
    rintro ss' _ ⟨rfl, sameMore⟩
    exact .pure ⟨rfl, by rw [Stmt.sameAll, same, sameMore, Bool.and_self]⟩

/-! ### Blocks and programs -/

theorem length_le_stmtMarks
    (legible : Stmt.AllLegible d topLevel afterChain ss) (nl : Bool) :
    ss.length ≤ (Stmt.marksAll nl ss).length := by
  induction ss generalizing afterChain nl with
  | nil => exact Nat.le_refl _
  | cons s ss ih =>
    have atEnd : NoColon [] := by rintro ms ⟨⟩
    obtain ⟨kind, tail, start, -⟩ := starts_stmtMarks legible.1 nl atEnd
    have := ih legible.2.2 true
    rw [append_nil] at start
    simp only [Stmt.marksAll, start, length_append, length_cons]
    omega

theorem blockWithin_reads (ctx : ParseContext) (depth : Nat) :
    ReadsBlocks (blockWithin depth) ctx depth := by
  induction depth with
  | zero =>
    intro body nl _ size
    obtain ⟨tail, marks⟩ := blockMarks_cons body nl
    simp [marks] at size
  | succ depth ih =>
    intro body nl legible size rest _
    obtain ⟨span, ss⟩ := body
    obtain ⟨nl', line, marks⟩ : ∃ nl', (ss ≠ [] → nl' = true) ∧ (Block.mk span ss).marks nl =
        (.symbol .lbrace, nl) :: (Stmt.marksAll true ss ++ [(.symbol .rbrace, nl')]) := by
      cases ss with
      | nil => exact ⟨false, by simp, rfl⟩
      | cons s ss => exact ⟨true, by simp, rfl⟩
    rw [marks] at size ⊢
    simp only [cons_append, append_assoc, length_cons, length_append] at size ⊢
    have many := length_le_stmtMarks legible true
    refine .expectSign fun _ => .remaining ?_
    refine (stmtsWith_recognizes ih legible (by omega) (.inl ⟨rfl, rfl⟩) line ?_).bind ?_
    · rw [length_append]
      omega
    rintro ss' _ ⟨rfl, same⟩
    exact .closing fun _ => .pure ⟨rfl, same⟩

theorem block_reads (ctx : ParseContext) (bound : Nat) : ReadsBlocks Parser.block ctx bound :=
  fun body nl legible _ _ _ =>
    .remaining (blockWithin_reads ctx _ body nl legible (by rw [length_append]; omega) trivial)

/-- The tokens of a program are read back. -/
theorem program_recognizes {p : Program} (legible : p.Legible ctx.dialect) :
    Parses program ctx p.marks fun q _ => p.same q = true := by
  have many := length_le_stmtMarks legible false
  refine .remaining ((stmtsWith_recognizes (block_reads ctx _) legible le_rfl (.inr rfl) ?_ ?_).bind
    fun ss' _ read => .pure read.2)
  · intro some_stmt
    simpa using some_stmt
  · rw [Program.marks, length_append]
    omega

end ArkLang.Parser
