import ArkLang.Proofs.ExprsReadBack

/-!
# Telling procedures and calls apart

A name and a parenthesis start a procedure or a call. The parser looks for the end of the list in
the parentheses and decides by what follows it and by what its items look like. The tokens of types
and expressions have their brackets in pairs and no comma outside of them, so that the end found is
the right one.
-/

namespace ArkLang.Parser

open List

/-! ### Tokens that are passed by -/

def markToken (m : Mark) : Token :=
  ⟨m.1, ⟨0, 0⟩, ⟨0, 0⟩, m.2⟩

/-- The search for the end of a list in tokens with given marks. -/
def search (depth : Nat) (itemStart params : Bool) (ms : List Mark) : Bool :=
  headOfProc depth itemStart params (ms.map markToken)

/-- Tokens that the search for the end of a list passes by, from some depth of brackets on. -/
def SkippedFrom (least : Nat) (ms : List Mark) : Prop :=
  ∀ ⦃rest : List Mark⦄ ⦃depth : Nat⦄ (params : Bool), least ≤ depth →
    search depth false params (ms ++ rest) = search depth false params rest

/-- The kinds of token that are neither brackets nor commas nor the end of input. -/
def isInner : TokenKind → Bool
  | .eof => false
  | .symbol s => !(s == .lparen || s == .lbracket || s == .lbrace || s == .rparen ||
      s == .rbracket || s == .rbrace || s == .comma)
  | _ => true

variable {least : Nat} {ms ns : List Mark}

theorem SkippedFrom.mono {least' : Nat} (h : SkippedFrom least ms) (le : least ≤ least') :
    SkippedFrom least' ms :=
  fun _ _ params deep => h params (le.trans deep)

theorem opensBody_congr {ts us : List Token} (h : ts.map Token.mark = us.map Token.mark)
    (params : Bool) : opensBody params ts = opensBody params us := by
  cases ts with
  | nil =>
    obtain rfl : us = [] := by simpa using h.symm
    rfl
  | cons t ts =>
    obtain ⟨u, us, rfl, mark, -⟩ := List.map_eq_cons_iff.mp h.symm
    simp only [Token.mark, Prod.mk.injEq] at mark
    simp only [opensBody, mark.1, mark.2]

theorem headOfProc_congr {ts us : List Token} (h : ts.map Token.mark = us.map Token.mark)
    (depth : Nat) (itemStart params : Bool) :
    headOfProc depth itemStart params ts = headOfProc depth itemStart params us := by
  induction ts generalizing us depth itemStart params with
  | nil =>
    obtain rfl : us = [] := by simpa using h.symm
    rfl
  | cons t ts ih =>
    obtain ⟨u, us, rfl, mark, rest⟩ := List.map_eq_cons_iff.mp h.symm
    have kind : u.kind = t.kind := congrArg Prod.fst mark
    have looks : looksLikeParam u us = looksLikeParam t ts := by
      have heads : us.head?.map Token.kind = ts.head?.map Token.kind := by
        have := congrArg (fun ms => (List.head? ms).map Prod.fst) rest
        simpa [Function.comp_def, Token.mark] using this
      rw [looksLikeParam, looksLikeParam, kind, heads]
    simp only [headOfProc, kind, looks, opensBody_congr rest, ih rest.symm]

theorem headOfProc_eq_search {ts : List Token} (h : ts.map Token.mark = ms) (depth : Nat)
    (itemStart params : Bool) :
    headOfProc depth itemStart params ts = search depth itemStart params ms :=
  headOfProc_congr (by simp [h, Function.comp_def, markToken, Token.mark]) _ _ _

theorem SkippedFrom.nil : SkippedFrom least [] :=
  fun _ _ _ _ => rfl

theorem SkippedFrom.append (hm : SkippedFrom least ms) (hn : SkippedFrom least ns) :
    SkippedFrom least (ms ++ ns) := by
  intro rest depth params deep
  rw [append_assoc, hm params deep, hn params deep]

theorem SkippedFrom.token {kind : TokenKind} {nl : Bool} (inner : isInner kind = true) :
    SkippedFrom least [(kind, nl)] := by
  intro rest depth params deep
  revert inner
  cases kind with
  | symbol s => cases s <;> simp [isInner, search, headOfProc, markToken]
  | _ => simp [isInner, search, headOfProc, markToken]

theorem SkippedFrom.comma : SkippedFrom 2 [Symbol.comma.mark] := by
  intro rest depth params deep
  simp [search, headOfProc, markToken, Symbol.mark, show depth ≠ 1 by omega]

theorem SkippedFrom.brackets {opening closing : Symbol} {nl nl' : Bool}
    (pair : (opening, closing) ∈
      [(Symbol.lparen, Symbol.rparen), (.lbracket, .rbracket), (.lbrace, .rbrace)])
    (h : SkippedFrom 2 ms) :
    SkippedFrom 1 ((.symbol opening, nl) :: ms ++ [(.symbol closing, nl')]) := by
  intro rest depth params deep
  simp only [mem_cons, Prod.mk.injEq, not_mem_nil, or_false] at pair
  have opens (more : List Mark) : search depth false params ((.symbol opening, nl) :: more) =
      search (depth + 1) false params more := by
    rcases pair with ⟨rfl, rfl⟩ | ⟨rfl, rfl⟩ | ⟨rfl, rfl⟩ <;> rfl
  have shuts : search (depth + 1) false params ((.symbol closing, nl') :: rest) =
      search depth false params rest := by
    rcases pair with ⟨rfl, rfl⟩ | ⟨rfl, rfl⟩ | ⟨rfl, rfl⟩ <;>
      simp [search, headOfProc, markToken, show ¬ depth + 1 ≤ 1 by omega]
  rw [cons_append, cons_append, append_assoc, opens, h params (by omega),
    singleton_append, shuts]

theorem SkippedFrom.separated {items : List (List Mark)} (h : ∀ item ∈ items, SkippedFrom 1 item) :
    SkippedFrom 2 (ArkLang.separated .comma items) := by
  rw [ArkLang.separated]
  induction items with
  | nil => exact .nil
  | cons first more ih =>
    have hfirst : SkippedFrom 2 first := (h first mem_cons_self).mono (by decide)
    cases more with
    | nil => simpa using hfirst
    | cons second more =>
      rw [intercalate_cons_cons, append_assoc]
      exact hfirst.append (SkippedFrom.comma.append
        (ih fun item mem => h item (mem_cons_of_mem _ mem)))

mutual

theorem skippedFrom_typeMarks : (t : TypeExpr) → SkippedFrom 1 t.marks
  | .named .. => .token rfl
  | .qualified .. =>
    (SkippedFrom.token rfl).append ((SkippedFrom.token rfl).append (.token rfl))
  | .array _ elem size => by
    have inside : SkippedFrom 2 (elem.marks ++ [Symbol.semi.mark, (.int size, false)]) :=
      ((skippedFrom_typeMarks elem).append
        ((SkippedFrom.token rfl).append (.token rfl))).mono (Nat.le_succ 1)
    have whole : SkippedFrom 1 (Symbol.lbracket.mark ::
        (elem.marks ++ [Symbol.semi.mark, (.int size, false)]) ++ [Symbol.rbracket.mark]) :=
      inside.brackets (by simp)
    simpa [TypeExpr.marks] using whole
  | .list _ elem => ((skippedFrom_typeMarks elem).mono (Nat.le_succ 1)).brackets (by simp)
  | .proc _ params ret => by
    have list : SkippedFrom 1 (Symbol.lparen.mark ::
        separated .comma (TypeExpr.marksAll params) ++ [Symbol.rparen.mark]) :=
      (SkippedFrom.separated (skippedFrom_typeMarks_all params)).brackets (by simp)
    have arrow : SkippedFrom 1 [Symbol.arrow.mark] := .token rfl
    simpa [TypeExpr.marks] using list.append (arrow.append (skippedFrom_typeMarks ret))

theorem skippedFrom_typeMarks_all : (ts : List TypeExpr) →
    ∀ item ∈ TypeExpr.marksAll ts, SkippedFrom 1 item
  | [] => by simp [TypeExpr.marksAll]
  | t :: ts => by
    intro item mem
    rcases List.mem_cons.mp mem with same | mem
    · rw [same]
      exact skippedFrom_typeMarks t
    · exact skippedFrom_typeMarks_all ts item mem

end

theorem SkippedFrom.parenthesized {needed nl : Bool} {marks : Bool → List Mark}
    (h : ∀ nl, SkippedFrom 1 (marks nl)) : SkippedFrom 1 (parenthesizedMarks needed nl marks) := by
  cases needed with
  | true => exact ((h false).mono (Nat.le_succ 1)).brackets (by simp)
  | false => exact h nl

mutual

theorem skippedFrom_exprMarks (nl : Bool) : (e : Expr) → SkippedFrom 1 (e.marks nl)
  | .int .. | .float .. | .str .. | .bool .. | .ident .. => .token rfl
  | .selfProp .. => (SkippedFrom.token rfl).append (.token rfl)
  | .array _ items => (SkippedFrom.separated (skippedFrom_exprMarks_all items)).brackets (by simp)
  | .unary _ op operand => by
    have sign : SkippedFrom 1 [(.symbol op.sign, nl)] := .token (by cases op <;> rfl)
    exact sign.append (.parenthesized fun nl => skippedFrom_exprMarks nl operand)
  | .binary _ left op right => by
    have sign : SkippedFrom 1 [op.sign.mark] := .token (by cases op <;> rfl)
    exact (SkippedFrom.parenthesized fun nl => skippedFrom_exprMarks nl left).append
      (sign.append (.parenthesized fun nl => skippedFrom_exprMarks nl right))
  | .postOp _ op base =>
    (SkippedFrom.parenthesized fun nl => skippedFrom_exprMarks nl base).append
      (.token (by cases op <;> rfl))
  | .call _ callee args => by
    rw [Expr.marks, append_assoc]
    exact (SkippedFrom.parenthesized fun nl => skippedFrom_exprMarks nl callee).append
      ((SkippedFrom.separated (skippedFrom_exprMarks_all args)).brackets (by simp))
  | .index _ base place => by
    rw [Expr.marks, append_assoc]
    exact (SkippedFrom.parenthesized fun nl => skippedFrom_exprMarks nl base).append
      (((skippedFrom_exprMarks false place).mono (Nat.le_succ 1)).brackets (by simp))
  | .member _ base name =>
    (SkippedFrom.parenthesized fun nl => skippedFrom_exprMarks nl base).append
      ((SkippedFrom.token rfl).append (.token rfl))

theorem skippedFrom_exprMarks_all : (es : List Expr) →
    ∀ item ∈ Expr.marksAll es, SkippedFrom 1 item
  | [] => by simp [Expr.marksAll]
  | e :: es => by
    intro item mem
    rcases List.mem_cons.mp mem with same | mem
    · rw [same]
      exact skippedFrom_exprMarks false e
    · exact skippedFrom_exprMarks_all es item mem

end

/-! ### Lists of items -/

/-- Whether the tokens of an item look like a parameter: a name, and a type or a default behind
it. -/
def looksTyped : List Mark → Bool
  | (.ident _, _) :: (kind, _) :: _ => kind == .symbol .colon || kind == .symbol .eq
  | _ => false

/-- Tokens between which commas may stand. -/
structure IsItem (ms : List Mark) : Prop where
  starts : ∃ kind nl tail, ms = (kind, nl) :: tail ∧
    (isInner kind = true ∨ kind = .symbol .lparen ∨ kind = .symbol .lbracket)
  skipped : SkippedFrom 1 ms

variable {nl : Bool} {kind : TokenKind} {rest : List Mark}

theorem search_item {item more : List Mark} (h : IsItem item)
    (apart : kind ≠ .symbol .colon ∧ kind ≠ .symbol .eq) (params : Bool) :
    search 1 true params (item ++ (kind, nl) :: more) =
      search 1 false (params && looksTyped item) ((kind, nl) :: more) := by
  refine Eq.trans ?_ (h.skipped _ (Nat.le_refl 1))
  obtain ⟨first, nl', tail, rfl, starts⟩ := h.starts
  have looks : looksLikeParam (markToken (first, nl'))
      ((tail ++ (kind, nl) :: more).map markToken) = looksTyped ((first, nl') :: tail) := by
    cases first with
    | ident name =>
      rcases tail with _ | ⟨⟨k, nl⟩, tail⟩
      · simp only [looksLikeParam, markToken, nil_append, map_cons, head?_cons,
          Option.map_some, looksTyped]
        split <;> simp_all
      · simp only [looksLikeParam, markToken, cons_append, map_cons, head?_cons,
          Option.map_some, looksTyped]
        split <;> simp_all
    | _ => simp [looksLikeParam, looksTyped, markToken]
  rw [search, search, cons_append, map_cons, headOfProc, headOfProc, looks]
  revert starts
  cases first with
  | symbol s => cases s <;> simp [isInner, markToken]
  | _ => simp [isInner, markToken]

theorem search_items {items : List (List Mark)} (h : ∀ item ∈ items, IsItem item) (params : Bool) :
    search 1 true params (separated .comma items ++ (.symbol .rparen, nl) :: rest) =
      opensBody (params && items.all looksTyped) (rest.map markToken) := by
  induction items generalizing params with
  | nil => simp [separated, search, headOfProc, markToken]
  | cons first more ih =>
    have item := h first mem_cons_self
    cases more with
    | nil =>
      rw [show separated .comma [first] = first by simp [separated],
        search_item item (by decide)]
      simp [search, headOfProc, markToken]
    | cons second more =>
      have split : separated .comma (first :: second :: more) ++ (.symbol .rparen, nl) :: rest =
          first ++ Symbol.comma.mark ::
            (separated .comma (second :: more) ++ (.symbol .rparen, nl) :: rest) := by
        simp [separated, intercalate_cons_cons]
      have comma (params : Bool) (ms : List Mark) :
          search 1 false params (Symbol.comma.mark :: ms) = search 1 true params ms := rfl
      rw [split, Symbol.mark, search_item item (by decide), ← Symbol.mark, comma,
        ih fun item mem => h item (mem_cons_of_mem _ mem)]
      simp only [all_cons, Bool.and_assoc]

theorem isItem_exprMarks (nl : Bool) (e : Expr) : IsItem (e.marks nl) where
  starts := by
    obtain ⟨kind, tail, marks, starts⟩ := e.startsExpr_marks nl
    refine ⟨kind, nl, tail, marks, ?_⟩
    revert starts
    cases kind with
    | symbol s => cases s <;> simp [TokenKind.startsExpr, isInner]
    | _ => simp [TokenKind.startsExpr, isInner]
  skipped := skippedFrom_exprMarks nl e

theorem isItem_paramMarks (p : Param) : IsItem p.marks where
  starts := ⟨_, _, _, rfl, .inl rfl⟩
  skipped := by
    have name : SkippedFrom 1 [(.ident p.name.value, false)] := .token rfl
    have type : SkippedFrom 1 (typeMarks .colon p.type) := by
      rcases p.type with _ | type
      · exact .nil
      · exact (SkippedFrom.token rfl).append (skippedFrom_typeMarks type)
    have value : SkippedFrom 1 (valueMarks .eq p.default) := by
      rcases p.default with _ | value
      · exact .nil
      · exact (SkippedFrom.token rfl).append (skippedFrom_exprMarks false value)
    exact (name.append type).append value

theorem looksTyped_paramMarks {d : Dialect} {p : Param} (h : p.Legible d) :
    looksTyped p.marks = true := by
  obtain ⟨-, -, -, untyped⟩ := h
  rw [Param.marks]
  rcases type : p.type with _ | t
  · obtain ⟨value, default⟩ := Option.isSome_iff_exists.mp (untyped type).2
    simp [default, typeMarks, valueMarks, looksTyped]
  · simp [typeMarks, looksTyped]

/-! ### Heads of procedures -/

theorem legible_of_mem_params {d : Dialect} {defaulted : Bool} {params : List Param}
    (h : Param.AllLegible d defaulted params) : ∀ p ∈ params, p.Legible d := by
  induction params generalizing defaulted with
  | nil => simp
  | cons first more ih =>
    intro p mem
    rcases List.mem_cons.mp mem with rfl | mem
    · exact h.1
    · exact ih h.2.2 p mem

theorem opensProc_headMarks {d : Dialect} {name : Ident} {params : List Param}
    {ret : Option TypeExpr} (legible : Param.AllLegible d false params) {ts : List Token}
    (marks : ts.map Token.mark = headMarks nl name params ret ++ Symbol.lbrace.mark :: rest) :
    opensProc ts = true := by
  have items : ∀ item ∈ params.map Param.marks, IsItem item := by
    simpa using fun p _ => isItem_paramMarks p
  have typed : (params.map Param.marks).all looksTyped = true := by
    simpa using fun p mem => looksTyped_paramMarks (legible_of_mem_params legible p mem)
  have list : (ts.drop 2).map Token.mark = separated .comma (params.map Param.marks) ++
      (.symbol .rparen, false) :: (typeMarks .colon ret ++ Symbol.lbrace.mark :: rest) := by
    rw [map_drop, marks]
    simp [headMarks, Symbol.mark]
  rw [opensProc, headOfProc_eq_search list, search_items items, typed]
  rcases ret with _ | type <;> simp [typeMarks, opensBody, markToken, Symbol.mark]

/-! ### Expressions -/

/-- What follows a name does not make it a declared one. -/
structure GoesOn (rest : List Mark) : Prop where
  noSign : ∀ kind nl ms, rest = (kind, nl) :: ms →
    kind ≠ .symbol .comma ∧ kind ≠ .symbol .colon ∧ kind ≠ .symbol .colonColon ∧
      kind ≠ .symbol .colonEq ∧ kind ≠ .symbol .colonColonEq
  noHead : ∀ nl ms, rest = (.symbol .lparen, nl) :: ms → ∀ ts : List Token,
    ts.map Token.mark = ms → headOfProc 1 true true ts = false

/-- What follows a closed list does not make it the head of a procedure. -/
def NoBody (rest : List Mark) : Prop :=
  ∀ kind ms, rest = (kind, false) :: ms → kind ≠ .symbol .colon ∧ kind ≠ .symbol .lbrace

theorem NoBody.not_opensBody (h : NoBody rest) (params : Bool) :
    opensBody params (rest.map markToken) = false := by
  rcases rest with _ | ⟨⟨kind, newline⟩, ms⟩
  · rfl
  · rw [map_cons, opensBody, Bool.and_eq_false_iff]
    cases newline
    · right
      have := h kind ms rfl
      simp only [markToken]
      split <;> simp_all
    · exact .inl rfl

theorem GoesOn.of_kind {ms : List Mark}
    (noSign : kind ≠ .symbol .comma ∧ kind ≠ .symbol .colon ∧ kind ≠ .symbol .colonColon ∧
      kind ≠ .symbol .colonEq ∧ kind ≠ .symbol .colonColonEq) (noHead : kind ≠ .symbol .lparen) :
    GoesOn ((kind, nl) :: ms) where
  noSign := by
    rintro _ _ _ ⟨⟩
    exact noSign
  noHead := by
    rintro _ _ ⟨⟩
    exact absurd rfl noHead

theorem noBody_cons {ms : List Mark}
    (h : kind ≠ .symbol .colon ∧ kind ≠ .symbol .lbrace) : NoBody ((kind, nl) :: ms) := by
  rintro _ _ ⟨⟩
  exact h

theorem goesOn_args {args : List Expr} (h : NoBody rest) :
    GoesOn (Symbol.lparen.mark ::
      (separated .comma (Expr.marksAll args) ++ Symbol.rparen.mark :: rest)) where
  noSign := by
    rintro _ _ _ ⟨⟩
    simp
  noHead := by
    rintro nl ms ⟨⟩ ts marks
    have items : ∀ item ∈ Expr.marksAll args, IsItem item := by
      rw [Expr.marksAll_eq_map]
      simpa using fun e _ => isItem_exprMarks false e
    rw [headOfProc_eq_search marks, Symbol.mark, search_items items]
    exact h.not_opensBody _

theorem front_of_append {needed nl nl' : Bool} {base : Expr}
    {more tail : List Mark}
    (h : parenthesizedMarks needed nl (fun nl => base.marks nl) ++ more = (kind, nl') :: tail)
    (bare : kind ≠ .symbol .lparen) :
    needed = false ∧ ∃ front, base.marks nl = (kind, nl') :: front ∧ tail = front ++ more := by
  cases needed with
  | true =>
    simp only [parenthesizedMarks, if_true, cons_append, List.cons.injEq, Prod.mk.injEq] at h
    exact absurd h.1.1.symm bare
  | false =>
    obtain ⟨first, front, marks, -⟩ := base.startsExpr_marks nl
    simp only [parenthesizedMarks, Bool.false_eq_true, if_false, marks, cons_append,
      List.cons.injEq] at h
    exact ⟨rfl, front, by rw [marks, h.1], h.2.symm⟩

theorem goesOn_marks : (e : Expr) → ∀ {nl nl' : Bool} {name : String} {tail rest : List Mark},
    e.marks nl = (.ident name, nl') :: tail → ((∃ node, e = .ident node name) → GoesOn rest) →
      (e.isNamedCall = true → NoBody rest) → GoesOn (tail ++ rest)
  | .int .., _, _, _, _, _, h, _, _ | .float .., _, _, _, _, _, h, _, _
  | .str .., _, _, _, _, _, h, _, _ | .bool .., _, _, _, _, _, h, _, _
  | .selfProp .., _, _, _, _, _, h, _, _ | .array .., _, _, _, _, _, h, _, _
  | .unary .., _, _, _, _, _, h, _, _ => by simp [Expr.marks] at h
  | .ident node name, _, _, _, _, _, h, follows, _ => by
    cases h
    exact follows ⟨node, rfl⟩
  | .binary _ base op _, _, _, _, _, rest, h, _, _
  | .postOp _ op base, _, _, _, _, rest, h, _, _ => by
    obtain ⟨-, front, marks, rfl⟩ := front_of_append h (by simp)
    rw [append_assoc]
    exact goesOn_marks base marks
      (fun _ => .of_kind (by cases op <;> decide) (by cases op <;> decide))
      (fun _ => noBody_cons (by cases op <;> decide))
  | .index _ base _, _, _, _, _, rest, h, _, _ => by
    rw [Expr.marks, append_assoc] at h
    obtain ⟨-, front, marks, rfl⟩ := front_of_append h (by simp)
    rw [append_assoc]
    exact goesOn_marks base marks (fun _ => .of_kind (by decide) (by decide))
      (fun _ => noBody_cons (by decide))
  | .member _ base _, _, _, _, _, rest, h, _, _ => by
    obtain ⟨-, front, marks, rfl⟩ := front_of_append h (by simp)
    rw [append_assoc]
    exact goesOn_marks base marks (fun _ => .of_kind (by decide) (by decide))
      (fun _ => noBody_cons (by decide))
  | .call _ callee args, _, _, _, _, rest, h, _, noBody => by
    rw [Expr.marks, append_assoc] at h
    obtain ⟨-, front, marks, rfl⟩ := front_of_append h (by simp)
    rw [append_assoc, append_assoc]
    refine goesOn_marks callee marks ?_ (fun _ => noBody_cons (by decide))
    rintro ⟨node, rfl⟩
    exact goesOn_args (noBody rfl)

/-- Signs that join an expression with what stands behind it. -/
def joins (s : Symbol) : Bool :=
  (binOp? (.symbol s)).isSome || goesOnWithAtom (.symbol s)

/-- Induction along the fronts of expressions: an expression starts with a token of its own, or with
another expression that a sign joins with the rest. -/
theorem front_induction {P : Expr → Prop}
    (alone : ∀ e : Expr, (∀ nl, ∃ kind tail, e.marks nl = (kind, nl) :: tail ∧
      kind ≠ .symbol .lparen ∧ ∀ name, kind = .ident name → tail = []) → P e)
    (joined : ∀ (e base : Expr) (needed : Bool) (sign : Symbol) (more : List Mark),
      (∀ nl, e.marks nl =
        parenthesizedMarks needed nl (fun nl => base.marks nl) ++ sign.mark :: more) →
      joins sign = true → P base → P e) : (e : Expr) → P e
  | .int .. | .float .. | .str .. | .bool .. | .ident .. | .selfProp .. | .array .. =>
    alone _ fun _ => ⟨_, _, rfl, by simp, by simp⟩
  | .unary _ op _ => alone _ fun _ => ⟨_, _, rfl, by cases op <;> decide, by simp⟩
  | .binary _ base op _ | .postOp _ op base =>
    joined _ base _ _ _ (fun _ => rfl) (by cases op <;> rfl) (front_induction alone joined base)
  | .member _ base _ => joined _ base _ _ _ (fun _ => rfl) rfl (front_induction alone joined base)
  | .index _ base _ | .call _ base _ =>
    joined _ base _ _ _ (fun _ => by rw [Expr.marks, append_assoc]; rfl) rfl
      (front_induction alone joined base)

/-- What follows does not start with a colon on the same line. -/
def NoColon (rest : List Mark) : Prop :=
  ∀ ms, rest ≠ Symbol.colon.mark :: ms

theorem looksTyped_exprMarks (e : Expr)
    (h : ∀ kind nl ms, rest = (kind, nl) :: ms → kind ≠ .symbol .colon ∧ kind ≠ .symbol .eq) :
    looksTyped (e.marks nl ++ rest) = false := by
  induction e using front_induction generalizing nl rest with
  | alone e front =>
    obtain ⟨kind, tail, marks, -, single⟩ := front nl
    rw [marks]
    cases kind with
    | ident name =>
      rw [single name rfl]
      rcases rest with _ | ⟨⟨kind, nl⟩, ms⟩
      · rfl
      · simp [looksTyped, h kind nl ms rfl]
    | _ => rfl
  | joined e base needed sign more marks joined ih =>
    rw [marks, append_assoc]
    cases needed with
    | true => rfl
    | false =>
      refine ih ?_
      rintro _ _ _ ⟨⟩
      revert joined
      cases sign <;> simp [joins, binOp?, goesOnWithAtom]

theorem marks_eq_lparen_cons (e : Expr) {nl nl' : Bool} {tail rest : List Mark}
    (h : e.marks nl = (.symbol .lparen, nl') :: tail) (noColon : NoColon rest) :
    ∃ (inner : Expr) (more : List Mark),
      tail ++ rest = inner.marks false ++ Symbol.rparen.mark :: more ∧ NoColon more := by
  induction e using front_induction generalizing nl tail rest with
  | alone e front =>
    obtain ⟨kind, tail, marks, other, -⟩ := front nl
    rw [marks] at h
    exact absurd (congrArg Prod.fst (List.cons.inj h).1) other
  | joined e base needed sign more marks joined ih =>
    have behind : NoColon (sign.mark :: more ++ rest) := by
      rintro ms ⟨⟩
      simp [joins, binOp?, goesOnWithAtom] at joined
    rw [marks] at h
    cases needed with
    | true =>
      obtain ⟨-, rfl⟩ := List.cons.inj h
      exact ⟨base, sign.mark :: more ++ rest, by simp, behind⟩
    | false =>
      obtain ⟨kind, front, start, -⟩ := base.startsExpr_marks nl
      simp only [parenthesizedMarks, Bool.false_eq_true, if_false, start, cons_append,
        List.cons.injEq] at h
      obtain ⟨first, rfl⟩ := h
      rw [append_assoc]
      exact ih (by rw [start, first]) behind

theorem goesOn_of_lparen {inner : Expr} {more : List Mark} (noColon : NoColon more) :
    GoesOn ((.symbol .lparen, nl) :: (inner.marks false ++ Symbol.rparen.mark :: more)) where
  noSign := by
    rintro _ _ _ ⟨⟩
    simp
  noHead := by
    rintro nl ms ⟨⟩ ts marks
    have untyped : looksTyped (inner.marks false ++ []) = false :=
      looksTyped_exprMarks inner (by simp)
    rw [append_nil] at untyped
    have one : inner.marks false = separated .comma [inner.marks false] := by simp [separated]
    rw [headOfProc_eq_search marks, one, Symbol.mark,
      search_items (by simpa using isItem_exprMarks false inner)]
    rcases more with _ | ⟨⟨kind, newline⟩, ms⟩
    · rfl
    · simp only [all_cons, untyped, Bool.false_and, Bool.and_false, map_cons, opensBody,
        markToken]
      have : kind = .symbol .colon → newline = true := by
        rintro rfl
        by_contra sameLine
        exact noColon ms (by rw [Bool.eq_false_iff.mpr sameLine]; rfl)
      -- `one` would be used as a rule that never ends
      clear one
      split <;> simp_all

end ArkLang.Parser
