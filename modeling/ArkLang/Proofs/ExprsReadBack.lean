import ArkLang.Proofs.TypesReadBack

/-!
# Reading the tokens of expressions

A parser that finds the tokens of an expression in front of some others gives an expression of the
same structure and stops behind them, provided that what follows does not go on with it: no suffix
on the same line, and no operator.

An expression is read by levels, and the tokens of an expression are related to the parser of each
level. Suffixes and binary operators keep what they have read so far in an argument. What is said of
these two levels is therefore that reading the tokens leads wherever the level leads from behind
them, with the expression as that argument.
-/

namespace ArkLang

open List

/-! ### The first token -/

def TokenKind.startsExpr : TokenKind → Bool
  | .int _ | .float _ | .str _ | .ident _ | .keyword .trueKw | .keyword .falseKw => true
  | .symbol s => s == .dot || s == .lparen || s == .lbracket || s == .minus || s == .bang ||
    s == .tilde
  | _ => false

@[simp] theorem UnaryOp.startsExpr_sign (op : UnaryOp) :
    (TokenKind.symbol op.sign).startsExpr = true := by
  cases op <;> rfl

/-- Tokens that start with one that an expression may start with. -/
def StartsExpr (nl : Bool) (ms : List Mark) : Prop :=
  ∃ kind tail, ms = (kind, nl) :: tail ∧ kind.startsExpr = true

theorem StartsExpr.append {nl : Bool} {ms : List Mark} (h : StartsExpr nl ms) (rest : List Mark) :
    StartsExpr nl (ms ++ rest) := by
  obtain ⟨kind, tail, rfl, starts⟩ := h
  exact ⟨kind, tail ++ rest, rfl, starts⟩

theorem startsExpr_parenthesizedMarks {needed nl : Bool} {marks : Bool → List Mark}
    (h : StartsExpr nl (marks nl)) : StartsExpr nl (parenthesizedMarks needed nl marks) := by
  rw [parenthesizedMarks]
  split
  · exact ⟨_, _, rfl, rfl⟩
  · exact h

theorem Expr.startsExpr_marks (nl : Bool) : (e : Expr) → StartsExpr nl (e.marks nl)
  | .int .. | .float .. | .str .. | .ident .. | .selfProp .. | .array .. => ⟨_, _, rfl, rfl⟩
  | .bool _ value => ⟨_, _, rfl, by cases value <;> rfl⟩
  | .unary _ op _ => ⟨_, _, rfl, op.startsExpr_sign⟩
  | .binary _ base _ _ | .postOp _ _ base | .member _ base _ => by
    rw [marks]
    exact (startsExpr_parenthesizedMarks (base.startsExpr_marks nl)).append _
  | .call _ base _ | .index _ base _ => by
    rw [marks, append_assoc]
    exact (startsExpr_parenthesizedMarks (base.startsExpr_marks nl)).append _

theorem Expr.marksAll_eq_map (es : List Expr) : Expr.marksAll es = es.map (marks false) := by
  induction es with
  | nil => rfl
  | cons e es ih => rw [marksAll, ih, map_cons]

theorem Expr.sameAll_of_forall₂ {ds es : List Expr}
    (h : List.Forall₂ (fun d e => d.same e = true) ds es) : Expr.sameAll ds es = true := by
  induction h with
  | nil => rfl
  | cons first _ ih => rw [sameAll, first, ih, Bool.and_self]

namespace Parser

/-! ### What follows an expression -/

/-- The kinds of token that go on with an atom on its line. -/
def goesOnWithAtom : TokenKind → Bool
  | .symbol s => s == .plusPlus || s == .minusMinus || s == .lparen || s == .lbracket || s == .dot
  | _ => false

def NoSuffix (rest : List Mark) : Prop :=
  ∀ kind ms, rest = (kind, false) :: ms → goesOnWithAtom kind = false

/-- What follows starts with no operator that binds at least as tightly as `least`. -/
def NoOperator (least : Nat) (rest : List Mark) : Prop :=
  ∀ kind nl ms op, rest = (kind, nl) :: ms → binOp? kind = some op → op.precedence < least

/-- What may follow an expression. -/
structure ExprEnds (rest : List Mark) : Prop where
  noSuffix : NoSuffix rest
  noOperator : NoOperator 1 rest

theorem NoOperator.mono {least least' : Nat} {rest : List Mark} (h : NoOperator least rest)
    (le : least ≤ least') : NoOperator least' rest :=
  fun kind nl ms op eq found => (h kind nl ms op eq found).trans_le le

theorem ExprEnds.of_nextIs {kind : TokenKind} (suffix : goesOnWithAtom kind = false)
    (operator : binOp? kind = none) {rest : List Mark} (next : NextIs kind rest) :
    ExprEnds rest := by
  obtain ⟨nl, tail, rfl⟩ := next
  constructor
  · rintro _ _ ⟨⟩
    exact suffix
  · rintro _ _ _ op ⟨⟩ found
    simp [operator] at found

theorem noSuffix_sign (op : BinOp) (ms : List Mark) : NoSuffix (op.sign.mark :: ms) := by
  rintro kind tail ⟨⟩
  cases op <;> rfl

theorem noOperator_sign {op : BinOp} {least : Nat} (h : op.precedence < least) (ms : List Mark) :
    NoOperator least (op.sign.mark :: ms) := by
  rintro kind nl tail op' ⟨⟩ found
  obtain rfl : op = op' := by simpa using found
  exact h

variable {ctx : ParseContext} {inner : Parser Expr} {st : ParseState} {rest : List Mark}

theorem suffixes_stops {Q : Expr → ParseState → Prop} {e : Expr} (n : Nat)
    (h : NoSuffix st.marks) (reached : Q e st) : Reaches (suffixes inner n e) ctx st Q := by
  cases n with
  | zero => simpa only [suffixes, reaches_pure]
  | succ n =>
    simp only [suffixes, reaches_bind, reaches_current, reaches_ite, reaches_pure]
    split
    · exact reached
    · next sameLine =>
      have other : goesOnWithAtom (st.next ctx).kind = false := by
        rcases marks : st.marks with _ | ⟨⟨kind, nl⟩, ms⟩
        · rw [st.next_kind_of_nil marks]
          rfl
        · rw [st.next_newline marks, Bool.not_eq_true] at sameLine
          rw [st.next_kind marks]
          exact h kind ms (by rw [marks, sameLine])
      split <;> simp_all [goesOnWithAtom, reaches_pure]

theorem climb_stops {Q : Expr → ParseState → Prop} {e : Expr} {operand : Parser Expr} (n : Nat)
    {least : Nat} (h : NoOperator least st.marks) (reached : Q e st) :
    Reaches (climb operand n least e) ctx st Q := by
  cases n with
  | zero => simpa only [climb, reaches_pure]
  | succ n =>
    simp only [climb, reaches_bind, reaches_current]
    rcases found : binOp? (st.next ctx).kind with _ | op
    · simpa only [reaches_pure]
    · have weak : op.precedence < least := by
        rcases marks : st.marks with _ | ⟨⟨kind, nl⟩, ms⟩
        · simp [st.next_kind_of_nil marks, binOp?] at found
        · rw [st.next_kind marks] at found
          exact h kind nl ms op marks found
      simpa only [reaches_ite, weak, if_true, reaches_pure]

/-! ### The levels of expressions -/

def operandOf (inner : Parser Expr) : Parser Expr := do
  signed (suffixed inner) (← remaining)

theorem exprWith_eq (inner : Parser Expr) : exprWith inner = (do
    let left ← operandOf inner
    climb (operandOf inner) (← remaining) 1 left) := rfl

/-- Tokens that are read as an atom with suffixes behind it. -/
structure Suffixable (inner : Parser Expr) (ctx : ParseContext) (ms : List Mark) (e : Expr) :
    Prop where
  noSign : ∃ kind nl tail, ms = (kind, nl) :: tail ∧ unaryOp? kind = none
  reads : ∀ ⦃rest : List Mark⦄ {Q : Expr → List Mark → Prop},
    (∀ e' n, e.same e' = true → rest.length ≤ n → Parses (suffixes inner n e') ctx rest Q) →
    Parses (suffixed inner) ctx (ms ++ rest) Q

/-- Tokens that are read as an operand with signs in front of it. -/
def Signable (inner : Parser Expr) (ctx : ParseContext) (ms : List Mark) (e : Expr) : Prop :=
  ∀ n, ms.length ≤ n →
    Recognizes (signed (suffixed inner) n) ctx ms NoSuffix fun e' => e.same e' = true

/-- Tokens that are read as operands with operators between them, all of which bind at least as
tightly as `level`. -/
def Climbable (inner : Parser Expr) (ctx : ParseContext) (level : Nat) (ms : List Mark)
    (e : Expr) : Prop :=
  ∀ ⦃rest : List Mark⦄ {Q : Expr → List Mark → Prop} ⦃least : Nat⦄,
    NoSuffix rest → NoOperator (level + 1) rest → least ≤ level →
    (∀ e' n, e.same e' = true → rest.length ≤ n →
      Parses (climb (operandOf inner) n least e') ctx rest Q) →
    Parses (operandOf inner) ctx (ms ++ rest) fun first ms' =>
      ms'.length ≤ (ms ++ rest).length ∧ ∀ n, ms'.length ≤ n →
        Parses (climb (operandOf inner) n least first) ctx ms' Q

/-- Tokens that are read as an expression by all levels at which it may stand. -/
structure Readable (inner : Parser Expr) (ctx : ParseContext) (level : Nat) (ms : List Mark)
    (e : Expr) : Prop where
  suffixable : Expr.suffixedLevel ≤ level → Suffixable inner ctx ms e
  signable : Expr.signedLevel ≤ level → Signable inner ctx ms e
  climbable : Climbable inner ctx level ms e

variable {ms : List Mark} {e : Expr} {level : Nat}

theorem Suffixable.signable (h : Suffixable inner ctx ms e) : Signable inner ctx ms e := by
  intro n _ rest noSuffix
  have direct : Parses (suffixed inner) ctx (ms ++ rest) fun e' ms' =>
      ms' = rest ∧ e.same e' = true :=
    h.reads fun e' n same _ st here => suffixes_stops n (here ▸ noSuffix) ⟨here, same⟩
  cases n with
  | zero => exact direct
  | succ n =>
    obtain ⟨kind, nl, tail, rfl, noSign⟩ := h.noSign
    refine .current rfl fun t next _ => ?_
    rw [next, noSign]
    exact direct

theorem Signable.climbable (h : Signable inner ctx ms e) : Climbable inner ctx level ms e := by
  intro rest Q least noSuffix _ _ goOn
  refine .remaining fun st here => (h _ (by simp) noSuffix st here).mono ?_
  rintro e' st' ⟨behind, same⟩
  rw [behind]
  exact ⟨by simp, fun n enough => goOn e' n same enough⟩

theorem Signable.readable (h : Signable inner ctx ms e) (below : level < Expr.suffixedLevel) :
    Readable inner ctx level ms e :=
  ⟨fun above => absurd below (Nat.not_lt.mpr above), fun _ => h, h.climbable⟩

theorem Suffixable.readable (h : Suffixable inner ctx ms e) : Readable inner ctx level ms e :=
  ⟨fun _ => h, fun _ => h.signable, h.signable.climbable⟩

theorem Climbable.readable (h : Climbable inner ctx level ms e) (below : level < Expr.signedLevel) :
    Readable inner ctx level ms e :=
  ⟨fun above => absurd (Nat.le_trans (by decide) above) (Nat.not_le.mpr below),
    fun above => absurd below (Nat.not_lt.mpr above), h⟩

theorem suffixable_of_atom (noSign : ∃ kind nl tail, ms = (kind, nl) :: tail ∧ unaryOp? kind = none)
    (h : Recognizes (atom inner) ctx ms (fun _ => True) (fun e' => e.same e' = true)) :
    Suffixable inner ctx ms e where
  noSign := noSign
  reads _ _ goOn := h.bind trivial fun e' same => .remaining (goOn e' _ same le_rfl)

theorem Climbable.recognizes (h : Climbable inner ctx level ms e) (positive : 1 ≤ level) :
    Recognizes (exprWith inner) ctx ms ExprEnds (fun e' => e.same e' = true) := by
  intro rest ends
  refine (h (Q := fun e' ms' => ms' = rest ∧ e.same e' = true) ends.noSuffix
    (ends.noOperator.mono (by omega)) positive ?_).bind fun first ms' read =>
      .remaining (read.2 _ le_rfl)
  exact fun e' n same _ st here => climb_stops n (here ▸ ends.noOperator) ⟨here, same⟩

/-! ### Expressions in parentheses -/

theorem suffixable_parenthesized {nl : Bool}
    (h : Recognizes inner ctx ms ExprEnds (fun e' => e.same e' = true)) :
    Suffixable inner ctx ((.symbol .lparen, nl) :: ms ++ [Symbol.rparen.mark]) e := by
  refine suffixable_of_atom ⟨_, _, _, rfl, rfl⟩ fun rest _ => ?_
  simp only [cons_append, append_assoc, nil_append]
  refine .bump (by simp) fun t next => ?_
  rw [next]
  exact h.bind (.of_nextIs rfl rfl ⟨false, _, rfl⟩) fun e' same => .closing fun _ =>
    .pure ⟨rfl, same⟩

/-! ### What an expression is made of -/

theorem Signable.unary {node : Node} {nl : Bool} (op : UnaryOp) (h : Signable inner ctx ms e) :
    Signable inner ctx ((.symbol op.sign, nl) :: ms) (.unary node op e) := by
  intro n enough rest noSuffix
  obtain ⟨n, rfl⟩ : ∃ m, n = m + 1 := ⟨n - 1, by simp at enough; omega⟩
  refine .current rfl fun t next _ => ?_
  rw [next, unaryOp?_sign]
  refine .advance (by simp) ((h n (by simpa using enough)).bind noSuffix fun e' same => ?_)
  exact .freshNode fun _ => .pure ⟨rfl, by simp [Expr.same, same]⟩

theorem Climbable.binary {node : Node} {left right : Expr} {op : BinOp}
    {leftMarks rightMarks : List Mark} {leftLevel rightLevel : Nat}
    (hleft : Climbable inner ctx leftLevel leftMarks left) (leftTight : op.precedence ≤ leftLevel)
    (hright : Climbable inner ctx rightLevel rightMarks right)
    (rightTight : op.precedence + 1 ≤ rightLevel) :
    Climbable inner ctx op.precedence (leftMarks ++ op.sign.mark :: rightMarks)
      (.binary node left op right) := by
  intro rest Q least noSuffix noOperator least_le goOn
  rw [append_assoc]
  refine hleft (noSuffix_sign op _) (noOperator_sign (by omega) _) (by omega)
    fun left' n sameLeft enough => ?_
  simp only [cons_append, length_cons, length_append] at enough ⊢
  obtain ⟨n, rfl⟩ : ∃ m, n = m + 1 := ⟨n - 1, by omega⟩
  refine .current rfl fun t next _ => ?_
  rw [next, binOp?_sign]
  simp only [Nat.not_lt.mpr least_le, if_false]
  -- the right operand stops at `rest`, since what follows binds no tighter than the operator
  refine .advance (by simp) ((hright (Q := fun e' ms' => ms' = rest ∧ right.same e' = true) noSuffix
    (noOperator.mono (by omega)) rightTight ?_).bind fun first ms' read => ?_)
  · exact fun right' m same _ st here => climb_stops m (here ▸ noOperator) ⟨here, same⟩
  · have shorter := read.1
    rw [length_append] at shorter
    refine (read.2 n (by omega)).bind ?_
    rintro right' _ ⟨rfl, sameRight⟩
    exact .freshNode fun _ => goOn _ n (by simp [Expr.same, sameLeft, sameRight]) (by omega)

/-- What one turn of the loop over suffixes reads behind a base. -/
def SuffixTurn (inner : Parser Expr) (ctx : ParseContext) (base : Expr) (ms : List Mark)
    (e : Expr) : Prop :=
  ∀ ⦃rest : List Mark⦄ {Q : Expr → List Mark → Prop} ⦃base' : Expr⦄ (n : Nat),
    base.same base' = true →
    (∀ e', e.same e' = true → Parses (suffixes inner n e') ctx rest Q) →
    Parses (suffixes inner (n + 1) base') ctx (ms ++ rest) Q

theorem Suffixable.extend {base : Expr} {first : Mark} {more : List Mark}
    (h : Suffixable inner ctx ms base) (turn : SuffixTurn inner ctx base (first :: more) e) :
    Suffixable inner ctx (ms ++ first :: more) e where
  noSign := by
    obtain ⟨kind, nl, tail, rfl, noSign⟩ := h.noSign
    exact ⟨kind, nl, tail ++ first :: more, rfl, noSign⟩
  reads rest Q goOn := by
    rw [append_assoc]
    refine h.reads fun base' n same enough => ?_
    simp only [cons_append, length_cons, length_append] at enough
    obtain ⟨n, rfl⟩ : ∃ m, n = m + 1 := ⟨n - 1, by omega⟩
    exact turn n same fun e' same' => goOn e' n same' (by omega)

variable {node : Node} {base : Expr}

theorem suffixTurn_postOp (op : PostOp) :
    SuffixTurn inner ctx base [op.sign.mark] (.postOp node op base) := by
  intro rest Q base' n same goOn
  refine .current rfl fun t next sameLine => ?_
  rw [sameLine, if_neg (by simp), next]
  cases op <;>
  exact .advance (by simp) (.freshNode fun _ => goOn _ (by simp [Expr.same, same]))

theorem suffixTurn_member (name : Ident) :
    SuffixTurn inner ctx base [Symbol.dot.mark, (.ident name.value, false)]
      (.member node base name) := by
  intro rest Q base' n same goOn
  refine .current rfl fun t next sameLine => ?_
  rw [sameLine, if_neg (by simp), next]
  refine .advance (by simp) (.expectIdent fun span => .freshNode fun _ => ?_)
  exact goOn _ (by simp [Expr.same, same])

theorem suffixTurn_index {place : Expr} {placeMarks : List Mark}
    (h : Recognizes inner ctx placeMarks ExprEnds (fun e' => place.same e' = true)) :
    SuffixTurn inner ctx base (Symbol.lbracket.mark :: (placeMarks ++ [Symbol.rbracket.mark]))
      (.index node base place) := by
  intro rest Q base' n same goOn
  simp only [cons_append, append_assoc, nil_append]
  refine .current rfl fun t next sameLine => ?_
  rw [sameLine, if_neg (by simp), next]
  refine .advance (by simp) (h.bind (.of_nextIs rfl rfl ⟨false, _, rfl⟩) fun place' samePlace => ?_)
  exact .closing fun _ => .freshNode fun _ => goOn _ (by simp [Expr.same, same, samePlace])

theorem commaList_recognizes_exprs {items : List Expr} {closing : Symbol} {limit : Nat}
    (bracket : closing = .rparen ∨ closing = .rbracket)
    (h : ∀ e ∈ items, Recognizes inner ctx (e.marks false) ExprEnds (fun e' => e.same e' = true))
    (enough : (separated .comma (Expr.marksAll items)).length < limit) :
    Recognizes (commaList closing inner limit) ctx (separated .comma (Expr.marksAll items))
      (NextIs (.symbol closing)) fun items' => Expr.sameAll items items' = true := by
  intro rest closes
  rw [Expr.marksAll_eq_map] at enough ⊢
  refine fun st here => (commaList_recognizes items (Expr.marks false)
    (fun e e' => e.same e' = true) ?_ ?_ (by rcases bracket with rfl | rfl <;> decide) enough closes
    st here).mono fun items' st' read => ⟨read.1, Expr.sameAll_of_forall₂ read.2⟩
  · intro e mem rest follow
    refine h e mem ?_
    rcases follow with next | next
    · exact .of_nextIs rfl rfl next
    · rcases bracket with rfl | rfl <;> exact .of_nextIs rfl rfl next
  · intro e mem
    obtain ⟨kind, tail, marks, starts⟩ := e.startsExpr_marks false
    refine ⟨kind, false, tail, marks, ?_, ?_⟩
    · rintro rfl
      rcases bracket with rfl | rfl <;> simp [TokenKind.startsExpr] at starts
    · rintro rfl
      simp [TokenKind.startsExpr] at starts

theorem suffixTurn_call {args : List Expr}
    (h : ∀ e ∈ args, Recognizes inner ctx (e.marks false) ExprEnds (fun e' => e.same e' = true)) :
    SuffixTurn inner ctx base
      (Symbol.lparen.mark :: (separated .comma (Expr.marksAll args) ++ [Symbol.rparen.mark]))
      (.call node base args) := by
  intro rest Q base' n same goOn
  simp only [cons_append, append_assoc, nil_append]
  refine .current rfl fun t next sameLine => ?_
  rw [sameLine, if_neg (by simp), next]
  refine .advance (by simp) (.remaining ?_)
  refine (commaList_recognizes_exprs (.inl rfl) h (by simp)).bind ⟨false, _, rfl⟩
    fun args' more => ?_
  exact .closing fun _ => .freshNode fun _ => goOn _ (by simp [Expr.same, same, more])

theorem atom_recognizes_array {nl : Bool} {items : List Expr}
    (h : ∀ e ∈ items, Recognizes inner ctx (e.marks false) ExprEnds (fun e' => e.same e' = true)) :
    Recognizes (atom inner) ctx ((Expr.array node items).marks nl) (fun _ => True)
      (fun e' => (Expr.array node items).same e' = true) := by
  intro rest _
  simp only [Expr.marks, cons_append, append_assoc, nil_append]
  refine .bump (by simp) fun t next => ?_
  rw [next]
  refine .remaining ((commaList_recognizes_exprs (.inr rfl) h (by simp)).bind ⟨false, _, rfl⟩ ?_)
  exact fun items' same => .closing fun _ => .freshNode fun _ =>
    .pure ⟨rfl, by simpa [Expr.same] using same⟩

/-! ### Whole expressions -/

/-- The tokens of an expression are read at every depth that they cannot reach. -/
def ReadsBack (ctx : ParseContext) (e : Expr) : Prop :=
  ∀ (nl : Bool) (depth : Nat), (e.marks nl).length ≤ depth + 1 →
    Readable (exprWithin depth) ctx e.level (e.marks nl) e

theorem one_le_level (e : Expr) : 1 ≤ e.level := by
  cases e with
  | binary _ _ op _ => cases op <;> simp [Expr.level, BinOp.precedence]
  | _ => simp [Expr.level, Expr.signedLevel, Expr.suffixedLevel]

theorem ReadsBack.recognizes (h : ReadsBack ctx e) {nl : Bool} {depth : Nat}
    (enough : (e.marks nl).length ≤ depth) :
    Recognizes (exprWithin depth) ctx (e.marks nl) ExprEnds (fun e' => e.same e' = true) := by
  obtain ⟨kind, tail, marks, -⟩ := e.startsExpr_marks nl
  obtain ⟨depth, rfl⟩ : ∃ n, depth = n + 1 := ⟨depth - 1, by simp [marks] at enough; omega⟩
  exact (h nl depth enough).climbable.recognizes (one_le_level e)

theorem ReadsBack.parenthesized (h : ReadsBack ctx e) (least : Nat) {needed nl : Bool}
    {depth : Nat} (tight : needed = false → least ≤ e.level)
    (enough : (parenthesizedMarks needed nl fun nl => e.marks nl).length ≤ depth + 1) :
    ∃ level, least ≤ level ∧
      Readable (exprWithin depth) ctx level
        (parenthesizedMarks needed nl fun nl => e.marks nl) e := by
  cases needed with
  | true =>
    have enclosed : (e.marks false).length ≤ depth := by
      simp [parenthesizedMarks] at enough
      omega
    exact ⟨least, Nat.le_refl _, (suffixable_parenthesized (h.recognizes enclosed)).readable⟩
  | false => exact ⟨e.level, tight rfl, h nl depth enough⟩

theorem ReadsBack.suffixable (h : ReadsBack ctx e) {needed nl : Bool} {depth : Nat}
    (tight : needed = false → Expr.suffixedLevel ≤ e.level)
    (enough : (parenthesizedMarks needed nl fun nl => e.marks nl).length ≤ depth + 1) :
    Suffixable (exprWithin depth) ctx (parenthesizedMarks needed nl fun nl => e.marks nl) e := by
  obtain ⟨level, le, readable⟩ := h.parenthesized _ tight enough
  exact readable.suffixable le

theorem precedence_lt_signedLevel (op : BinOp) : op.precedence < Expr.signedLevel := by
  cases op <;> decide

theorem readsBack_of_token {kind : TokenKind} (marks : ∀ nl, e.marks nl = [(kind, nl)])
    (noSign : unaryOp? kind = none)
    (h : ∀ inner nl, Recognizes (atom inner) ctx [(kind, nl)] (fun _ => True)
      (fun e' => e.same e' = true)) : ReadsBack ctx e := by
  intro nl depth _
  rw [marks]
  exact (suffixable_of_atom ⟨_, _, _, rfl, noSign⟩ (h _ nl)).readable

mutual

theorem readsBack (ctx : ParseContext) : (e : Expr) → ReadsBack ctx e
  | .int .. | .float .. | .str .. | .ident .. => by
    refine readsBack_of_token (fun _ => rfl) rfl fun inner nl rest _ => .bump (by simp) ?_
    intro t next
    rw [next]
    exact .freshNode fun _ => .pure ⟨rfl, by simp [Expr.same]⟩
  | .bool _ value => by
    cases value <;>
    · refine readsBack_of_token (fun _ => rfl) rfl fun inner nl rest _ => .bump (by simp) ?_
      intro t next
      rw [next]
      exact .freshNode fun _ => .pure ⟨rfl, by simp [Expr.same]⟩
  | .selfProp _ name => by
    intro nl depth _
    refine (suffixable_of_atom ⟨_, _, _, rfl, rfl⟩ fun rest _ => .bump (by simp) ?_).readable
    intro t next
    rw [next]
    exact .expectIdent fun _ => .freshNode fun _ => .pure ⟨rfl, by simp [Expr.same]⟩
  | .array _ items => by
    intro nl depth enough
    simp only [Expr.marks, length_append, length_cons, Expr.marksAll_eq_map] at enough
    refine (suffixable_of_atom ⟨_, _, _, rfl, rfl⟩ (atom_recognizes_array fun e mem => ?_)).readable
    have shorter := length_le_separated (mem_map_of_mem (f := Expr.marks false) mem) .comma
    exact (readsBack_all ctx items e mem).recognizes (by omega)
  | .unary _ op operand => by
    intro nl depth enough
    simp only [Expr.marks, length_cons] at enough
    obtain ⟨level, le, readable⟩ :=
      (readsBack ctx operand).parenthesized Expr.signedLevel (by simp) (Nat.le_of_succ_le enough)
    exact ((readable.signable le).unary op).readable (Nat.lt_succ_self _)
  | .binary _ left op right => by
    intro nl depth enough
    simp only [Expr.marks, length_append, length_cons] at enough
    obtain ⟨_, leftTight, readableLeft⟩ :=
      (readsBack ctx left).parenthesized op.precedence (by simp) (Nat.le_of_add_right_le enough)
    obtain ⟨_, rightTight, readableRight⟩ :=
      (readsBack ctx right).parenthesized (op.precedence + 1) (by simp)
        (Nat.le_of_succ_le (Nat.le_of_add_left_le enough))
    exact (readableLeft.climbable.binary leftTight readableRight.climbable rightTight).readable
      (precedence_lt_signedLevel op)
  | .postOp _ op base => by
    intro nl depth enough
    simp only [Expr.marks, length_append, length_cons] at enough ⊢
    have hbase := (readsBack ctx base).suffixable (by simp) (Nat.le_of_add_right_le enough)
    exact (hbase.extend (suffixTurn_postOp op)).readable
  | .member _ base name => by
    intro nl depth enough
    simp only [Expr.marks, length_append, length_cons] at enough ⊢
    have hbase := (readsBack ctx base).suffixable (by simp) (Nat.le_of_add_right_le enough)
    exact (hbase.extend (suffixTurn_member name)).readable
  | .index _ base place => by
    intro nl depth enough
    simp only [Expr.marks, append_assoc, cons_append, length_append,
      length_cons] at enough ⊢
    have hbase := (readsBack ctx base).suffixable (by simp) (Nat.le_of_add_right_le enough)
    refine (hbase.extend (suffixTurn_index ?_)).readable
    exact (readsBack ctx place).recognizes (by omega)
  | .call _ base args => by
    intro nl depth enough
    simp only [Expr.marks, append_assoc, cons_append, length_append,
      length_cons] at enough ⊢
    have hbase := (readsBack ctx base).suffixable (by simp) (Nat.le_of_add_right_le enough)
    refine (hbase.extend (suffixTurn_call fun e mem => ?_)).readable
    rw [Expr.marksAll_eq_map] at enough
    have shorter := length_le_separated (mem_map_of_mem (f := Expr.marks false) mem) .comma
    exact (readsBack_all ctx args e mem).recognizes (by omega)

theorem readsBack_all (ctx : ParseContext) : (es : List Expr) → ∀ e ∈ es, ReadsBack ctx e
  | [] => by simp
  | e :: es => by
    intro f mem
    rcases List.mem_cons.mp mem with same | mem
    · rw [same]
      exact readsBack ctx e
    · exact readsBack_all ctx es f mem

end

/-- The tokens of an expression are read back wherever an expression is looked for. -/
theorem expr_recognizes (e : Expr) (nl : Bool) :
    Recognizes expr ctx (e.marks nl) ExprEnds (fun e' => e.same e' = true) :=
  fun _ ends => .remaining ((readsBack ctx e).recognizes (by simp; omega) ends)

end Parser

end ArkLang
