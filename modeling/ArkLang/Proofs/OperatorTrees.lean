import ArkLang.Proofs.ExprsReadBack

/-!
# Operators and their operands

A row of operands with binary operators between them is grouped by the weakest operator: the one of
least precedence, and of several such the last. What stands in front of it is its left operand and
what stands behind it is its right operand, both grouped in the same way. Precedence climbing reads
such a row from left to right and never looks for a weakest operator, but gives this tree.
-/

namespace ArkLang

open List

/-! ### Rows of operands -/

/-- A name or a literal, which is an operand by itself. -/
inductive Atom where
  | int (value : Nat)
  | float (value : Binary64)
  | str (value : String)
  | bool (value : Bool)
  | ident (name : String)

def Atom.kind : Atom → TokenKind
  | int value => .int value
  | float value => .float value
  | str value => .str value
  | bool value => .keyword (if value then .trueKw else .falseKw)
  | ident name => .ident name

def Atom.expr (node : Node) : Atom → Expr
  | int value => .int node value
  | float value => .float node value
  | str value => .str node value
  | bool value => .bool node value
  | ident name => .ident node name

/-- Something that is written as one token, wherever it stands. -/
structure Written (α : Type) where
  value : α
  span : Span
  position : Position
  newlineBefore : Bool

def Written.operandToken (w : Written Atom) : Token :=
  ⟨w.value.kind, w.span, w.position, w.newlineBefore⟩

def Written.operatorToken (w : Written BinOp) : Token :=
  ⟨.symbol w.value.sign, w.span, w.position, w.newlineBefore⟩

/-- The expression that an operand at its place is read as. -/
def Written.expr (id : NodeId) (w : Written Atom) : Expr :=
  w.value.expr ⟨id, w.span⟩

/-- An operator and the operand behind it. -/
structure Link where
  operator : Written BinOp
  operand : Written Atom

def Link.precedence (l : Link) : Nat :=
  l.operator.value.precedence

def linkTokens (links : List Link) : List Token :=
  links.flatMap fun l => [l.operator.operatorToken, l.operand.operandToken]

@[simp] theorem linkTokens_nil : linkTokens [] = [] := rfl

@[simp] theorem linkTokens_cons (l : Link) (links : List Link) : linkTokens (l :: links) =
    l.operator.operatorToken :: l.operand.operandToken :: linkTokens links := rfl

theorem length_le_linkTokens (links : List Link) : links.length ≤ (linkTokens links).length := by
  induction links with
  | nil => rfl
  | cons l links ih =>
    simp only [linkTokens_cons, length_cons]
    omega

/-! ### Grouping by weakest operators -/

/-- The weakest of the operators, with what stands in front of it and behind it: an operator of
least precedence, and of several such the last. -/
def weakest? : List Link → Option (List Link × Link × List Link)
  | [] => none
  | l :: links =>
    match weakest? links with
    | none => some ([], l, links)
    | some (front, weak, behind) =>
      if l.precedence < weak.precedence then some ([], l, links)
      else some (l :: front, weak, behind)

variable {links front behind : List Link} {l : Link}

theorem weakest?_eq_none_iff : weakest? links = none ↔ links = [] := by
  cases links with
  | nil => simp [weakest?]
  | cons l links =>
    rw [weakest?]
    split
    · simp
    · split <;> simp

theorem of_weakest?_eq_some {weak : Link}
    (h : weakest? links = some (front, weak, behind)) :
    links = front ++ weak :: behind ∧ (∀ l ∈ front, weak.precedence ≤ l.precedence) ∧
      ∀ l ∈ behind, weak.precedence < l.precedence := by
  induction links generalizing front weak behind with
  | nil => cases h
  | cons l links ih =>
    rw [weakest?] at h
    split at h
    · next none =>
      cases h
      simp [weakest?_eq_none_iff.mp none]
    · next front' weak' behind' found =>
      obtain ⟨rfl, tight, tighter⟩ := ih found
      split at h
      · next lt =>
        cases h
        refine ⟨rfl, by simp, fun k mem => ?_⟩
        rcases List.mem_append.mp mem with mem | mem
        · exact lt.trans_le (tight k mem)
        · rcases List.mem_cons.mp mem with rfl | mem
          · exact lt
          · exact lt.trans (tighter k mem)
      · next le =>
        cases h
        refine ⟨rfl, fun k mem => ?_, tighter⟩
        rcases List.mem_cons.mp mem with rfl | mem
        · exact Nat.not_lt.mp le
        · exact tight k mem

theorem weakest?_eq_some_iff {weak : Link} :
    weakest? links = some (front, weak, behind) ↔
      links = front ++ weak :: behind ∧ (∀ l ∈ front, weak.precedence ≤ l.precedence) ∧
        ∀ l ∈ behind, weak.precedence < l.precedence := by
  refine ⟨of_weakest?_eq_some, ?_⟩
  rintro ⟨rfl, tight, tighter⟩
  induction front with
  | nil =>
    rw [nil_append, weakest?]
    split
    · next none => rw [weakest?_eq_none_iff.mp none]
    · next found =>
      have mem := (of_weakest?_eq_some found).1
      rw [if_pos (tighter _ (by simp [mem]))]
  | cons l front ih =>
    have found := ih fun k mem => tight k (mem_cons_of_mem l mem)
    rw [cons_append, weakest?, found]
    exact if_neg (Nat.not_lt.mpr (tight l mem_cons_self))

/-- The tree of a row: the operand `first`, which is read already, and links behind it. Its nodes
are numbered from `next` on in the order of reading, an operator after its operands. -/
def grouped (next : Nat) (first : Expr) (links : List Link) : Expr :=
  match found : weakest? links with
  | none => first
  | some (front, weak, behind) =>
    let middle := next + 2 * front.length
    let left := grouped next first front
    let right := grouped (middle + 1) (weak.operand.expr middle) behind
    .binary ⟨middle + 1 + 2 * behind.length, left.span.join right.span⟩ left
      weak.operator.value right
termination_by links.length
decreasing_by
  all_goals
    have size := congrArg List.length (weakest?_eq_some_iff.mp found).1
    simp only [length_append, length_cons] at size
    omega

@[simp] theorem grouped_nil (next : Nat) (first : Expr) : grouped next first [] = first := by
  rw [grouped]
  rfl

theorem grouped_weakest {next : Nat} {first : Expr} {weak : Link}
    (h : weakest? links = some (front, weak, behind)) :
    grouped next first links =
      .binary ⟨next + 2 * front.length + 1 + 2 * behind.length,
          (grouped next first front).span.join (grouped (next + 2 * front.length + 1)
            (weak.operand.expr (next + 2 * front.length)) behind).span⟩
        (grouped next first front) weak.operator.value
        (grouped (next + 2 * front.length + 1) (weak.operand.expr (next + 2 * front.length))
          behind) := by
  rw [grouped]
  split
  · next none => simp [none] at h
  · next found =>
    rw [found] at h
    cases h
    rfl

/-- What an operator makes of the operand in front of it and the tighter links behind it. -/
def joined (next : Nat) (first : Expr) (l : Link) (tight : List Link) : Expr :=
  let right := grouped (next + 1) (l.operand.expr next) tight
  .binary ⟨next + 1 + 2 * tight.length, first.span.join right.span⟩ first l.operator.value right

theorem grouped_cons {tight : List Link} (next : Nat) (first : Expr)
    (loose : List Link) (htight : ∀ k ∈ tight, l.precedence < k.precedence)
    (hloose : ∀ k ∈ loose.head?, k.precedence ≤ l.precedence) :
    grouped next first (l :: (tight ++ loose)) =
      grouped (next + 1 + 2 * tight.length + 1) (joined next first l tight) loose := by
  -- both sides are split at the weakest operator of `loose`, which leaves a shorter row in front
  induction size : loose.length using Nat.strong_induction_on generalizing loose with
  | _ n ih =>
    rcases found : weakest? loose with _ | ⟨front, weak, behind⟩
    · obtain rfl := weakest?_eq_none_iff.mp found
      have only : weakest? (l :: (tight ++ [])) = some ([], l, tight) :=
        weakest?_eq_some_iff.mpr ⟨by simp, by simp, htight⟩
      rw [grouped_weakest only, grouped_nil, grouped_nil]
      simp only [joined, length_nil, Nat.mul_zero, Nat.add_zero]
    · obtain ⟨rfl, le, lt⟩ := weakest?_eq_some_iff.mp found
      have weaker : weak.precedence ≤ l.precedence := by
        cases front with
        | nil => exact hloose weak rfl
        | cons k front => exact (le k mem_cons_self).trans (hloose k rfl)
      have whole : weakest? (l :: (tight ++ (front ++ weak :: behind))) =
          some (l :: (tight ++ front), weak, behind) := by
        refine weakest?_eq_some_iff.mpr ⟨by simp, fun k mem => ?_, lt⟩
        rcases List.mem_cons.mp mem with rfl | mem
        · exact weaker
        · rcases List.mem_append.mp mem with mem | mem
          · exact weaker.trans (htight k mem).le
          · exact le k mem
      have shorter : front.length < n := by
        rw [length_append, length_cons] at size
        omega
      have inFront := ih front.length shorter front (fun k mem => hloose k (by
        cases front with
        | nil => cases mem
        | cons => exact mem)) rfl
      have numbers : next + 2 * (l :: (tight ++ front)).length =
          next + 1 + 2 * tight.length + 1 + 2 * front.length := by
        rw [length_cons, length_append]
        omega
      rw [grouped_weakest whole, grouped_weakest found, inFront, numbers]

/-! ### Tight links -/

/-- The links up to the first whose operator binds less tightly than `least`. -/
def tight (least : Nat) (links : List Link) : List Link :=
  links.takeWhile fun l => least ≤ l.precedence

/-- The links from the first on whose operator binds less tightly than `least`. -/
def loose (least : Nat) (links : List Link) : List Link :=
  links.dropWhile fun l => least ≤ l.precedence

theorem tight_append_loose (least : Nat) (links : List Link) :
    tight least links ++ loose least links = links :=
  takeWhile_append_dropWhile

theorem le_of_mem_tight {least : Nat} (h : l ∈ tight least links) :
    least ≤ l.precedence := by
  simpa using mem_takeWhile_imp h

theorem lt_of_mem_head?_tight {least level : Nat}
    (h : l ∈ (tight least (loose level links)).head?) : l.precedence < level := by
  have first := head?_dropWhile_not (fun l => decide (level ≤ l.precedence)) links
  rw [tight, loose, head?_takeWhile, Option.mem_def, Option.filter_eq_some_iff] at h
  simpa [h.1] using first

theorem tight_cons_of_lt {least : Nat} (links : List Link) (h : l.precedence < least) :
    tight least (l :: links) = [] ∧ loose least (l :: links) = l :: links := by
  have stops : decide (least ≤ l.precedence) = false := by simpa using h
  rw [tight, loose, takeWhile_cons, dropWhile_cons, stops]
  exact ⟨rfl, rfl⟩

theorem tight_cons_of_le {least : Nat} (links : List Link) (h : least ≤ l.precedence) :
    tight least (l :: links) =
        l :: (tight (l.precedence + 1) links ++ tight least (loose (l.precedence + 1) links)) ∧
      loose least (l :: links) = loose least (loose (l.precedence + 1) links) := by
  have goesOn : decide (least ≤ l.precedence) = true := by simpa using h
  have all : ∀ k ∈ tight (l.precedence + 1) links, decide (least ≤ k.precedence) = true := by
    intro k mem
    have := le_of_mem_tight mem
    simpa using (by omega : least ≤ k.precedence)
  have split := tight_append_loose (l.precedence + 1) links
  generalize tight (l.precedence + 1) links = front, loose (l.precedence + 1) links = behind at *
  subst split
  rw [tight, loose, takeWhile_cons, dropWhile_cons, goesOn,
    takeWhile_append_of_pos all, dropWhile_append_of_pos all]
  exact ⟨rfl, rfl⟩

/-! ### Climbing -/

theorem ParseState.eq_of_rest (st : ParseState) {ts : List Token} (h : st.rest = ts) :
    st = ⟨ts, st.nextId, st.errors⟩ := by
  rw [← h]

namespace Parser

variable {ctx : ParseContext} {inner : Parser Expr} {st : ParseState} {rest : List Token}

theorem unaryOp?_operand (o : Atom) : unaryOp? o.kind = none := by
  cases o <;> rfl

theorem noSuffix_linkTokens (ends : ExprEnds (rest.map Token.mark)) (links : List Link) :
    NoSuffix ((linkTokens links ++ rest).map Token.mark) := by
  cases links with
  | nil => exact ends.noSuffix
  | cons l links =>
    rintro kind ms eq
    obtain ⟨⟨rfl, -⟩, -⟩ : (_ ∧ _) ∧ _ := by simpa [Token.mark] using eq
    rw [Written.operatorToken]
    cases l.operator.value <;> rfl

theorem operandOf_reads (w : Written Atom) {more : List Token}
    (here : st.rest = w.operandToken :: more) (ends : NoSuffix (more.map Token.mark)) :
    Reaches (operandOf inner) ctx st fun e st' =>
      e = w.expr st.nextId ∧ st' = ⟨more, st.nextId + 1, st.errors⟩ := by
  have next : st.next ctx = w.operandToken := by rw [ParseState.next, here]; rfl
  have kind : w.operandToken.kind = w.value.kind := rfl
  have past : st.past = ⟨more, st.nextId, st.errors⟩ := by
    have : w.value.kind ≠ .eof := by cases w.value <;> simp [Atom.kind]
    simp [ParseState.past, here, afterNext, kind, this]
  have sized : st.rest.length = more.length + 1 := by rw [here, length_cons]
  simp only [operandOf, reaches_bind, reaches_remaining, sized, signed, reaches_current, next, kind,
    unaryOp?_operand, suffixed, atom, reaches_bump]
  have stops (e : Expr) (st' : ParseState) (same : st' = ⟨more, st.nextId + 1, st.errors⟩)
      (he : e = w.expr st.nextId) (n : Nat) :
      Reaches (suffixes inner n e) ctx st' fun e st' =>
        e = w.expr st.nextId ∧ st' = ⟨more, st.nextId + 1, st.errors⟩ :=
    suffixes_stops n (by rw [same]; exact ends) ⟨he, same⟩
  obtain ⟨value, span, position, newline⟩ := w
  rcases value with v | v | v | v | v
  case bool =>
    cases v <;>
    · simp only [Atom.kind, Written.operandToken, Bool.false_eq_true, if_false, if_true,
        reaches_bind, reaches_freshNode, reaches_pure]
      exact stops _ _ (by rw [past]; rfl) rfl _
  all_goals
    simp only [Atom.kind, Written.operandToken, reaches_bind, reaches_freshNode, reaches_pure]
    exact stops _ _ (by rw [past]; rfl) rfl _

theorem climb_groups (ends : ExprEnds (rest.map Token.mark)) (n least : Nat) (first : Expr)
    (links : List Link) (here : st.rest = linkTokens links ++ rest) (enough : links.length ≤ n) :
    Reaches (climb (operandOf inner) n least first) ctx st fun e st' =>
      e = grouped st.nextId first (tight least links) ∧
      st' = ⟨linkTokens (loose least links) ++ rest,
        st.nextId + 2 * (tight least links).length, st.errors⟩ := by
  induction n generalizing least first links st with
  | zero =>
    obtain rfl : links = [] := List.length_eq_zero_iff.mp (Nat.le_zero.mp enough)
    rw [climb, reaches_pure]
    exact ⟨by simp [tight], by rw [st.eq_of_rest here]; rfl⟩
  | succ n ih =>
    rcases links with _ | ⟨l, links⟩
    · refine climb_stops _ (fun kind nl ms op eq found => ?_) ⟨by simp [tight], ?_⟩
      · rw [ParseState.marks, here] at eq
        exact absurd (ends.noOperator kind nl ms op eq found) (by cases op <;> decide)
      · rw [st.eq_of_rest here]
        rfl
    have next : (st.next ctx).kind = .symbol l.operator.value.sign := by
      rw [ParseState.next, here]
      rfl
    have past : st.past.rest = l.operand.operandToken :: (linkTokens links ++ rest) := by
      simp [ParseState.past, here, afterNext, Written.operatorToken]
    simp only [climb, reaches_bind, reaches_current, next, binOp?_sign, reaches_ite, reaches_pure]
    split
    · next weak =>
      obtain ⟨none, all⟩ := tight_cons_of_lt links weak
      rw [none, all, grouped_nil]
      exact ⟨rfl, st.eq_of_rest here⟩
    · next strong =>
      obtain ⟨some, others⟩ := tight_cons_of_le links (Nat.not_lt.mp strong)
      have shorter : links.length ≤ n := Nat.le_of_succ_le_succ enough
      have fewer : (loose (l.precedence + 1) links).length ≤ n :=
        (dropWhile_suffix _).length_le.trans shorter
      rw [reaches_advance]
      refine (operandOf_reads l.operand past (noSuffix_linkTokens ends links)).mono ?_
      rintro _ _ ⟨rfl, rfl⟩
      refine (ih (l.precedence + 1) _ links rfl shorter).mono ?_
      rintro _ _ ⟨rfl, rfl⟩
      -- the links that are left go on from the operand that was just joined
      rw [reaches_freshNode]
      refine (ih least _ (loose (l.precedence + 1) links) rfl fewer).mono ?_
      rintro _ _ ⟨rfl, rfl⟩
      have numbers (next a b : Nat) : next + 1 + 2 * a + 1 + 2 * b = next + 2 * (a + b + 1) := by
        omega
      rw [some, others, length_cons, length_append, ← numbers, grouped_cons _ _ _
        (fun k mem => le_of_mem_tight mem) fun k mem =>
          Nat.le_of_lt_succ (lt_of_mem_head?_tight mem)]
      exact ⟨rfl, rfl⟩

end Parser

/-- A row of operands with operators between them, up to where an expression ends, is read as a
whole: what is given is the row grouped by weakest operators, with its nodes numbered on from where
the run stands. -/
theorem ParserRun.expr_groups (run : ParserRun) (first : Written Atom) (links : List Link)
    (rest : List Token) (here : run.rest = first.operandToken :: (linkTokens links ++ rest))
    (ends : Parser.ExprEnds (rest.map Token.mark)) :
    run.expr = (.ok (grouped (run.nextId + 1) (first.expr run.nextId) links),
      { run with rest := rest, nextId := run.nextId + 2 * links.length + 1 }) := by
  have reached : Reaches Parser.expr ⟨run.tokens, run.dialect, false⟩ ⟨run.rest, run.nextId, []⟩
      fun e st => e = grouped (run.nextId + 1) (first.expr run.nextId) links ∧
        st = ⟨rest, run.nextId + 2 * links.length + 1, []⟩ := by
    simp only [Parser.expr, reaches_bind, Parser.reaches_remaining, Parser.exprWithin,
      Parser.exprWith_eq]
    refine (Parser.operandOf_reads first here (Parser.noSuffix_linkTokens ends links)).mono ?_
    rintro _ _ ⟨rfl, rfl⟩
    refine (Parser.climb_groups ends _ 1 _ links rfl ?_).mono ?_
    · rw [length_append]
      exact (length_le_linkTokens links).trans (Nat.le_add_right _ _)
    rintro _ _ ⟨rfl, rfl⟩
    have all : ∀ l ∈ links, decide (1 ≤ l.precedence) = true := fun l _ => by
      cases op : l.operator.value <;> simp [Link.precedence, op, BinOp.precedence]
    have number (n : Nat) : run.nextId + 1 + 2 * n = run.nextId + 2 * n + 1 := Nat.add_right_comm ..
    rw [tight, loose, List.takeWhile_eq_self_iff.mpr all, List.dropWhile_eq_nil_iff.mpr all, number]
    exact ⟨rfl, rfl⟩
  obtain ⟨e, st, gives, rfl, rfl⟩ := reached
  have outcome : run.expr =
      let ran := runAt Parser.expr ⟨run.tokens, run.dialect, false⟩ ⟨run.rest, run.nextId, []⟩
      (ran.1, { run with rest := ran.2.rest, nextId := ran.2.nextId }) := rfl
  rw [outcome, show runAt Parser.expr _ _ = _ from gives]

/-- Subtractions are grouped from the left, and a product before them. -/
theorem ParserRun.expr_groups_differences :
    let name (text : String) (n : Nat) : Written Atom := ⟨.ident text, ⟨n, 1⟩, ⟨1, n + 1⟩, false⟩
    let sign (op : BinOp) (n : Nat) : Written BinOp := ⟨op, ⟨n, 1⟩, ⟨1, n + 1⟩, false⟩
    let links : List Link := [⟨sign .sub 2, name "b" 4⟩, ⟨sign .mul 6, name "c" 8⟩,
      ⟨sign .sub 10, name "d" 12⟩]
    let last : Token := ⟨.eof, ⟨13, 0⟩, ⟨1, 14⟩, false⟩
    let run : ParserRun := .start
      ((name "a" 0).operandToken :: (linkTokens links ++ [last])) .inferred
    run.expr = (.ok (.binary ⟨6, ⟨0, 13⟩⟩
        (.binary ⟨4, ⟨0, 9⟩⟩ (.ident ⟨0, ⟨0, 1⟩⟩ "a") .sub
          (.binary ⟨3, ⟨4, 5⟩⟩ (.ident ⟨1, ⟨4, 1⟩⟩ "b") .mul (.ident ⟨2, ⟨8, 1⟩⟩ "c"))) .sub
        (.ident ⟨5, ⟨12, 1⟩⟩ "d")),
      { run with rest := [last], nextId := 7 }) := by
  intro name sign links last run
  have ends : Parser.ExprEnds ([last].map Token.mark) := .of_nextIs rfl rfl ⟨false, [], rfl⟩
  rw [ParserRun.expr_groups run (name "a" 0) links [last] rfl ends]
  simp [links, run, last, name, sign, ParserRun.start, grouped, weakest?, Link.precedence,
    BinOp.precedence, Written.expr, Atom.expr, Expr.span, Expr.node, Span.join, Span.between,
    Span.stop]

end ArkLang
