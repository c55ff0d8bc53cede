import Mathlib.Data.List.Forall2
import ArkLang.Proofs.Readings

/-!
# Two runs of a parser

A parser is run with an end of input behind its tokens and without it. Both runs go through the same
states up to that token, under bounds that count one token more or less, and they differ at most in
where they say that the input ends. Where nothing is left out, this says that bounds do not matter.

## Main definitions

* `InputEnd` — tokens and an end of input that may stand behind them
* `InputEnd.law` — two parsers do the same, one with the end of input and one without it
-/

namespace ArkLang

variable {α : Type}

/-- A context, and the end of input that may stand behind its tokens. -/
structure InputEnd where
  ctx : ParseContext
  token? : Option Token
  kind : ∀ t ∈ token?, t.kind = .eof
  behind : ∀ t ∈ token?, ∀ u ∈ ctx.tokens, u.span.offset < t.span.offset

namespace InputEnd

/-- The context with the end of input. -/
def full (c : InputEnd) : ParseContext :=
  { c.ctx with tokens := c.ctx.tokens ++ c.token?.toList }

/-- How many tokens there are more with the end of input. -/
def extra (c : InputEnd) : Nat :=
  c.token?.toList.length

variable (c : InputEnd)

/-- A span that starts behind all tokens, where there is an end of input to leave out. -/
def Past (span : Span) : Prop :=
  c.token?.isSome ∧ ∀ u ∈ c.ctx.tokens, u.span.offset < span.offset

/-- Errors with the same cause. At the end of input they may have different places. -/
def SameError (e e' : ParseError) : Prop :=
  e = e' ∨ e.fault = e'.fault ∧ c.Past e.span

structure SameState (st st' : ParseState) : Prop where
  rest : st.rest = st'.rest ++ c.token?.toList
  nextId : st.nextId = st'.nextId
  errors : List.Forall₂ c.SameError st.errors st'.errors

/-- Outcomes with the same value, or with the same error, of two runs that had some tokens left. The
number bounds the tokens of the stack and those that are left now. -/
inductive Same (budget : Nat) (rest : List Token) (after : α → List Fragment) :
    Except ParseError α × ParseState → Except ParseError α × ParseState → Prop
  | ok {a : α} {st st' : ParseState} (same : c.SameState st st') (suffix : st'.rest <:+ rest)
      (few : st'.rest.length + Fragment.weightAll (after a) ≤ budget) :
      Same budget rest after (.ok a, st) (.ok a, st')
  | error {e e' : ParseError} {st st' : ParseState} (he : c.SameError e e')
      (same : c.SameState st st') (suffix : st'.rest <:+ rest) :
      Same budget rest after (.error e, st) (.error e', st')

/-- Two parsers do the same, the first one with the end of input and the second one without it,
where the tokens that are left and those of a stack are at most as many as a number says. -/
def Alike (N : Nat) (nx : Option (Token × Token)) (s : List Fragment) (p q : Parser α)
    (after : α → List Fragment) : Prop :=
  ∀ st st', c.SameState st st' → st'.rest.length + Fragment.weightAll s ≤ N →
    (∀ u ∈ nx, st.next c.full = u.1 ∧ st'.next c.ctx = u.2) →
    c.Same N st'.rest after (runAt p c.full st) (runAt q c.ctx st')

variable {c} {st st' : ParseState} {N : Nat} {s : List Fragment} {after : α → List Fragment}

/-! ### Lists of tokens with the end of input -/

theorem dropWhile_append {skipped : Token → Bool} (inside : ∀ t, t.kind = .eof → skipped t = false)
    (ts : List Token) : (ts ++ c.token?.toList).dropWhile skipped =
      ts.dropWhile skipped ++ c.token?.toList := by
  induction ts with
  | nil =>
    rcases e : c.token? with _ | t
    · rfl
    · simp [inside t (c.kind t e)]
  | cons t ts ih =>
    rw [List.cons_append, List.dropWhile_cons, List.dropWhile_cons, ih]
    split <;> rfl

theorem headOfProc_append (depth : Nat) (itemStart params : Bool) (ts : List Token) :
    Parser.headOfProc depth itemStart params (ts ++ c.token?.toList) =
      Parser.headOfProc depth itemStart params ts := by
  have body (params : Bool) (ts : List Token) : Parser.opensBody params (ts ++ c.token?.toList) =
      Parser.opensBody params ts := by
    cases ts with
    | nil =>
      rcases e : c.token? with _ | t
      · rfl
      · simp [Parser.opensBody, c.kind t e]
    | cons t ts => rfl
  have looks (t : Token) (ts : List Token) : Parser.looksLikeParam t (ts ++ c.token?.toList) =
      Parser.looksLikeParam t ts := by
    cases ts with
    | nil =>
      rcases e : c.token? with _ | u
      · rfl
      · simp only [Parser.looksLikeParam, List.nil_append, Option.toList_some, List.head?_cons,
          Option.map_some, c.kind u e, List.head?_nil, Option.map_none]
        split <;> simp_all
    | cons u ts => rfl
  induction ts generalizing depth itemStart params with
  | nil =>
    rcases e : c.token? with _ | t
    · rfl
    · simp [Parser.headOfProc, c.kind t e]
  | cons t ts ih => simp only [List.cons_append, Parser.headOfProc, looks, body, ih]

theorem skipToBoundary_append (start depth : Nat) (ts : List Token) :
    Parser.skipToBoundary (start + c.extra) depth (ts ++ c.token?.toList) =
      Parser.skipToBoundary start depth ts ++ c.token?.toList := by
  induction ts generalizing depth with
  | nil =>
    rcases e : c.token? with _ | t
    · rfl
    · simp [Parser.skipToBoundary, c.kind t e]
  | cons t ts ih =>
    have less : (ts ++ c.token?.toList).length + 1 < start + c.extra ↔ ts.length + 1 < start := by
      rw [List.length_append, extra]
      omega
    have same : (ts ++ c.token?.toList).length + 1 = start + c.extra ↔ ts.length + 1 = start := by
      rw [List.length_append, extra]
      omega
    rw [List.cons_append, Parser.skipToBoundary, Parser.skipToBoundary]
    simp only [less, same, ih]
    split
    · rfl
    split
    · rfl
    split
    · rfl
    · split
      · split <;> rfl
      · rfl
    · split <;> rfl
    · rfl

/-! ### States -/

namespace SameState

/-- The same token is next, or the end of input on both sides. -/
theorem next (h : c.SameState st st') : st.next c.full = st'.next c.ctx ∨
    ((st.next c.full).kind = .eof ∧ (st'.next c.ctx).kind = .eof) ∧
    c.Past (st.next c.full).span := by
  rw [ParseState.next, ParseState.next, h.rest]
  rcases rest : st'.rest with _ | ⟨t, ts⟩
  · have ends (tokens : List Token) : (endToken tokens).kind = .eof := by
      rw [endToken]
      split <;> rfl
    rcases e : c.token? with _ | t
    · simp [full, e]
    · exact .inr ⟨⟨c.kind t e, ends _⟩, by simp [e], c.behind t e⟩
  · exact .inl rfl

theorem kind (h : c.SameState st st') : (st.next c.full).kind = (st'.next c.ctx).kind := by
  rcases h.next with same | ⟨⟨eof, eof'⟩, -⟩
  · rw [same]
  · rw [eof, eof']

theorem past (h : c.SameState st st') : c.SameState st.past st'.past := by
  refine ⟨?_, h.nextId, h.errors⟩
  rw [ParseState.past, ParseState.past, h.rest]
  rcases rest : st'.rest with _ | ⟨t, ts⟩
  · rcases e : c.token? with _ | t
    · rfl
    · simp [Parser.afterNext, c.kind t e]
  · simp only [List.cons_append, Parser.afterNext]
    split <;> rfl

theorem length (h : c.SameState st st') : st.rest.length = st'.rest.length + c.extra := by
  rw [h.rest, List.length_append, extra]

theorem opensProc (h : c.SameState st st') :
    Parser.opensProc st.rest = Parser.opensProc st'.rest := by
  rw [Parser.opensProc, Parser.opensProc, h.rest]
  rcases rest : st'.rest with _ | ⟨t, _ | ⟨u, ts⟩⟩
  · rcases c.token? with _ | t <;> rfl
  · rcases c.token? with _ | u <;> rfl
  · exact headOfProc_append _ _ _ _

theorem recovered {e e' : ParseError} (h : c.SameState st st') (he : c.SameError e e')
    (start : Nat) : c.SameState (Parser.recoveredState (start + c.extra) e st)
      (Parser.recoveredState start e' st') :=
  ⟨by rw [Parser.recoveredState, h.rest]; exact skipToBoundary_append start 0 _, h.nextId,
    List.rel_append h.errors (.cons he .nil)⟩

end SameState

/-! ### Parsers -/

theorem Same.mono {M : Nat} {rest rest' : List Token} {r r' : Except ParseError α × ParseState}
    (h : c.Same N rest after r r') (le : N ≤ M) (suffix : rest <:+ rest') :
    c.Same M rest' after r r' := by
  cases h with
  | ok same further few => exact .ok same (further.trans suffix) (few.trans le)
  | error he same further => exact .error he same (further.trans suffix)

theorem alike_bind {β : Type} {nx : Option (Token × Token)} {p q : Parser α} {f g : α → Parser β}
    {mid : α → List Fragment} {after : β → List Fragment} (hp : c.Alike N nx s p q mid)
    (hf : ∀ a, Given p a → c.Alike N none (mid a) (f a) (g a) after) :
    c.Alike N nx s (p >>= f) (q >>= g) after := by
  intro st st' same few known
  have outcome := hp st st' same few known
  rw [runAt_bind, runAt_bind]
  rcases first : runAt p c.full st with ⟨e | a, st₁⟩ <;>
    rcases second : runAt q c.ctx st' with ⟨e' | a', st₁'⟩ <;> rw [first, second] at outcome <;>
    cases outcome
  case error.error.error he suffix same => exact .error he same suffix
  case ok.ok.ok suffix few same =>
    exact (hf a ⟨_, _, _, first⟩ _ _ same few (by simp)).mono le_rfl suffix

theorem alike_peek {nx : Option (Token × Token)} {n : Nat} {f g : Option TokenKind → Parser α}
    (none : g (some .eof) = g .none) (h : ∀ k, c.Alike N nx s (f k) (g k) after) :
    c.Alike N nx s (Parser.peek? n >>= f) (Parser.peek? n >>= g) after := by
  intro st st' same few known
  change c.Same N st'.rest after (runAt (f ((st.rest[n]?).map Token.kind)) c.full st)
    (runAt (g ((st'.rest[n]?).map Token.kind)) c.ctx st')
  rw [same.rest, List.getElem?_append]
  split
  · exact h _ st st' same few known
  · next less =>
    rw [List.getElem?_eq_none (Nat.le_of_not_lt less), Option.map_none]
    rcases behind : c.token?.toList[n - st'.rest.length]? with _ | t
    · exact h _ st st' same few known
    · have eof : t.kind = .eof := c.kind t (by simpa using List.mem_of_getElem? behind)
      rw [Option.map_some, eof, ← none]
      exact h _ st st' same few known

theorem alike_goOn {t : Token} {stmt stmt' : Parser Stmt} {more more' : Bool → Parser (List Stmt)}
    {topLevel afterChain : Bool} (real : t.kind ≠ .eof)
    (hstmt : c.Alike N none s stmt stmt' fun x => .admitted topLevel afterChain x :: s)
    (hmore : ∀ N' s' afterChain, N' ≤ N + Fragment.weightAll s' - Fragment.weightAll s - 1 →
      c.Alike N' none s' (more afterChain) (more' afterChain) fun xs =>
        .stmts topLevel afterChain xs :: s') :
    c.Alike N (some (t, t)) s (Parser.remaining >>= fun start => Parser.goOn start stmt more)
      (Parser.remaining >>= fun start => Parser.goOn start stmt' more')
      fun xs => .stmts topLevel afterChain xs :: s := by
  intro st st' same few known
  obtain rfl := (known _ rfl).2
  have outcome := hstmt st st' same few (by simp)
  rw [Parser.runAt_remaining, Parser.runAt_remaining, Parser.runAt_goOn, Parser.runAt_goOn,
    same.length]
  rcases first : runAt stmt c.full st with ⟨e | x, st₁⟩ <;>
    rcases second : runAt stmt' c.ctx st' with ⟨e' | x', st₁'⟩ <;> rw [first, second] at outcome <;>
    cases outcome
  case error.error.error he suffix same' =>
    have recovering : c.full.recovering = c.ctx.recovering := rfl
    dsimp only
    rw [recovering]
    split
    · have less := Parser.length_recoveredState_lt (e := e') real suffix
      have rest := hmore (N - 1) s false (by omega) _ _
        (same'.recovered he st'.rest.length) (by omega)
        (by simp)
      revert rest
      generalize runAt (more false) c.full _ = r, runAt (more' false) c.ctx _ = r'
      rintro (⟨same, further, few⟩ | ⟨he, same, further⟩)
      · exact .ok same (further.trans ((Parser.skipToBoundary_suffix _ _ _).trans suffix))
          (by simp at few ⊢; omega)
      · exact .error he same (further.trans ((Parser.skipToBoundary_suffix _ _ _).trans suffix))
    · exact .error he same' suffix
  case ok.ok.ok suffix few same' =>
    have both : c.Alike N none (.admitted topLevel afterChain x :: s)
        ((x :: ·) <$> more (Parser.isChain x)) ((x :: ·) <$> more' (Parser.isChain x)) fun xs =>
          .stmts topLevel afterChain xs :: s := by
      rw [← bind_pure_comp, ← bind_pure_comp]
      refine alike_bind (hmore N _ _ (by simp; omega)) fun xs _ st st' same few _ => ?_
      exact .ok same List.suffix_rfl
        ((Nat.add_le_add_left (Fragment.weightAll_reduces .stmtsCons) _).trans few)
    exact (both _ _ same' few (by simp)).mono le_rfl suffix

/-- Parsers do the same with the end of input and without it, because their steps do. -/
def law (c : InputEnd) : TreeLaw where
  Holds := c.Alike
  pure _ _ _ same few _ := .ok same List.suffix_rfl few
  bind := alike_bind
  reduce reduces h st st' same few known :=
    h st st' same ((Nat.add_le_add_left (Fragment.weightAll_reduces reduces) _).trans few) known
  unknown h st st' same few _ := h st st' same few (by simp)
  spent {α N nx s p q q' after} spent ends h st st' same few known := by
    have none : st'.rest = [] := List.eq_nil_of_length_eq_zero (by omega)
    have eof : (st'.next c.ctx).kind = .eof := by
      by_contra real
      simp [Parser.rest_of_next real] at none
    rw [ends c.ctx st' eof]
    exact h st st' same few known
  current {α N nx s f g after} h h' st st' same few known := by
    have known (u : Token × Token) (mem : u ∈ nx) : u.1 = st.next c.full := (known u mem).1.symm
    rw [Parser.runAt_current, Parser.runAt_current]
    rcases same.next with next | ⟨⟨eof, eof'⟩, -⟩
    · by_cases eof : (st'.next c.ctx).kind = .eof
      · exact h' _ _ (next ▸ eof) eof known st st' same few (by simp)
      · rw [← next] at eof ⊢
        exact h _ eof known st st' same few (by simp [next])
    · exact h' _ _ eof eof' known st st' same few (by simp)
  past {α N t s f g after} real h st st' same few known := by
    obtain rfl := (known _ rfl).2
    have less := Parser.length_past_lt real
    rw [Parser.runAt_advance, Parser.runAt_advance]
    refine (h _ _ same.past ?_ (by simp)).mono le_rfl (Parser.afterNext_suffix _)
    simp only [Fragment.weightAll, Fragment.weight]
    omega
  stay {α N t t' s f g after} eof eof' h st st' same few known := by
    obtain ⟨rfl, rfl⟩ := known _ rfl
    rw [Parser.runAt_stay eof, Parser.runAt_stay eof']
    exact h st st' same few known
  first {α N nx s f g after} hf hg hnone hsome st st' same few _ := by
    change c.Same N st'.rest after (runAt (f ((st.rest[0]?).map Token.kind)) c.full st)
      (runAt (g ((st'.rest[0]?).map Token.kind)) c.ctx st')
    by_cases eof : (st'.next c.ctx).kind = .eof
    · have ended {h : Option TokenKind → Parser α} {ctx : ParseContext} {st : ParseState}
          (same : h (some .eof) = h none) (eof : (st.next ctx).kind = .eof) :
          h ((st.rest[0]?).map Token.kind) = h none := by
        obtain ⟨_ | ⟨t, ts⟩, nextId, errors⟩ := st
        · rfl
        · simp [show t.kind = .eof from eof, same]
      rw [ended hf (same.kind.trans eof), ended hg eof]
      exact hnone st st' same few (by simp)
    · have next := same.next.resolve_right fun ends => eof ends.1.2
      have starts : st'.rest[0]? = some (st'.next c.ctx) ∧ st.rest[0]? = some (st'.next c.ctx) := by
        rw [same.rest, Parser.rest_of_next eof]
        simp
      rw [starts.1, starts.2]
      exact hsome _ eof st st' same few (by simp [next])
  peek := alike_peek
  look h st st' same few known := h st st' same.opensProc st st' same few known
  remaining {α N nx s f g after} h st st' same few known := by
    rw [Parser.runAt_remaining, Parser.runAt_remaining, same.length]
    refine (h st'.rest.length _ _ (Nat.le_add_right ..) le_rfl (by omega) st st' same le_rfl
      known).mono few List.suffix_rfl
  drop {N s skipped} inside st st' same few _ := by
    have suffix := List.dropWhile_suffix (l := st'.rest) skipped
    refine .ok ⟨?_, same.nextId, same.errors⟩ suffix
      ((Nat.add_le_add_right suffix.length_le _).trans few)
    dsimp only
    rw [same.rest, dropWhile_append inside]
  freshId {N nx s} st st' same few _ := by
    have run (ctx : ParseContext) (st : ParseState) :
        runAt Parser.freshId ctx st = (.ok st.nextId, st.numbered) := rfl
    rw [run, run, same.nextId]
    exact .ok ⟨same.rest, congrArg (· + 1) same.nextId, same.errors⟩ List.suffix_rfl few
  failAt _ _ _ same _ _ := .error (.inl rfl) same List.suffix_rfl
  failEnd {α N t t' s fault after} _ _ st st' same _ known := by
    obtain ⟨rfl, rfl⟩ := known _ rfl
    refine .error ?_ same List.suffix_rfl
    rcases same.next with next | ⟨-, past⟩
    · exact .inl (by rw [next])
    · exact .inr ⟨rfl, past⟩
  failOver {α N nx s span fault after} _ st st' same _ _ := by
    refine .error ?_ same List.suffix_rfl
    rcases e : c.token? with _ | t
    · exact .inl (by simp [full, e])
    rcases found : c.ctx.tokens.find? fun t => span.offset ≤ t.span.offset with _ | u
    · refine .inr ⟨rfl, by simp [e], fun u mem => ?_⟩
      simpa using List.find?_eq_none.mp found u mem
    · exact .inl (by simp [full, List.find?_append, found])
  refuse {α N nx s d stop stop' rest rest' after} _ hstop hrest st st' same few known := by
    change c.Same N st'.rest after (runAt (if c.ctx.dialect = d then stop else rest) c.full st)
      (runAt (if c.ctx.dialect = d then stop' else rest') c.ctx st')
    split
    · exact hstop st st' same few known
    · exact hrest st st' same few known
  goOn real _ hstmt hmore := alike_goOn real hstmt hmore

end InputEnd

end ArkLang
