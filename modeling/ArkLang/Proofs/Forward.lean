import Mathlib.Data.List.Infix
import ArkLang.Proofs.ParserSteps

/-!
# Parsers go forward

Whether a parser gives a tree or fails, what it leaves unread is the end of what it was given, and
it never goes back to a number that was given to a node. At the end of input it stays where it is.
What statements do behind a statement that failed is stated apart, as no other parser goes on after
an error.
-/

namespace ArkLang

variable {α : Type} {ctx : ParseContext} {st st' : ParseState}

/-- A parser that leaves the end of what it was given, and gives higher numbers only, whatever its
outcome. -/
def Forward (p : Parser α) : Prop :=
  ∀ ctx st, (runAt p ctx st).2.rest <:+ st.rest ∧ st.nextId ≤ (runAt p ctx st).2.nextId

namespace Parser

theorem afterNext_suffix (ts : List Token) : afterNext ts <:+ ts := by
  cases ts with
  | nil => exact List.suffix_rfl
  | cons t ts =>
    simp only [afterNext]
    split
    · exact List.suffix_rfl
    · exact List.suffix_cons t ts

/-- The next token is the first that is left. -/
theorem rest_of_next (h : (st.next ctx).kind ≠ .eof) : st.rest = st.next ctx :: st.past.rest := by
  obtain ⟨rest, nextId, errors⟩ := st
  cases rest with
  | nil =>
    simp only [ParseState.next, List.headD_nil, endToken] at h
    split at h <;> exact absurd rfl h
  | cons t ts =>
    have h : t.kind ≠ .eof := h
    simp [ParseState.next, ParseState.past, afterNext, h]

theorem length_past_lt (h : (st.next ctx).kind ≠ .eof) :
    st.past.rest.length < st.rest.length := by
  rw [rest_of_next h]
  exact Nat.lt_succ_self _

theorem past_of_eof (eof : (st.next ctx).kind = .eof) : st.past = st := by
  obtain ⟨rest, nextId, errors⟩ := st
  cases rest with
  | nil => rfl
  | cons t ts => simp [ParseState.past, afterNext, show t.kind = .eof from eof]

theorem dropWhile_of_eof {skipped : Token → Bool} (inside : ∀ t, t.kind = .eof → skipped t = false)
    (eof : (st.next ctx).kind = .eof) : { st with rest := st.rest.dropWhile skipped } = st := by
  obtain ⟨rest, nextId, errors⟩ := st
  cases rest with
  | nil => rfl
  | cons t ts => simp [inside t eof]

/-! ### Running steps -/

theorem runAt_current (f : Token → Parser α) :
    runAt (current >>= f) ctx st = runAt (f (st.next ctx)) ctx st :=
  rfl

theorem runAt_isSign (sign : Symbol) (f : Bool → Parser α) :
    runAt (isSign sign >>= f) ctx st = runAt (f ((st.next ctx).kind == .symbol sign)) ctx st :=
  rfl

theorem runAt_isEnd (f : Bool → Parser α) :
    runAt (isEnd >>= f) ctx st = runAt (f ((st.next ctx).kind == .eof)) ctx st :=
  rfl

theorem runAt_remaining (f : Nat → Parser α) :
    runAt (remaining >>= f) ctx st = runAt (f st.rest.length) ctx st :=
  rfl

theorem runAt_bump (f : Token → Parser α) :
    runAt (bump >>= f) ctx st = runAt (f (st.next ctx)) ctx st.past :=
  rfl

theorem runAt_modify (change : ParseState → ParseState) (f : Unit → Parser α) :
    runAt (modify change >>= f) ctx st = runAt (f ()) ctx (change st) :=
  rfl

theorem runAt_advance (f : Unit → Parser α) :
    runAt (advance >>= f) ctx st = runAt (f ()) ctx st.past :=
  rfl

theorem runAt_stay (eof : (st.next ctx).kind = .eof) (f : Unit → Parser α) :
    runAt (advance >>= f) ctx st = runAt (f ()) ctx st := by
  rw [runAt_advance, past_of_eof eof]

/-! ### Going on after an error -/

/-- What statements do with a statement: they go on behind it, and behind one that failed if the
context says so. -/
def goOn (start : Nat) (stmt : Parser Stmt) (more : Bool → Parser (List Stmt)) :
    Parser (List Stmt) := do
  match ← attempt stmt with
  | .ok stmt => return stmt :: (← more (isChain stmt))
  | .error error =>
    if (← read).recovering then
      recoverFrom start error
      more false
    else
      throw error

def recoveredState (start : Nat) (error : ParseError) (st : ParseState) : ParseState :=
  { st with rest := skipToBoundary start 0 st.rest, errors := st.errors ++ [error] }

theorem runAt_goOn (start : Nat) (stmt : Parser Stmt) (more : Bool → Parser (List Stmt))
    (ctx : ParseContext) (st : ParseState) : runAt (goOn start stmt more) ctx st =
      match runAt stmt ctx st with
      | (.ok s, st') => runAt ((s :: ·) <$> more (isChain s)) ctx st'
      | (.error e, st') =>
        if ctx.recovering then runAt (more false) ctx (recoveredState start e st')
        else (.error e, st') := by
  rw [goOn, runAt_bind, runAt_attempt]
  rcases runAt stmt ctx st with ⟨e | s, st'⟩
  · change runAt (if ctx.recovering then do
      recoverFrom start e
      more false else throw e) ctx st' = _
    dsimp only
    split <;> rfl
  · dsimp only
    rw [bind_pure_comp]

/-- Tokens are only skipped in front. -/
theorem skipToBoundary_suffix (start depth : Nat) (ts : List Token) :
    skipToBoundary start depth ts <:+ ts := by
  fun_induction skipToBoundary start depth ts <;> grind [List.suffix_cons]

theorem length_skipToBoundary_lt {t : Token} {ts : List Token} (h : t.kind ≠ .eof) :
    (skipToBoundary (ts.length + 1) 0 (t :: ts)).length < ts.length + 1 := by
  have further (depth : Nat) : (skipToBoundary (ts.length + 1) depth ts).length < ts.length + 1 :=
    Nat.lt_succ_of_le (skipToBoundary_suffix _ _ _).length_le
  rw [skipToBoundary, if_neg h, if_neg (by omega)]
  split
  · exact further _
  · simp
  · simp
  · exact further _

/-- To recover takes a token at least. -/
theorem length_recoveredState_lt {e : ParseError}
    (some : (st.next ctx).kind ≠ .eof) (suffix : st'.rest <:+ st.rest) :
    (recoveredState st.rest.length e st').rest.length < st.rest.length := by
  rcases Nat.lt_or_ge st'.rest.length st.rest.length with less | same
  · exact (skipToBoundary_suffix _ _ _).length_le.trans_lt less
  · rw [recoveredState, suffix.eq_of_length_le same, rest_of_next some]
    exact length_skipToBoundary_lt some

end Parser

end ArkLang
