import ArkLang.Proofs.TwoRuns

/-!
# Parsing makes progress

Parsing with recovery takes one turn after the other. A turn reads a statement, or skips the tokens
of one that failed up to the next boundary, and leaves fewer tokens than it found. So the turns come
to an end, and they end where no statement can follow.
-/

namespace ArkLang

namespace InputEnd

/-- A context whose tokens are the same on both sides. -/
def alone (ctx : ParseContext) : InputEnd :=
  ⟨ctx, none, nofun, nofun⟩

theorem full_alone (ctx : ParseContext) : (alone ctx).full = ctx := by
  simp [alone, full]

theorem sameError_alone {ctx : ParseContext} : (alone ctx).SameError = Eq := by
  funext e e'
  simp [SameError, Past, alone]

theorem sameState_alone {ctx : ParseContext} {st st' : ParseState} :
    (alone ctx).SameState st st' ↔ st = st' := by
  constructor
  · rintro ⟨rest, nextId, errors⟩
    rw [sameError_alone, List.forall₂_eq_eq_eq] at errors
    obtain ⟨rest', nextId', errors'⟩ := st'
    cases st
    simp_all [alone]
  · rintro rfl
    exact ⟨by simp [alone], rfl, by rw [sameError_alone, List.forall₂_eq_eq_eq]⟩

end InputEnd

namespace Parser

/-- Two parsers that all laws hold of do the same, and read the tokens of what they leave. -/
theorem same_of_holds {α : Type} {p q : Parser α} {ctx : ParseContext} {st : ParseState}
    {s : List Fragment} {after : α → List Fragment}
    (h : ∀ law : TreeLaw, law.Holds (st.rest.length + Fragment.weightAll s) none s p q after) :
    runAt p ctx st = runAt q ctx st ∧ ∀ a st', Gives q ctx st a st' →
      st'.rest.length + Fragment.weightAll (after a) ≤ st.rest.length + Fragment.weightAll s := by
  have same := h (InputEnd.alone ctx).law st st (InputEnd.sameState_alone.mpr rfl) le_rfl (by simp)
  rw [InputEnd.full_alone] at same
  change (InputEnd.alone ctx).Same _ _ _ _ (runAt q ctx st) at same
  unfold Gives
  generalize runAt p ctx st = r, runAt q ctx st = r' at same ⊢
  cases same with
  | ok same _ few =>
    obtain rfl := InputEnd.sameState_alone.mp same
    refine ⟨rfl, ?_⟩
    rintro a st' ⟨⟩
    exact few
  | error he same =>
    obtain rfl := InputEnd.sameState_alone.mp same
    rw [InputEnd.sameError_alone] at he
    exact ⟨by rw [he], by rintro a st' ⟨⟩⟩

/-! ### Turns -/

def pastSemis (st : ParseState) : ParseState :=
  { st with rest := st.rest.dropWhile (·.kind == .symbol .semi) }

/-- Whether no statement follows: at the end of input or, inside a block, at a closing brace. -/
def endsStmts (topLevel : Bool) (ctx : ParseContext) (st : ParseState) : Bool :=
  (st.next ctx).kind == .eof || ((st.next ctx).kind == .symbol .rbrace && !topLevel)

/-- What one turn of reading statements leaves, if there is a statement: it is read, or it fails and
the tokens up to the next boundary are skipped. Beside the state stands whether a chain was read. -/
def turn (block : Parser Block) (topLevel : Bool) (ctx : ParseContext) :
    ParseState × Bool → Option (ParseState × Bool)
  | (st, afterChain) =>
    let st := pastSemis st
    if endsStmts topLevel ctx st then none
    else
      match runAt (terminatedStmt block topLevel afterChain) ctx st with
      | (.ok stmt, st') => some (st', isChain stmt)
      | (.error e, st') => some (recoveredState st.rest.length e st', false)

variable {block : Parser Block} {topLevel : Bool} {ctx : ParseContext}

theorem turn_moves (reads : ∀ law : TreeLaw, law.Reads block .block)
    {before after : ParseState × Bool} (h : turn block topLevel ctx before = some after) :
    after.1.rest <:+ before.1.rest ∧ after.1.rest.length < before.1.rest.length := by
  obtain ⟨st, afterChain⟩ := before
  have skipped : (pastSemis st).rest <:+ st.rest := List.dropWhile_suffix _
  have stmt (law : TreeLaw) := reads_terminatedStmt (reads law (pastSemis st).rest.length) topLevel
    afterChain _ [] le_rfl
  have read := (Forward.of_holds stmt ctx (pastSemis st)).1
  simp only [turn] at h
  split at h
  case isTrue => cases h
  case isFalse more =>
    have some : ((pastSemis st).next ctx).kind ≠ .eof := by
      intro eof
      simp [endsStmts, eof] at more
    split at h
    next stmt' st' run =>
      obtain rfl := Option.some.inj h
      have few := (same_of_holds stmt).2 _ _ run
      rw [run] at read
      refine ⟨read.trans skipped, Nat.lt_of_lt_of_le ?_ skipped.length_le⟩
      exact Nat.lt_of_succ_le (by simpa using few)
    next e st' run =>
      obtain rfl := Option.some.inj h
      rw [run] at read
      exact ⟨((skipToBoundary_suffix _ _ _).trans read).trans skipped,
        (length_recoveredState_lt some read).trans_le skipped.length_le⟩

theorem next_of_turn_eq_none {last : ParseState × Bool} (h : turn block true ctx last = none) :
    ((pastSemis last.1).next ctx).kind = .eof := by
  simp only [turn] at h
  split at h
  next ended => simpa [endsStmts] using ended
  next => split at h <;> cases h

/-! ### Statements as turns -/

theorem runAt_stmtsWith (limit : Nat) (afterChain : Bool) (st : ParseState) :
    runAt (stmtsWith block topLevel (limit + 1) afterChain) ctx st =
      if endsStmts topLevel ctx (pastSemis st) then (.ok [], pastSemis st)
      else runAt (goOn (pastSemis st).rest.length (terminatedStmt block topLevel afterChain)
        (stmtsWith block topLevel limit)) ctx (pastSemis st) := by
  rw [stmtsWith, runAt_modify, runAt_isEnd, endsStmts]
  change runAt (if ((pastSemis st).next ctx).kind == .eof then _ else _) ctx (pastSemis st) = _
  cases ((pastSemis st).next ctx).kind == .eof with
  | true => rfl
  | false =>
    rw [if_neg Bool.false_ne_true, Bool.false_or, runAt_isSign]
    split
    · rfl
    · rw [runAt_remaining]
      rfl

theorem snd_runAt_stmtsWith (recovering : ctx.recovering = true) (limit : Nat) (afterChain : Bool)
    (st : ParseState) : (runAt (stmtsWith block topLevel (limit + 1) afterChain) ctx st).2 =
      match turn block topLevel ctx (st, afterChain) with
      | none => pastSemis st
      | some (st', chained) => (runAt (stmtsWith block topLevel limit chained) ctx st').2 := by
  rw [runAt_stmtsWith, turn]
  split
  · rfl
  · rw [runAt_goOn]
    rcases runAt (terminatedStmt block topLevel afterChain) ctx (pastSemis st) with ⟨e | s, st'⟩
    · dsimp only
      rw [if_pos recovering]
    · exact snd_runAt_map _ _

theorem turns_stmtsWith (reads : ∀ law : TreeLaw, law.Reads block .block)
    (recovering : ctx.recovering = true) {limit : Nat} {afterChain : Bool} {st : ParseState}
    (enough : st.rest.length < limit) :
    ∃ last, Relation.ReflTransGen (fun before after => turn block topLevel ctx before = some after)
        (st, afterChain) last ∧
      turn block topLevel ctx last = none ∧
      (runAt (stmtsWith block topLevel limit afterChain) ctx st).2 = pastSemis last.1 := by
  induction limit generalizing st afterChain with
  | zero => exact absurd enough (Nat.not_lt_zero _)
  | succ limit ih =>
    rw [snd_runAt_stmtsWith recovering]
    rcases next : turn block topLevel ctx (st, afterChain) with _ | ⟨st', afterChain'⟩
    · exact ⟨_, .refl, next, rfl⟩
    · have less := (turn_moves reads next).2
      have enough : st'.rest.length < limit := Nat.lt_of_lt_of_le less (Nat.le_of_lt_succ enough)
      obtain ⟨last, turns, stop, same⟩ := @ih afterChain' st' enough
      exact ⟨last, .head next turns, stop, same⟩

end Parser

end ArkLang
