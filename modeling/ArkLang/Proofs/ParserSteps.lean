import ArkLang.Proofs.Run
import ArkLang.Tree.Parser

/-!
# What the steps of a parser do

Each step of a parser looks at the next token, goes over it, numbers a node, or fails. The rules
here say exactly which value a step gives and which state it leaves.
-/

namespace ArkLang

variable {α : Type} {ctx : ParseContext} {st st' : ParseState}

def ParseState.next (st : ParseState) (ctx : ParseContext) : Token :=
  st.rest.headD (endToken ctx.tokens)

/-- The state behind the next token, which is not stepped over when it is the end of input. -/
def ParseState.past (st : ParseState) : ParseState :=
  { st with rest := Parser.afterNext st.rest }

def ParseState.numbered (st : ParseState) : ParseState :=
  { st with nextId := st.nextId + 1 }

namespace Parser

variable {Q : Token → ParseState → Prop} {sign : Symbol} {t : Token} {kind : TokenKind}

theorem not_gives_failOver {span : Span} {fault : ParseFault} {a : α} :
    ¬ Gives (failOver span fault) ctx st a st' := by
  simp only [failOver, gives_bind]
  rintro ⟨_, _, _, h⟩
  exact not_gives_throw h

/-- An attempt gives an error as a value. -/
theorem runAt_attempt (p : Parser α) : runAt (attempt p) ctx st =
    (.ok (runAt p ctx st).1, (runAt p ctx st).2) := by
  rw [attempt, runAt_tryCatch, ← bind_pure_comp, runAt_bind]
  rcases runAt p ctx st with ⟨e | a, st'⟩ <;> rfl

theorem reaches_current :
    Reaches current ctx st Q ↔ Q (st.next ctx) st :=
  reaches_of_run rfl

theorem reaches_peek? {n : Nat} {Q : Option TokenKind → ParseState → Prop} :
    Reaches (peek? n) ctx st Q ↔ Q ((st.rest[n]?).map Token.kind) st :=
  reaches_of_run rfl

theorem reaches_remaining {Q : Nat → ParseState → Prop} :
    Reaches remaining ctx st Q ↔ Q st.rest.length st :=
  reaches_of_run rfl

theorem reaches_advance {Q : Unit → ParseState → Prop} :
    Reaches advance ctx st Q ↔ Q () st.past :=
  reaches_of_run rfl

/-- A step over a token gives that token. -/
theorem reaches_bump :
    Reaches bump ctx st Q ↔ Q (st.next ctx) st.past :=
  reaches_of_run rfl

theorem reaches_freshNode {span : Span} {Q : Node → ParseState → Prop} :
    Reaches (freshNode span) ctx st Q ↔ Q ⟨st.nextId, span⟩ st.numbered :=
  reaches_of_run rfl

end Parser

end ArkLang
