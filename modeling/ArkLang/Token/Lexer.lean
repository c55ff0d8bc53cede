import ArkLang.Token.Lexeme

/-!
# Reading a text as tokens

The whole text is cut into lexemes from left to right. Gaps are dropped, tokens and faults are kept
in order with their places, and a token for the end of input closes the list.
-/

namespace ArkLang

/-- One result of reading a text: a token or an error. -/
abbrev LexItem := Except LexError Token

/-- The tokens and errors of the text `cs`, which starts at byte `offset`. The flag says whether a
line break stands between the last token or error and this offset. -/
def lexFrom (lines : LineIndex) (offset : Nat) (newline : Bool) : List Char → List LexItem
  | [] => [.ok ⟨.eof, .emptyAt offset, lines.position offset, newline⟩]
  | c :: cs =>
    let found := scan c cs
    let lexeme := c :: cs.take found.more
    let stop := offset + byteSize lexeme
    let span := Span.between offset stop
    match found.piece with
    | .gap => lexFrom lines stop (newline || lexeme.contains '\n') (cs.drop found.more)
    | .token kind =>
      .ok ⟨kind, span, lines.position offset, newline⟩ ::
        lexFrom lines stop false (cs.drop found.more)
    | .fault cause =>
      .error ⟨cause, span, lines.position offset⟩ :: lexFrom lines stop false (cs.drop found.more)
termination_by cs => cs.length
decreasing_by all_goals rw [List.length_drop, List.length_cons]; omega

/-- The tokens and errors of a text, in order. -/
def lex (text : String) : List LexItem :=
  lexFrom (.ofText text) 0 false text.toList

def tokens (text : String) : Except LexError (List Token) :=
  (lex text).mapM id

/-- The tokens of a text with the faulty lexemes left out, and the errors of these. -/
def tokensAndErrors (text : String) : List Token × List LexError :=
  let items := lex text
  (items.filterMap fun
    | .ok token => some token
    | .error _ => none,
   items.filterMap fun
    | .ok _ => none
    | .error error => some error)

end ArkLang
