import Mathlib.Data.List.Infix
import Mathlib.Data.List.TakeWhile
import ArkLang.Token.Lexer

/-!
# What a text is read as covers it

A text is a row of lexemes with gaps before, between and behind them. Each lexeme is read as one
token or one error, which is what the lexeme is read as when it stands alone, and a gap is nothing
but blanks and comments.
-/

namespace ArkLang

open List

def LexItem.span : LexItem → Span
  | .ok token => token.span
  | .error error => error.span

/-- What an item is, wherever it stands: the kind of a token or the cause of an error. -/
def LexItem.content : LexItem → Except LexFault TokenKind
  | .ok token => .ok token.kind
  | .error error => .error error.fault

/-- What a text is read as, without the places. -/
def contents (cs : List Char) : List (Except LexFault TokenKind) :=
  (lex (String.ofList cs)).map LexItem.content

/-- Blanks and comments in front of the text `behind`. A comment to the end of a line ends where the
line does, and a comment between signs where it is closed first. -/
inductive Gap (behind : List Char) : List Char → Prop where
  | nil : Gap behind []
  | blank {c : Char} {cs : List Char} : isBlank c → Gap behind cs → Gap behind (c :: cs)
  | line {body cs : List Char} : '\n' ∉ body → (∀ c ∈ (cs ++ behind).head?, c = '\n') →
    Gap behind cs → Gap behind ('/' :: '/' :: (body ++ cs))
  | block {body cs : List Char} : ¬ ['*', '/'] <:+: body ++ ['*'] → Gap behind cs →
    Gap behind ('/' :: '*' :: (body ++ '*' :: '/' :: cs))

/-! ### Gaps -/

theorem Gap.blanks {behind bs cs : List Char} (hbs : ∀ c ∈ bs, isBlank c) (h : Gap behind cs) :
    Gap behind (bs ++ cs) := by
  induction bs with
  | nil => exact h
  | cons b bs ih =>
    exact .blank (hbs b mem_cons_self) (ih fun c hc => hbs c (mem_cons_of_mem b hc))

theorem take_length_takeWhile (p : Char → Bool) (cs : List Char) :
    cs.take (cs.takeWhile p).length = cs.takeWhile p :=
  (List.prefix_iff_eq_take.mp (List.takeWhile_prefix p)).symm

theorem drop_length_takeWhile (p : Char → Bool) (cs : List Char) :
    cs.drop (cs.takeWhile p).length = cs.dropWhile p := by
  have split : cs.takeWhile p ++ cs.dropWhile p = cs := takeWhile_append_dropWhile
  nth_rewrite 2 [← split]
  exact drop_left

variable {cs : List Char} {c : Char}

theorem commentTail?_eq_some {size : Nat} (h : commentTail? cs = some size) :
    ∃ body, cs.take size = body ++ ['*', '/'] ∧ ¬ ['*', '/'] <:+: body ++ ['*'] := by
  fun_induction commentTail? cs generalizing size with
  | case1 rest =>
    cases h
    exact ⟨[], rfl, by decide⟩
  | case2 c rest first ih =>
    obtain ⟨size, tail, rfl⟩ := Option.map_eq_some_iff.mp h
    obtain ⟨body, taken, none⟩ := ih tail
    refine ⟨c :: body, by rw [take_succ_cons, taken, cons_append], ?_⟩
    rw [cons_append, infix_cons_iff, not_or]
    refine ⟨fun start => ?_, none⟩
    -- the comment would have been closed one character earlier
    obtain ⟨star, slash⟩ := List.cons_prefix_cons.mp start
    have more : body ++ ['*'] <+: rest.take size := ⟨['/'], by rw [taken, append_assoc]; rfl⟩
    obtain ⟨behind, rfl⟩ := (slash.trans more).trans (List.take_prefix size rest)
    exact first behind star.symm rfl
  | case3 => cases h

theorem gap_scanComment? {cs gap behind : List Char} {more : Nat}
    (found : scanComment? cs = some ⟨.gap, more⟩) (rest : cs.drop more = gap ++ behind)
    (h : Gap behind gap) : Gap behind ('/' :: (cs.take more ++ gap)) := by
  unfold scanComment? at found
  split at found
  · rename_i cs
    cases found
    rw [drop_succ_cons, drop_length_takeWhile] at rest
    rw [take_succ_cons, take_length_takeWhile, cons_append]
    refine .line (fun mem => ?_) (fun c hc => ?_) h
    · simpa using mem_takeWhile_imp mem
    · have stops := head?_dropWhile_not (fun c => decide (c ≠ '\n')) cs
      rw [← rest, Option.mem_def] at hc
      rw [hc] at stops
      simpa using stops
  · rename_i cs
    split at found
    · rename_i size tail
      cases found
      obtain ⟨body, taken, none⟩ := commentTail?_eq_some tail
      rw [take_succ_cons, taken, cons_append, append_assoc]
      exact .block none h
    · cases found
  · cases found

theorem scan_cases {motive : Lexeme → Prop}
    (blanks : isBlank c → motive ⟨.gap, (cs.takeWhile isBlank).length⟩)
    (word : isNameStart c → motive (scanWord c cs))
    (number : c.isDigit → motive (scanNumber c cs))
    (string : c = '"' ∨ c = '\'' → motive (scanString c cs))
    (comment : ∀ lexeme, c = '/' → scanComment? cs = some lexeme → motive lexeme)
    (symbol : (c = '/' → scanComment? cs = none) → motive (scanSymbol c cs)) :
    motive (scan c cs) := by
  unfold scan
  split
  case isTrue blank => exact blanks blank
  split
  case isTrue start => exact word start
  split
  case isTrue digit => exact number digit
  split
  case isTrue quote => exact string (by simpa using quote)
  split
  case isFalse other => exact symbol fun slash => absurd slash other
  case isTrue slash =>
    cases found : scanComment? cs with
    | some lexeme => exact comment lexeme slash found
    | none => exact symbol fun _ => found

/-- A piece that gives an item in front of the end of input. -/
def Piece.IsItem (piece : Piece) : Prop :=
  piece ≠ .gap ∧ piece ≠ .token .eof

theorem Piece.IsItem.ne_gap {piece : Piece} (h : piece.IsItem) : piece ≠ .gap :=
  h.1

theorem Piece.isItem_fault (cause : LexFault) : (Piece.fault cause).IsItem :=
  ⟨nofun, nofun⟩

theorem isItem_scanWord (c : Char) (cs : List Char) : (scanWord c cs).piece.IsItem := by
  simp only [scanWord]
  split <;> exact ⟨nofun, nofun⟩

theorem isItem_intPiece (digits : List Char) : (intPiece digits).IsItem := by
  simp only [intPiece]
  split <;> exact ⟨nofun, nofun⟩

theorem isItem_floatPiece (whole fraction : List Char) : (floatPiece whole fraction).IsItem := by
  simp only [floatPiece]
  cases Binary64.ofDecimal? (decimalValue (whole ++ fraction)) (-(fraction.length : Int)) <;>
    exact ⟨nofun, nofun⟩

theorem isItem_scanNumber (c : Char) (cs : List Char) : (scanNumber c cs).piece.IsItem := by
  simp only [scanNumber]
  split
  · exact isItem_intPiece _
  · split
    · exact isItem_floatPiece _ _
    · exact Piece.isItem_fault _
  · exact Piece.isItem_fault _

theorem isItem_scanString (quote : Char) (cs : List Char) : (scanString quote cs).piece.IsItem := by
  simp only [scanString]
  split
  · split
    · split
      · exact ⟨nofun, nofun⟩
      · exact Piece.isItem_fault _
    · split <;> exact Piece.isItem_fault _
  · exact Piece.isItem_fault _

theorem isItem_scanSymbol (c : Char) (cs : List Char) : (scanSymbol c cs).piece.IsItem := by
  simp only [scanSymbol]
  split
  · exact ⟨nofun, nofun⟩
  · exact Piece.isItem_fault _

theorem gap_scan {cs gap behind : List Char} : (scan c cs).piece = .gap →
    cs.drop (scan c cs).more = gap ++ behind → Gap behind gap →
      Gap behind (c :: (cs.take (scan c cs).more ++ gap)) := by
  refine scan_cases (motive := fun found => found.piece = .gap →
    cs.drop found.more = gap ++ behind →
    Gap behind gap → Gap behind (c :: (cs.take found.more ++ gap))) ?_ ?_ ?_ ?_ ?_ ?_
  · intro blank _ _ h
    rw [take_length_takeWhile]
    exact .blank blank (.blanks (fun d mem => mem_takeWhile_imp mem) h)
  · exact fun _ gap => absurd gap (isItem_scanWord c cs).ne_gap
  · exact fun _ gap => absurd gap (isItem_scanNumber c cs).ne_gap
  · exact fun _ gap => absurd gap (isItem_scanString c cs).ne_gap
  · rintro ⟨piece, more⟩ rfl found ⟨⟩ rest h
    exact gap_scanComment? found rest h
  · exact fun _ gap => absurd gap (isItem_scanSymbol c cs).ne_gap

/-! ### Lexemes that stand alone -/

theorem numberTail_take_append (cs : List Char) {rest : List Char} (h : numberTail rest = 0) :
    numberTail (cs.take (numberTail cs) ++ rest) = numberTail cs := by
  fun_induction numberTail cs with
  | case1 d cs digit ih =>
    rw [take_succ_cons, take_succ_cons, cons_append, cons_append, numberTail,
      if_pos digit, ih]
  | case3 d cs point digit ih =>
    rw [take_succ_cons, cons_append, numberTail, if_pos digit, ih]
    rintro d' cs' rfl
    exact absurd digit (by decide)
  | case2 | case4 | case5 => simpa using h

theorem isDigit_head_drop_numberTail (cs : List Char) :
    ∀ c ∈ (cs.drop (numberTail cs)).head?, c.isDigit = false := by
  fun_induction numberTail cs with
  | case1 d cs digit ih => simpa using ih
  | case2 d cs digit => simp
  | case3 d cs point digit ih => simpa using ih
  | case4 d cs point digit => simpa using digit
  | case5 => simp

theorem stringBody_take_append (quote : Char) (cs rest : List Char) :
    stringBody quote (cs.take (stringBody quote cs) ++ rest) =
      stringBody quote cs + stringBody quote rest := by
  fun_induction stringBody quote cs with
  | case2 c cs newline ih =>
    rw [take_succ_cons, take_succ_cons, cons_append, cons_append, stringBody,
      if_neg newline, ih]
    omega
  | case5 c cs pair backslash plain ih =>
    have other : c ≠ '\\' := by
      rintro rfl
      cases cs with
      | nil => exact backslash rfl rfl
      | cons d cs => exact pair d cs rfl rfl
    rw [take_succ_cons, cons_append, stringBody, if_neg plain, ih]
    · omega
    · exact fun _ _ same _ => other same
    · exact fun same _ => other same
  | case1 | case3 | case4 | case6 => simp

theorem scanWord_take (c : Char) (cs : List Char) :
    scanWord c (cs.take (scanWord c cs).more) = scanWord c cs := by
  simp only [scanWord, take_length_takeWhile, takeWhile_idem]

theorem numberTail_le_length (cs : List Char) : numberTail cs ≤ cs.length := by
  fun_induction numberTail cs <;> grind

theorem scanNumber_take (c : Char) (cs : List Char) :
    scanNumber c (cs.take (scanNumber c cs).more) = scanNumber c cs := by
  generalize htail : cs.take (numberTail cs) = tail
  generalize hword : (cs.drop (numberTail cs)).takeWhile isNameChar = word
  have size : tail.length = numberTail cs := by
    rw [← htail, length_take, Nat.min_eq_left (numberTail_le_length cs)]
  have more : (scanNumber c cs).more = tail.length + word.length := by
    simp only [scanNumber, htail, hword]
    split
    · rfl
    · split <;> rfl
    · rfl
  have lexeme : cs.take (scanNumber c cs).more = tail ++ word := by
    rw [more, size, take_add, htail, ← hword, take_length_takeWhile]
  -- the name characters behind a number do not go on with it
  have stops : numberTail word = 0 := by
    have first := isDigit_head_drop_numberTail cs
    cases hrest : cs.drop (numberTail cs) with
    | nil => simp [← hword, hrest, numberTail]
    | cons d rest =>
      rw [hrest] at first hword
      have plain : d.isDigit = false := first d rfl
      rw [takeWhile_cons] at hword
      split at hword
      · next named =>
        rw [← hword, numberTail, if_neg (by simp [plain])]
        rintro d' ds rfl
        exact absurd named (by decide)
      · simp [← hword, numberTail]
  have again : numberTail (tail ++ word) = tail.length := by
    rw [← htail, numberTail_take_append cs stops, htail, size]
  rw [lexeme]
  simp only [scanNumber, again, take_left, drop_left, htail, hword]
  rw [← hword, takeWhile_idem]

theorem stringBody_le_length (quote : Char) (cs : List Char) : stringBody quote cs ≤ cs.length := by
  fun_induction stringBody quote cs <;> grind

theorem scanString_append {quote : Char} {body rest : List Char}
    (h : stringBody quote (body ++ rest) = body.length) : scanString quote (body ++ rest) =
      if rest.head? = some quote then
        ⟨(unescape? body).elim (.fault .unknownEscape) fun value =>
          .token (.str (String.ofList value)), body.length + 1⟩
      else ⟨.fault .unterminatedString,
        body.length + if rest.head? = some '\\' then 1 else 0⟩ := by
  simp only [scanString, h, drop_left, take_left]
  cases rest with
  | nil => simp
  | cons c rest =>
    simp only [head?_cons, Option.some.injEq]
    split
    · cases unescape? body <;> rfl
    · split <;> rfl

/-- A string literal is closed, or stays open, whatever follows it. -/
theorem scanString_take {quote : Char} (hquote : quote ≠ '\\') (cs : List Char) :
    scanString quote (cs.take (scanString quote cs).more) = scanString quote cs := by
  generalize hbody : cs.take (stringBody quote cs) = body
  generalize hrest : cs.drop (stringBody quote cs) = rest
  obtain rfl : cs = body ++ rest := by rw [← hbody, ← hrest, take_append_drop]
  have size : stringBody quote (body ++ rest) = body.length := by
    have length := congrArg List.length hbody
    rwa [length_take, Nat.min_eq_left (stringBody_le_length _ _)] at length
  have again (more : List Char) (ends : stringBody quote more = 0) :
      stringBody quote (body ++ more) = body.length := by
    have units := stringBody_take_append quote (body ++ rest) more
    rwa [hbody, ends, size] at units
  rw [scanString_append size]
  by_cases closed : rest.head? = some quote
  · have ends : stringBody quote [quote] = 0 := by
      rw [stringBody, if_pos (by simp)]
      · exact fun _ _ same _ => hquote same
      · exact fun same _ => hquote same
    obtain ⟨rest, rfl⟩ := List.head?_eq_some_iff.mp closed
    rw [if_pos closed, take_length_add_append, take_succ_cons, take_zero,
      scanString_append (again [quote] ends), head?_cons, if_pos rfl]
  by_cases escape : rest.head? = some '\\'
  · obtain ⟨rest, rfl⟩ := List.head?_eq_some_iff.mp escape
    rw [if_neg closed, if_pos escape, take_length_add_append, take_succ_cons,
      take_zero, scanString_append (again ['\\'] (by rw [stringBody])),
      if_neg (by simpa using hquote.symm), head?_cons, if_pos rfl]
  · rw [if_neg closed, if_neg escape, Nat.add_zero, take_left]
    simpa using scanString_append (again [] (by rw [stringBody]))

/-- A sign is found again when nothing follows it. -/
theorem scanSymbol_take (c : Char) (cs : List Char) :
    scanSymbol c (cs.take (scanSymbol c cs).more) = scanSymbol c cs := by
  -- a shorter text starts with no more signs
  have shorter {sign : Symbol} (n : Nat) (h : sign.chars.isPrefixOf (c :: cs) = false) :
      sign.chars.isPrefixOf (c :: cs.take n) = false := by
    rw [← Bool.not_eq_true, isPrefixOf_iff_prefix] at h ⊢
    exact fun found => h (found.trans (List.take_prefix (n + 1) (c :: cs)))
  cases found : Symbol.all.find? fun sign => sign.chars.isPrefixOf (c :: cs) with
  | none =>
    have none : Symbol.all.find? (fun sign => sign.chars.isPrefixOf (c :: cs.take 0)) = none := by
      rw [find?_eq_none] at found ⊢
      intro sign mem
      exact Bool.eq_false_iff.mp (shorter 0 (Bool.eq_false_iff.mpr (found sign mem)))
    simp only [scanSymbol, found, none]
  | some sign =>
    obtain ⟨starts, before, behind, listed, others⟩ := List.find?_eq_some_iff_append.mp found
    have lexeme : c :: cs.take (sign.chars.length - 1) = sign.chars := by
      have size : sign.chars.length = sign.chars.length - 1 + 1 := by cases sign <;> rfl
      rw [← take_succ_cons, ← size]
      exact (List.prefix_iff_eq_take.mp (List.isPrefixOf_iff_prefix.mp starts)).symm
    have again : Symbol.all.find? (fun sign' => sign'.chars.isPrefixOf
        (c :: cs.take (sign.chars.length - 1))) = some sign := by
      refine List.find?_eq_some_iff_append.mpr ⟨?_, before, behind, listed, fun other mem => ?_⟩
      · rw [lexeme]
        exact List.isPrefixOf_iff_prefix.mpr prefix_rfl
      · rw [shorter _ (by simpa only [Bool.not_eq_true'] using others other mem)]
        rfl
    simp only [scanSymbol, found, again]

theorem scanComment?_unterminated {piece : Piece} {more : Nat}
    (found : scanComment? cs = some ⟨piece, more⟩) (h : piece ≠ .gap) :
    piece = .fault .unterminatedComment ∧ cs.take more = cs := by
  unfold scanComment? at found
  split at found
  · cases found
    exact absurd rfl h
  · split at found
    · cases found
      exact absurd rfl h
    · cases found
      exact ⟨rfl, take_of_length_le (by simp)⟩
  · cases found

theorem scanComment?_take (h : scanComment? cs = none) (n : Nat) :
    scanComment? (cs.take n) = none := by
  cases cs with
  | nil => rw [take_nil, h]
  | cons c cs =>
    cases n with
    | zero => rfl
    | succ n =>
      have slash : c ≠ '/' := by
        rintro rfl
        cases h
      have star : c ≠ '*' := by
        rintro rfl
        simp only [scanComment?] at h
        split at h <;> cases h
      rw [take_succ_cons, scanComment?]
      · exact fun _ same => slash (List.cons.inj same).1
      · exact fun _ same => star (List.cons.inj same).1

theorem scan_take (h : (scan c cs).piece ≠ .gap) :
    scan c (cs.take (scan c cs).more) = scan c cs := by
  by_cases blank : isBlank c
  · exact absurd (by simp only [scan, blank, if_true]) h
  by_cases start : isNameStart c
  · simp only [scan, blank, start, if_true, Bool.false_eq_true, if_false, scanWord_take]
  by_cases digit : c.isDigit
  · simp only [scan, blank, start, digit, if_true, Bool.false_eq_true, if_false, scanNumber_take]
  by_cases quote : (c = '"' || c = '\'') = true
  · have other : c ≠ '\\' := by
      rintro rfl
      exact absurd quote (by decide)
    simp only [scan, blank, start, digit, quote, if_true, Bool.false_eq_true, if_false,
      scanString_take other]
  have others (ds : List Char) : scan c ds =
      if c = '/' then (scanComment? ds).getD (scanSymbol c ds) else scanSymbol c ds := by
    simp only [scan, blank, start, digit, quote, Bool.false_eq_true, if_false]
  rw [others] at h
  rw [others, others]
  split
  case isFalse other =>  exact scanSymbol_take c cs
  case isTrue slash =>
    rw [if_pos slash] at h
    cases comment : scanComment? cs with
    | some lexeme =>
      rw [comment, Option.getD_some] at h
      rw [Option.getD_some, (scanComment?_unterminated comment h).2, comment, Option.getD_some]
    | none =>
      rw [Option.getD_none, scanComment?_take comment, Option.getD_none, scanSymbol_take]

theorem piece_scan_ne_eof (c : Char) (cs : List Char) : (scan c cs).piece ≠ .token .eof := by
  refine scan_cases (motive := fun found => found.piece ≠ .token .eof) ?_ ?_ ?_ ?_ ?_ ?_
  · exact fun _ => nofun
  · exact fun _ => (isItem_scanWord c cs).2
  · exact fun _ => (isItem_scanNumber c cs).2
  · exact fun _ => (isItem_scanString c cs).2
  · rintro ⟨piece, more⟩ rfl found rfl
    cases (scanComment?_unterminated found nofun).1
  · exact fun _ => (isItem_scanSymbol c cs).2

/-! ### Cutting a text -/

/-- A text from byte `offset` on that is cut into items: gaps and lexemes in turn, and a gap before
the end of input. Each lexeme is what it is when it stands alone. -/
inductive Cut : (offset : Nat) → List Char → List LexItem → Prop where
  | last {offset : Nat} {gap : List Char} {token : Token} : Gap [] gap → token.kind = .eof →
    token.span = .emptyAt (offset + byteSize gap) → Cut offset gap [.ok token]
  | item {offset : Nat} {gap lexeme rest : List Char} {item : LexItem} {items : List LexItem} :
    Gap (lexeme ++ rest) gap → lexeme ≠ [] → item.content ≠ .ok .eof →
    item.span = ⟨offset + byteSize gap, byteSize lexeme⟩ →
    contents lexeme = [item.content, .ok .eof] →
    Cut (offset + byteSize gap + byteSize lexeme) rest items →
    Cut offset (gap ++ (lexeme ++ rest)) (item :: items)

theorem Cut.skip {offset : Nat} {stretch cs : List Char} {items : List LexItem}
    (h : Cut (offset + byteSize stretch) cs items)
    (hgap : ∀ gap behind, cs = gap ++ behind → Gap behind gap → Gap behind (stretch ++ gap)) :
    Cut offset (stretch ++ cs) items := by
  cases h with
  | last gap kind span =>
    refine .last (hgap _ _ (append_nil _).symm gap) kind ?_
    rw [span, byteSize_append, Nat.add_assoc]
  | item gap ne kind span alone more =>
    rw [← append_assoc]
    refine .item (hgap _ _ rfl gap) ne kind ?_ alone ?_
    · rw [span, byteSize_append, Nat.add_assoc]
    · rwa [byteSize_append, ← Nat.add_assoc]

def Piece.content? : Piece → Option (Except LexFault TokenKind)
  | .gap => none
  | .token kind => some (.ok kind)
  | .fault cause => some (.error cause)

theorem contents_lexeme {content : Except LexFault TokenKind}
    (h : (scan c cs).piece.content? = some content) :
    contents (c :: cs.take (scan c cs).more) = [content, .ok .eof] := by
  have kept : (scan c cs).piece ≠ .gap := by
    intro gap
    rw [gap] at h
    cases h
  rw [contents, lex, String.toList_ofList, lexFrom, scan_take kept, drop_take, Nat.sub_self,
    take_zero]
  cases piece : (scan c cs).piece with
  | gap => exact absurd piece kept
  | token | fault =>
    rw [piece] at h
    cases h
    simp only [lexFrom, map_cons, map_nil, LexItem.content]

theorem Cut.lexeme {offset : Nat} {item : LexItem}
    {items : List LexItem}
    (found : (scan c cs).piece.content? = some item.content)
    (span : item.span = .between offset (offset + byteSize (c :: cs.take (scan c cs).more)))
    (rest : Cut (offset + byteSize (c :: cs.take (scan c cs).more)) (cs.drop (scan c cs).more)
      items) : Cut offset (c :: cs) (item :: items) := by
  have split : c :: cs = [] ++ ((c :: cs.take (scan c cs).more) ++ cs.drop (scan c cs).more) := by
    rw [nil_append, cons_append, take_append_drop]
  rw [split]
  refine .item .nil (cons_ne_nil _ _) (fun eof => ?_) ?_ (contents_lexeme found) rest
  · refine piece_scan_ne_eof c cs ?_
    cases piece : (scan c cs).piece <;> rw [piece, eof] at found <;> cases found
    rfl
  · rw [span, Span.between, Nat.add_sub_cancel_left]
    rfl

theorem cut_lexFrom (lines : LineIndex) (offset : Nat) (newline : Bool) (cs : List Char) :
    Cut offset cs (lexFrom lines offset newline cs) := by
  fun_induction lexFrom lines offset newline cs with
  | case1 offset newline => exact .last .nil rfl rfl
  | case2 offset newline c cs found lexeme stop gap ih =>
    have split : c :: cs = lexeme ++ cs.drop found.more := by
      rw [cons_append, take_append_drop]
    rw [split]
    exact ih.skip fun after behind rest h => gap_scan gap rest h
  | case3 offset newline c cs found lexeme stop span kind token ih =>
    exact .lexeme (by rw [token]; rfl) rfl ih
  | case4 offset newline c cs found lexeme stop span cause fault ih =>
    exact .lexeme (by rw [fault]; rfl) rfl ih

theorem cut_lex (text : String) : Cut 0 text.toList (lex text) :=
  cut_lexFrom _ 0 false _

/-! ### Items and gaps in place -/

/-- The characters `cs` stand in a text under a span. Both its ends are between characters. -/
def Under (text : List Char) (span : Span) (cs : List Char) : Prop :=
  ∃ before behind, text = before ++ cs ++ behind ∧ span = ⟨byteSize before, byteSize cs⟩

/-- From the end of one span to the start of another, a text consists of blanks and comments. -/
def GapBetween (text : List Char) (a b : Span) : Prop :=
  ∃ before gap behind, text = before ++ gap ++ behind ∧ Gap behind gap ∧
    a.stop = byteSize before ∧ b.offset = byteSize before + byteSize gap

/-- An item in front of the end of input, as it stands in a text: it takes some characters, and
these alone are read as the same. -/
structure LexItem.Stands (text : List Char) (item : LexItem) : Prop where
  ne_eof : item.content ≠ .ok .eof
  nonempty : 0 < item.span.length
  alone : ∃ lexeme, Under text item.span lexeme ∧ contents lexeme = [item.content, .ok .eof]

theorem byteSize_pos (h : cs ≠ []) : 0 < byteSize cs := by
  cases cs with
  | nil => exact absurd rfl h
  | cons c cs =>
    rw [byteSize_cons]
    exact Nat.add_pos_left c.utf8Size_pos _

namespace Cut

variable {offset : Nat} {cs : List Char} {items : List LexItem}

theorem offset_le (h : Cut offset cs items) : ∀ item ∈ items, offset ≤ item.span.offset := by
  induction h with
  | last _ _ span =>
    intro item mem
    rw [List.mem_singleton.mp mem]
    simp [LexItem.span, span, Span.emptyAt]
  | item _ _ _ span _ _ ih =>
    intro item mem
    rcases List.mem_cons.mp mem with rfl | mem
    · rw [span]
      exact Nat.le_add_right _ _
    · exact Nat.le_trans (by omega) (ih item mem)

theorem pairwise (h : Cut offset cs items) : (items.map LexItem.span).Pairwise fun a b =>
    a.offset < b.offset ∧ a.stop ≤ b.offset := by
  induction h with
  | last => exact pairwise_singleton _ _
  | item _ ne _ span _ more ih =>
    rw [map_cons, pairwise_cons]
    refine ⟨fun b mem => ?_, ih⟩
    obtain ⟨later, inItems, rfl⟩ := List.mem_map.mp mem
    have behind := more.offset_le later inItems
    have size := byteSize_pos ne
    simp only [span, Span.stop]
    omega

theorem exists_last (h : Cut offset cs items) {text : List Char} (before : List Char)
    (htext : text = before ++ cs) (hoffset : offset = byteSize before) :
    ∃ init last, items = init ++ [.ok last] ∧ last.kind = .eof ∧
      last.span = .emptyAt (byteSize text) ∧ ∀ item ∈ init, item.Stands text := by
  induction h generalizing before with
  | @last offset gap token _ kind span =>
    refine ⟨[], token, rfl, kind, ?_, by simp⟩
    rw [span, htext, byteSize_append, hoffset]
  | @item offset gap lexeme rest item items _ ne kind span alone _ ih =>
    obtain ⟨init, last, rfl, eof, place, stand⟩ := ih (before ++ gap ++ lexeme)
      (by simp [htext]) (by simp [hoffset, Nat.add_assoc])
    refine ⟨item :: init, last, rfl, eof, place, fun other mem => ?_⟩
    rcases List.mem_cons.mp mem with rfl | mem
    · refine ⟨kind, by rw [span]; exact byteSize_pos ne, lexeme, ?_, alone⟩
      refine ⟨before ++ gap, rest, by simp [htext], ?_⟩
      rw [span, byteSize_append, hoffset]
    · exact stand other mem

theorem isChain (h : Cut offset cs items) {text : List Char} {a : Span} (before : List Char)
    (htext : text = before ++ cs) (hoffset : offset = byteSize before) (ha : a.stop = offset) :
    (a :: items.map LexItem.span).IsChain (GapBetween text) := by
  induction h generalizing before a with
  | @last offset gap token blank _ span =>
    refine .cons_cons ⟨before, gap, [], by simp [htext], blank, ha.trans hoffset, ?_⟩ (.singleton _)
    rw [LexItem.span, span, hoffset]
    rfl
  | @item offset gap lexeme rest item items blank _ _ span _ _ ih =>
    refine .cons_cons ⟨before, gap, lexeme ++ rest, by simp [htext], blank, ha.trans hoffset, ?_⟩ ?_
    · rw [span, hoffset]
    · refine ih (before ++ gap ++ lexeme) (by simp [htext]) (by simp [hoffset, Nat.add_assoc]) ?_
      rw [span, Span.stop]

end Cut

/-- Tokens and errors cover a text. Their spans lie one behind the other between characters, and all
but the last one, the end of input at the end of the text, hold some characters; read alone, these
give the same token or error. What is outside of the spans is blanks and comments. -/
theorem lex_covers (text : String) : ∃ items last,
    lex text = items ++ [.ok last] ∧ last.kind = .eof ∧
    last.span = .emptyAt (byteSize text.toList) ∧ (∀ item ∈ items, item.Stands text.toList) ∧
    ((lex text).map LexItem.span).Pairwise (fun a b => a.offset < b.offset ∧ a.stop ≤ b.offset) ∧
    (Span.emptyAt 0 :: (lex text).map LexItem.span).IsChain (GapBetween text.toList) := by
  have cut : Cut 0 text.toList (lex text) := cut_lexFrom _ 0 false _
  obtain ⟨items, last, split, eof, place, stand⟩ := cut.exists_last [] rfl rfl
  exact ⟨items, last, split, eof, place, stand, cut.pairwise, cut.isChain [] rfl rfl rfl⟩

end ArkLang
