import ArkLang.Proofs.Legible

/-!
# The text of a tree reads as its tokens

The text of a legible tree, in front of any text that does not go on with its last token, reads as
the tokens of the tree and then as that text. Each piece of a text ends where the printer puts a
blank, a bracket or another sign, so what has to be checked is local: a sign is not lengthened by
the character behind it, and a point never stands right behind a number.
-/

namespace ArkLang

open List

variable {c : Char} {s : Symbol}

variable {nl : Bool} {rest : List Char} {ms : List Mark}

/-! ### What stands behind a token -/

theorem apart_cons (h : isNameChar c = false) : Apart (c :: rest) := by
  rintro _ ⟨⟩
  exact h

theorem apartFromNumber_cons (h : isNameChar c = false ∧ c ≠ '.') :
    ApartFromNumber (c :: rest) := by
  rintro _ ⟨⟩
  exact h

theorem IsName.exists_cons {name : String} (h : IsName name) :
    ∃ c tail, name.toList = c :: tail ∧ isNameChar c := by
  obtain ⟨spelled, -⟩ := h
  cases chars : name.toList with
  | nil => simp [chars, isNameText] at spelled
  | cons c cs =>
    simp only [chars, isNameText, isNameStart, Bool.and_eq_true, Bool.or_eq_true] at spelled
    refine ⟨c, cs, rfl, ?_⟩
    simp only [isNameChar, Char.isAlphanum, Bool.or_eq_true]
    exact spelled.1.imp_left .inl

namespace Symbol

theorem endsBefore_space (s : Symbol) : s.EndsBefore (' ' :: rest) := by
  rintro _ ⟨⟩
  cases s <;> decide

/-- The signs that no other sign starts with, whatever stands behind them. -/
def isClosed : Symbol → Bool
  | plusPlus | minusMinus | tilde | comma | semi | lparen | rparen | lbrace | rbrace | lbracket
  | rbracket => true
  | _ => false

theorem endsBefore_of_isClosed (h : s.isClosed) : s.EndsBefore rest := by
  intro c _
  cases s <;> first | exact absurd h (by decide) | rfl

theorem endsBefore_minus (h : c ≠ '-') (h' : c ≠ '>') :
    minus.EndsBefore (c :: rest) := by
  rintro _ ⟨⟩
  simpa [goesOnWith, all, chars, List.isPrefixOf] using ⟨h, h'⟩

theorem endsBefore_bang (h : c ≠ '=') : bang.EndsBefore (c :: rest) := by
  rintro _ ⟨⟩
  simpa [goesOnWith, all, chars, List.isPrefixOf] using h

theorem endsBefore_of_head {cs : List Char} (h : isNameChar c) :
    s.EndsBefore (c :: cs) := by
  rintro _ ⟨⟩
  have plain (t : Symbol) : c ∉ t.chars := by
    have : t.chars.all fun c => !isNameChar c := by cases t <;> decide
    intro mem
    simpa [h] using List.all_eq_true.mp this c mem
  simp only [goesOnWith, Bool.or_eq_false_iff, any_eq_false, isPrefixOf_iff_prefix,
    Bool.and_eq_false_iff, decide_eq_false_iff_not]
  refine ⟨?_, .inr ⟨?_, ?_⟩⟩
  · intro t _ starts
    exact plain t (starts.subset (by simp))
  · rintro rfl
    exact absurd h (by decide)
  · rintro rfl
    exact absurd h (by decide)

theorem endsBefore_name {name : String} (h : IsName name) :
    s.EndsBefore (name.toList ++ rest) := by
  obtain ⟨c, tail, text, hc⟩ := h.exists_cons
  rw [text]
  exact endsBefore_of_head hc

end Symbol

theorem Reads.symbol_space (hrest : Reads false rest ms) :
    Reads nl (s.chars ++ ' ' :: rest) ((.symbol s, nl) :: ms) :=
  .symbol s.endsBefore_space (.space hrest)

theorem Reads.closed (h : s.isClosed) (hrest : Reads false rest ms) :
    Reads nl (s.chars ++ rest) ((.symbol s, nl) :: ms) :=
  .symbol (Symbol.endsBefore_of_isClosed h) hrest

theorem Reads.keyword_space (word : Keyword) {text : String}
    (spelled : text.toList = word.text.toList ++ [' ']) (hrest : Reads false rest ms) :
    Reads nl (text.toList ++ rest) ((.keyword word, nl) :: ms) := by
  rw [spelled, append_assoc]
  exact .keyword word (apart_cons (by decide)) (.space hrest)

/-! ### Types -/

/-- Items with commas between them read one by one. -/
theorem reads_intercalate {texts : List String} {items : List (List Mark)}
    (h : List.Forall₂ (fun text item => ∀ {rest : List Char} {ms : List Mark},
      ApartFromNumber rest → Reads false rest ms →
        Reads false (text.toList ++ rest) (item ++ ms)) texts items)
    (apart : ApartFromNumber rest) (hrest : Reads false rest ms) :
    Reads false ((String.intercalate ", " texts).toList ++ rest)
    (separated .comma items ++ ms) := by
  rw [String.toList_intercalate, separated]
  induction h with
  | nil => simpa using hrest
  | cons first more ih =>
    cases more with
    | nil => simpa using first apart hrest
    | cons second more =>
      rw [map_cons, map_cons, intercalate_cons_cons, intercalate_cons_cons]
      simp only [append_assoc]
      refine first (apartFromNumber_cons (c := ',') (by decide)) ?_
      exact .closed (s := .comma) rfl (.space (by simpa using ih))

mutual

theorem TypeExpr.reads {d : Dialect} : (t : TypeExpr) → t.Legible d →
    ∀ {rest : List Char} {ms : List Mark}, ApartFromNumber rest → Reads false rest ms →
      Reads false (t.print.toList ++ rest) (t.marks ++ ms)
  | .named _ name, h, rest, ms, apart, hrest => .name h apart.apart hrest
  | .qualified _ module name, h, rest, ms, apart, hrest => by
    simp only [print, String.toList_append, append_assoc]
    refine .name h.1 (apart_cons (c := '.') (by decide)) ?_
    exact .symbol (s := .dot) (Symbol.endsBefore_name h.2) (.name h.2 apart.apart hrest)
  | .array _ elem size, h, rest, ms, apart, hrest => by
    simp only [print, marks, String.toList_append, append_assoc, cons_append]
    refine .closed (s := .lbracket) rfl (elem.reads h.1 (apartFromNumber_cons (by decide)) ?_)
    refine .closed (s := .semi) rfl (.space (.int h.2 (apartFromNumber_cons (by decide)) ?_))
    exact .closed (s := .rbracket) rfl hrest
  | .list _ elem, h, rest, ms, apart, hrest => by
    simp only [print, marks, String.toList_append, append_assoc, cons_append]
    refine .closed (s := .lbracket) rfl (elem.reads h (apartFromNumber_cons (by decide)) ?_)
    exact .closed (s := .rbracket) rfl hrest
  | .proc _ params ret, h, rest, ms, apart, hrest => by
    simp only [print, marks, String.toList_append, append_assoc, cons_append]
    refine .closed (s := .lparen) rfl ?_
    refine reads_intercalate (TypeExpr.reads_all params h.2.1) (apartFromNumber_cons (by decide)) ?_
    refine .closed (s := .rparen) rfl (.space ?_)
    exact .symbol_space (s := .arrow) (ret.reads h.2.2 apart hrest)

theorem TypeExpr.reads_all {d : Dialect} : (ts : List TypeExpr) → TypeExpr.AllLegible d ts →
    List.Forall₂ (fun text item => ∀ {rest : List Char} {ms : List Mark},
      ApartFromNumber rest → Reads false rest ms → Reads false (text.toList ++ rest) (item ++ ms))
      (TypeExpr.printAll ts) (TypeExpr.marksAll ts)
  | [], _ => .nil
  | t :: ts, h => .cons (t.reads h.1) (TypeExpr.reads_all ts h.2)

end

/-! ### Expressions -/

/-- The last token of an expression ends before `rest`. A point may only follow what cannot end with
a number. -/
def Expr.EndsBefore (e : Expr) (rest : List Char) : Prop :=
  Apart rest ∧ (e.isNumber ∨ e.level < suffixedLevel → ApartFromNumber rest)

theorem ApartFromNumber.ends {e : Expr} (h : ApartFromNumber rest) : e.EndsBefore rest :=
  ⟨h.apart, fun _ => h⟩

/-- A text that starts neither with an arrow head nor with an equals sign, and with a minus sign
only if `minus` says so. -/
def StartsPlain (minus : Bool) (cs : List Char) : Prop :=
  ∃ c tail, cs = c :: tail ∧ c ≠ '>' ∧ c ≠ '=' ∧ (c = '-' → minus)

variable {minus : Bool} {cs : List Char}

theorem StartsPlain.append (h : StartsPlain minus cs) :
    StartsPlain minus (cs ++ rest) := by
  obtain ⟨c, tail, rfl, plain⟩ := h
  exact ⟨c, tail ++ rest, rfl, plain⟩

theorem StartsPlain.mono {a b : Bool} (h : StartsPlain a cs) (hab : a → b) :
    StartsPlain b cs := by
  obtain ⟨c, tail, text, arrow, eq, minus⟩ := h
  exact ⟨c, tail, text, arrow, eq, fun hc => hab (minus hc)⟩

theorem startsPlain_cons
    (h : c ≠ '>' ∧ c ≠ '=' ∧ c ≠ '-') : StartsPlain minus (c :: cs) :=
  ⟨c, cs, rfl, h.1, h.2.1, fun hc => absurd hc h.2.2⟩

theorem startsPlain_of_isNameChar (h : isNameChar c) :
    StartsPlain minus (c :: cs) := by
  refine startsPlain_cons ⟨?_, ?_, ?_⟩ <;> rintro rfl <;> exact absurd h (by decide)

theorem startsPlain_name {name : String} (h : IsName name) :
    StartsPlain minus name.toList := by
  obtain ⟨c, tail, text, hc⟩ := h.exists_cons
  rw [text]
  exact startsPlain_of_isNameChar hc

theorem startsPlain_digits {ds : List Char} (hds : ∀ d ∈ ds, d.isDigit)
    (h : ds ≠ []) : StartsPlain minus ds := by
  cases ds with
  | nil => exact absurd rfl h
  | cons d ds => exact startsPlain_of_isNameChar (isNameChar_of_isDigit (hds d mem_cons_self))

theorem startsPlain_parenthesized {minus needed : Bool} {text : String}
    (h : StartsPlain minus text.toList) :
    StartsPlain (!needed && minus) (Expr.parenthesized needed text).toList := by
  cases needed with
  | false => exact h
  | true =>
    simp only [Expr.parenthesized, if_true, String.toList_append, append_assoc]
    exact startsPlain_cons (c := '(') (by decide)

theorem Expr.startsPlain : (e : Expr) → e.Legible → StartsPlain e.startsWithMinus e.print.toList
  | .int _ value, _ => by
    have text : (toString value).toList = Nat.toDigits 10 value := Nat.toList_repr
    rw [print, text]
    exact startsPlain_digits (fun _ => isDigit_of_mem_toDigits) (toDigits_ne_nil value)
  | .float _ value, _ => by
    obtain ⟨whole, fraction, text, nonempty, -, digits, -, -⟩ := value.print_reads_back
    rw [print, text]
    exact (startsPlain_digits digits nonempty).append
  | .str .., _ => by
    simp only [print, quoted, String.toList_ofList, cons_append]
    exact startsPlain_cons (by decide)
  | .bool _ value, _ => by
    rw [print]
    cases value
    · exact startsPlain_cons (c := 'f') (by decide)
    · exact startsPlain_cons (c := 't') (by decide)
  | .ident _ name, h => startsPlain_name h
  | .selfProp .., _ => by
    simp only [print, String.toList_append]
    exact startsPlain_cons (c := '.') (by decide)
  | .array .., _ => by
    simp only [print, String.toList_append, append_assoc]
    exact startsPlain_cons (c := '[') (by decide)
  | .unary _ op operand, _ => by
    simp only [print, String.toList_append, op.toList_text]
    cases op with
    | neg => exact ⟨'-', _, rfl, by decide, by decide, fun _ => rfl⟩
    | not => exact startsPlain_cons (c := '!') (by decide)
    | bitNot => exact startsPlain_cons (c := '~') (by decide)
  | .binary _ left op right, h => by
    simp only [print, String.toList_append, append_assoc]
    refine (startsPlain_parenthesized (left.startsPlain h.1)).append.mono ?_
    simp only [Bool.and_eq_true, startsWithMinus]
    exact And.right
  | .postOp _ _ base, h => by
    simp only [print, String.toList_append]
    refine (startsPlain_parenthesized (base.startsPlain h)).append.mono ?_
    simp [startsWithMinus]
  | .call _ base _, h | .index _ base _, h => by
    simp only [print, String.toList_append, append_assoc]
    refine (startsPlain_parenthesized (base.startsPlain h.1)).append.mono ?_
    simp [startsWithMinus]
  | .member _ base _, h => by
    simp only [print, String.toList_append, append_assoc]
    refine (startsPlain_parenthesized (base.startsPlain h.1)).append.mono ?_
    simp +contextual [startsWithMinus]

/-- No operand lengthens the sign in front of it. -/
theorem UnaryOp.sign_endsBefore {op : UnaryOp} {operand : Expr} (h : operand.Legible) :
    op.sign.EndsBefore ((Expr.parenthesized (op == .neg && operand.startsWithMinus ||
      operand.level < Expr.signedLevel) operand.print).toList ++ rest) := by
  obtain ⟨c, tail, text, arrow, eq, minus⟩ :=
    StartsPlain.append (startsPlain_parenthesized (operand.startsPlain h))
  rw [text]
  cases op with
  | neg =>
    refine Symbol.endsBefore_minus (fun hc => ?_) arrow
    have doubled := minus hc
    simp only [beq_self_eq_true, Bool.true_and, Bool.not_or, Bool.and_eq_true] at doubled
    simp [doubled.2] at doubled
  | not => exact Symbol.endsBefore_bang eq
  | bitNot => exact Symbol.endsBefore_of_isClosed rfl

theorem reads_parenthesized {e : Expr} {needed : Bool}
    (he : ∀ {nl : Bool} {rest : List Char} {ms : List Mark}, e.EndsBefore rest →
      Reads false rest ms → Reads nl (e.print.toList ++ rest) (e.marks nl ++ ms))
    (apart : needed = false → e.EndsBefore rest) (hrest : Reads false rest ms) :
    Reads nl ((Expr.parenthesized needed e.print).toList ++ rest)
      (parenthesizedMarks needed nl (fun nl => e.marks nl) ++ ms) := by
  cases needed with
  | false => exact he (apart rfl) hrest
  | true =>
    simp only [Expr.parenthesized, parenthesizedMarks, if_true, String.toList_append,
      append_assoc, cons_append]
    refine .closed (s := .lparen) rfl (he (apartFromNumber_cons (by decide)).ends ?_)
    exact .closed (s := .rparen) rfl hrest

mutual

/-- The text of an expression reads as its tokens. -/
theorem Expr.reads : (e : Expr) → e.Legible →
    ∀ {nl : Bool} {rest : List Char} {ms : List Mark}, e.EndsBefore rest → Reads false rest ms →
      Reads nl (e.print.toList ++ rest) (e.marks nl ++ ms)
  | .int _ value, h, nl, rest, ms, ends, hrest => .int h (ends.2 (.inl rfl)) hrest
  | .float _ value, h, nl, rest, ms, ends, hrest => .float (ends.2 (.inl rfl)) hrest
  | .str _ value, h, nl, rest, ms, ends, hrest => .str hrest
  | .bool _ value, h, nl, rest, ms, ends, hrest => by
    cases value
    · exact .keyword .falseKw ends.1 hrest
    · exact .keyword .trueKw ends.1 hrest
  | .ident _ name, h, nl, rest, ms, ends, hrest => .name h ends.1 hrest
  | .selfProp _ name, h, nl, rest, ms, ends, hrest => by
    simp only [print, String.toList_append, append_assoc]
    exact .symbol (s := .dot) (Symbol.endsBefore_name h) (.name h ends.1 hrest)
  | .array _ items, h, nl, rest, ms, ends, hrest => by
    simp only [print, marks, String.toList_append, append_assoc, cons_append]
    refine .closed (s := .lbracket) rfl ?_
    refine reads_intercalate (Expr.reads_all items h) (apartFromNumber_cons (by decide)) ?_
    exact .closed (s := .rbracket) rfl hrest
  | .unary _ op operand, h, nl, rest, ms, ends, hrest => by
    simp only [print, marks, String.toList_append, append_assoc, cons_append,
      op.toList_text]
    have apart : ApartFromNumber rest := ends.2 (.inr (by simp [level, signedLevel, suffixedLevel]))
    exact .symbol (UnaryOp.sign_endsBefore h)
      (reads_parenthesized (operand.reads h) (fun _ => apart.ends) hrest)
  | .binary _ left op right, h, nl, rest, ms, ends, hrest => by
    simp only [print, marks, String.toList_append, append_assoc, cons_append,
      op.toList_text]
    have apart : ApartFromNumber rest := ends.2 (.inr (by
      simp only [level, suffixedLevel]
      cases op <;> decide))
    refine reads_parenthesized (left.reads h.1)
      (fun _ => (apartFromNumber_cons (by decide)).ends) ?_
    refine .space (.symbol_space ?_)
    exact reads_parenthesized (right.reads h.2) (fun _ => apart.ends) hrest
  | .postOp _ op operand, h, nl, rest, ms, ends, hrest => by
    simp only [print, marks, String.toList_append, append_assoc, cons_append,
      op.toList_text]
    refine reads_parenthesized (operand.reads h) (fun _ => ?_) (.closed (by cases op <;> rfl) hrest)
    cases op <;> exact (apartFromNumber_cons (by decide)).ends
  | .call _ callee args, h, nl, rest, ms, ends, hrest => by
    simp only [print, marks, String.toList_append, append_assoc, cons_append]
    refine reads_parenthesized (callee.reads h.1)
      (fun _ => (apartFromNumber_cons (by decide)).ends) ?_
    refine .closed (s := .lparen) rfl ?_
    refine reads_intercalate (Expr.reads_all args h.2) (apartFromNumber_cons (by decide)) ?_
    exact .closed (s := .rparen) rfl hrest
  | .index _ base place, h, nl, rest, ms, ends, hrest => by
    simp only [print, marks, String.toList_append, append_assoc, cons_append]
    refine reads_parenthesized (base.reads h.1)
      (fun _ => (apartFromNumber_cons (by decide)).ends) ?_
    refine .closed (s := .lbracket) rfl (place.reads h.2 (apartFromNumber_cons (by decide)).ends ?_)
    exact .closed (s := .rbracket) rfl hrest
  | .member _ base name, h, nl, rest, ms, ends, hrest => by
    simp only [print, marks, String.toList_append, append_assoc, cons_append]
    refine reads_parenthesized (base.reads h.1) (fun bare => ⟨apart_cons (by decide), ?_⟩) ?_
    · simp only [Bool.or_eq_false_iff, decide_eq_false_iff_not] at bare
      rintro (number | low)
      · simp [number] at bare
      · exact absurd low bare.2
    · exact .symbol (s := .dot) (Symbol.endsBefore_name h.2) (.name h.2 ends.1 hrest)

theorem Expr.reads_all : (es : List Expr) → Expr.AllLegible es →
    List.Forall₂ (fun text item => ∀ {rest : List Char} {ms : List Mark},
      ApartFromNumber rest → Reads false rest ms → Reads false (text.toList ++ rest) (item ++ ms))
      (Expr.printAll es) (Expr.marksAll es)
  | [], _ => .nil
  | e :: es, h => .cons (fun apart => e.reads h.1 apart.ends) (Expr.reads_all es h.2)

end

theorem Expr.reads_first {e : Expr} {isCond : Bool} (h : e.Legible) (apart : ApartFromNumber rest)
    (hrest : Reads false rest ms) :
    Reads nl ((e.printFirst isCond).toList ++ rest) (e.marksFirst nl isCond ++ ms) :=
  reads_parenthesized (e.reads h) (fun _ => apart.ends) hrest

/-! ### Declarations -/

variable {d : Dialect}

theorem reads_typed {type : TypeExpr} {value : Option Expr} (htype : type.Legible d)
    (hvalue : ∀ e ∈ value, e.Legible) (apart : ApartFromNumber rest) (hrest : Reads false rest ms) :
    Reads false (type.print.toList ++ ((match value with
      | some value => " = " ++ value.print
      | none => "").toList ++ rest)) (type.marks ++ (valueMarks .eq value ++ ms)) := by
  cases value with
  | none => exact type.reads htype apart hrest
  | some value =>
    rw [String.toList_append, append_assoc]
    refine type.reads htype (apartFromNumber_cons (by decide)) (.space ?_)
    exact .symbol_space (s := .eq) (value.reads (hvalue value rfl) apart.ends hrest)

theorem VarDecl.reads {v : VarDecl} (h : v.Legible d) (apart : ApartFromNumber rest)
    (hrest : Reads false rest ms) : Reads nl (v.print.toList ++ rest) (v.marks nl ++ ms) := by
  obtain ⟨node, name, mutable, type, value⟩ := v
  obtain ⟨hname, htype, hvalue, inferred, -⟩ := h
  cases type with
  | none =>
    cases value with
    | none => cases (inferred rfl).2
    | some value =>
      have text : Reads false (value.print.toList ++ rest) (value.marks false ++ ms) :=
        value.reads (hvalue value rfl) apart.ends hrest
      cases mutable with
      | true =>
        simp only [print, if_true, String.toList_append, append_assoc]
        exact .name hname (apart_cons (by decide)) (.space (.symbol_space (s := .colonEq) text))
      | false =>
        simp only [print, Bool.false_eq_true, if_false, String.toList_append, append_assoc]
        exact .name hname (apart_cons (by decide))
          (.space (.symbol_space (s := .colonColonEq) text))
  | some type =>
    have text := reads_typed (htype type rfl) hvalue apart hrest
    cases mutable with
    | true =>
      simp only [print, marks, typeMarks, if_true, String.toList_append, append_assoc,
        cons_append]
      exact .name hname (apart_cons (by decide)) (.symbol_space (s := .colon) text)
    | false =>
      simp only [print, marks, typeMarks, Bool.false_eq_true, if_false, String.toList_append,
        append_assoc, cons_append]
      exact .name hname (apart_cons (by decide)) (.space (.symbol_space (s := .colonColon) text))

theorem Param.reads {p : Param} (h : p.Legible d) (apart : ApartFromNumber rest)
    (hrest : Reads false rest ms) : Reads false (p.print.toList ++ rest) (p.marks ++ ms) := by
  obtain ⟨node, name, type, default⟩ := p
  obtain ⟨hname, htype, hdefault, -⟩ := h
  cases type with
  | none =>
    cases default with
    | none => simpa [print, marks, typeMarks, valueMarks] using Reads.name hname apart.apart hrest
    | some value =>
      simp only [print, String.toList_append, append_assoc]
      refine .name hname (apart_cons (by decide)) (.space ?_)
      exact .symbol_space (s := .eq) (value.reads (hdefault value rfl) apart.ends hrest)
  | some type =>
    have text := reads_typed (htype type rfl) hdefault apart hrest
    simp only [print, marks, typeMarks, String.toList_append, append_assoc, cons_append]
    exact .name hname (apart_cons (by decide)) (.symbol_space (s := .colon) text)

theorem Param.reads_all {defaulted : Bool} : {ps : List Param} →
    Param.AllLegible d defaulted ps →
    List.Forall₂ (fun text item => ∀ {rest : List Char} {ms : List Mark},
      ApartFromNumber rest → Reads false rest ms → Reads false (text.toList ++ rest) (item ++ ms))
      (ps.map Param.print) (ps.map Param.marks)
  | [], _ => .nil
  | _ :: _, h => .cons (Param.reads h.1) (Param.reads_all h.2.2)

theorem toList_toString_int (value : Int) : (toString value).toList =
    (if value < 0 then ['-'] else []) ++ (toString value.natAbs).toList := by
  cases value with
  | ofNat n => rfl
  | negSucc n =>
    rw [if_pos (Int.negSucc_lt_zero n)]
    exact String.toList_append (s := "-")

theorem EnumCase.reads {c : EnumCase} (h : c.Legible) (apart : ApartFromNumber rest)
    (hrest : Reads false rest ms) : Reads nl (c.print.toList ++ rest) (c.marks nl ++ ms) := by
  obtain ⟨span, name, value⟩ := c
  obtain ⟨hname, hvalue⟩ := h
  cases value with
  | none => simpa [print, marks] using Reads.name hname apart.apart hrest
  | some value =>
    simp only [print, marks, intMarks, String.toList_append, toList_toString_int, append_assoc,
      cons_append]
    refine .name hname (apart_cons (by decide)) (.space (.symbol_space (s := .eq) ?_))
    have digits : Reads false ((toString value.value.natAbs).toList ++ rest)
      ((.int value.value.natAbs, false) :: ms) := .int (hvalue value rfl) apart hrest
    split
    case isFalse => exact digits
    case isTrue =>
      have plain : StartsPlain false ((toString value.value.natAbs).toList ++ rest) :=
        ((Expr.int default value.value.natAbs).startsPlain (hvalue value rfl)).append
      obtain ⟨c, tail, text, arrow, -, minus⟩ := plain
      refine .symbol (s := .minus) ?_ digits
      rw [text]
      exact Symbol.endsBefore_minus (fun hc => absurd (minus hc) (by decide)) arrow

theorem reads_path {names : List String} (h : ∀ name ∈ names, IsName name) (apart : Apart rest)
    (hrest : Reads false rest ms) :
    Reads false (['/'].intercalate (names.map String.toList) ++ rest)
      (separated .slash (names.map fun name => [(.ident name, false)]) ++ ms) := by
  rw [separated]
  induction names with
  | nil => simpa using hrest
  | cons first more ih =>
    have ih := ih fun name mem => h name (mem_cons_of_mem _ mem)
    have hfirst := h first mem_cons_self
    cases more with
    | nil => simpa using Reads.name hfirst apart hrest
    | cons second more =>
      simp only [map_cons, intercalate_cons_cons, append_assoc] at ih ⊢
      refine .name hfirst (apart_cons (c := '/') (by decide)) (.symbol (s := .slash) ?_ ih)
      obtain ⟨c, tail, text, hc⟩ := (h second (by simp)).exists_cons
      cases more <;> simp only [map_nil, map_cons, intercalate_singleton,
        intercalate_cons_cons, text, cons_append] <;> exact Symbol.endsBefore_of_head hc

theorem Import.reads {i : Import} (h : i.Legible) (apart : Apart rest)
    (hrest : Reads false rest ms) :
    Reads nl (("Mod " ++ if i.quoted then ArkLang.quoted i.path else i.path).toList ++ rest)
      (i.marks nl ++ ms) := by
  rw [String.toList_append, append_assoc, Import.marks]
  refine .keyword_space .modKw rfl ?_
  split
  case isTrue => exact .str hrest
  case isFalse bare =>
    rw [Import.Legible, if_neg bare] at h
    rw [← intercalate_pathSegmentsOf i.path]
    exact reads_path h.1 apart hrest

theorem reads_head {name : Ident} {params : List Param} {ret : Option TypeExpr}
    (hname : IsName name.value) (hparams : Param.AllLegible d false params)
    (hret : ∀ t ∈ ret, t.Legible d) (hrest : Reads false rest ms) :
    Reads nl ((printHead name params ret).toList ++ rest) (headMarks nl name params ret ++ ms) := by
  simp only [printHead, headMarks, String.toList_append, append_assoc, cons_append]
  refine .name hname (apart_cons (by decide)) (.closed (s := .lparen) rfl ?_)
  refine reads_intercalate (Param.reads_all hparams)
    (apartFromNumber_cons (c := ')') (by decide)) ?_
  refine .closed (s := .rparen) rfl ?_
  cases ret with
  | none => exact .space hrest
  | some type =>
    rw [String.toList_append, append_assoc]
    refine .symbol_space (s := .colon) ?_
    exact type.reads (hret type rfl) (apartFromNumber_cons (c := ' ') (by decide)) (.space hrest)

/-! ### Statements -/

theorem Reads.indentation {depth : Nat} (hrest : Reads nl rest ms) :
    Reads nl ((ArkLang.indentation depth).toList ++ rest) ms := by
  rw [ArkLang.indentation, String.toList_ofList]
  exact .blanks hrest

mutual

/-- The text of a statement reads as its tokens. -/
theorem Stmt.reads {d : Dialect} {topLevel : Bool} (depth : Nat) : (s : Stmt) →
    s.Legible d topLevel → ∀ {nl : Bool} {rest : List Char} {ms : List Mark},
      ApartFromNumber rest → Reads false rest ms →
        Reads nl ((s.print depth).toList ++ rest) (s.marks nl ++ ms)
  | .importUnit decl, h, nl, rest, ms, apart, hrest => decl.reads h.2 apart.apart hrest
  | .var decl, h, nl, rest, ms, apart, hrest => decl.reads h apart hrest
  | .proc decl, h, nl, rest, ms, apart, hrest => decl.reads depth h hrest
  | .artifact decl, h, nl, rest, ms, apart, hrest => decl.reads depth h.2 hrest
  | .assign _ target value, h, nl, rest, ms, apart, hrest => by
    simp only [Stmt.print, Stmt.marks, String.toList_append, append_assoc, cons_append]
    refine target.reads h.2.1 (apartFromNumber_cons (c := ' ') (by decide)).ends (.space ?_)
    exact .symbol_space (s := .eq) (value.reads h.2.2 apart.ends hrest)
  | .cond ⟨_, cond, body⟩, h, nl, rest, ms, apart, hrest => by
    simp only [Stmt.print, Stmt.marks, String.toList_append, append_assoc]
    refine Expr.reads_first h.1 (apartFromNumber_cons (c := ' ') (by decide)) (.space ?_)
    exact body.reads depth h.2 hrest
  | .chain _ arms fallback, h, nl, rest, ms, apart, hrest => by
    simp only [Stmt.print, Stmt.marks, String.toList_append, append_assoc]
    exact Guarded.reads_all depth arms h.2.1 (.inl h.1)
      (Block.reads_fallback depth fallback h.2.2 hrest)
  | .whileLoop ⟨_, cond, body⟩, h, nl, rest, ms, apart, hrest => by
    simp only [Stmt.print, Stmt.marks, String.toList_append, append_assoc, cons_append]
    refine .keyword_space .whileKw rfl ?_
    refine cond.reads h.1 (apartFromNumber_cons (c := ' ') (by decide)).ends (.space ?_)
    exact body.reads depth h.2 hrest
  | .rangeLoop _ var start stop body, h, nl, rest, ms, apart, hrest => by
    simp only [Stmt.print, Stmt.marks, String.toList_append, append_assoc, cons_append]
    refine .name h.1 (apart_cons (c := ',') (by decide)) (.closed (s := .comma) rfl (.space ?_))
    refine start.reads h.2.1 (apartFromNumber_cons (c := ' ') (by decide)).ends (.space ?_)
    refine .symbol_space (s := .dotDot) ?_
    refine stop.reads h.2.2.1 (apartFromNumber_cons (c := ' ') (by decide)).ends (.space ?_)
    exact body.reads depth h.2.2.2 hrest
  | .breakLoop _, h, nl, rest, ms, apart, hrest => .keyword .breakKw apart.apart hrest
  | .skipTurn _, h, nl, rest, ms, apart, hrest => .keyword .skipKw apart.apart hrest
  | .ret _ none, h, nl, rest, ms, apart, hrest => by
    simp only [Stmt.print, String.append_empty]
    exact .keyword .returnKw apart.apart hrest
  | .ret _ (some value), h, nl, rest, ms, apart, hrest => by
    simp only [Stmt.print, Stmt.marks, String.toList_append, append_assoc, cons_append]
    refine .keyword .returnKw (apart_cons (c := ' ') (by decide)) (.space ?_)
    exact value.reads (h value rfl) apart.ends hrest
  | .block body, h, nl, rest, ms, apart, hrest => body.reads depth h hrest
  | .expr value, h, nl, rest, ms, apart, hrest => Expr.reads_first h apart hrest

theorem Stmt.reads_all {d : Dialect} {topLevel afterChain : Bool} (depth : Nat) :
    (ss : List Stmt) → Stmt.AllLegible d topLevel afterChain ss →
    ∀ {nl : Bool} {rest : List Char} {ms : List Mark}, Reads (nl || !ss.isEmpty) rest ms →
      Reads nl ((Stmt.printAll depth ss).toList ++ rest) (Stmt.marksAll nl ss ++ ms)
  | [], _, nl, rest, ms, hrest => by simpa [Stmt.printAll, Stmt.marksAll] using hrest
  | s :: ss, h, nl, rest, ms, hrest => by
    have more : Reads true ((Stmt.printAll depth ss).toList ++ rest)
      (Stmt.marksAll true ss ++ ms) :=
      Stmt.reads_all depth ss h.2.2 (by simpa using hrest)
    simp only [Stmt.printAll, Stmt.marksAll, String.toList_append, append_assoc]
    refine .indentation (s.reads depth h.1 ?_ ?_)
    · split <;> exact apartFromNumber_cons (by decide)
    · split
      · exact .closed (s := .semi) rfl (.newline more)
      · exact .newline more

theorem Guarded.reads_all {d : Dialect} (depth : Nat) : (gs : List Guarded) →
    Guarded.AllLegible d gs → ∀ {nl : Bool} {rest : List Char} {ms : List Mark},
      gs ≠ [] ∨ nl = false → Reads false rest ms →
        Reads nl ((String.intercalate " " (Guarded.printAll depth gs)).toList ++ rest)
          (Guarded.marksAll nl gs ++ ms)
  | [], _, nl, rest, ms, hne, hrest => by
    obtain rfl : nl = false := by simpa using hne
    simpa [Guarded.printAll, Guarded.marksAll] using hrest
  | ⟨_, cond, body⟩ :: gs, h, nl, rest, ms, _, hrest => by
    have more : Reads false ((String.intercalate " " (Guarded.printAll depth gs)).toList ++ rest)
        (Guarded.marksAll false gs ++ ms) := Guarded.reads_all depth gs h.2.2 (.inr rfl) hrest
    have arm {tail : List Char} {ms' : List Mark} (htail : Reads false tail ms') :
        Reads nl (("|> " ++ cond.print ++ " " ++ body.print depth).toList ++ tail)
          ((.symbol .chain, nl) :: cond.marks false ++ body.marks false ++ ms') := by
      simp only [String.toList_append, append_assoc, cons_append]
      refine .symbol_space (s := .chain) ?_
      refine cond.reads h.1 (apartFromNumber_cons (c := ' ') (by decide)).ends (.space ?_)
      exact body.reads depth h.2.1 htail
    rw [Guarded.printAll, Guarded.marksAll, append_assoc]
    rcases gs with _ | ⟨⟨_, cond', body'⟩, gs⟩
    · exact arm hrest
    · rw [Guarded.printAll, String.toList_intercalate, map_cons, map_cons,
        intercalate_cons_cons, append_assoc, append_assoc]
      rw [Guarded.printAll, String.toList_intercalate, map_cons] at more
      exact arm (.space more)

theorem Block.reads_fallback {d : Dialect} (depth : Nat) : (fallback : Option Block) →
    Block.OptionLegible d fallback → ∀ {rest : List Char} {ms : List Mark},
      Reads false rest ms →
        Reads false ((Block.printFallback depth fallback).toList ++ rest)
          (Block.fallbackMarks fallback ++ ms)
  | none, _, rest, ms, hrest => by simpa [Block.printFallback, Block.fallbackMarks] using hrest
  | some body, h, rest, ms, hrest => by
    simp only [Block.printFallback, Block.fallbackMarks, String.toList_append, append_assoc,
      cons_append]
    exact .space (.symbol_space (s := .chain) (body.reads depth h hrest))

theorem Block.reads {d : Dialect} (depth : Nat) : (b : Block) → b.Legible d →
    ∀ {nl : Bool} {rest : List Char} {ms : List Mark}, Reads false rest ms →
      Reads nl ((b.print depth).toList ++ rest) (b.marks nl ++ ms)
  | ⟨_, []⟩, _, nl, rest, ms, hrest => by
    rw [Block.print, Block.marks]
    exact .closed (s := .lbrace) rfl (.closed (s := .rbrace) rfl hrest)
  | ⟨_, s :: ss⟩, h, nl, rest, ms, hrest => by
    have opening : "\x7b\n".toList = Symbol.lbrace.chars ++ ['\n'] := rfl
    simp only [Block.print, Block.marks, String.toList_append, opening, append_assoc,
      cons_append, nil_append]
    refine .closed (s := .lbrace) rfl (.newline ?_)
    refine Stmt.reads_all (depth + 1) (s :: ss) h (.indentation ?_)
    exact .closed (s := .rbrace) rfl hrest

theorem ProcDecl.reads {d : Dialect} (depth : Nat) : (p : ProcDecl) → p.Legible d →
    ∀ {nl : Bool} {rest : List Char} {ms : List Mark}, Reads false rest ms →
      Reads nl ((p.print depth).toList ++ rest) (p.marks nl ++ ms)
  | ⟨_, name, params, ret, body⟩, h, nl, rest, ms, hrest => by
    simp only [ProcDecl.print, ProcDecl.marks, String.toList_append, append_assoc]
    exact reads_head h.1 h.2.1 h.2.2.1 (body.reads depth h.2.2.2.2 hrest)

theorem ArtifactDecl.reads {d : Dialect} (depth : Nat) : (a : ArtifactDecl) → a.Legible d →
    ∀ {nl : Bool} {rest : List Char} {ms : List Mark}, Reads false rest ms →
      Reads nl ((a.print depth).toList ++ rest) (a.marks nl ++ ms)
  | ⟨_, name, _, []⟩, h, nl, rest, ms, hrest => by
    have braces : " :: \x7b\x7d".toList =
      ' ' :: Symbol.colonColon.chars ++ ' ' :: Symbol.lbrace.chars ++ Symbol.rbrace.chars := rfl
    simp only [ArtifactDecl.print, ArtifactDecl.marks, String.toList_append, braces,
      append_assoc, cons_append]
    refine .name h.1 (apart_cons (c := ' ') (by decide)) (.space ?_)
    refine .symbol_space (s := .colonColon) (.closed (s := .lbrace) rfl ?_)
    exact .closed (s := .rbrace) rfl hrest
  | ⟨_, name, _, m :: ms'⟩, h, nl, rest, ms, hrest => by
    have opening : " :: \x7b\n".toList =
      ' ' :: Symbol.colonColon.chars ++ ' ' :: Symbol.lbrace.chars ++ ['\n'] := rfl
    simp only [ArtifactDecl.print, ArtifactDecl.marks, String.toList_append, opening,
      append_assoc, cons_append, nil_append]
    refine .name h.1 (apart_cons (c := ' ') (by decide)) (.space ?_)
    refine .symbol_space (s := .colonColon) (.closed (s := .lbrace) rfl (.newline ?_))
    refine Member.reads_all (depth + 1) (m :: ms') h.2.2.2 (.indentation ?_)
    exact .closed (s := .rbrace) rfl hrest

theorem Member.reads {d : Dialect} (depth : Nat) : (m : Member) → m.Legible d →
    ∀ {rest : List Char} {ms : List Mark}, ApartFromNumber rest → Reads false rest ms →
      Reads true ((m.print depth).toList ++ rest) (m.marks ++ ms)
  | .prop decl, h, _, _, apart, hrest => decl.reads h apart hrest
  | .proc decl, h, _, _, _, hrest => decl.reads depth h hrest
  | .enumCase decl, h, _, _, apart, hrest => decl.reads h apart hrest

theorem Member.reads_all {d : Dialect} (depth : Nat) : (members : List Member) →
    Member.AllLegible d members → ∀ {rest : List Char} {ms : List Mark}, Reads true rest ms →
      Reads true ((Member.printAll depth members).toList ++ rest) (Member.marksAll members ++ ms)
  | [], _, rest, ms, hrest => by simpa [Member.printAll, Member.marksAll] using hrest
  | m :: members, h, rest, ms, hrest => by
    simp only [Member.printAll, Member.marksAll, String.toList_append, append_assoc]
    refine .indentation (m.reads depth h.1 (apartFromNumber_cons (c := '\n') (by decide)) ?_)
    exact .newline (Member.reads_all depth members h.2 hrest)

end

theorem Program.reads {d : Dialect} {p : Program} (h : p.Legible d) :
    Reads false p.print.toList p.marks := by
  have text : Reads false (p.print.toList ++ []) p.marks := Stmt.reads_all 0 p.stmts h .nil
  simpa only [append_nil] using text

/-- The text of a legible program has the tokens of it. -/
theorem Program.tokens_print {d : Dialect} {p : Program} (h : p.Legible d) :
    ∃ ts : List Token, tokens p.print = .ok ts ∧ ts.map Token.mark = p.marks :=
  (Program.reads h).tokens_eq

end ArkLang
