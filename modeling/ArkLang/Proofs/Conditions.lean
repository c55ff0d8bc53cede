import ArkLang.C.Printer
import ArkLang.Proofs.CoherentUnits
import ArkLang.Proofs.LoweredExprs

/-!
# Conditions in parentheses

A statement puts its condition in parentheses, and the pair that encloses the text of the condition
already is taken away before. The text is read from left to right for that, past the string
literals, whose parentheses do not count. For text in which parentheses come in pairs and literals
are closed the reader finds the partner of the first parenthesis, and the text of every expression
is of that kind.
-/

namespace ArkLang

namespace C

variable {cs : List Char} {c : Char}

/-! ### Balanced text -/

/-- What stands between the quotes of a string literal: no quote, unless behind a backslash. -/
inductive InLiteral : List Char → Prop where
  | nil : InLiteral []
  | plain {c : Char} {cs : List Char} (quote : c ≠ '"') (backslash : c ≠ '\\') :
    InLiteral cs → InLiteral (c :: cs)
  | escape {c : Char} {cs : List Char} : InLiteral cs → InLiteral ('\\' :: c :: cs)

/-- Outside of string literals parentheses come in pairs, and all literals are closed. -/
inductive Balanced : List Char → Prop where
  | nil : Balanced []
  | char {c : Char} {cs : List Char} (other : c ∉ ['(', ')', '"']) :
      Balanced cs → Balanced (c :: cs)
  | literal {body cs : List Char} : InLiteral body → Balanced cs →
      Balanced ('"' :: (body ++ '"' :: cs))
  | parens {inner cs : List Char} : Balanced inner → Balanced cs →
      Balanced ('(' :: (inner ++ ')' :: cs))

theorem InLiteral.append {cs ds : List Char} (h : InLiteral cs) (h' : InLiteral ds) :
    InLiteral (cs ++ ds) := by
  induction h with
  | nil => exact h'
  | plain quote backslash _ ih => exact .plain quote backslash ih
  | escape _ ih => exact .escape ih

theorem Balanced.append {cs ds : List Char} (h : Balanced cs) (h' : Balanced ds) :
    Balanced (cs ++ ds) := by
  induction h with
  | nil => exact h'
  | char other _ ih => exact .char other ih
  | literal body _ ih => simpa using Balanced.literal body ih
  | parens inner _ _ ih => simpa using Balanced.parens inner ih

theorem balanced_of_forall (h : ∀ c ∈ cs, c ∉ ['(', ')', '"']) : Balanced cs := by
  induction cs with
  | nil => exact .nil
  | cons c cs ih =>
    obtain ⟨first, others⟩ := List.forall_mem_cons.mp h
    exact .char first (ih others)

theorem balanced_plain {text : String}
    (h : text.toList.all (fun c => !(['(', ')', '"'].contains c)) = true) : Balanced text.toList :=
  balanced_of_forall fun c mem => by simpa using List.all_eq_true.mp h c mem

theorem IsWord.balanced {text : String} (h : IsWord text) : Balanced text.toList := by
  refine balanced_of_forall fun c mem paren => ?_
  have name := h.isNameChar_of_mem mem
  rcases (by simpa using paren : c = '(' ∨ c = ')' ∨ c = '"') with rfl | rfl | rfl <;>
    exact absurd name (by decide)

/-! ### Reading from left to right -/

attribute [local simp] closesLast in
theorem closesLast_literal {body : List Char} (h : InLiteral body) (depth : Nat)
    (rest : List Char) :
    closesLast .literal depth (body ++ '"' :: rest) = closesLast .code depth rest := by
  induction h with
  | nil => simp
  | plain quote backslash _ ih => simp [quote, backslash, ih]
  | escape _ ih => simp [ih]

theorem closesLast_balanced (h : Balanced cs) (depth : Nat) (rest : List Char) :
    closesLast .code (depth + 1) (cs ++ rest) = closesLast .code (depth + 1) rest := by
  induction h generalizing depth rest with
  | nil => rfl
  | char other _ ih =>
    obtain ⟨opens, closes, quote⟩ : _ ≠ '(' ∧ _ ≠ ')' ∧ _ ≠ '"' := by simpa using other
    simp [closesLast, opens, closes, quote, ih]
  | literal body _ ih => simp [closesLast, closesLast_literal body, ih]
  | parens _ _ inner outer => simp [closesLast, inner, outer]

theorem closesLast_parens {inner : List Char} (h : Balanced inner) (cs : List Char) :
    closesLast .code 0 ('(' :: (inner ++ ')' :: cs)) = cs.isEmpty := by
  cases cs <;> simp [closesLast, closesLast_balanced h]

theorem unwrapChars_parens {inner : List Char} (h : Balanced inner) :
    unwrapChars ('(' :: (inner ++ [')'])) = inner := by
  have last : ('(' :: (inner ++ [')'])).getLast? = some ')' := by
    rw [← List.cons_append, List.getLast?_concat]
  simp [unwrapChars, closesLast_parens h, last]

theorem unwrapChars_eq_self (h : Balanced cs)
    (other : ∀ inner, Balanced inner → cs ≠ '(' :: (inner ++ [')'])) : unwrapChars cs = cs := by
  cases h with
  | nil => rfl
  | char plain _ =>
    have opens : _ ≠ '(' := (by simpa using plain : _ ≠ '(' ∧ _ ≠ ')' ∧ _ ≠ '"').1
    simp [unwrapChars, opens]
  | literal => simp [unwrapChars]
  | @parens inner cs balanced _ =>
    have more : cs ≠ [] := by
      rintro rfl
      exact other inner balanced rfl
    simp [unwrapChars, closesLast_parens balanced, more]

theorem balanced_unwrapChars (h : Balanced cs) : Balanced (unwrapChars cs) := by
  by_cases wrapped : ∃ inner, Balanced inner ∧ cs = '(' :: (inner ++ [')'])
  · obtain ⟨inner, balanced, rfl⟩ := wrapped
    rwa [unwrapChars_parens balanced]
  · rwa [unwrapChars_eq_self h fun inner balanced same => wrapped ⟨inner, balanced, same⟩]

/-! ### Texts of literals -/

theorem inLiteral_stringByte (b : UInt8) : InLiteral (stringByte b) := by
  have printable : ∀ n < 0x7f, n ≠ '\\'.toNat → n ≠ '"'.toNat →
      InLiteral [Char.ofNat n] := by
    have plain : ∀ n < 0x7f, n ≠ '\\'.toNat → n ≠ '"'.toNat →
        Char.ofNat n ≠ '"' ∧ Char.ofNat n ≠ '\\' := by decide +kernel
    intro n low backslash quote
    exact .plain (plain n low backslash quote).1 (plain n low backslash quote).2 .nil
  have digit : ∀ d < 8, Char.ofNat ('0'.toNat + d) ≠ '"' ∧ Char.ofNat ('0'.toNat + d) ≠ '\\' := by
    decide
  unfold stringByte
  dsimp only
  split_ifs with backslash quote newline tab carriage range
  iterate 5 exact .escape .nil
  · exact printable _ (by omega) backslash quote
  · have second := digit (b.toNat / 8 % 8) (by omega)
    have third := digit (b.toNat % 8) (by omega)
    exact .escape (.plain second.1 second.2 (.plain third.1 third.2 .nil))

theorem balanced_stringLiteral (text : String) : Balanced (stringLiteral text).toList := by
  have body (bytes : List UInt8) : InLiteral (bytes.flatMap stringByte) := by
    induction bytes with
    | nil => exact .nil
    | cons b bytes ih => exact (inLiteral_stringByte b).append ih
  simpa [stringLiteral] using Balanced.literal (body text.toUTF8.toList) .nil

def isNumberChar (c : Char) : Bool :=
  c.isDigit || ['.', 'e', '-'].contains c

theorem isNumberChar_of_mem_toDigits {n : Nat} (mem : c ∈ Nat.toDigits 10 n) :
    isNumberChar c = true := by
  simp [isNumberChar, isDigit_of_mem_toDigits mem]

theorem isNumberChar_of_mem_toString {n : Int} (mem : c ∈ (toString n).toList) :
    isNumberChar c = true := by
  cases n with
  | ofNat n => exact isNumberChar_of_mem_toDigits (n := n) (by simpa [toString, Int.repr] using mem)
  | negSucc n =>
    rcases (by simpa [toString, Int.repr] using mem : c = '-' ∨ c ∈ Nat.toDigits 10 (n + 1))
      with rfl | mem
    · decide
    · exact isNumberChar_of_mem_toDigits mem

theorem isNumberChar_of_mem_positional {d : Decimal} (mem : c ∈ d.positional) :
    isNumberChar c = true := by
  have padding {n : Nat} (mem : c ∈ List.replicate n '0') : isNumberChar c = true := by
    rw [List.eq_of_mem_replicate mem]
    decide
  unfold Decimal.positional at mem
  dsimp only at mem
  split at mem
  · rcases List.mem_append.mp mem with digit | zero
    · exact isNumberChar_of_mem_toDigits digit
    · exact padding zero
  · have padded {n : Nat} (mem : c ∈ List.replicate n '0' ++ d.digitText) : isNumberChar c = true :=
      (List.mem_append.mp mem).elim padding isNumberChar_of_mem_toDigits
    rcases List.mem_append.mp mem with whole | rest
    · exact padded (List.mem_of_mem_take whole)
    · rcases List.mem_cons.mp rest with rfl | fraction
      · decide
      · exact padded (List.mem_of_mem_drop fraction)

theorem isNumberChar_of_mem_scientific {d : Decimal} (mem : c ∈ d.scientific) :
    isNumberChar c = true := by
  have digit (mem : c ∈ d.digitText) : isNumberChar c = true := isNumberChar_of_mem_toDigits mem
  unfold Decimal.scientific at mem
  dsimp only at mem
  rcases List.mem_append.mp mem with mantissa | mem
  · generalize d.digitText = ds at digit mantissa
    match ds with
    | [] =>
      rw [List.mem_singleton.mp mantissa]
      decide
    | [_] => exact digit mantissa
    | c' :: d' :: ds =>
      rcases (by simpa using mantissa : c = c' ∨ c = '.' ∨ c = d' ∨ c ∈ ds) with h | rfl | h
      · exact digit (by simp [h])
      · decide
      · exact digit (by simp [h])
  · rcases List.mem_cons.mp mem with rfl | exponent
    · decide
    · exact isNumberChar_of_mem_toString exponent

theorem isNumberChar_of_mem_literalText {x : Binary64} (mem : c ∈ x.literalText.toList) :
    isNumberChar c = true := by
  unfold Binary64.literalText at mem
  dsimp only at mem
  split at mem
  · exact isNumberChar_of_mem_scientific (by simpa using mem)
  · split at mem
    · rcases (by simpa using mem : c ∈ x.shortest.positional ∨ c = '.' ∨ c = '0')
        with mem | rfl | rfl
      · exact isNumberChar_of_mem_positional mem
      · decide
      · decide
    · exact isNumberChar_of_mem_positional (by simpa using mem)

theorem balanced_of_isNumberChar (h : ∀ c ∈ cs, isNumberChar c = true) : Balanced cs := by
  refine balanced_of_forall fun c mem paren => ?_
  rcases (by simpa using paren : c = '(' ∨ c = ')' ∨ c = '"') with rfl | rfl | rfl <;>
    exact absurd (h _ mem) (by decide)

theorem balanced_intLiteral (n : Int) : Balanced (intLiteral n).toList := by
  have name : Balanced "INT64_C".toList := IsWord.balanced (by decide)
  unfold intLiteral
  split
  · have digits : Balanced "9223372036854775807".toList := IsWord.balanced (by decide)
    have one : Balanced " - 1".toList := balanced_plain (by decide)
    simpa using Balanced.parens
      (.char (c := '-') (by decide) (name.append (.parens digits one))) .nil
  · have digits := balanced_of_isNumberChar fun c => isNumberChar_of_mem_toString (n := n) (c := c)
    simpa using name.append (.parens digits .nil)

/-! ### Texts of expressions -/

attribute [local simp] Expr.text Expr.texts in
theorem balanced_commas {es : List Expr} (h : ∀ e ∈ es, Balanced e.text.toList) :
    Balanced (commas (Expr.texts es)).toList := by
  induction es with
  | nil => exact .nil
  | cons e es ih =>
    obtain ⟨first, others⟩ := List.forall_mem_cons.mp h
    cases es with
    | nil => simpa [commas] using first
    | cons e' es =>
      have rest : Balanced (", " ++ commas (Expr.texts (e' :: es))).toList := by
        simpa using Balanced.char (c := ',') (by decide) (.char (c := ' ') (by decide) (ih others))
      simpa [commas, String.intercalate_cons_cons] using first.append rest

theorem balanced_braced {text : String} (h : Balanced text.toList) :
    Balanced (braced text).toList := by
  have front : Balanced (opening ++ " ").toList := balanced_plain (by decide)
  have back : Balanced (" " ++ closing).toList := balanced_plain (by decide)
  simpa [braced] using front.append (h.append back)

theorem balanced_binOp (op : BinOp) : Balanced op.text.toList := by
  cases op <;> exact balanced_plain (by decide)

theorem balanced_arrow {pointer target : Name} (h : pointer.IsPlain) (h' : target.IsPlain) :
    Balanced (Expr.arrow pointer target).text.toList := by
  have arrow : Balanced "->".toList := balanced_plain (by decide)
  simpa [Expr.text] using h.isWord.balanced.append (arrow.append h'.isWord.balanced)

instance : ExprLaw fun e => Balanced e.text.toList where
  int := balanced_intLiteral
  float _ := balanced_of_isNumberChar fun _ => isNumberChar_of_mem_literalText
  string := balanced_stringLiteral
  bool b := by cases b <;> exact balanced_plain (by decide)
  null := balanced_plain (by decide)
  zero := balanced_plain (by decide)
  ident h := h.isWord.balanced
  property _ := balanced_arrow trivial trivial
  unary mem h := by
    rcases (by simpa using mem : _ = "-" ∨ _ = "!" ∨ _ = "~") with rfl | rfl | rfl
    · simpa [Expr.text] using Balanced.parens (.char (c := '-') (by decide) h) .nil
    · simpa [Expr.text] using Balanced.parens (.char (c := '!') (by decide) h) .nil
    · simpa [Expr.text] using Balanced.parens (.char (c := '~') (by decide) h) .nil
  binary op hl hr := by
    have right := (balanced_binOp op).append (.char (c := ' ') (by decide) hr)
    simpa [Expr.text] using Balanced.parens (hl.append (.char (c := ' ') (by decide) right)) .nil
  cast word h := by simpa [Expr.text] using Balanced.parens (.parens word.balanced h) .nil
  after hl hr := by
    have void : Balanced "void".toList := balanced_plain (by decide)
    have right := Balanced.char (c := ',') (by decide) (.char (c := ' ') (by decide) hr)
    simpa [Expr.text] using Balanced.parens (.parens void (hl.append right)) .nil
  field word h := by
    simpa [Expr.text] using Balanced.parens h (.char (c := '.') (by decide) word.balanced)
  element hl hr := by
    have open_ : Balanced ".v[".toList := balanced_plain (by decide)
    have close : Balanced "]".toList := balanced_plain (by decide)
    simpa [Expr.text] using Balanced.parens hl (open_.append (hr.append close))
  deref h := by simpa [Expr.text] using Balanced.parens (.char (c := '*') (by decide) h) .nil
  address h := by simpa [Expr.text] using Balanced.char (c := '&') (by decide) (.parens h .nil)
  compound word h := by
    simpa [Expr.text] using
      Balanced.parens (.parens word.balanced (balanced_braced (balanced_commas h))) .nil
  arrayOf word h := by
    simpa [Expr.text] using
      Balanced.parens (.parens word.balanced
        (balanced_braced (balanced_braced (balanced_commas h)))) .nil
  elements word h := by
    have brackets : Balanced "[]".toList := balanced_plain (by decide)
    simpa [Expr.text] using
      Balanced.parens (word.balanced.append brackets) (balanced_braced (balanced_commas h))
  call plain h := by
    simpa [Expr.text] using plain.isWord.balanced.append (.parens (balanced_commas h) .nil)

end C

theorem Lower.balanced_value {c : LowerContext} {a : Activation} {e : Expr} {s s' : LowerState}
    {code : C.Expr} (run : Lower.value a e c s = .ok (code, s')) : C.Balanced code.text.toList := by
  have access (id : SymbolId) : Yields c (varAccess a id) fun e => C.Balanced e.text.toList :=
    yields_varAccess_of_law fun _ _ _ _ _ => C.balanced_arrow trivial trivial
  have reach : Reaches c a (fun e => C.Balanced e.text.toList) e.ids :=
    ⟨fun _ _ id _ => access id, fun _ _ id _ _ _ _ => access id⟩
  exact ((yields_exprValue reach).gives s code s' run).2

/-- The texts of conditions are balanced, whatever the unit. From balanced text a pair of
parentheses is taken away just if it encloses the whole text, and headings with what is left are
balanced. -/
theorem unwrap_conditions :
    (∀ (c : LowerContext) (a : Activation) (cond : Expr) (s s' : LowerState) (code : C.Expr),
      Lower.value a cond c s = .ok (code, s') → C.Balanced code.text.toList) ∧
    ∀ text : String, C.Balanced text.toList →
      (∀ inner : String, C.Balanced inner.toList → text = "(" ++ inner ++ ")" →
        C.unwrap text = inner) ∧
      ((∀ inner : String, C.Balanced inner.toList → text ≠ "(" ++ inner ++ ")") →
        C.unwrap text = text) ∧
      ∀ word ∈ ["if", "else if", "while"],
        C.Balanced (word ++ " (" ++ C.unwrap text ++ ")").toList := by
  refine ⟨fun c a cond s s' code run => Lower.balanced_value run, fun text balanced => ⟨?_, ?_, ?_⟩⟩
  · rintro inner hinner rfl
    have chars := C.unwrapChars_parens hinner
    simp [C.unwrap, chars]
  · intro other
    have chars := C.unwrapChars_eq_self balanced fun inner hinner same =>
      other (.ofList inner) (by simpa using hinner) (String.toList_inj.mp (by simpa using same))
    simp [C.unwrap, chars]
  · intro word mem
    have front : C.Balanced (word ++ " ").toList := by
      rcases (by simpa using mem : word = "if" ∨ word = "else if" ∨ word = "while") with
        rfl | rfl | rfl <;> exact C.balanced_plain (by decide)
    simpa [C.unwrap] using front.append (.parens (C.balanced_unwrapChars balanced) .nil)

/-- A loop whose condition compares with a quote and two parentheses. -/
def quotedParens : String :=
  "s := \"x\"\nwhile s == \"\\\")(\" \x7b\n s = \"\"\n\x7d\n"

/-- The condition of the loop. -/
def quotedCondition : Expr :=
  .binary ⟨4, default⟩ (.ident ⟨2, default⟩ "s") .eq (.str ⟨3, default⟩ "\")(")

theorem unwrap_conditions_quoted : ∃ p u code s', parseProgram .inferred quotedParens = .ok p ∧
    analyze ⟨"main"⟩ .silent p = .ok u ∧
    Lower.value {} quotedCondition ⟨u, .ofUnits [u]⟩ {} = .ok (code, s') ∧
    code.text = "(ark_rt_str_cmp(ark_4main_1s, \"\\\")(\") == 0)" ∧
    C.unwrap code.text = "ark_rt_str_cmp(ark_4main_1s, \"\\\")(\") == 0" ∧
    C.Balanced ("while (" ++ C.unwrap code.text ++ ")").toList := by
  obtain ⟨p, u, parsed, accepted, -, holds⟩ := exists_of_unitOfText quotedParens (fun u =>
    (Lower.value {} quotedCondition ⟨u, .ofUnits [u]⟩ {}).toOption.any fun x =>
      x.1.text == "(ark_rt_str_cmp(ark_4main_1s, \"\\\")(\") == 0)") (by decide +kernel)
  cases run : Lower.value {} quotedCondition ⟨u, .ofUnits [u]⟩ {} with
  | error fault => simp [run, Except.toOption] at holds
  | ok x =>
    have text : x.1.text = "(ark_rt_str_cmp(ark_4main_1s, \"\\\")(\") == 0)" := by
      simpa [run, Except.toOption] using holds
    have balanced := unwrap_conditions.1 _ _ _ _ _ x.1 run
    obtain ⟨unwrapped, -, headed⟩ := unwrap_conditions.2 _ balanced
    have name : C.Balanced "ark_rt_str_cmp".toList := C.balanced_plain (by decide)
    have first : C.Balanced "ark_4main_1s, ".toList := C.balanced_plain (by decide)
    have second : C.Balanced "\"\\\")(\"".toList :=
      (by decide +kernel : C.stringLiteral "\")(" = "\"\\\")(\"") ▸ C.balanced_stringLiteral _
    have equals : C.Balanced " == 0".toList := C.balanced_plain (by decide)
    have inner := name.append (.parens (first.append second) equals)
    refine ⟨p, u, x.1, x.2, parsed, accepted, run, text,
      unwrapped _ (by simpa using inner) text, ?_⟩
    simpa using headed "while" (by simp)

end ArkLang
