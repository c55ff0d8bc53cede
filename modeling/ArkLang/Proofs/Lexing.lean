import ArkLang.Proofs.NumberReadBack
import ArkLang.Token.Lexer

/-!
# Reading text piece by piece

A text that starts with the spelling of a token reads as that token and then as what follows it,
provided that what follows does not go on with the token. Only the kinds of tokens and the line
breaks between them are followed here: a parser looks at nothing else to decide what it reads.
-/

namespace ArkLang

open List

/-- What a parser sees of a token: its kind, and whether a line break stands before it. -/
abbrev Mark := TokenKind × Bool

def Token.mark (t : Token) : Mark :=
  (t.kind, t.newlineBefore)

/-- The text `cs` reads as tokens with the marks `ms`; the flag says whether a line break stands
before it. -/
def Reads (newline : Bool) (cs : List Char) (ms : List Mark) : Prop :=
  ∀ lines offset, ∃ ts : List Token,
    lexFrom lines offset newline cs = ts.map .ok ∧ ts.map Token.mark = ms

namespace Reads

variable {nl : Bool} {c : Char} {cs : List Char} {ms : List Mark}

theorem nil : Reads nl [] [(.eof, nl)] := by
  intro lines offset
  exact ⟨[_], by rw [lexFrom]; rfl, rfl⟩

theorem token {kind : TokenKind} (more : Nat) (found : scan c cs = ⟨.token kind, more⟩)
    (rest : Reads false (cs.drop more) ms) : Reads nl (c :: cs) ((kind, nl) :: ms) := by
  intro lines offset
  obtain ⟨ts, items, marks⟩ := rest lines (offset + byteSize (c :: cs.take more))
  refine ⟨⟨kind, .between offset (offset + byteSize (c :: cs.take more)), lines.position offset,
    nl⟩ :: ts, ?_, ?_⟩
  · rw [lexFrom]
    simp only [found, items, map_cons]
  · simp only [map_cons, marks, Token.mark]

theorem blank (hc : isBlank c) (rest : Reads (nl || '\n' == c) cs ms) : Reads nl (c :: cs) ms := by
  intro lines offset
  -- a run of blanks is one gap, so the first blank of a run is taken off its gap
  have split : lexFrom lines offset nl (c :: cs) =
      lexFrom lines (offset + byteSize [c]) (nl || '\n' == c) cs := by
    rw [lexFrom]
    simp only [scan, hc, if_true]
    cases cs with
    | nil => simp only [takeWhile_nil, length_nil, take_nil, drop_nil,
        contains_cons, contains_nil, Bool.or_false]
    | cons d ds =>
      by_cases hd : isBlank d
      · conv_rhs => rw [lexFrom]
        simp only [scan, hd, if_true, takeWhile_cons, length_cons, take_succ_cons,
          drop_succ_cons, contains_cons, byteSize, Bool.or_assoc, Nat.add_assoc,
          Nat.zero_add]
      · simp only [takeWhile_cons, hd, Bool.false_eq_true, if_false, length_nil,
          take_zero, drop_zero, contains_cons, contains_nil, Bool.or_false]
  rw [split]
  exact rest lines _

end Reads

/-! ### Where a token ends -/

/-- No name character stands at the start of `rest`, so that a word in front of it ends there. -/
def Apart (rest : List Char) : Prop :=
  ∀ c ∈ rest.head?, isNameChar c = false

/-- Neither a name character nor a point stands at the start of `rest`, so that a number in front of
it ends there. -/
def ApartFromNumber (rest : List Char) : Prop :=
  ∀ c ∈ rest.head?, isNameChar c = false ∧ c ≠ '.'

theorem ApartFromNumber.apart {rest : List Char} (h : ApartFromNumber rest) : Apart rest :=
  fun c hc => (h c hc).1

/-- Whether a sign and a character are the start of a longer sign or of a comment. -/
def Symbol.goesOnWith (s : Symbol) (c : Char) : Bool :=
  Symbol.all.any (fun t => (s.chars ++ [c]).isPrefixOf t.chars)
    || (s = .slash && (c = '/' || c = '*'))

/-- A sign in front of `rest` ends there. -/
def Symbol.EndsBefore (s : Symbol) (rest : List Char) : Prop :=
  ∀ c ∈ rest.head?, s.goesOnWith c = false

/-! ### Words -/

/-- A text that a token can carry as a name. -/
def IsName (name : String) : Prop :=
  isNameText name.toList ∧ Keyword.ofText? name = none

/-- Characters that go on with a name do so up to where it ends. -/
theorem takeWhile_append_of_apart {cs rest : List Char} (hcs : cs.all isNameChar)
    (hrest : Apart rest) : (cs ++ rest).takeWhile isNameChar = cs := by
  rw [takeWhile_append_of_pos (List.all_eq_true.mp hcs)]
  cases rest with
  | nil => simp
  | cons c rest => simp [hrest c rfl]

theorem scan_word {c : Char} {cs rest : List Char} (hname : isNameText (c :: cs))
    (hrest : Apart rest) :
    scan c (cs ++ rest) = ⟨.token (match Keyword.ofText? (String.ofList (c :: cs)) with
      | some keyword => .keyword keyword
      | none => .ident (String.ofList (c :: cs))), cs.length⟩ := by
  simp only [isNameText, Bool.and_eq_true] at hname
  have visible : isBlank c = false := by
    by_contra h
    simp only [isBlank, Bool.not_eq_false, Bool.or_eq_true, decide_eq_true_eq] at h
    rcases h with (((rfl | rfl) | rfl) | rfl) | rfl <;> exact absurd hname.1 (by decide)
  have word : scan c (cs ++ rest) = scanWord c (cs ++ rest) := by
    simp only [scan, visible, hname.1, if_true, Bool.false_eq_true, if_false]
  cases keyword : Keyword.ofText? (String.ofList (c :: cs)) <;>
    simp only [word, scanWord, takeWhile_append_of_apart hname.2 hrest, keyword]

namespace Reads

variable {nl : Bool} {rest : List Char} {ms : List Mark}

/-- A name is read up to where it ends. -/
theorem name {name : String} (hname : IsName name) (apart : Apart rest)
    (hrest : Reads false rest ms) : Reads nl (name.toList ++ rest) ((.ident name, nl) :: ms) := by
  obtain ⟨spelled, plain⟩ := hname
  have text : String.ofList name.toList = name := String.ofList_toList
  cases chars : name.toList with
  | nil => simp [chars, isNameText] at spelled
  | cons c cs =>
    rw [chars] at spelled text
    rw [cons_append]
    refine token cs.length ?_ (by simpa using hrest)
    rw [scan_word spelled apart, text, plain]

theorem keyword (word : Keyword) (apart : Apart rest) (hrest : Reads false rest ms) :
    Reads nl (word.text.toList ++ rest) ((.keyword word, nl) :: ms) := by
  have spelled : isNameText word.text.toList := by cases word <;> decide
  have found : Keyword.ofText? (String.ofList word.text.toList) = some word := by
    rw [String.ofList_toList]
    cases word <;> rfl
  cases chars : word.text.toList with
  | nil => simp [chars, isNameText] at spelled
  | cons c cs =>
    rw [chars] at spelled found
    rw [cons_append]
    refine token cs.length ?_ (by simpa using hrest)
    rw [scan_word spelled apart, found]

end Reads

/-! ### Signs -/

namespace Symbol

theorem chars_injective {s t : Symbol} (h : s.chars = t.chars) : s = t := by
  revert h
  cases s <;> cases t <;> decide

theorem mem_all (s : Symbol) : s ∈ all := by
  cases s <;> decide

theorem all_sorted : all.Pairwise fun s t => t.chars.length ≤ s.chars.length ∧ s ≠ t := by
  decide

theorem eq_of_isPrefix {s t : Symbol} {rest : List Char} (hends : s.EndsBefore rest)
    (hpre : t.chars <+: s.chars ++ rest) (hlen : s.chars.length ≤ t.chars.length) : t = s := by
  obtain ⟨more, hmore⟩ : s.chars <+: t.chars :=
    prefix_of_prefix_length_le (prefix_append _ _) hpre hlen
  cases more with
  | nil => exact chars_injective (by simpa using hmore.symm)
  | cons c more =>
    rw [← hmore, prefix_append_right_inj] at hpre
    cases rest with
    | nil => simp at hpre
    | cons d rest =>
      obtain rfl : c = d := (List.cons_prefix_cons.mp hpre).1
      have longer : s.goesOnWith c = true := by
        simp only [goesOnWith, Bool.or_eq_true, any_eq_true]
        refine .inl ⟨t, mem_all t, ?_⟩
        rw [List.isPrefixOf_iff_prefix, ← hmore, prefix_append_right_inj]
        exact List.cons_prefix_cons.mpr ⟨rfl, nil_prefix⟩
      rw [hends c rfl] at longer
      exact absurd longer (by decide)

theorem find_all {s : Symbol} {rest : List Char} (hends : s.EndsBefore rest) :
    all.find? (fun t => t.chars.isPrefixOf (s.chars ++ rest)) = some s := by
  obtain ⟨before, behind, split⟩ := append_of_mem s.mem_all
  rw [find?_eq_some_iff_append]
  refine ⟨List.isPrefixOf_iff_prefix.mpr (prefix_append _ _), before, behind, split, ?_⟩
  intro t ht
  have sorted := all_sorted
  rw [split, pairwise_append] at sorted
  obtain ⟨longer, different⟩ := sorted.2.2 t ht s mem_cons_self
  rw [Bool.not_eq_true', ← Bool.not_eq_true, isPrefixOf_iff_prefix]
  exact fun hpre => different (eq_of_isPrefix hends hpre longer)

theorem scan_head (s : Symbol) {c : Char} {tail cs : List Char} (hs : s.chars = c :: tail) :
    scan c cs = if c = '/' then (scanComment? cs).getD (scanSymbol c cs) else scanSymbol c cs := by
  cases s <;> cases hs <;> simp +decide only [scan, if_false]

theorem scanComment?_eq_none {s : Symbol} {rest tail : List Char} {c : Char}
    (hends : s.EndsBefore rest) (chars : s.chars = c :: tail) (slash : c = '/') :
    scanComment? (tail ++ rest) = none := by
  subst slash
  obtain rfl : s = .slash := by cases s <;> first | rfl | cases chars
  cases chars
  cases rest with
  | nil => rfl
  | cons d rest =>
    have plain := hends d rfl
    simp only [goesOnWith, decide_true, Bool.true_and, Bool.or_eq_false_iff,
      decide_eq_false_iff_not] at plain
    rw [nil_append, scanComment?]
    · exact fun cs h => plain.2.1 (List.cons.inj h).1
    · exact fun cs h => plain.2.2 (List.cons.inj h).1

end Symbol

theorem Reads.symbol {nl : Bool} {rest : List Char} {ms : List Mark} {s : Symbol}
    (hends : s.EndsBefore rest) (hrest : Reads false rest ms) :
    Reads nl (s.chars ++ rest) ((.symbol s, nl) :: ms) := by
  have found := Symbol.find_all hends
  cases chars : s.chars with
  | nil => cases s <;> cases chars
  | cons c tail =>
    rw [cons_append]
    refine token tail.length ?_ (by simpa using hrest)
    have scanned : scanSymbol c (tail ++ rest) = ⟨.token (.symbol s), tail.length⟩ := by
      rw [chars, cons_append] at found
      simp only [scanSymbol, found, chars, length_cons, Nat.add_sub_cancel]
    rw [Symbol.scan_head s chars, scanned]
    split
    case isFalse => rfl
    case isTrue slash =>
      rw [Symbol.scanComment?_eq_none hends chars slash, Option.getD_none]

/-! ### Numbers -/

theorem isNameChar_of_isDigit {c : Char} (h : c.isDigit) : isNameChar c := by
  simp [isNameChar, Char.isAlphanum, h]

theorem numberTail_digits {ds : List Char} (hds : ∀ d ∈ ds, d.isDigit) (rest : List Char) :
    numberTail (ds ++ rest) = ds.length + numberTail rest := by
  induction ds with
  | nil => simp
  | cons d ds ih =>
    have digit : d.isDigit := hds d mem_cons_self
    rw [cons_append, numberTail, if_pos digit, ih fun d hd => hds d (mem_cons_of_mem _ hd),
      length_cons]
    · omega
    · rintro d' ds' rfl
      exact absurd digit (by decide)

theorem numberTail_of_apart {rest : List Char} (h : ApartFromNumber rest) :
    numberTail rest = 0 := by
  cases rest with
  | nil => rfl
  | cons c rest =>
    obtain ⟨plain, point⟩ := h c rfl
    have digit : ¬ c.isDigit := fun h => by simp [isNameChar_of_isDigit h] at plain
    rw [numberTail, if_neg digit]
    rintro d ds rfl
    exact absurd rfl point

theorem takeWhile_of_apart {rest : List Char} (h : ApartFromNumber rest) :
    rest.takeWhile isNameChar = [] := by
  simpa using takeWhile_append_of_apart all_nil h.apart

theorem takeWhile_digits {ds : List Char} (hds : ∀ d ∈ ds, d.isDigit) (rest : List Char)
    (hrest : ∀ c ∈ rest.head?, c.isDigit = false) : (ds ++ rest).takeWhile Char.isDigit = ds := by
  rw [takeWhile_append_of_pos hds]
  cases rest with
  | nil => simp
  | cons c rest => simp [hrest c rfl]

theorem isNameStart_of_isDigit {c : Char} (h : c.isDigit = true) : isNameStart c = false := by
  have range := h
  simp only [Char.isDigit, Bool.and_eq_true, decide_eq_true_eq] at range
  by_contra start
  simp only [isNameStart, Bool.not_eq_false, Bool.or_eq_true, decide_eq_true_eq] at start
  rcases start with letter | rfl
  · rcases Bool.or_eq_true_iff.mp letter with upper | lower
    · have above := (of_decide_eq_true upper).1
      exact absurd (UInt32.le_trans above range.2) (by decide)
    · have above := of_decide_eq_true (Bool.and_eq_true_iff.mp lower).1
      exact absurd (UInt32.le_trans above range.2) (by decide)
  · exact absurd h (by decide)

theorem scan_digit {c : Char} (h : c.isDigit) (cs : List Char) : scan c cs = scanNumber c cs := by
  have visible : isBlank c = false := by
    by_contra blank
    simp only [isBlank, Bool.not_eq_false, Bool.or_eq_true, decide_eq_true_eq] at blank
    rcases blank with (((rfl | rfl) | rfl) | rfl) | rfl <;> exact absurd h (by decide)
  simp only [scan, visible, isNameStart_of_isDigit h, h, if_true, Bool.false_eq_true, if_false]

theorem scanNumber_int {c : Char} {cs rest : List Char} (hds : ∀ d ∈ c :: cs, d.isDigit)
    (hrest : ApartFromNumber rest) :
    scanNumber c (cs ++ rest) = ⟨intPiece (c :: cs), cs.length⟩ := by
  have tail : numberTail (cs ++ rest) = cs.length := by
    rw [numberTail_digits fun d hd => hds d (mem_cons_of_mem _ hd), numberTail_of_apart hrest,
      Nat.add_zero]
  have whole : (c :: cs).takeWhile Char.isDigit = c :: cs := by
    simpa using takeWhile_digits hds [] (by simp)
  simp only [scanNumber, tail, take_left, drop_left, takeWhile_of_apart hrest, whole,
    drop_length, length_nil, Nat.add_zero]

theorem scanNumber_float {c : Char} {cs fraction rest : List Char} (hds : ∀ d ∈ c :: cs, d.isDigit)
    (hne : fraction ≠ []) (hfs : ∀ d ∈ fraction, d.isDigit) (hrest : ApartFromNumber rest) :
    scanNumber c (cs ++ '.' :: fraction ++ rest) =
      ⟨floatPiece (c :: cs) fraction, (cs ++ '.' :: fraction).length⟩ := by
  have tail : numberTail (cs ++ '.' :: fraction ++ rest) = (cs ++ '.' :: fraction).length := by
    rw [append_assoc, numberTail_digits fun d hd => hds d (mem_cons_of_mem _ hd)]
    cases fraction with
    | nil => exact absurd rfl hne
    | cons d fraction =>
      rw [cons_append, cons_append, numberTail, if_pos (hfs d mem_cons_self),
        numberTail_digits fun d hd => hfs d (mem_cons_of_mem _ hd), numberTail_of_apart hrest]
      simp
  have whole : (c :: (cs ++ '.' :: fraction)).takeWhile Char.isDigit = c :: cs :=
    takeWhile_digits hds ('.' :: fraction) (by simp)
  have behind : (c :: (cs ++ '.' :: fraction)).drop (c :: cs).length = '.' :: fraction :=
    drop_left
  simp only [scanNumber, tail, take_left, drop_left, takeWhile_of_apart hrest, whole,
    behind, List.all_eq_true.mpr hfs, if_true, length_nil, Nat.add_zero]

namespace Reads

variable {nl : Bool} {rest : List Char} {ms : List Mark}

theorem int {value : Nat} (bound : value < intBound) (apart : ApartFromNumber rest)
    (hrest : Reads false rest ms) :
    Reads nl ((toString value).toList ++ rest) ((.int value, nl) :: ms) := by
  have text : (toString value).toList = Nat.toDigits 10 value := Nat.toList_repr
  rw [text]
  cases digits : Nat.toDigits 10 value with
  | nil => exact absurd digits (toDigits_ne_nil value)
  | cons c cs =>
    have hds : ∀ d ∈ c :: cs, d.isDigit := fun d hd => isDigit_of_mem_toDigits (digits ▸ hd)
    have denotes : decimalValue (c :: cs) = value := digits ▸ decimalValue_toDigits value
    rw [cons_append]
    refine token cs.length ?_ (by simpa using hrest)
    rw [scan_digit (hds c mem_cons_self), scanNumber_int hds apart, intPiece, denotes,
      if_pos bound]

theorem float {value : Binary64} (apart : ApartFromNumber rest) (hrest : Reads false rest ms) :
    Reads nl (value.print.toList ++ rest) ((.float value, nl) :: ms) := by
  obtain ⟨whole, fraction, text, whole_ne, fraction_ne, hws, hfs, reads⟩ := value.print_reads_back
  rw [text]
  cases whole with
  | nil => exact absurd rfl whole_ne
  | cons c cs =>
    have piece : floatPiece (c :: cs) fraction = .token (.float value) := by
      simp only [floatPiece, reads, Option.elim_some]
    rw [cons_append, cons_append]
    refine token (cs ++ '.' :: fraction).length ?_ (by rwa [drop_left])
    rw [scan_digit (hws c mem_cons_self), ← piece]
    exact scanNumber_float hws fraction_ne hfs apart

end Reads

/-! ### Quoted strings -/

theorem quotedInLiteral_cases (c : Char) :
    (∃ e, quotedInLiteral c = ['\\', e] ∧ escapedChar? e = some c ∧ e ≠ '\n') ∨
      quotedInLiteral c = [c] ∧ c ≠ '\\' ∧ c ≠ '"' ∧ c ≠ '\n' := by
  unfold quotedInLiteral
  split
  · exact .inl ⟨'n', rfl, rfl, by decide⟩
  · exact .inl ⟨'t', rfl, rfl, by decide⟩
  · exact .inl ⟨'r', rfl, rfl, by decide⟩
  · exact .inl ⟨'"', rfl, rfl, by decide⟩
  · exact .inl ⟨'\\', rfl, rfl, by decide⟩
  · rename_i newline _ _ quote backslash
    exact .inr ⟨rfl, backslash, quote, newline⟩

theorem stringBody_quoted (text rest : List Char) :
    stringBody '"' (text.flatMap quotedInLiteral ++ '"' :: rest) =
      (text.flatMap quotedInLiteral).length := by
  induction text with
  | nil => simp [stringBody]
  | cons c text ih =>
    rw [flatMap_cons, append_assoc]
    rcases quotedInLiteral_cases c with ⟨e, escaped, -, ne⟩ | ⟨plain, backslash, quote, newline⟩
    · simp only [escaped, cons_append, nil_append, stringBody, ne, if_false, ih,
        length_cons]
    · rw [plain, cons_append, nil_append, stringBody, ih]
      · simp [quote, newline]
      · exact fun _ _ h _ => backslash h
      · exact fun h _ => backslash h

theorem unescape?_quoted (text : List Char) :
    unescape? (text.flatMap quotedInLiteral) = some text := by
  induction text with
  | nil => rfl
  | cons c text ih =>
    rw [flatMap_cons]
    rcases quotedInLiteral_cases c with ⟨e, escaped, denotes, -⟩ | ⟨plain, backslash, -, -⟩
    · simp only [escaped, cons_append, nil_append, unescape?, denotes, ih]
      rfl
    · rw [plain, cons_append, nil_append, unescape?, ih]
      · rfl
      · exact fun _ _ h _ => backslash h
      · exact fun h _ => backslash h

namespace Reads

variable {nl : Bool} {rest : List Char} {ms : List Mark}

theorem str {value : String} (hrest : Reads false rest ms) :
    Reads nl ((quoted value).toList ++ rest) ((.str value, nl) :: ms) := by
  have text : (quoted value).toList ++ rest =
      '"' :: (value.toList.flatMap quotedInLiteral ++ '"' :: rest) := by
    simp [quoted]
  rw [text]
  generalize body : value.toList.flatMap quotedInLiteral = cs
  have size : stringBody '"' (cs ++ '"' :: rest) = cs.length := by
    rw [← body, stringBody_quoted]
  have denotes : unescape? cs = some value.toList := by
    rw [← body, unescape?_quoted]
  have behind : (cs ++ '"' :: rest).drop (cs.length + 1) = rest := by
    rw [← drop_drop, drop_left, drop_one, tail_cons]
  refine token (cs.length + 1) ?_ (by rwa [behind])
  have scanned : scan '"' (cs ++ '"' :: rest) = scanString '"' (cs ++ '"' :: rest) := by
    simp +decide only [scan, if_false, if_true]
  simp only [scanned, scanString, size, drop_left, take_left, denotes, if_true,
    String.ofList_toList]

theorem blanks {n : Nat} (hrest : Reads nl rest ms) :
    Reads nl (List.replicate n ' ' ++ rest) ms := by
  induction n with
  | zero => simpa using hrest
  | succ n ih =>
    rw [replicate_succ, cons_append]
    exact blank rfl (by simpa using ih)

theorem newline (hrest : Reads true rest ms) : Reads nl ('\n' :: rest) ms :=
  blank rfl (by simpa using hrest)

theorem space (hrest : Reads nl rest ms) : Reads nl (' ' :: rest) ms :=
  blank rfl (by simpa using hrest)

theorem tokens_eq {text : String} (h : Reads false text.toList ms) :
    ∃ ts : List Token, tokens text = .ok ts ∧ ts.map Token.mark = ms := by
  obtain ⟨ts, items, marks⟩ := h (.ofText text) 0
  refine ⟨ts, ?_, marks⟩
  rw [tokens, lex, items]
  clear items marks
  induction ts with
  | nil => rfl
  | cons t ts ih =>
    rw [map_cons, mapM_cons, ih]
    rfl

end Reads

end ArkLang
