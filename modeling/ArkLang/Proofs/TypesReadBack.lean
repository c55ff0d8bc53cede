import ArkLang.Proofs.ParsedTrees
import ArkLang.Tree.Normal

/-!
# Reading the tokens of types

What a parser does depends on the kinds of the tokens left and on the line breaks in front of them,
not on their places. A parser that finds the tokens of a type in front of some others gives a type
of the same structure and stops behind them, provided that what follows does not qualify its last
name.
-/

namespace ArkLang

open List

/-- What a parser sees of the tokens left. -/
def ParseState.marks (st : ParseState) : List Mark :=
  st.rest.map Token.mark

namespace ParseState

variable {st : ParseState} {kind : TokenKind} {nl : Bool} {ms : List Mark}

theorem length_rest : st.rest.length = st.marks.length := by
  simp [marks]

theorem next_kind (h : st.marks = (kind, nl) :: ms) (ctx : ParseContext) :
    (st.next ctx).kind = kind := by
  obtain ⟨t, ts, tokens, mark, -⟩ := List.map_eq_cons_iff.mp h
  rw [next, tokens]
  exact congrArg Prod.fst mark

theorem next_kind_of_nil (h : st.marks = []) (ctx : ParseContext) : (st.next ctx).kind = .eof := by
  rw [next, List.map_eq_nil_iff.mp h]
  simp only [headD_nil, endToken]
  split <;> rfl

theorem next_newline (h : st.marks = (kind, nl) :: ms) (ctx : ParseContext) :
    (st.next ctx).newlineBefore = nl := by
  obtain ⟨t, ts, tokens, mark, -⟩ := List.map_eq_cons_iff.mp h
  rw [next, tokens]
  exact congrArg Prod.snd mark

theorem past_marks (h : st.marks = (kind, nl) :: ms) (notEnd : kind ≠ .eof) :
    st.past.marks = ms := by
  obtain ⟨t, ts, tokens, mark, rest⟩ := List.map_eq_cons_iff.mp h
  have : t.kind ≠ .eof := by
    rw [show t.kind = kind from congrArg Prod.fst mark]
    exact notEnd
  simp only [marks, past, tokens, Parser.afterNext, this, if_false]
  exact rest

theorem peek_marks (st : ParseState) (n : Nat) :
    (st.rest[n]?).map Token.kind = (st.marks[n]?).map Prod.fst := by
  simp [marks, Function.comp_def, Token.mark]

end ParseState

/-- A parser that finds tokens with some marks gives a value, and it and the marks of the tokens
left have a property. -/
def Parses {α : Type} (p : Parser α) (ctx : ParseContext) (ms : List Mark)
    (Q : α → List Mark → Prop) : Prop :=
  ∀ st : ParseState, st.marks = ms → Reaches p ctx st fun a st' => Q a st'.marks

/-- Tokens that a parser reads as something with a property, when what follows has another. -/
def Recognizes {α : Type} (p : Parser α) (ctx : ParseContext) (ms : List Mark)
    (follow : List Mark → Prop) (good : α → Prop) : Prop :=
  ∀ ⦃rest : List Mark⦄, follow rest → Parses p ctx (ms ++ rest) fun a ms' => ms' = rest ∧ good a

def NextIs (kind : TokenKind) (ms : List Mark) : Prop :=
  ∃ nl rest, ms = (kind, nl) :: rest

variable {α β : Type} {ctx : ParseContext} {ms rest : List Mark} {Q : α → List Mark → Prop}

/-! ### Steps -/

namespace Parses

theorem pure {a : α} (h : Q a ms) : Parses (Pure.pure a) ctx ms Q :=
  fun _ here => reaches_pure.mpr (here ▸ h)

theorem bind {p : Parser β} {f : β → Parser α} {R : β → List Mark → Prop} (hp : Parses p ctx ms R)
    (hf : ∀ b ms', R b ms' → Parses (f b) ctx ms' Q) : Parses (p >>= f) ctx ms Q :=
  fun st here => reaches_bind.mpr ((hp st here).mono fun b st' r => hf b _ r st' rfl)

theorem mono {p : Parser α} {R : α → List Mark → Prop} (h : Parses p ctx ms R)
    (hQ : ∀ a ms', R a ms' → Q a ms') : Parses p ctx ms Q :=
  fun st here => (h st here).mono fun a _ r => hQ a _ r

/-- A parser does what it does at a state with other marks. -/
theorem of_run {p p' : Parser α} {ms' : List Mark} (h : Parses p' ctx ms' Q)
    (run : ∀ st : ParseState, st.marks = ms →
      ∃ st', st'.marks = ms' ∧ runAt p ctx st = runAt p' ctx st') : Parses p ctx ms Q := by
  intro st here
  obtain ⟨st', here', same⟩ := run st here
  simpa only [Reaches, Gives, same] using h st' here'

section Steps

variable {kind : TokenKind} {nl : Bool} {s : Symbol} {p q : Parser α} {f : Token → Parser α}

theorem current (here : ms = (kind, nl) :: rest)
    (h : ∀ t, t.kind = kind → t.newlineBefore = nl → Parses (f t) ctx ms Q) :
    Parses (Parser.current >>= f) ctx ms Q := by
  subst here
  exact fun st here => h _ (st.next_kind here ctx) (st.next_newline here ctx) st here

theorem isSign (here : ms = (kind, nl) :: rest) {f : Bool → Parser α}
    (h : Parses (f (kind == .symbol s)) ctx ms Q) : Parses (Parser.isSign s >>= f) ctx ms Q :=
  h.of_run fun st hst => ⟨st, hst, by rw [← st.next_kind (hst.trans here) ctx]; rfl⟩

theorem isEnd (here : ms = (kind, nl) :: rest) {f : Bool → Parser α}
    (h : Parses (f (kind == .eof)) ctx ms Q) : Parses (Parser.isEnd >>= f) ctx ms Q :=
  h.of_run fun st hst => ⟨st, hst, by rw [← st.next_kind (hst.trans here) ctx]; rfl⟩

theorem ifSign (next : NextIs (.symbol s) ms) (h : Parses p ctx ms Q) :
    Parses (do if ← Parser.isSign s then p else q) ctx ms Q := by
  obtain ⟨nl, rest, here⟩ := next
  refine isSign here ?_
  rwa [if_pos (by simp)]

theorem ifOther (other : ¬ NextIs (.symbol s) ms) (h : Parses q ctx ms Q) :
    Parses (do if ← Parser.isSign s then p else q) ctx ms Q := by
  refine h.of_run fun st here => ⟨st, here, ?_⟩
  have next : (st.next ctx).kind ≠ .symbol s := by
    rcases ms with _ | ⟨⟨kind, nl⟩, ms⟩
    · simp [st.next_kind_of_nil here]
    · rw [st.next_kind here]
      rintro rfl
      exact other ⟨nl, ms, rfl⟩
  change runAt (if ((st.next ctx).kind == .symbol s) = true then p else q) ctx st = _
  rw [if_neg (by simpa using next)]

theorem advance (real : kind ≠ .eof) {f : Unit → Parser α} (h : Parses (f ()) ctx ms Q) :
    Parses (Parser.advance >>= f) ctx ((kind, nl) :: ms) Q :=
  h.of_run fun st here => ⟨st.past, st.past_marks here real, rfl⟩

theorem bump (real : kind ≠ .eof) (h : ∀ t, t.kind = kind → Parses (f t) ctx ms Q) :
    Parses (Parser.bump >>= f) ctx ((kind, nl) :: ms) Q :=
  fun st here => h _ (st.next_kind here ctx) st.past (st.past_marks here real)

theorem expect (real : kind ≠ .eof) (h : ∀ t, Parses (f t) ctx ms Q) :
    Parses (Parser.expect kind >>= f) ctx ((kind, nl) :: ms) Q := by
  simp only [Parser.expect, bind_assoc]
  refine current rfl fun t next _ => ?_
  rw [if_pos next, bind_assoc]
  exact advance real (h t)

theorem expectSign (h : ∀ t, Parses (f t) ctx ms Q) :
    Parses (Parser.expectSign s >>= f) ctx ((.symbol s, nl) :: ms) Q :=
  expect nofun h

theorem closing {opening : Token} (h : ∀ t, Parses (f t) ctx ms Q) :
    Parses (Parser.expectClosing s opening >>= f) ctx ((.symbol s, nl) :: ms) Q := by
  simp only [Parser.expectClosing, bind_assoc]
  refine isSign rfl ?_
  rw [if_pos (by simp)]
  exact bump nofun fun t _ => h t

theorem expectIdent {name : String} {f : Ident → Parser α}
    (h : ∀ span, Parses (f ⟨name, span⟩) ctx ms Q) :
    Parses (Parser.expectIdent >>= f) ctx ((.ident name, nl) :: ms) Q := by
  simp only [Parser.expectIdent, bind_assoc]
  refine bump nofun fun t next => ?_
  rw [next]
  exact h t.span

end Steps

theorem freshId {f : NodeId → Parser α} (h : ∀ id, Parses (f id) ctx ms Q) :
    Parses (Parser.freshId >>= f) ctx ms Q :=
  fun st here => h st.nextId st.numbered here

theorem freshNode {span : Span} {f : Node → Parser α} (h : ∀ node, Parses (f node) ctx ms Q) :
    Parses (Parser.freshNode span >>= f) ctx ms Q :=
  fun st here => h ⟨st.nextId, span⟩ st.numbered here

theorem remaining {f : Nat → Parser α} (h : Parses (f ms.length) ctx ms Q) :
    Parses (Parser.remaining >>= f) ctx ms Q :=
  h.of_run fun st here => ⟨st, here, by rw [← here, ← st.length_rest]; rfl⟩

theorem peek {n : Nat} {f : Option TokenKind → Parser α}
    (h : Parses (f ((ms[n]?).map Prod.fst)) ctx ms Q) : Parses (Parser.peek? n >>= f) ctx ms Q :=
  h.of_run fun st here => ⟨st, here, by rw [← here, ← st.peek_marks]; rfl⟩

theorem reading {f : ParseContext → Parser α} (h : Parses (f ctx) ctx ms Q) :
    Parses (MonadReader.read >>= f) ctx ms Q :=
  h

theorem refuse {d : Dialect} {stop p : Parser α} (other : ctx.dialect ≠ d)
    (h : Parses p ctx ms Q) : Parses (do if (← read).dialect = d then stop else p) ctx ms Q := by
  refine reading ?_
  rwa [if_neg other]

end Parses

namespace Recognizes

variable {p : Parser β} {follow : List Mark → Prop} {good : β → Prop}

theorem bind (h : Recognizes p ctx ms follow good) (ends : follow rest) {f : β → Parser α}
    (hf : ∀ b, good b → Parses (f b) ctx rest Q) : Parses (p >>= f) ctx (ms ++ rest) Q := by
  refine (h ends).bind ?_
  rintro b _ ⟨rfl, isGood⟩
  exact hf b isGood

theorem map_bind {γ : Type} (h : Recognizes p ctx ms follow good) (ends : follow rest)
    {make : β → γ} {f : γ → Parser α} (hf : ∀ b, good b → Parses (f (make b)) ctx rest Q) :
    Parses (make <$> p >>= f) ctx (ms ++ rest) Q := by
  rw [bind_map_left]
  exact h.bind ends hf

end Recognizes

namespace Parser

theorem commaList_recognizes {item : Parser α} {closing : Symbol}
    (items : List β) (marks : β → List Mark) (good : β → α → Prop)
    (hitem : ∀ b ∈ items, Recognizes item ctx (marks b)
      (fun rest => NextIs (.symbol .comma) rest ∨ NextIs (.symbol closing) rest) (good b))
    (starts : ∀ b ∈ items, ∃ kind nl ms, marks b = (kind, nl) :: ms ∧ kind ≠ .symbol closing ∧
      kind ≠ .eof) (notComma : closing ≠ .comma) {limit : Nat}
    (enough : (separated .comma (items.map marks)).length < limit) :
    Recognizes (commaList closing item limit) ctx (separated .comma (items.map marks))
      (NextIs (.symbol closing)) (List.Forall₂ good items) := by
  obtain ⟨limit, rfl⟩ : ∃ n, limit = n + 1 := ⟨limit - 1, by omega⟩
  induction items generalizing limit with
  | nil =>
    rintro _ ⟨nl, tail, rfl⟩
    refine .isSign rfl (.isEnd rfl ?_)
    rw [if_pos (by simp)]
    exact .pure ⟨rfl, .nil⟩
  | cons b items ih =>
    intro rest closes
    obtain ⟨kind, nl, ms, hb, notClosing, notEnd⟩ := starts b mem_cons_self
    have first {behind : List Mark} {f : α → Parser (List α)} {Q : List α → List Mark → Prop}
        (follow : NextIs (.symbol .comma) behind ∨ NextIs (.symbol closing) behind)
        (h : ∀ a, good b a → Parses (f a) ctx behind Q) :
        Parses (do if (← isSign closing) || (← isEnd) then return [] else f (← item)) ctx
          (marks b ++ behind) Q := by
      have here : marks b ++ behind = (kind, nl) :: (ms ++ behind) := by simp [hb]
      refine .isSign here (.isEnd here ?_)
      rw [if_neg (by simp [notClosing, notEnd])]
      exact (hitem b mem_cons_self).bind follow h
    cases items with
    | nil =>
      simp only [map_cons, map_nil, separated, intercalate_singleton]
      refine first (.inr closes) fun a isGood => .ifOther ?_ (.pure ⟨rfl, .cons isGood .nil⟩)
      obtain ⟨nl', tail, rfl⟩ := closes
      rintro ⟨_, _, ⟨⟩⟩
      exact notComma rfl
    | cons c items =>
      obtain ⟨limit, rfl⟩ : ∃ n, limit = n + 1 :=
        ⟨limit - 1, by simp [separated, hb] at enough; omega⟩
      have split : separated .comma ((b :: c :: items).map marks) =
          marks b ++ Symbol.comma.mark :: separated .comma ((c :: items).map marks) := by
        simp [separated, intercalate_cons_cons]
      rw [split] at enough ⊢
      rw [append_assoc]
      refine first (.inl ⟨false, _, rfl⟩) fun a isGood =>
        .ifSign ⟨_, _, rfl⟩ (.advance (by simp) ?_)
      refine (ih (fun b' mem => hitem b' (mem_cons_of_mem _ mem))
        (fun b' mem => starts b' (mem_cons_of_mem _ mem)) limit ?_).bind closes
          fun as areGood => .pure ⟨rfl, .cons isGood areGood⟩
      simp [hb] at enough ⊢
      omega

/-! ### Types -/

/-- What may follow a type: nothing that makes a name the name of a module. -/
def TypeEnds (rest : List Mark) : Prop :=
  ∀ ms, rest ≠ Symbol.dot.mark :: ms

theorem TypeEnds.of_nextIs {kind : TokenKind} (h : kind ≠ .symbol .dot) {rest : List Mark}
    (next : NextIs kind rest) : TypeEnds rest := by
  obtain ⟨nl, tail, rfl⟩ := next
  rintro ms ⟨⟩
  exact h rfl

theorem TypeEnds.not_qualified {st : ParseState} (h : TypeEnds st.marks) :
    ((st.next ctx).kind == .symbol .dot && !(st.next ctx).newlineBefore) = false := by
  rcases marks : st.marks with _ | ⟨⟨kind, nl⟩, ms⟩
  · rw [st.next_kind_of_nil marks]
    rfl
  · rw [st.next_kind marks, st.next_newline marks, Bool.and_eq_false_iff]
    by_contra both
    simp only [beq_eq_false_iff_ne, Bool.not_eq_false', not_or, not_not, Bool.not_eq_true] at both
    obtain ⟨rfl, rfl⟩ := both
    exact h ms marks

end Parser

theorem TypeExpr.marks_cons (t : TypeExpr) : ∃ kind ms, t.marks = (kind, false) :: ms ∧
    ((∃ name, kind = .ident name) ∨ kind = .symbol .lbracket ∨ kind = .symbol .lparen) := by
  cases t with
  | named | qualified => exact ⟨_, _, rfl, .inl ⟨_, rfl⟩⟩
  | array | list => exact ⟨_, _, rfl, .inr (.inl rfl)⟩
  | proc => exact ⟨_, _, rfl, .inr (.inr rfl)⟩

theorem TypeExpr.marksAll_eq_map (ts : List TypeExpr) : TypeExpr.marksAll ts = ts.map marks := by
  induction ts with
  | nil => rfl
  | cons t ts ih => rw [marksAll, ih, map_cons]

theorem TypeExpr.sameAll_of_forall₂ {ss ts : List TypeExpr}
    (h : List.Forall₂ (fun s t => s.same t = true) ss ts) : TypeExpr.sameAll ss ts = true := by
  induction h with
  | nil => rfl
  | cons first _ ih => rw [sameAll, first, ih, Bool.and_self]

theorem length_le_separated {items : List (List Mark)} {item : List Mark} (mem : item ∈ items)
    (s : Symbol) : item.length ≤ (separated s items).length := by
  rw [separated]
  induction items with
  | nil => cases mem
  | cons first more ih =>
    cases more with
    | nil => simp_all
    | cons second more =>
      rw [intercalate_cons_cons, length_append, length_append]
      rcases List.mem_cons.mp mem with rfl | mem
      · omega
      · have := ih mem
        omega

namespace Parser

mutual

theorem typeWithin_recognizes : (t : TypeExpr) → t.Legible ctx.dialect →
    (depth : Nat) → t.marks.length ≤ depth →
      Recognizes (typeWithin depth) ctx t.marks TypeEnds (fun u => t.same u = true)
  | .named _ name, _, depth + 1, _ => by
    refine fun rest ends => .current rfl fun t next _ => ?_
    rw [next]
    refine .expectIdent fun span st here => ?_
    have single : TypeEnds st.marks := here ▸ ends
    simp only [reaches_bind, reaches_current, reaches_peek?, reaches_ite, reaches_pure]
    rw [if_neg (by split <;> simp [single.not_qualified])]
    exact ⟨here, by simp [TypeExpr.same]⟩
  | .qualified _ module name, _, depth + 1, _ => by
    refine fun rest ends => .current rfl fun t next _ => ?_
    rw [next]
    refine .expectIdent fun span => .current rfl fun dot next sameLine => .peek ?_
    simp only [next, sameLine]
    rw [if_pos (by simp)]
    exact .advance (by simp) (.expectIdent fun span' => .pure ⟨rfl, by simp [TypeExpr.same]⟩)
  | .array _ elem size, legible, depth + 1, enough => by
    intro rest ends
    simp only [TypeExpr.marks, length_cons, length_append] at enough
    simp only [TypeExpr.marks, cons_append, append_assoc, nil_append]
    refine .current rfl fun t next _ => ?_
    rw [next]
    refine .advance (by simp) ((typeWithin_recognizes elem legible.1 depth (by omega)).bind
      (by simp [TypeEnds]) fun elem' same =>
        .ifSign ⟨_, _, rfl⟩ (.advance (by simp) (.bump (by simp) ?_)))
    intro sizeToken next
    rw [next]
    exact .closing fun _ => .pure ⟨rfl, by simp [TypeExpr.same, same]⟩
  | .list _ elem, legible, depth + 1, enough => by
    intro rest ends
    simp only [TypeExpr.marks, length_cons, length_append] at enough
    simp only [TypeExpr.marks, cons_append, append_assoc, nil_append]
    refine .current rfl fun t next _ => ?_
    rw [next]
    refine .advance (by simp) ((typeWithin_recognizes elem legible depth (by omega)).bind
      (by simp [TypeEnds]) fun elem' same => .ifOther (by simp [NextIs]) (.closing fun _ => ?_))
    exact .pure ⟨rfl, by simp [TypeExpr.same, same]⟩
  | .proc _ params ret, legible, depth + 1, enough => by
    intro rest ends
    simp only [TypeExpr.marks, length_cons, length_append, TypeExpr.marksAll_eq_map] at enough
    simp only [TypeExpr.marks, TypeExpr.marksAll_eq_map, cons_append, append_assoc]
    refine .current rfl fun t next _ => ?_
    rw [next]
    refine .refuse (by simp [legible.1]) (.advance (by simp) (.remaining ?_))
    refine (commaList_recognizes params TypeExpr.marks (fun t u => t.same u = true) ?_ ?_ (by simp)
      (by simp)).bind ⟨false, _, rfl⟩ fun params' same => ?_
    · intro t mem rest follow
      have shorter := length_le_separated (mem_map_of_mem (f := TypeExpr.marks) mem) .comma
      refine typeWithin_recognizes_all params legible.2.1 t mem depth (by omega) ?_
      rcases follow with next | next <;> exact .of_nextIs (by simp) next
    · intro t mem
      obtain ⟨kind, ms, marks, start⟩ := t.marks_cons
      refine ⟨kind, false, ms, marks, ?_⟩
      rcases start with ⟨name, rfl⟩ | rfl | rfl <;> simp
    refine .closing fun _ => .expectSign fun _ => ?_
    refine (typeWithin_recognizes ret legible.2.2 depth (by omega)).bind ends fun ret' same' => ?_
    exact .pure ⟨rfl, by simp [TypeExpr.same, TypeExpr.sameAll_of_forall₂ same, same']⟩

theorem typeWithin_recognizes_all : (ts : List TypeExpr) →
    TypeExpr.AllLegible ctx.dialect ts → ∀ t ∈ ts, (depth : Nat) → t.marks.length ≤ depth →
      Recognizes (typeWithin depth) ctx t.marks TypeEnds (fun u => t.same u = true)
  | [], _ => by simp
  | t :: ts, h => by
    rintro u mem
    rcases List.mem_cons.mp mem with same | mem
    · rw [same]
      exact typeWithin_recognizes t h.1
    · exact typeWithin_recognizes_all ts h.2 u mem

end

/-- The tokens of a type are read back wherever a type is looked for. -/
theorem typeExpr_recognizes {t : TypeExpr} (legible : t.Legible ctx.dialect) :
    Recognizes typeExpr ctx t.marks TypeEnds (fun u => t.same u = true) :=
  fun _ ends => .remaining (typeWithin_recognizes t legible _ (by simp; omega) ends)

end Parser

end ArkLang
