import ArkLang.Proofs.LexedText

/-!
# Line breaks in front of tokens

A token tells whether a line break stands in front of it. What counts is the stretch from the end of
the item before, which is a token or an error. So a token and the next one may stand on different
lines although the flag says that they do not: the line break stands in front of an error between
them, or inside it.
-/

namespace ArkLang

open List

/-! ### Stretches of a text -/

theorem eq_nil_of_byteSize {cs : List Char} (h : byteSize cs = 0) : cs = [] := by
  by_contra ne
  exact absurd h (byteSize_pos ne).ne'

theorem exists_of_byteSize_le {before before' behind behind' : List Char}
    (h : before ++ behind = before' ++ behind') (le : byteSize before ≤ byteSize before') :
    ∃ more, before' = before ++ more ∧ behind = more ++ behind' := by
  rcases List.append_eq_append_iff.mp h with found | ⟨more, rfl, rfl⟩
  · exact found
  · obtain rfl : more = [] := eq_nil_of_byteSize (by rw [byteSize_append] at le; omega)
    exact ⟨[], by simp, by simp⟩

theorem append_inj_of_byteSize {before before' behind behind' : List Char}
    (h : before ++ behind = before' ++ behind') (same : byteSize before = byteSize before') :
    before = before' ∧ behind = behind' := by
  obtain ⟨more, rfl, rfl⟩ := exists_of_byteSize_le h same.le
  obtain rfl : more = [] := eq_nil_of_byteSize (by rw [byteSize_append] at same; omega)
  simp

def CutAt (text : List Char) (offset : Nat) : Prop :=
  ∃ before behind, text = before ++ behind ∧ offset = byteSize before

theorem Under.cutAt {text cs : List Char} {span : Span} (h : Under text span cs) :
    CutAt text span.offset ∧ CutAt text span.stop := by
  obtain ⟨before, behind, rfl, rfl⟩ := h
  refine ⟨⟨before, cs ++ behind, by simp, rfl⟩, ⟨before ++ cs, behind, rfl, ?_⟩⟩
  rw [Span.stop, byteSize_append]

/-- A line feed stands between two offsets of a text. -/
def BreakBetween (text : List Char) (start stop : Nat) : Prop :=
  ∃ cs, Under text (.between start stop) cs ∧ '\n' ∈ cs

theorem breakBetween_iff {text before gap behind : List Char} (h : text = before ++ gap ++ behind) :
    BreakBetween text (byteSize before) (byteSize before + byteSize gap) ↔ '\n' ∈ gap := by
  have span : Span.between (byteSize before) (byteSize before + byteSize gap) =
      ⟨byteSize before, byteSize gap⟩ := by simp [Span.between]
  constructor
  · rintro ⟨cs, ⟨before', behind', same, place⟩, mem⟩
    rw [span, Span.mk.injEq] at place
    rw [h, append_assoc, append_assoc] at same
    obtain ⟨-, same⟩ := append_inj_of_byteSize same place.1
    rwa [(append_inj_of_byteSize same place.2).1]
  · exact fun mem => ⟨gap, ⟨before, behind, h, span⟩, mem⟩

theorem breakBetween_split {text : List Char} {start middle stop : Nat} (hstart : CutAt text start)
    (hmiddle : CutAt text middle) (hstop : CutAt text stop) (le : start ≤ middle)
    (le' : middle ≤ stop) : BreakBetween text start stop ↔
      BreakBetween text start middle ∨ BreakBetween text middle stop := by
  obtain ⟨before, behind, htext, rfl⟩ := hstart
  obtain ⟨_, behind₁, same₁, rfl⟩ := hmiddle
  obtain ⟨_, behind₂, same₂, rfl⟩ := hstop
  obtain ⟨first, rfl, rfl⟩ := exists_of_byteSize_le (htext.symm.trans same₁) le
  obtain ⟨second, rfl, rfl⟩ := exists_of_byteSize_le (same₁.symm.trans same₂) le'
  have whole : text = before ++ (first ++ second) ++ behind₂ := by simp [htext]
  have front : text = before ++ first ++ (second ++ behind₂) := by simp [htext]
  have size : byteSize (before ++ first ++ second) =
      byteSize before + byteSize (first ++ second) := by simp
  rw [byteSize_append _ first, breakBetween_iff front, ← byteSize_append, byteSize_append _ second,
    breakBetween_iff same₂, ← byteSize_append, size, breakBetween_iff whole, mem_append]

/-! ### Flags of items -/

/-- Every token tells whether a line feed stands between it and the item before, or `start` if it is
the first. -/
def Flagged (text : List Char) : (start : Nat) → List LexItem → Prop
  | _, [] => True
  | start, item :: items =>
    (∀ token, item = .ok token →
      (token.newlineBefore = true ↔ BreakBetween text start token.span.offset)) ∧
    Flagged text item.span.stop items

/-- The flag that reading starts with is that of the gap so far. -/
theorem flagged_lexFrom (text : List Char) (lines : LineIndex) (offset : Nat) (newline : Bool)
    (cs : List Char) : ∀ before gap, text = before ++ gap ++ cs →
      offset = byteSize before + byteSize gap → newline = gap.contains '\n' →
      Flagged text (byteSize before) (lexFrom lines offset newline cs) := by
  have flag {before gap cs : List Char} (htext : text = before ++ gap ++ cs) :
      gap.contains '\n' = true ↔ BreakBetween text (byteSize before)
        (byteSize before + byteSize gap) := by
    rw [breakBetween_iff htext, contains_iff_mem]
  -- behind an item, a new gap starts
  have goesOn {before gap lexeme : List Char} {items : List LexItem}
      (h : Flagged text (byteSize (before ++ gap ++ lexeme)) items) :
      Flagged text (Span.between (byteSize before + byteSize gap)
        (byteSize before + byteSize gap + byteSize lexeme)).stop items := by
    rw [byteSize_append, byteSize_append] at h
    rwa [Span.between, Span.stop, Nat.add_sub_cancel_left]
  fun_induction lexFrom lines offset newline cs with
  | case1 offset newline =>
    rintro before gap htext rfl rfl
    refine ⟨?_, trivial⟩
    rintro _ ⟨⟩
    exact flag htext
  | case2 offset newline c cs found lexeme stop piece ih =>
    rintro before gap htext rfl rfl
    refine ih before (gap ++ lexeme) ?_ ?_ ?_
    · simp [htext, lexeme]
    · simp only [stop, byteSize_append, Nat.add_assoc]
    · simp
  | case3 offset newline c cs found lexeme stop span kind piece ih =>
    rintro before gap htext rfl rfl
    refine ⟨?_, goesOn (ih (before ++ gap ++ lexeme) [] (by simp [htext, lexeme]) ?_ rfl)⟩
    · rintro _ ⟨⟩
      exact flag htext
    · rw [byteSize_append, byteSize_append, byteSize_nil]
      rfl
  | case4 offset newline c cs found lexeme stop span cause piece ih =>
    rintro before gap htext rfl rfl
    refine ⟨?_, goesOn (ih (before ++ gap ++ lexeme) [] (by simp [htext, lexeme]) ?_ rfl)⟩
    · rintro _ ⟨⟩
    · rw [byteSize_append, byteSize_append, byteSize_nil]
      rfl

/-- The end of the last item, or `start` if there is none. -/
def stopOf (start : Nat) (items : List LexItem) : Nat :=
  items.getLast?.elim start (·.span.stop)

theorem Flagged.behind {text : List Char} {start : Nat} {items more : List LexItem}
    (h : Flagged text start (items ++ more)) : Flagged text (stopOf start items) more := by
  induction items generalizing start with
  | nil => exact h
  | cons item items ih =>
    have last : stopOf start (item :: items) = stopOf item.span.stop items := by
      rw [stopOf, stopOf, getLast?_cons]
      cases items.getLast? <;> rfl
    rw [last]
    exact ih h.2

theorem stopOf_errors (start : Nat) (errors : List LexError) :
    stopOf start (errors.map .error) = errors.getLast?.elim start (·.span.stop) := by
  rw [stopOf, getLast?_map]
  cases errors.getLast? <;> rfl

/-! ### Tokens and the errors between them -/

def LexItem.token? : LexItem → Option Token
  | .ok token => some token
  | .error _ => none

theorem fst_tokensAndErrors (text : String) :
    (tokensAndErrors text).1 = (lex text).filterMap LexItem.token? :=
  rfl

theorem exists_errors {items : List LexItem} (h : ∀ item ∈ items, item.token? = none) :
    ∃ errors : List LexError, items = errors.map .error := by
  induction items with
  | nil => exact ⟨[], rfl⟩
  | cons item items ih =>
    obtain ⟨errors, rfl⟩ := ih fun x mem => h x (mem_cons_of_mem _ mem)
    cases item with
    | ok token => cases h _ mem_cons_self
    | error e => exact ⟨e :: errors, rfl⟩

/-- Two tokens in a row among the items of a text: only errors stand between. -/
theorem exists_items {text : String} {before behind : List Token} {a b : Token}
    (h : (tokensAndErrors text).1 = before ++ a :: b :: behind) :
    ∃ (front rear : List LexItem) (errors : List LexError),
      lex text = front ++ .ok a :: (errors.map .error ++ .ok b :: rear) := by
  rw [fst_tokensAndErrors] at h
  obtain ⟨first, rest, split, -, h⟩ := List.filterMap_eq_append_iff.mp h
  obtain ⟨skipped, x, rest, rfl, -, isA, h⟩ := List.filterMap_eq_cons_iff.mp h
  obtain ⟨between, y, rear, rfl, noToken, isB, -⟩ := List.filterMap_eq_cons_iff.mp h
  obtain rfl : x = .ok a := by
    cases x <;> cases isA
    rfl
  obtain rfl : y = .ok b := by
    cases y <;> cases isB
    rfl
  obtain ⟨errors, rfl⟩ := exists_errors noToken
  rw [← append_assoc] at split
  exact ⟨first ++ skipped, rear, errors, split⟩

theorem cutAt_of_mem_lex {text : String} {item : LexItem} (mem : item ∈ lex text) :
    CutAt text.toList item.span.offset ∧ CutAt text.toList item.span.stop := by
  obtain ⟨items, last, split, -, place, stand⟩ := (cut_lex text).exists_last [] rfl rfl
  rw [split] at mem
  rcases List.mem_append.mp mem with inner | isLast
  · obtain ⟨lexeme, under, -⟩ := (stand item inner).alone
    exact under.cutAt
  · obtain rfl := List.mem_singleton.mp isLast
    have whole : CutAt text.toList (byteSize text.toList) := ⟨text.toList, [], by simp, rfl⟩
    rw [LexItem.span, place]
    exact ⟨whole, whole⟩

theorem stopOf_between {text : String} {front rear : List LexItem} {errors : List LexError}
    {a b : Token} (split : lex text = front ++ .ok a :: (errors.map .error ++ .ok b :: rear)) :
    CutAt text.toList (stopOf a.span.stop (errors.map .error)) ∧
      a.span.stop ≤ stopOf a.span.stop (errors.map .error) ∧
      stopOf a.span.stop (errors.map .error) ≤ b.span.offset := by
  have ordered := (cut_lex text).pairwise
  rw [pairwise_map, split, pairwise_append, pairwise_cons, pairwise_append] at ordered
  obtain ⟨-, ⟨behind, -, -, inFront⟩, -⟩ := ordered
  rw [stopOf_errors]
  cases last : errors.getLast? with
  | none =>
    have mem : .ok a ∈ lex text := by simp [split]
    exact ⟨(cutAt_of_mem_lex mem).2, Nat.le_refl _, (behind (.ok b) (by simp)).2⟩
  | some e =>
    have listed : (.error e : LexItem) ∈ errors.map .error :=
      mem_map_of_mem (mem_of_getLast? last)
    have mem : .error e ∈ lex text := by rw [split]; simp [listed]
    have behindA := (behind (.error e) (by simp [listed])).2
    refine ⟨(cutAt_of_mem_lex mem).2, behindA.trans (Nat.le_add_right _ _), ?_⟩
    exact (inFront (.error e) listed (.ok b) (by simp)).2

/-- The flag of a token says whether a line feed stands between it and what is before it: the last
of the errors behind the token before, or else that token. So a line feed between two tokens in a
row is told by the flag, or it stands in front of the end of the last error between them. -/
theorem newlineBefore_iff (text : String) {before behind : List Token} {a b : Token}
    (row : (tokensAndErrors text).1 = before ++ a :: b :: behind) :
    ∃ (front rear : List LexItem) (errors : List LexError),
      lex text = front ++ .ok a :: (errors.map .error ++ .ok b :: rear) ∧
      let start := errors.getLast?.elim a.span.stop (·.span.stop)
      (b.newlineBefore = true ↔ BreakBetween text.toList start b.span.offset) ∧
      (BreakBetween text.toList a.span.stop b.span.offset ↔
        b.newlineBefore = true ∨ BreakBetween text.toList a.span.stop start) := by
  obtain ⟨front, rear, errors, split⟩ := exists_items row
  refine ⟨front, rear, errors, split, ?_⟩
  rw [← stopOf_errors]
  intro start
  have flagged : Flagged text.toList 0 (lex text) :=
    flagged_lexFrom _ _ 0 false _ [] [] rfl rfl rfl
  rw [split] at flagged
  have flag : b.newlineBefore = true ↔ BreakBetween text.toList start b.span.offset :=
    flagged.behind.2.behind.1 b rfl
  refine ⟨flag, ?_⟩
  obtain ⟨cut, behindA, inFrontB⟩ := stopOf_between split
  have memA : .ok a ∈ lex text := by simp [split]
  have memB : .ok b ∈ lex text := by simp [split]
  have parts := breakBetween_split (cutAt_of_mem_lex memA).2 cut (cutAt_of_mem_lex memB).1 behindA
    inFrontB
  exact parts.trans (or_comm.trans (or_congr_left flag.symm))

/-- The line feed behind the sign that is no token is told. -/
theorem newlineBefore_iff_behind_error :
    let x : Token := ⟨.ident "x", ⟨0, 1⟩, ⟨1, 1⟩, false⟩
    let y : Token := ⟨.ident "y", ⟨4, 1⟩, ⟨2, 1⟩, true⟩
    let eof : Token := ⟨.eof, ⟨5, 0⟩, ⟨2, 2⟩, false⟩
    (tokensAndErrors "x $\ny").1 = [] ++ x :: y :: [eof] ∧
      BreakBetween "x $\ny".toList x.span.stop y.span.offset := by
  intro x y eof
  have row : (tokensAndErrors "x $\ny").1 = [] ++ x :: y :: [eof] := by decide +kernel
  obtain ⟨_, _, _, _, -, whole⟩ := newlineBefore_iff "x $\ny" row
  exact ⟨row, whole.mpr (.inl rfl)⟩

/-- The line feed in front of the sign that is no token is not told. -/
theorem newlineBefore_misses_break :
    let a : Token := ⟨.ident "a", ⟨0, 1⟩, ⟨1, 1⟩, false⟩
    let b : Token := ⟨.ident "b", ⟨4, 1⟩, ⟨2, 3⟩, false⟩
    let eof : Token := ⟨.eof, ⟨5, 0⟩, ⟨2, 4⟩, false⟩
    (tokensAndErrors "a\n$ b").1 = [a, b, eof] ∧
      BreakBetween "a\n$ b".toList a.span.stop b.span.offset ∧ b.newlineBefore = false := by
  intro a b eof
  refine ⟨by decide +kernel, ⟨['\n', '$', ' '], ⟨['a'], ['b'], ?_, ?_⟩, by decide⟩, rfl⟩
  · decide
  · decide

end ArkLang
