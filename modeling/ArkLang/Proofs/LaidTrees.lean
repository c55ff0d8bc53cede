import ArkLang.Proofs.Readings

/-!
# Where a parser puts nodes and errors

A parser builds its nodes in the order of the tokens: those on its stack stand one behind the other
and in front of the tokens that are left, and what it makes of them is again a node from a token to
a token. If it fails, its error starts and ends at tokens: at the next token, at one that opened a
bracket, or over a node on the stack.

## Main definitions

* `Laid` — nodes that stand in front of the tokens that are left
* `layout` — the nodes on the stack are laid

## Main results

* `Laid.wrap` — nodes in a row make a node
-/

namespace ArkLang

theorem Span.stop_join (a b : Span) : (a.join b).stop = max a.stop b.stop := by
  simp only [join, between, stop]
  omega

@[simp] theorem Span.join_self (a : Span) : a.join a = a := by
  simp [join, between, stop]

/-- Tokens that stand one behind the other. -/
def InRow (ts : List Token) : Prop :=
  ts.Pairwise fun a b => a.span.offset < b.span.offset ∧ a.span.stop ≤ b.span.offset

/-- An error over some tokens, with the position of the first of them. -/
structure AtTokens (ts : List Token) (e : ParseError) : Prop where
  starts : ∃ t ∈ ts, t.span.offset = e.span.offset ∧ t.position = e.position
  stops : ∃ t ∈ ts, t.span.stop = e.span.stop

/-- A parser that is somewhere among the tokens, with the end of input still to come. -/
structure Reading (ctx : ParseContext) (st : ParseState) : Prop where
  row : InRow ctx.tokens
  rest : st.rest <:+ ctx.tokens
  ended : ∃ t ∈ st.rest, t.kind = .eof
  errors : ∀ e ∈ st.errors, AtTokens ctx.tokens e

/-- Nodes that are built from tokens that are read. -/
structure Laid (ctx : ParseContext) (xs : List Extent) (st : ParseState) : Prop where
  reading : Reading ctx st
  fits : ∀ x ∈ xs, x.FitsWhole ctx.tokens
  ordered : xs.Pairwise Extent.InFront
  ahead : ∀ x ∈ xs, ∀ t ∈ st.rest, x.span.stop ≤ t.span.offset

variable {ctx : ParseContext} {st st' : ParseState} {before xs behind : List Extent}

theorem Reading.next_mem (h : Reading ctx st) : st.next ctx ∈ st.rest := by
  obtain ⟨t, mem, -⟩ := h.ended
  rw [ParseState.next]
  cases rest : st.rest with
  | nil => simp [rest] at mem
  | cons => simp

/-- The token at the start of a span is found by its offset. -/
theorem Reading.atTokens {span : Span} {fault : ParseFault} (h : Reading ctx st)
    (starts : ∃ t ∈ ctx.tokens, t.span.offset = span.offset)
    (stops : ∃ t ∈ ctx.tokens, t.span.stop = span.stop) :
    AtTokens ctx.tokens ⟨fault, span, ((ctx.tokens.find? fun t => span.offset ≤ t.span.offset).getD
      (endToken ctx.tokens)).position⟩ := by
  obtain ⟨t, mem, offset⟩ := starts
  have found : ctx.tokens.find? (fun t => span.offset ≤ t.span.offset) = some t := by
    obtain ⟨inFront, behind, split⟩ := List.append_of_mem mem
    have row := h.row
    rw [InRow, split] at row
    rw [split, List.find?_append, List.find?_eq_none.mpr]
    · simp [offset]
    · intro u hu
      have less := ((List.pairwise_append.mp row).2.2 u hu t List.mem_cons_self).1
      simp only [decide_eq_true_eq]
      omega
  exact ⟨⟨t, mem, offset, by simp [found]⟩, stops⟩

theorem eof_mem_afterNext {ts : List Token} {t : Token} (mem : t ∈ ts) (eof : t.kind = .eof) :
    t ∈ Parser.afterNext ts := by
  cases ts <;> grind [Parser.afterNext]

namespace Laid

/-- Tokens may be skipped. -/
theorem skip (h : Laid ctx xs st) (rest : st'.rest <:+ st.rest)
    (ended : ∃ t ∈ st'.rest, t.kind = .eof) (errors : ∀ e ∈ st'.errors, AtTokens ctx.tokens e) :
    Laid ctx xs st' where
  reading := ⟨h.reading.row, rest.trans h.reading.rest, ended, errors⟩
  fits := h.fits
  ordered := h.ordered
  ahead x mem t later := h.ahead x mem t (rest.subset later)

theorem past (h : Laid ctx xs st) : Laid ctx xs st.past := by
  obtain ⟨t, mem, eof⟩ := h.reading.ended
  exact h.skip (Parser.afterNext_suffix _) ⟨t, eof_mem_afterNext mem eof, eof⟩ h.reading.errors

/-- The next token is a node without parts. -/
theorem token (h : Laid ctx xs st) (kind : (st.next ctx).kind ≠ .eof) :
    Laid ctx (xs ++ [⟨(st.next ctx).span, []⟩]) st.past := by
  have mem := h.reading.next_mem
  have here := h.reading.rest.subset mem
  have row := h.reading.row.sublist h.reading.rest.sublist
  rw [Parser.rest_of_next kind] at row
  refine ⟨h.past.reading, fun x hx => ?_, ?_, fun x hx t ht => ?_⟩
  · rcases List.mem_append.mp hx with hx | hx
    · exact h.fits x hx
    · rw [List.mem_singleton.mp hx, Extent.fitsWhole_iff]
      exact ⟨⟨⟨_, here, kind, rfl, Nat.le_refl _⟩, ⟨_, here, kind, rfl, Nat.le_refl _⟩, by simp,
        .nil⟩, by simp⟩
  · refine List.pairwise_append.mpr ⟨h.ordered, List.pairwise_singleton _ _, fun x hx y hy => ?_⟩
    rw [List.mem_singleton.mp hy]
    exact h.ahead x hx _ mem
  · rcases List.mem_append.mp hx with hx | hx
    · exact h.past.ahead x hx t ht
    · rw [List.mem_singleton.mp hx]
      exact ((List.pairwise_cons.mp row).1 t ht).2

theorem offset_le {x : Extent} (h : Laid ctx (before ++ (xs ++ behind)) st)
    (head : xs.head? = some x) : ∀ z ∈ xs, x.span.offset ≤ z.span.offset := by
  obtain ⟨others, rfl⟩ := List.head?_eq_some_iff.mp head
  have row := (List.pairwise_append.mp (List.pairwise_append.mp h.ordered).2.1).1
  intro z mem
  rcases List.mem_cons.mp mem with rfl | mem
  · exact Nat.le_refl _
  · exact (Nat.le_add_right _ _).trans ((List.pairwise_cons.mp row).1 z mem)

theorem stop_le {y : Extent} (h : Laid ctx (before ++ (xs ++ behind)) st)
    (last : xs.getLast? = some y) : ∀ z ∈ xs, z.span.stop ≤ y.span.stop := by
  obtain ⟨others, rfl⟩ := List.getLast?_eq_some_iff.mp last
  have row := (List.pairwise_append.mp (List.pairwise_append.mp h.ordered).2.1).1
  intro z mem
  rcases List.mem_append.mp mem with mem | mem
  · exact ((List.pairwise_append.mp row).2.2 z mem y (by simp)).trans (Nat.le_add_right _ _)
  · rw [List.mem_singleton.mp mem]

/-- Nodes in a row are the parts of a node from the start of the first to the end of the last. -/
theorem cover {x y : Extent} {span : Span} {parts : List Extent}
    (h : Laid ctx (before ++ (xs ++ behind)) st) (head : xs.head? = some x)
    (last : xs.getLast? = some y) (offset : span.offset = x.span.offset)
    (stop : span.stop = y.span.stop) (hparts : parts.Sublist xs) :
    Laid ctx (before ++ ⟨span, parts⟩ :: behind) st := by
  have fits (z : Extent) (mem : z ∈ xs) : z.FitsWhole ctx.tokens := h.fits z (by simp [mem])
  obtain ⟨t, memT, realT, startT, stopT⟩ := (fits x (List.mem_of_head? head)).fits.starts
  obtain ⟨u, memU, realU, stopU, startU⟩ := (fits y (List.mem_of_getLast? last)).fits.stops
  obtain ⟨earlier, row, across⟩ := List.pairwise_append.mp h.ordered
  obtain ⟨row, later, between⟩ := List.pairwise_append.mp row
  have starts := h.offset_le head
  have stops := h.stop_le last
  have hereX := List.mem_of_head? head
  have hereY := List.mem_of_getLast? last
  refine ⟨h.reading, fun z hz => ?_, ?_, fun z hz t ht => ?_⟩
  · rcases List.mem_append.mp hz with hz | hz
    · exact h.fits z (by simp [hz])
    rcases List.mem_cons.mp hz with rfl | hz
    · refine Extent.fitsWhole_iff.mpr ⟨⟨⟨t, memT, realT, startT.trans offset.symm, ?_⟩,
        ⟨u, memU, realU, stopU.trans stop.symm, ?_⟩, fun z hz => ?_, row.sublist hparts⟩,
        fun z hz => fits z (hparts.subset hz)⟩
      · exact stop ▸ stopT.trans (stops x hereX)
      · exact offset ▸ (starts y hereY).trans startU
      · exact ⟨offset ▸ starts z (hparts.subset hz), stop ▸ stops z (hparts.subset hz)⟩
    · exact h.fits z (by simp [hz])
  · refine List.pairwise_append.mpr ⟨earlier, List.pairwise_cons.mpr ⟨fun z hz => ?_, later⟩,
      fun z hz w hw => ?_⟩
    · exact stop.le.trans (between y hereY z hz)
    · rcases List.mem_cons.mp hw with rfl | hw
      · exact (across z hz x (by simp [hereX])).trans offset.ge
      · exact across z hz w (by simp [hw])
  · rcases List.mem_append.mp hz with hz | hz
    · exact h.ahead z (by simp [hz]) t ht
    rcases List.mem_cons.mp hz with rfl | hz
    · exact stop ▸ h.ahead y (by simp [hereY]) t ht
    · exact h.ahead z (by simp [hz]) t ht

theorem wrap {first last : Span} {parts : List Extent} (h : Laid ctx (before ++ xs) st)
    (hfirst : xs.head?.map Extent.span = some first)
    (hlast : xs.getLast?.map Extent.span = some last)
    (hparts : parts.Sublist xs) : Laid ctx (before ++ [⟨first.join last, parts⟩]) st := by
  obtain ⟨x, head, rfl⟩ := Option.map_eq_some_iff.mp hfirst
  obtain ⟨y, final, rfl⟩ := Option.map_eq_some_iff.mp hlast
  rw [← List.append_nil xs] at h
  refine h.cover head final ?_ ?_ hparts
  · exact Nat.min_eq_left (h.offset_le head y (List.mem_of_getLast? final))
  · rw [Span.stop_join, Nat.max_eq_right (h.stop_le final x (List.mem_of_head? head))]

/-- The same with a single part, whose span is that of the whole. -/
theorem wrap_self {x : Extent} {parts : List Extent} (h : Laid ctx (before ++ [x]) st)
    (hparts : parts.Sublist [x]) : Laid ctx (before ++ [⟨x.span, parts⟩]) st := by
  have last : [x].getLast?.map Extent.span = some x.span := rfl
  have wrapped := h.wrap rfl last hparts
  rwa [Span.join_self] at wrapped

/-- An arm of a chain, with the arms behind it. -/
theorem arm {bar cond body : Extent} (h : Laid ctx (before ++ bar :: cond :: body :: xs) st) :
    Laid ctx (before ++ ⟨bar.span.join body.span, [cond, body]⟩ :: xs) st ∧
      (bar.span.join body.span).offset = bar.span.offset ∧
      (bar.span.join body.span).stop = body.span.stop := by
  have row : Laid ctx (before ++ ([bar, cond, body] ++ xs)) st := h
  have last : [bar, cond, body].getLast? = some body := rfl
  have offset : (bar.span.join body.span).offset = bar.span.offset :=
    Nat.min_eq_left (row.offset_le rfl body (by simp))
  have stop : (bar.span.join body.span).stop = body.span.stop := by
    rw [Span.stop_join, Nat.max_eq_right (row.stop_le last bar (by simp))]
  exact ⟨row.cover rfl last offset stop (by simp), offset, stop⟩

/-- Nodes may be left out. -/
theorem sublist (h : Laid ctx xs st) (some : before.Sublist xs) : Laid ctx before st :=
  ⟨h.reading, fun x mem => h.fits x (some.subset mem), h.ordered.sublist some,
    fun x mem => h.ahead x (some.subset mem)⟩

end Laid

/-! ### Fragments among the tokens -/

/-- An arm that ends where its body ends. -/
def Guarded.Closed (g : Guarded) : Prop :=
  g.span.offset ≤ g.body.span.offset ∧ g.span.stop = g.body.span.stop

/-- What a fragment keeps of the tokens it was made of. -/
def Fragment.Placed (ts : List Token) : Fragment → Prop
  | token t => t ∈ ts
  | arms gs _ => ∀ g ∈ gs, g.Closed
  | _ => True

theorem ends_arms {g : Guarded} {gs : List Guarded} (fallback : Option Block)
    (closed : ∀ g' ∈ g :: gs, g'.Closed) :
    ∃ y, (Guarded.extents (g :: gs) ++ Block.fallbackExtent fallback).getLast? = some y ∧
      y.span.offset ≤ (chainEnd g.body.span gs fallback).offset ∧
      y.span.stop = (chainEnd g.body.span gs fallback).stop := by
  cases fallback with
  | some body => exact ⟨body.extent, by simp [Block.fallbackExtent], by simp [chainEnd]⟩
  | none =>
    induction gs generalizing g with
    | nil =>
      have ends := closed g List.mem_cons_self
      exact ⟨g.extent, by simp [Guarded.extents, Block.fallbackExtent],
        by simpa [chainEnd, Guarded.Closed] using ends⟩
    | cons g' gs ih =>
      obtain ⟨y, last, ends⟩ := ih fun h mem => closed h (List.mem_cons_of_mem _ mem)
      refine ⟨y, ?_, by simpa [chainEnd, List.getLast?_cons] using ends⟩
      rw [Guarded.extents, Guarded.extents, List.cons_append, List.cons_append,
        List.getLast?_cons_cons]
      exact last

theorem Laid.reduces {s s' : List Fragment} (h : Reduces s s')
    (laid : Laid ctx (Fragment.extentsAll s) st) (placed : ∀ f ∈ s, f.Placed ctx.tokens) :
    Laid ctx (Fragment.extentsAll s') st ∧ ∀ f ∈ s', f.Placed ctx.tokens := by
  cases h <;> simp only [Fragment.extentsAll, Fragment.extents, TypeExpr.extent, TypeExpr.extents,
    Expr.extent, Expr.extents, Import.extent, VarDecl.extent, Param.extent, EnumCase.extent,
    Stmt.extent, Stmt.extents, Guarded.extent, Guarded.extents, Block.extent, Block.fallbackExtent,
    ProcDecl.extent, ArtifactDecl.extent, Member.extent, Member.extents, Located.extent,
    List.append_assoc, List.cons_append, List.nil_append, List.append_nil, List.map_cons,
    List.map_nil, Option.toList_some, Option.toList_none, List.forall_mem_cons, Fragment.Placed, 
    true_and, List.not_mem_nil, false_imp_iff, implies_true] at laid placed ⊢
  case forget => exact ⟨laid.sublist (by simp), placed.2⟩
  case parens => exact ⟨laid.sublist (by simp), placed.2.2⟩
  case fallback => exact ⟨laid.sublist (by simp), placed.2⟩
  case named | bareCase => exact ⟨laid.wrap_self (by simp), placed⟩
  case bare kw x xs s =>
    refine ⟨?_, placed.2⟩
    rcases List.eq_nil_or_concat xs with rfl | ⟨ys, y, rfl⟩ <;>
      refine laid.wrap ?_ ?_ ?_ <;> simp [List.getLast?_cons, List.getLast?_append, Located.extent]
  case artifact =>
    refine ⟨laid.wrap rfl (by simp [List.getLast?_cons, List.getLast?_append]) ?_, placed.2.2.2⟩
    exact .cons_cons _ (.cons _ (.cons _ (List.sublist_append_left _ _)))
  case armsCons =>
    obtain ⟨row, -, stop⟩ := laid.arm
    simp only [Block.span_extent] at row stop
    exact ⟨row, ⟨⟨Nat.min_le_right _ _, stop⟩, placed.1⟩, placed.2.2⟩
  case chain bar c b gs f s =>
    refine ⟨?_, placed.2.2⟩
    obtain ⟨row, offset, stop⟩ := laid.arm
    simp only [Block.span_extent] at row offset stop
    have closed : Guarded.Closed ⟨bar.span.join b.span, c, b⟩ := ⟨Nat.min_le_right _ _, stop⟩
    have all := List.forall_mem_cons.mpr ⟨closed, placed.1⟩
    obtain ⟨y, last, starts, ends⟩ := ends_arms f all
    rw [← List.append_nil (_ :: _)] at row
    refine row.cover rfl last ?_ ?_ (List.Sublist.refl _)
    · have first := row.offset_le rfl y (List.mem_of_getLast? last)
      rw [offset] at first ⊢
      exact Nat.min_eq_left (first.trans starts)
    · have final := row.stop_le last _ List.mem_cons_self
      rw [Span.stop_join] at final
      rw [Span.stop_join, ← ends]
      exact Nat.max_eq_right ((Nat.le_max_left _ _).trans final)
  all_goals
    refine ⟨?_, ?_⟩
    · first
      | exact laid
      | refine laid.wrap ?_ ?_ ?_ <;> simp [List.getLast?_cons, List.getLast?_append]
    · first
      | exact placed
      | simp_all

theorem eof_mem_skipToBoundary {start depth : Nat} {ts : List Token} {t : Token}
    (mem : t ∈ ts) (eof : t.kind = .eof) : t ∈ Parser.skipToBoundary start depth ts := by
  fun_induction Parser.skipToBoundary start depth ts <;> grind

/-- The nodes on the stack are laid. -/
def layout : StackInvariant where
  Holds ctx st s := Laid ctx (Fragment.extentsAll s) st ∧ ∀ f ∈ s, f.Placed ctx.tokens
  Failed ctx e st := AtTokens ctx.tokens e ∧ Reading ctx st
  reduce h here := here.1.reduces h here.2
  past real here :=
    ⟨here.1.token real, List.forall_mem_cons.mpr
      ⟨here.1.reading.rest.subset here.1.reading.next_mem, here.2⟩⟩
  skip suffix ended here := by
    obtain ⟨t, mem, eof⟩ := here.1.reading.ended
    exact ⟨here.1.skip (suffix _) ⟨t, ended _ t mem eof, eof⟩ here.1.reading.errors, here.2⟩
  numbered here := by
    simpa [Fragment.Placed] using ⟨here.1.skip List.suffix_rfl here.1.reading.ended
      here.1.reading.errors, here.2⟩
  otherThan _ here := by
    simpa [Fragment.Placed] using here
  failAt {ctx st s t fault} shown here := by
    have mem : t ∈ ctx.tokens := by
      rcases shown with rfl | mem
      · exact here.1.reading.rest.subset here.1.reading.next_mem
      · exact here.2 _ mem
    exact ⟨⟨⟨t, mem, rfl, rfl⟩, ⟨t, mem, rfl⟩⟩, here.1.reading⟩
  failOver {ctx st s span fault} shown here := by
    suffices ends : (∃ t ∈ ctx.tokens, t.span.offset = span.offset) ∧
        ∃ t ∈ ctx.tokens, t.span.stop = span.stop from
      ⟨here.1.reading.atTokens ends.1 ends.2, here.1.reading⟩
    rcases shown with rfl | mem
    · have next := here.1.reading.rest.subset here.1.reading.next_mem
      exact ⟨⟨_, next, rfl⟩, _, next, rfl⟩
    · obtain ⟨x, shown, rfl⟩ := List.mem_map.mp mem
      obtain ⟨t, memT, -, startT, -⟩ := (here.1.fits x shown).fits.starts
      obtain ⟨u, memU, -, stopU, -⟩ := (here.1.fits x shown).fits.stops
      exact ⟨⟨t, memT, startT⟩, u, memU, stopU⟩
  recover {ctx st st' s start e} _ here failed rest _ := by
    obtain ⟨atTokens, reading⟩ := failed
    obtain ⟨t, mem, eof⟩ := reading.ended
    refine ⟨here.1.skip ((Parser.skipToBoundary_suffix _ _ _).trans rest)
      ⟨t, eof_mem_skipToBoundary mem eof, eof⟩ fun e' mem => ?_, here.2⟩
    rcases List.mem_append.mp mem with mem | mem
    · exact reading.errors e' mem
    · rwa [List.mem_singleton.mp mem]
  behind _ here := by
    simpa [Fragment.Placed] using here

end ArkLang
