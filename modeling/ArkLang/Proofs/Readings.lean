import ArkLang.Proofs.StackInvariants

/-!
# Every parser follows the grammar

A law of parsers with a stack holds of every parser: types and expressions, declarations, statements
and programs. Each parser leaves what it has read on top of the stack that it found. A parser under
a bound is compared with itself under another bound, where both are at least the number of tokens
that are left, or equal.

## Main results

* `Parser.reads_typeExpr`, `Parser.reads_expr`, `Parser.reads_block` — types, expressions, blocks
* `Parser.reads_program` — programs
-/

namespace ArkLang

variable {α β : Type} {law : TreeLaw} {N n : Nat} {nx : Option (Token × Token)} {s : List Fragment}
  {after : α → List Fragment}

open Fragment (weightAll)

/-! ### Steps -/

namespace TreeLaw

/-- Two parsers that leave a fragment on top of what they found, where at most `n` tokens are left.
-/
def ReadsUpTo (law : TreeLaw) (n : Nat) (p q : Parser α) (frag : α → Fragment) : Prop :=
  ∀ N s, N ≤ n + weightAll s → law.Holds N none s p q fun a => frag a :: s

/-- A parser that leaves a fragment on top of what it found. -/
def Reads (law : TreeLaw) (p : Parser α) (frag : α → Fragment) : Prop :=
  ∀ n, law.ReadsUpTo n p p frag

section Sequences

variable {p q : Parser β} {f g : β → Parser α} {frag : β → Fragment}

theorem ReadsUpTo.mono {m : Nat} (h : law.ReadsUpTo n p q frag) (le : m ≤ n) :
    law.ReadsUpTo m p q frag :=
  fun N s few => h N s (few.trans (Nat.add_le_add_right le _))

theorem ReadsUpTo.bind (h : law.ReadsUpTo n p q frag) (few : N ≤ n + weightAll s)
    (hf : ∀ a, Given p a → law.Holds N none (frag a :: s) (f a) (g a) after) :
    law.Holds N nx s (p >>= f) (q >>= g) after :=
  law.unknown (law.bind (h N s few) hf)

theorem Reads.here (h : law.Reads p frag) : law.Holds N nx s p p fun a => frag a :: s :=
  law.unknown (h N N s (Nat.le_add_right ..))

theorem Reads.keeps {I : StackInvariant} (h : I.law.Reads p frag) :
    I.Keeps none s p fun a => frag a :: s :=
  h.here (N := 0)

theorem Reads.bind (h : law.Reads p frag)
    (hf : ∀ a, Given p a → law.Holds N none (frag a :: s) (f a) (g a) after) :
    law.Holds N nx s (p >>= f) (p >>= g) after :=
  law.bind h.here hf

theorem Reads.map_bind {γ : Type} {make : β → γ} {f g : γ → Parser α} (h : law.Reads p frag)
    (hf : ∀ a, law.Holds N none (frag a :: s) (f (make a)) (g (make a)) after) :
    law.Holds N nx s (make <$> p >>= f) (make <$> p >>= g) after := by
  rw [bind_map_left, bind_map_left]
  exact h.bind fun a _ => hf a

end Sequences

theorem done {a : α} (h : s = after a) : law.Holds N nx s (Pure.pure a) (Pure.pure a) after :=
  h ▸ law.pure a

theorem make {a : α} (h : Reduces s (after a)) :
    law.Holds N nx s (Pure.pure a) (Pure.pure a) after :=
  law.reduce h (law.pure a)

theorem ite {c : Prop} [Decidable c] {p q p' q' : Parser α} (h : law.Holds N nx s p q after)
    (h' : law.Holds N nx s p' q' after) :
    law.Holds N nx s (if c then p else p') (if c then q else q') after := by
  split
  · exact h
  · exact h'

theorem reading {p q : Parser α} (h : law.Holds N nx s p q after) :
    law.Holds N nx s (do let _ ← MonadReader.read; p) (do let _ ← MonadReader.read; q) after :=
  h

theorem failExpected {t : Token} {what : Expectation} (h : nx = some (t, t) ∨ .token t ∈ s) :
    law.Holds N nx s (Parser.failExpected t what) (Parser.failExpected t what) after :=
  law.failAt h

theorem expectedEnd {t t' : Token} {what : Expectation} (eof : t.kind = .eof)
    (eof' : t'.kind = .eof) : law.Holds N (some (t, t')) s (Parser.failExpected t what)
      (Parser.failExpected t' what) after := by
  rw [Parser.failExpected, Parser.failExpected, eof, eof']
  exact law.failEnd eof eof'

/-- At the next token, which is known already. -/
theorem known {t : Token} {f g : Token → Parser α} (real : t.kind ≠ .eof)
    (h : law.Holds N (some (t, t)) s (f t) (g t) after) :
    law.Holds N (some (t, t)) s (Parser.current >>= f) (Parser.current >>= g) after := by
  refine law.current (fun u _ same => ?_) fun u u' eof _ same => ?_
  · obtain rfl : t = u := same _ rfl
    exact h
  · obtain rfl : t = u := same _ rfl
    exact absurd eof real

section Next

variable {kind : TokenKind} {f g : Bool → Parser α}

theorem isNext (h : ∀ b, law.Holds N none s (f b) (g b) after) :
    law.Holds N nx s (Parser.isNext kind >>= f) (Parser.isNext kind >>= g) after := by
  change law.Holds N nx s (Parser.current >>= fun t => f (t.kind == kind))
    (Parser.current >>= fun t => g (t.kind == kind)) after
  refine law.current (fun t _ _ => law.unknown (h _)) fun t t' eof eof' _ => ?_
  rw [eof, eof']
  exact law.unknown (h _)

theorem isKnown {t : Token} (real : t.kind ≠ .eof)
    (h : ∀ b, law.Holds N (some (t, t)) s (f b) (g b) after) :
    law.Holds N (some (t, t)) s (Parser.isNext kind >>= f) (Parser.isNext kind >>= g) after := by
  change law.Holds N _ s (Parser.current >>= fun t => f (t.kind == kind))
    (Parser.current >>= fun t => g (t.kind == kind)) after
  exact known real (h _)

variable {p q p' q' : Parser α}

theorem ifSign {sign : Symbol}
    (h : ∀ t, t.kind = .symbol sign → law.Holds N (some (t, t)) s p q after)
    (h' : law.Holds N none s p' q' after) :
    law.Holds N nx s (do if ← Parser.isSign sign then p else p')
      (do if ← Parser.isSign sign then q else q') after := by
  change law.Holds N nx s (Parser.current >>= fun t => if t.kind == .symbol sign then p else p')
    (Parser.current >>= fun t => if t.kind == .symbol sign then q else q') after
  refine law.current (fun t _ _ => ?_) fun t t' eof eof' _ => ?_
  · split
    · next kind => exact h t (beq_iff_eq.mp kind)
    · exact law.unknown h'
  · rw [eof, eof']
    exact law.unknown h'

theorem ifEnd (h : law.Holds N none s p q after)
    (h' : ∀ t, t.kind ≠ .eof → law.Holds N (some (t, t)) s p' q' after) :
    law.Holds N nx s (do if ← Parser.isEnd then p else p')
      (do if ← Parser.isEnd then q else q') after := by
  change law.Holds N nx s (Parser.current >>= fun t => if t.kind == .eof then p else p')
    (Parser.current >>= fun t => if t.kind == .eof then q else q') after
  refine law.current (fun t real _ => ?_) fun t t' eof eof' _ => ?_
  · rw [if_neg (by simpa using real)]
    rw [if_neg (by simpa using real)]
    exact h' t real
  · rw [eof, eof']
    exact law.unknown h

end Next

theorem bump {f g : Token → Parser α}
    (h : ∀ t, t.kind ≠ .eof → (∀ u ∈ nx, u.1 = t) →
      law.Holds N none (.token t :: s) (f t) (g t) after)
    (h' : ∀ t t', t.kind = .eof → t'.kind = .eof → (∀ u ∈ nx, u.1 = t) →
      law.Holds N (some (t, t')) s (f t) (g t') after) :
    law.Holds N nx s (Parser.bump >>= f) (Parser.bump >>= g) after := by
  change law.Holds N nx s (Parser.current >>= fun t => Parser.advance >>= fun _ => f t)
    (Parser.current >>= fun t => Parser.advance >>= fun _ => g t) after
  exact law.current (fun t real same => law.past real (h t real same))
    fun t t' eof eof' same => law.stay eof eof' (h' t t' eof eof' same)

theorem bumpKnown {t : Token} {f g : Token → Parser α} (real : t.kind ≠ .eof)
    (h : law.Holds N none (.token t :: s) (f t) (g t) after) :
    law.Holds N (some (t, t)) s (Parser.bump >>= f) (Parser.bump >>= g) after := by
  change law.Holds N _ s (Parser.current >>= fun t => Parser.advance >>= fun _ => f t)
    (Parser.current >>= fun t => Parser.advance >>= fun _ => g t) after
  exact known real (law.past real h)

theorem step {f g : Unit → Parser α} (h : law.Holds N none s (f ()) (g ()) after) :
    law.Holds N nx s (Parser.advance >>= f) (Parser.advance >>= g) after := by
  change law.Holds N nx s (Parser.current >>= fun _ => Parser.advance >>= f)
    (Parser.current >>= fun _ => Parser.advance >>= g) after
  exact law.current (fun t real _ => law.past real (law.reduce .forget h))
    fun t t' eof eof' _ => law.stay eof eof' (law.unknown h)

theorem freshNode {span : Span} {f g : Node → Parser α}
    (h : ∀ n, law.Holds N none (.number n :: s) (f ⟨n, span⟩) (g ⟨n, span⟩) after) :
    law.Holds N nx s (Parser.freshNode span >>= f) (Parser.freshNode span >>= g) after := by
  change law.Holds N nx s (Parser.freshId >>= fun n => f ⟨n, span⟩)
    (Parser.freshId >>= fun n => g ⟨n, span⟩) after
  exact law.bind law.freshId fun n _ => h n

end TreeLaw

/-! ### Bounds -/

/-- Bounds that do not decide what is read: they are the same, or both are at least the number of
tokens that are left. -/
def Enough (n a b : Nat) : Prop :=
  a = b ∨ n ≤ a ∧ n ≤ b

theorem Enough.pred {a b : Nat} (h : Enough n (a + 1) (b + 1)) : Enough (n - 1) a b := by
  unfold Enough at h ⊢
  omega

/-- A loop that ends at the end of input whatever its bound is. -/
def Ends (loop : Nat → Parser α) : Prop :=
  ∀ a ctx (st : ParseState), (st.next ctx).kind = .eof →
    runAt (loop a) ctx st = runAt (loop 0) ctx st

theorem Ends.of_succ {loop : Nat → Parser α} {p : Parser α} (zero : loop 0 = p)
    (succ : ∀ a ctx (st : ParseState), (st.next ctx).kind = .eof →
      runAt (loop (a + 1)) ctx st = runAt p ctx st) : Ends loop := by
  rintro (_ | a) ctx st eof
  · rfl
  · rw [zero, succ a ctx st eof]

theorem Ends.bind {loop : Nat → Parser α} {f : α → Parser β} (h : Ends loop) :
    Ends fun a => loop a >>= f := by
  intro a ctx st eof
  rw [runAt_bind, runAt_bind, h a ctx st eof]

namespace TreeLaw

variable {p : Parser α} {loop : Nat → Parser α} {a b : Nat}

theorem boundZero (few : N ≤ n + weightAll s) (enough : Enough n 0 b) (ends : Ends loop)
    (h : law.Holds N nx s p (loop 0) after) : law.Holds N nx s p (loop b) after := by
  rcases enough with rfl | ⟨none, -⟩
  · exact h
  · exact law.spent (by omega) (ends b) h

theorem boundSucc (few : N ≤ n + weightAll s) (enough : Enough n (a + 1) b) (ends : Ends loop)
    (h : ∀ b, Enough n (a + 1) (b + 1) → law.Holds N nx s p (loop (b + 1)) after) :
    law.Holds N nx s p (loop b) after := by
  cases b with
  | zero =>
    refine law.spent ?_ (fun ctx st eof => (ends (a + 1) ctx st eof).symm) (h a (.inl rfl))
    unfold Enough at enough
    omega
  | succ b => exact h b enough

end TreeLaw

namespace Parser

theorem reads_expect {kind : TokenKind} (real : kind ≠ .eof) : law.Reads (expect kind) .token := by
  intro n N s _
  refine law.current (fun t _ _ => ?_) fun t t' eof eof' _ => ?_
  · split
    · next same => exact law.past (same ▸ real) (law.done rfl)
    · exact law.failExpected (.inl rfl)
  · rw [eof, eof', if_neg real.symm, if_neg real.symm]
    exact law.expectedEnd eof eof'

theorem reads_expectSign {sign : Symbol} : law.Reads (expectSign sign) .token :=
  reads_expect (by simp)

theorem reads_expectIdent : law.Reads expectIdent .name := by
  intro n N s _
  refine law.bump (fun t _ _ => ?_) fun t t' eof eof' _ => ?_
  · split
    · next x kind => exact law.make (.name kind)
    · exact law.failExpected (by simp)
  · rw [eof, eof']
    exact law.expectedEnd eof eof'

theorem closing {sign : Symbol} {opening : Token} {f g : Token → Parser α}
    (mem : .token opening ∈ s) (h : ∀ t, law.Holds N none (.token t :: s) (f t) (g t) after) :
    law.Holds N nx s (expectClosing sign opening >>= f)
    (expectClosing sign opening >>= g) after := by
  refine law.unknown (law.bind (law.ifSign (fun t kind => ?_) ?_) fun t _ => h t)
  · exact law.known (by simp [kind]) (law.past (by simp [kind]) (law.done rfl))
  · refine law.current (fun t real _ => ?_) fun t t' eof eof' _ => ?_
    · exact law.ite (law.failAt (.inr mem)) (law.failExpected (.inl rfl))
    · rw [eof, eof', if_pos rfl, if_pos rfl]
      exact law.failAt (.inr mem)

theorem ends_commaList {sign : Symbol} {item : Parser α} : Ends (commaList sign item) :=
  .of_succ (p := pure []) rfl fun a ctx st eof => by
    rw [commaList, runAt_isSign, runAt_isEnd, if_pos (by simp [eof])]

theorem reads_commaList {item item' : Parser α} {sign : Symbol} {frag : α → Fragment}
    {frags : List α → Fragment} (h : law.ReadsUpTo n item item' frag)
    (some : ∀ a, 1 ≤ (frag a).weight) (nil : ∀ {s}, Reduces s (frags [] :: s))
    (cons : ∀ {a as s}, Reduces (frags as :: frag a :: s) (frags (a :: as) :: s)) {a b : Nat}
    (enough : Enough n a b) :
    law.ReadsUpTo n (commaList sign item a) (commaList sign item' b) frags := by
  induction a generalizing n b with
  | zero => exact fun N s few => law.boundZero few enough ends_commaList (law.make nil)
  | succ a ih =>
    refine fun N s few => law.boundSucc few enough ends_commaList fun b enough => ?_
    refine law.isNext fun _ => law.isNext fun _ => law.ite (law.make nil) ?_
    refine h.bind few fun x _ => law.isNext fun _ => law.ite ?_ (law.reduce nil (law.make cons))
    refine law.step ((ih (h.mono (n.sub_le 1)) enough.pred).bind ?_ fun xs _ => law.make cons)
    have := some x
    simp only [weightAll]
    omega

/-- What stands for an item that is nested too deep. -/
theorem reads_stop {what : Expectation} {frag : α → Fragment} :
    law.Reads (do failExpected (← Parser.current) what) frag :=
  fun _ _ _ _ => law.current (fun _ _ _ => law.failExpected (.inl rfl))
    fun _ _ eof eof' _ => law.expectedEnd eof eof'

/-! ### Types -/

theorem reads_typeWith {inner inner' : Parser TypeExpr}
    (h : law.ReadsUpTo (n - 1) inner inner' .type) :
    law.ReadsUpTo n (typeWith inner) (typeWith inner') .type := by
  intro N s few
  refine law.current (fun t real _ => ?_) fun t t' eof eof' _ => ?_
  · split
    case h_1 =>
      refine reads_expectIdent.bind fun x _ =>
        law.current (fun dot _ _ => ?_) fun dot dot' eof eof' _ => ?_
      · refine law.peek rfl fun _ => law.ite (law.step ?_) (law.make .named)
        exact reads_expectIdent.bind fun y _ => law.make .qualified
      · refine law.peek rfl fun k => ?_
        rcases k with _ | kind
        · exact law.make .named
        · cases kind <;> simp [eof, eof'] <;> exact law.make .named
    case h_2 =>
      refine law.past real (h.bind (by simp; omega) fun e _ =>
        law.ifSign (fun _ _ => law.step ?_) ?_)
      · refine law.bump (fun size _ _ => ?_) fun size size' eof eof' _ => ?_
        · split
          · next size => exact closing (by simp) fun _ => law.make (.arrayType size)
          · exact law.failExpected (by simp)
        · rw [eof, eof']
          exact law.expectedEnd eof eof'
      · exact closing (by simp) fun _ => law.make .listType
    case h_3 =>
      refine law.refuse nofun (law.failAt (.inl rfl)) (law.past real ?_)
      refine law.remaining fun m a b ha hb le => ?_
      have h := h.mono (show m ≤ n - 1 by simp at le; omega)
      refine (reads_commaList h (fun _ => le_rfl) .typesNil .typesCons
        (.inr ⟨ha, hb⟩)).bind le_rfl ?_
      refine fun ts _ => closing (by simp) fun _ => reads_expectSign.bind fun _ _ => ?_
      exact h.bind (by simp) fun _ _ => law.make .procType
    case h_4 => exact law.failExpected (.inl rfl)
  · rw [eof, eof']
    exact law.expectedEnd eof eof'

theorem ends_typeWithin : Ends typeWithin :=
  .of_succ (p := do failExpected (← Parser.current) .type) rfl fun a ctx st eof => by
    rw [typeWithin, typeWith, runAt_current, runAt_current, eof]

theorem reads_typeWithin {a b : Nat} (enough : Enough n a b) :
    law.ReadsUpTo n (typeWithin a) (typeWithin b) .type := by
  induction a generalizing n b with
  | zero => exact fun N s few => law.boundZero few enough ends_typeWithin reads_stop.here
  | succ a ih =>
    refine fun N s few => law.boundSucc few enough ends_typeWithin fun b enough => ?_
    exact reads_typeWith (ih enough.pred) N s few

theorem reads_typeExpr : law.Reads typeExpr .type :=
  fun _ _ _ _ => law.remaining fun _ _ _ ha hb _ =>
    reads_typeWithin (.inr ⟨Nat.le_succ_of_le ha, Nat.le_succ_of_le hb⟩) _ _ le_rfl

/-! ### Expressions -/

section Exprs

variable {inner inner' : Parser Expr}

theorem reads_atom (h : law.ReadsUpTo (n - 1) inner inner' .expr) :
    law.ReadsUpTo n (atom inner) (atom inner') .expr := by
  intro N s few
  refine law.bump (fun t _ _ => ?_) fun t t' eof eof' _ => ?_
  · split
    case h_7 =>
      exact reads_expectIdent.bind fun x _ => law.freshNode fun n => law.make .selfProp
    case h_8 =>
      exact h.bind (by simp; omega) fun e _ => closing (by simp) fun _ => law.make .parens
    case h_9 =>
      refine law.remaining fun m a b ha hb le => ?_
      have h := h.mono (show m ≤ n - 1 by simp at le; omega)
      refine (reads_commaList h Expr.weight_pos .exprsNil .exprsCons (.inr ⟨ha, hb⟩)).bind le_rfl ?_
      exact fun es _ => closing (by simp) fun _ => law.freshNode fun n => law.make .array
    case h_10 => exact law.failExpected (by simp)
    all_goals
      refine law.freshNode fun n => law.make ?_
      first | exact .int ‹_› | exact .float | exact .str | exact .bool | exact .ident ‹_›
  · rw [eof, eof']
    exact law.expectedEnd eof eof'

theorem ends_suffixes {base : Expr} : Ends fun a => suffixes inner a base :=
  .of_succ (p := pure base) rfl fun a ctx st eof => by
    rw [suffixes, runAt_current, eof]
    split <;> rfl

theorem reads_suffixes (h : law.ReadsUpTo n inner inner' .expr) {a b : Nat} (enough : Enough n a b)
    {base : Expr} (few : N ≤ n + weightAll (.expr base :: s)) :
    law.Holds N none (.expr base :: s) (suffixes inner a base) (suffixes inner' b base)
      fun e => .expr e :: s := by
  induction a generalizing N n b base with
  | zero => exact law.boundZero few enough ends_suffixes (law.done rfl)
  | succ a ih =>
    refine law.boundSucc few enough ends_suffixes fun b enough => ?_
    have more {N : Nat} {s' : List Fragment} {span : Span} {make : Node → Expr}
        (reduces : ∀ id, Reduces (.number id :: s') (.expr (make ⟨id, span⟩) :: s))
        (few : ∀ id, N ≤ n - 1 + weightAll (.expr (make ⟨id, span⟩) :: s)) :
        law.Holds N none s' (do suffixes inner a (make (← freshNode span)))
          (do suffixes inner' b (make (← freshNode span))) fun e => .expr e :: s :=
      law.freshNode fun id => law.reduce (reduces id)
        (ih (h.mono (n.sub_le 1)) enough.pred (few id))
    refine law.current (fun t real _ => law.ite (law.done rfl) ?_) fun t t' eof eof' _ => ?_
    · split
      case h_3 =>
        refine law.past real (law.remaining fun m c d hc hd le => ?_)
        have h := h.mono (show m ≤ n by simp at le few; omega)
        refine (reads_commaList h Expr.weight_pos .exprsNil .exprsCons
          (.inr ⟨hc, hd⟩)).bind le_rfl ?_
        refine fun es _ => closing (by simp) fun _ => more (fun _ => .call) fun _ => ?_
        simp at le few ⊢
        omega
      case h_4 kind =>
        refine law.past real (h.bind (by simp at few ⊢; omega) fun i _ =>
          closing (by simp) fun _ => ?_)
        exact more (fun _ => .index) (by simp at few ⊢; omega)
      case h_5 kind =>
        refine law.past real (reads_expectIdent.bind fun x _ => ?_)
        exact more (fun _ => .memberOf) (by simp at few ⊢; omega)
      case h_6 => exact law.done rfl
      all_goals exact law.past real (more (fun _ => .postOp) (by simp at few ⊢; omega))
    · simp only [eof, eof', ite_self]
      exact law.done rfl

theorem reads_suffixed (h : law.ReadsUpTo (n - 1) inner inner' .expr) :
    law.ReadsUpTo n (suffixed inner) (suffixed inner') .expr := by
  refine fun N s few => (reads_atom h).bind few fun e _ => law.remaining fun m a b ha hb le => ?_
  have pos := e.weight_pos
  have h := h.mono (show m ≤ n - 1 by simp at le; omega)
  exact reads_suffixes h (.inr ⟨ha, hb⟩) le_rfl

variable {operand operand' : Parser Expr}

theorem ends_signed : Ends (signed operand) :=
  .of_succ (p := operand) rfl fun a ctx st eof => by
    rw [signed, runAt_current, eof]
    rfl

theorem reads_signed (h : law.ReadsUpTo n operand operand' .expr) {a b : Nat}
    (enough : Enough n a b) :
    law.ReadsUpTo n (signed operand a) (signed operand' b) .expr := by
  induction a generalizing n b with
  | zero => exact fun N s few => law.boundZero few enough ends_signed (h N s few)
  | succ a ih =>
    refine fun N s few => law.boundSucc few enough ends_signed fun b enough => ?_
    refine law.current (fun t real _ => ?_) fun t t' eof eof' _ => ?_
    · split
      · refine law.past real ((ih (h.mono (n.sub_le 1)) enough.pred).bind (by simp; omega) ?_)
        exact fun e _ => law.freshNode fun _ => law.make .unary
      · exact law.unknown (h N s few)
    · rw [eof, eof']
      exact law.unknown (h N s few)

theorem ends_climb {least : Nat} {left : Expr} : Ends fun a => climb operand a least left :=
  .of_succ (p := pure left) rfl fun a ctx st eof => by
    rw [climb, runAt_current, eof]
    rfl

theorem reads_climb (h : law.ReadsUpTo n operand operand' .expr) {a b : Nat} (enough : Enough n a b)
    {least : Nat} {left : Expr} (few : N ≤ n + weightAll (.expr left :: s)) :
    law.Holds N none (.expr left :: s) (climb operand a least left) (climb operand' b least left)
      fun e => .expr e :: s := by
  induction a generalizing n b s least left with
  | zero => exact law.boundZero few enough ends_climb (law.done rfl)
  | succ a ih =>
    have h' := h.mono (n.sub_le 1)
    refine law.boundSucc few enough ends_climb fun b enough => ?_
    refine law.current (fun t real _ => ?_) fun t t' eof eof' _ => ?_
    · split
      · exact law.done rfl
      · refine law.ite (law.done rfl) (law.step (h.bind few fun first _ => ?_))
        have pos := first.weight_pos
        refine law.bind (ih h' enough.pred (by simp at few ⊢; omega)) fun right _ =>
          law.freshNode fun _ => ?_
        have pos := right.weight_pos
        exact law.reduce .binary (ih h' enough.pred (by simp at few ⊢; omega))
    · rw [eof, eof']
      exact law.done rfl

theorem ends_exprWithin : Ends exprWithin :=
  .of_succ (p := do failExpected (← Parser.current) .expression) rfl fun a ctx st eof => by
    rw [exprWithin, exprWith, runAt_current, runAt_bind, runAt_remaining,
      ends_signed _ ctx st eof, signed, suffixed, runAt_bind, atom, runAt_bump, eof,
      past_of_eof eof]
    rfl

theorem reads_exprWithin {a b : Nat} (enough : Enough n a b) :
    law.ReadsUpTo n (exprWithin a) (exprWithin b) .expr := by
  induction a generalizing n b with
  | zero => exact fun N s few => law.boundZero few enough ends_exprWithin reads_stop.here
  | succ a ih =>
    refine fun N s few => law.boundSucc few enough ends_exprWithin fun b enough => ?_
    have operand : law.ReadsUpTo n (do signed (suffixed (exprWithin a)) (← Parser.remaining))
        (do signed (suffixed (exprWithin b)) (← Parser.remaining)) .expr := by
      refine fun N s few => law.remaining fun m c d hc hd le => ?_
      have h := (reads_suffixed (ih enough.pred)).mono (show m ≤ n by omega)
      exact reads_signed h (.inr ⟨hc, hd⟩) _ _ le_rfl
    refine operand.bind few fun left _ => law.remaining fun m c d hc hd le => ?_
    have pos := left.weight_pos
    have h := operand.mono (show m ≤ n by simp at le; omega)
    exact reads_climb h (.inr ⟨hc, hd⟩) le_rfl

theorem reads_expr : law.Reads expr .expr :=
  fun _ _ _ _ => law.remaining fun _ _ _ ha hb _ =>
    reads_exprWithin (.inr ⟨Nat.le_succ_of_le ha, Nat.le_succ_of_le hb⟩) _ _ le_rfl

theorem reads_wholeExpr : law.Reads wholeExpr .expr := by
  refine fun _ N s _ => reads_expr.bind fun e _ =>
    law.current (fun t _ _ => ?_) fun t t' eof eof' _ => ?_
  · exact law.ite (law.done rfl) (law.failExpected (.inl rfl))
  · rw [eof, eof', if_pos rfl, if_pos rfl]
    exact law.done rfl

end Exprs

/-! ### Imports and variables -/

theorem ends_pathSegments : Ends pathSegments :=
  .of_succ (p := pure []) rfl fun a ctx st eof => by
    rw [pathSegments, runAt_isSign, if_neg (by simp [eof])]

theorem reads_pathSegments {a b : Nat} (enough : Enough n a b) :
    law.ReadsUpTo n (pathSegments a) (pathSegments b) .names := by
  induction a generalizing n b with
  | zero => exact fun N s few => law.boundZero few enough ends_pathSegments (law.make .namesNil)
  | succ a ih =>
    refine fun N s few => law.boundSucc few enough ends_pathSegments fun b enough => ?_
    refine law.isNext fun _ => law.ite (law.step ?_) (law.make .namesNil)
    refine reads_expectIdent.bind fun x _ => (ih enough.pred).bind (by simp; omega) fun xs _ => ?_
    exact law.make .namesCons

theorem reads_importDecl : law.Reads importDecl .importUnit := by
  refine fun _ N s _ => (reads_expect (by simp)).bind fun kw _ => ?_
  refine law.current (fun t real _ => ?_) fun t t' eof eof' _ => ?_
  · split
    case h_1 path kind =>
      refine law.past real ?_
      dsimp only
      split
      · next spelled => exact law.make (.quoted spelled)
      · exact law.failAt (by simp)
    case h_2 =>
      refine reads_expectIdent.bind fun x _ => law.remaining fun _ _ _ ha hb _ => ?_
      exact (reads_pathSegments (.inr ⟨ha, hb⟩)).bind le_rfl fun xs _ => law.make .bare
    case h_3 => exact law.failExpected (.inl rfl)
  · rw [eof, eof']
    exact law.expectedEnd eof eof'

theorem reads_varDecl : law.Reads varDecl .var := by
  refine fun _ N s _ => law.bind law.freshId fun id _ => reads_expectIdent.bind fun x _ => ?_
  have inferred (sign : Token) (mutable : Bool) (symbol : Symbol) :
      law.Holds N none (.token sign :: .name x :: .number id :: s)
        (inferredVar id x sign mutable symbol) (inferredVar id x sign mutable symbol)
        fun v => .var v :: s :=
    law.refuse nofun (law.failAt (by simp)) (reads_expr.bind fun e _ => law.make .inferredVar)
  have typed (sign : Token) (mutable : Bool) :
      law.Holds N none (.token sign :: .name x :: .number id :: s) (typedVar id x mutable)
        (typedVar id x mutable) fun v => .var v :: s := by
    refine law.reduce .forget (reads_typeExpr.bind fun t _ => law.isNext fun _ => law.ite ?_ ?_)
    · exact law.step (reads_expr.bind fun e _ => law.make .typedVar)
    cases mutable with
    | false => exact law.failOver (by simp)
    | true => exact law.refuse nofun (law.failOver (by simp)) (law.make .bareVar)
  refine law.bump (fun sign _ _ => ?_) fun t t' eof eof' _ => ?_
  · split
    · exact inferred ..
    · exact inferred ..
    · exact typed ..
    · exact typed ..
    · exact law.failExpected (by simp)
  · rw [eof, eof']
    exact law.expectedEnd eof eof'

/-! ### Procedures -/

theorem reads_param : law.Reads param .param := by
  refine fun _ N s _ => law.bind law.freshId fun id _ => reads_expectIdent.bind fun x _ => ?_
  simp only [pure_bind, Option.isNone_none]
  refine law.isNext fun _ => law.ite ?_ ?_
  · refine law.step (reads_typeExpr.map_bind fun t => law.isNext fun _ => law.ite ?_ ?_)
    · exact law.step (reads_expr.map_bind fun e => law.make .defaultParam)
    · exact law.make .typedParam
  · refine law.isNext fun _ => law.ite (law.step (reads_expr.map_bind fun e => ?_)) ?_
    · exact law.refuse nofun (law.failOver (by simp)) (law.make .untypedParam)
    · exact law.refuse nofun (law.failOver (by simp)) (law.failOver (by simp))

theorem ends_paramList {defaulted : Bool} : Ends fun a => paramList a defaulted :=
  .of_succ (p := pure []) rfl fun a ctx st eof => by
    rw [paramList, runAt_isSign, runAt_isEnd, if_pos (by simp [eof])]

theorem reads_paramList {a b : Nat} (enough : Enough n a b) (defaulted : Bool) :
    law.ReadsUpTo n (paramList a defaulted) (paramList b defaulted) (.params defaulted) := by
  induction a generalizing n b defaulted with
  | zero => exact fun N s few => law.boundZero few enough ends_paramList (law.make .paramsNil)
  | succ a ih =>
    refine fun N s few => law.boundSucc few enough ends_paramList fun b enough => ?_
    refine law.isNext fun _ => law.isNext fun _ => law.ite (law.make .paramsNil) ?_
    refine reads_param.bind fun p _ => ?_
    dsimp only
    split
    · exact law.failOver (by simp [Param.extent])
    · next ordered =>
      have follows : defaulted → p.default.isSome := by
        intro isDefaulted
        simpa [isDefaulted, Option.isSome_iff_ne_none] using ordered
      refine law.isNext fun _ => law.ite (law.step ?_) ?_
      · refine (ih enough.pred _).bind (by simp; omega) fun ps _ => law.make (.paramsCons follows)
      · exact law.reduce .paramsNil (law.make (.paramsCons follows))

section Blocks

variable {block block' : Parser Block} (hblock : law.ReadsUpTo n block block' .block)

include hblock

theorem reads_procDecl : law.ReadsUpTo n (procDecl block) (procDecl block') .proc := by
  refine fun N s few => law.bind law.freshId fun id _ => reads_expectIdent.bind fun x _ => ?_
  refine reads_expectSign.bind fun _ _ => law.remaining fun m a b ha hb le => ?_
  simp only [weightAll, Fragment.weight] at le
  refine (reads_paramList (.inr ⟨ha, hb⟩) _).bind le_rfl fun ps _ => closing (by simp) fun _ => ?_
  refine law.isNext fun typed => ?_
  cases typed with
  | true =>
    simp only [if_true]
    refine law.reading (law.step (reads_typeExpr.map_bind fun t => hblock.bind ?_ fun b _ => ?_))
    · simp
      omega
    · exact law.make .typedProc
  | false =>
    refine law.refuse nofun (law.failOver (by simp)) (hblock.bind ?_ fun b _ =>
      law.make .untypedProc)
    simp
    omega

/-! ### Artifacts -/

omit hblock in
theorem holds_caseValue (x : Ident) :
    law.Holds N none (.name x :: s) (caseValue x) (caseValue x) fun c => .enumCase c :: s := by
  refine law.isNext fun negative => ?_
  dsimp only
  split
  on_goal 1 => refine law.step ?_
  all_goals
    refine law.bump (fun t _ _ => ?_) fun t t' eof eof' _ => ?_
    · split
      · next v kind => exact law.make (.valueCase kind (by simp))
      · exact law.failAt (by simp)
    · rw [eof, eof']
      exact law.failEnd eof eof'

theorem reads_member : law.ReadsUpTo n (member block) (member block') .member := by
  refine fun N s few => law.peek rfl fun first => law.peek ?_ fun _ => ?_
  · rcases first with _ | kind
    · rfl
    · cases kind <;> rfl
  split
  case h_1 => exact (reads_procDecl hblock).bind few fun p _ => law.make .procMember
  case h_6 =>
    refine reads_expectIdent.bind fun x _ => law.isNext fun _ => law.ite (law.step ?_) ?_
    · exact law.bind (holds_caseValue x) fun c _ => law.make .caseMember
    · exact law.reduce .bareCase (law.make .caseMember)
  case h_7 => exact reads_stop.here
  all_goals exact reads_varDecl.bind fun v _ => law.make .propMember

omit hblock in
theorem isSeparator_of_eof (t : Token) (eof : t.kind = .eof) : isSeparator t = false := by
  simp [isSeparator, eof]

omit hblock in
theorem ends_memberList {x : Ident} : Ends (memberList block x) :=
  .of_succ (p := pure []) rfl fun a ctx st eof => by
    rw [memberList, runAt_modify, dropWhile_of_eof isSeparator_of_eof eof, runAt_isSign,
      runAt_isEnd, if_pos (by simp [eof])]

theorem reads_memberList (x : Ident) {a b : Nat} (enough : Enough n a b) :
    law.ReadsUpTo n (memberList block x a) (memberList block' x b) .members := by
  induction a generalizing n b with
  | zero => exact fun N s few => law.boundZero few enough ends_memberList (law.make .membersNil)
  | succ a ih =>
    refine fun N s few => law.boundSucc few enough ends_memberList fun b enough => ?_
    refine law.bind (law.drop isSeparator_of_eof) fun _ _ => ?_
    refine law.isNext fun _ => law.isNext fun _ => law.ite (law.make .membersNil) ?_
    refine (reads_member hblock).bind few fun m _ => ?_
    have more : law.Holds N none (.member m :: s) (do return m :: (← memberList block x a))
        (do return m :: (← memberList block' x b)) fun ms => .members ms :: s :=
      (ih (hblock.mono (n.sub_le 1)) enough.pred).bind (by simp; omega) fun ms _ =>
        law.make .membersCons
    refine law.current (fun t real _ => ?_) fun t t' eof eof' _ => ?_
    · exact law.ite (law.unknown more) (law.failExpected (.inl rfl))
    · rw [if_pos (by simp [endsMember, eof]), if_pos (by simp [endsMember, eof'])]
      exact law.unknown more

omit hblock in
theorem gives_classify {name : Ident} {members : List Member} {kind : ArtifactKind}
    {ctx : ParseContext} {st st' : ParseState}
    (h : Gives (classify name members) ctx st kind st') :
    kind = artifactKindOf members ∧ CasesApart members ∧ st' = st := by
  simp only [classify] at h
  split at h
  case h_1 first more cases =>
    rw [gives_ite] at h
    rcases ite_prop_iff_or.mp h with ⟨-, h⟩ | ⟨notFewer, h⟩
    · exact absurd h not_gives_failOver
    obtain ⟨rfl, rfl⟩ := gives_pure.mp h
    have size := Nat.le_antisymm (List.length_filterMap_le _ _) (Nat.le_of_not_lt notFewer)
    have isCase : ∀ m ∈ members, m.isCase := by
      intro m mem
      have found := List.filterMap_length_eq_length.mp size m mem
      cases m <;> first | rfl | exact absurd found (by simp)
    have mem : first ∈ first :: more := List.mem_cons_self
    rw [← cases] at mem
    obtain ⟨m, hm, -⟩ := List.mem_filterMap.mp mem
    refine ⟨?_, .inl isCase, rfl⟩
    rw [artifactKindOf, if_pos (List.any_eq_true.mpr ⟨m, hm, isCase m hm⟩)]
  case h_2 cases =>
    obtain ⟨rfl, rfl⟩ := gives_pure.mp h
    rw [List.filterMap_eq_nil_iff] at cases
    have noCase : ∀ m ∈ members, ¬ m.isCase := by
      intro m mem isCase
      cases m with
      | prop | proc => exact absurd isCase (by simp [Member.isCase])
      | enumCase => exact absurd (cases _ mem) (by simp)
    refine ⟨?_, .inr noCase, rfl⟩
    have none : ¬ members.any Member.isCase = true := by simpa using noCase
    rw [artifactKindOf, if_neg none]
    rfl

omit hblock in
theorem holds_classify {x : Ident} {ms : List Member} (mem : .members ms ∈ s) :
    law.Holds N none s (classify x ms) (classify x ms) fun _ => s := by
  unfold classify
  dsimp only
  split
  · next c cs found =>
    refine law.ite (law.failOver (.inr ?_)) (law.done rfl)
    have here : c ∈ c :: cs := List.mem_cons_self
    rw [← found] at here
    obtain ⟨m, listed, isCase⟩ := List.mem_filterMap.mp here
    have part : m.extent ∈ Fragment.extentsAll s := by
      clear found here isCase
      induction s with
      | nil => cases mem
      | cons f s ih =>
        rcases List.mem_cons.mp mem with rfl | mem
        · simp [Member.mem_extents listed]
        · simp [ih mem]
    refine List.mem_map.mpr ⟨_, part, ?_⟩
    cases m <;> cases isCase
    rfl
  · exact law.done rfl

theorem reads_artifactDecl :
    law.ReadsUpTo n (artifactDecl block) (artifactDecl block') .artifact := by
  refine fun N s few => law.bind law.freshId fun id _ => reads_expectIdent.bind fun x _ => ?_
  refine reads_expectSign.bind fun _ _ => reads_expectSign.bind fun _ _ => ?_
  refine law.remaining fun m a b ha hb le => ?_
  have hblock := hblock.mono (show m ≤ n by simp at le; omega)
  have enough : Enough m (a + 1) (b + 1) := .inr ⟨Nat.le_succ_of_le ha, Nat.le_succ_of_le hb⟩
  refine (reads_memberList hblock x enough).bind le_rfl fun ms _ => closing (by simp) fun _ => ?_
  refine law.bind (holds_classify (by simp)) ?_
  rintro kind ⟨ctx, st, st', run⟩
  obtain ⟨rfl, apart, -⟩ := gives_classify run
  exact law.make (.artifact apart)

/-! ### Control flow -/

omit hblock in
theorem chainArms_some {limit : Nat} {b : Block} {last : Span}
    {r : List Guarded × Option Block × Span}
    (h : Given (chainArms block limit (some b) last) r) : r = ([], some b, last) := by
  obtain ⟨ctx, st, st', h⟩ := h
  cases limit with
  | zero => exact (gives_pure.mp h).1
  | succ limit =>
    obtain ⟨more, st₁, -, h⟩ := gives_bind.mp h
    cases more with
    | false => exact (gives_pure.mp h).1
    | true =>
      obtain ⟨bar, st₂, -, h⟩ := gives_bind.mp h
      exact absurd h nofun

omit hblock in
theorem chainArms_none {limit : Nat} {last : Span} {r : List Guarded × Option Block × Span}
    (h : Given (chainArms block limit none last) r) : r.2.2 = chainEnd last r.1 r.2.1 := by
  obtain ⟨ctx, st, st', h⟩ := h
  induction limit generalizing last r st st' with
  | zero =>
    rw [(gives_pure.mp h).1]
    rfl
  | succ limit ih =>
    obtain ⟨more, st₁, -, h⟩ := gives_bind.mp h
    cases more with
    | false =>
      rw [(gives_pure.mp h).1]
      rfl
    | true =>
      obtain ⟨bar, st₂, -, h⟩ := gives_bind.mp h
      obtain ⟨braced, st₃, -, h⟩ := gives_bind.mp h
      cases braced with
      | true =>
        obtain ⟨body, st₄, -, h⟩ := gives_bind.mp h
        rw [chainArms_some ⟨_, _, _, h⟩]
        rfl
      | false =>
        obtain ⟨cond, st₄, -, h⟩ := gives_bind.mp h
        obtain ⟨body, st₅, -, h⟩ := gives_bind.mp h
        obtain ⟨⟨gs, f, l⟩, st₆, h₁, h⟩ := gives_bind.mp h
        rw [(gives_pure.mp h).1]
        have ends := ih _ _ h₁
        cases f <;> simp_all [chainEnd, List.getLast?_cons]
        cases gs.getLast? <;> rfl

omit hblock in
theorem ends_chainArms {fallback : Option Block} {last : Span} :
    Ends fun a => chainArms block a fallback last :=
  .of_succ (p := pure ([], fallback, last)) rfl fun a ctx st eof => by
    rw [chainArms, runAt_isSign, if_neg (by simp [eof])]

omit hblock in
/-- Behind the arm without a condition a chain ends. -/
theorem holds_catchAll {a b : Nat} (few : N ≤ n + weightAll s) (enough : Enough n a b)
    (body : Block) (last : Span) :
    law.Holds N none s (chainArms block a (some body) last) (chainArms block' b (some body) last)
      fun _ => s := by
  cases a with
  | zero => exact law.boundZero few enough ends_chainArms (law.done rfl)
  | succ a =>
    refine law.boundSucc few enough ends_chainArms fun b _ =>
      law.ifSign (fun t kind => ?_) (law.done rfl)
    exact law.bumpKnown (by simp [kind]) (law.failAt (by simp))

theorem reads_chainArms {a b : Nat} (few : N ≤ n + weightAll s) (enough : Enough n a b)
    (last : Span) :
    law.Holds N none s (chainArms block a none last) (chainArms block' b none last)
      fun r => .arms r.1 r.2.1 :: s := by
  induction a generalizing n b s last with
  | zero => exact law.boundZero few enough ends_chainArms (law.make .armsNil)
  | succ a ih =>
    refine law.boundSucc few enough ends_chainArms fun b enough => ?_
    refine law.ifSign (fun t kind => ?_) (law.make .armsNil)
    refine law.bumpKnown (by simp [kind]) (law.isNext fun _ => law.ite ?_ ?_)
    · refine hblock.bind (by simp; omega) fun body _ => ?_
      rw [← bind_pure (chainArms block _ _ _), ← bind_pure (chainArms block' _ _ _)]
      refine law.bind (holds_catchAll (by simp; omega) enough.pred _ _) fun r given => ?_
      rw [chainArms_some given]
      exact law.make .fallback
    · refine reads_expr.bind fun c _ => hblock.bind (by simp; omega) fun body _ => ?_
      refine law.bind (ih (hblock.mono (n.sub_le 1)) (by simp; omega) enough.pred _) fun r _ => ?_
      exact law.make .armsCons

theorem reads_chain {t : Token} (real : t.kind ≠ .eof) (few : N ≤ n + weightAll s) :
    law.Holds N (some (t, t)) s (chain block) (chain block') fun x => .stmt x :: s := by
  refine law.known real (law.remaining fun m a b ha hb le => ?_)
  have hblock := hblock.mono (show m ≤ n by omega)
  cases a with
  | zero => exact law.boundZero le_rfl (.inr ⟨ha, hb⟩) ends_chainArms.bind (law.failOver (by simp))
  | succ a =>
    refine law.boundSucc le_rfl (.inr ⟨ha, hb⟩) ends_chainArms.bind fun b enough => ?_
    simp only [chainArms, bind_assoc]
    refine law.isKnown real fun isBar => ?_
    cases isBar with
    | false => exact law.failOver (by simp)
    | true =>
      simp only [if_true, bind_assoc, Option.isSome_none, Bool.false_eq_true, if_false]
      refine law.bumpKnown real (law.isNext fun braced => ?_)
      cases braced with
      | true =>
        simp only [if_true, bind_assoc]
        refine hblock.bind (by simp) fun body _ => ?_
        refine law.bind (holds_catchAll (by simp; omega) enough.pred _ _) fun r given => ?_
        rw [chainArms_some given]
        exact law.failOver (by simp)
      | false =>
        simp only [Bool.false_eq_true, if_false, bind_assoc, pure_bind]
        refine reads_expr.bind fun c _ => hblock.bind (by simp; omega) fun body _ => ?_
        refine law.bind (reads_chainArms (hblock.mono (m.sub_le 1)) (by simp; omega) enough.pred _)
          fun r given => ?_
        rw [chainArms_none given]
        exact law.make .chain

theorem reads_whileLoop : law.ReadsUpTo n (whileLoop block) (whileLoop block') .stmt := by
  refine fun N s few => (reads_expect (by simp)).bind fun kw _ => reads_expr.bind fun c _ => ?_
  exact hblock.bind (by simp; omega) fun b _ => law.make .whileLoop

theorem reads_rangeLoop : law.ReadsUpTo n (rangeLoop block) (rangeLoop block') .stmt := by
  refine fun N s few => law.bind law.freshId fun id _ => reads_expectIdent.bind fun x _ => ?_
  refine reads_expectSign.bind fun _ _ => reads_expr.bind fun e _ => ?_
  refine law.current (fun t _ _ => law.ite (law.step ?_) ?_) fun t t' eof eof' _ => ?_
  · refine reads_expr.bind fun f _ => hblock.bind (by simp; omega) fun b _ => law.make .rangeLoop
  · exact law.failExpected (.inl rfl)
  · rw [if_neg (by simp [eof]), if_neg (by simp [eof'])]
    exact law.expectedEnd eof eof'

omit hblock in
theorem reads_returnStmt : law.Reads returnStmt .stmt := by
  refine fun _ N s _ => (reads_expect (by simp)).bind fun kw _ => ?_
  refine law.current (fun t _ _ => law.ite (law.make .ret) ?_) fun t t' eof eof' _ => ?_
  · exact reads_expr.bind fun e _ => law.make .retValue
  · rw [if_pos (by simp [eof]), if_pos (by simp [eof'])]
    exact law.make .ret

theorem reads_exprStmt : law.ReadsUpTo n (exprStmt block) (exprStmt block') .stmt := by
  refine fun N s few => reads_expr.bind fun e _ => ?_
  refine law.current (fun t real _ => law.ite ?_ (law.ite ?_ ?_)) fun t t' eof eof' _ => ?_
  · have := e.weight_pos
    exact hblock.bind (by simp; omega) fun b _ => law.make .cond
  · dsimp only
    split
    · exact law.failOver (by simp)
    · next assignable =>
      have made (f : Expr) : Reduces (.expr f :: .expr e :: s)
        (.stmt (.assign (e.span.join f.span) e f) :: s) :=
        .assign (by simpa using assignable)
      refine law.step (reads_expr.bind fun f _ => ?_)
      refine law.current (fun t _ _ => law.ite (law.failAt (.inl rfl)) (law.make (made f)))
        fun t t' eof eof' _ => ?_
      rw [if_neg (by simp [eof]), if_neg (by simp [eof'])]
      exact law.make (made f)
  · exact law.make .exprStmt
  · simp only [eof, eof']
    exact law.make .exprStmt

theorem reads_stmtWith : law.ReadsUpTo n (stmtWith block) (stmtWith block') .stmt := by
  refine fun N s few => ?_
  have other {nx : Option (Token × Token)} : law.Holds N nx s (exprStmt block) (exprStmt block')
      fun x => .stmt x :: s := law.unknown (reads_exprStmt hblock N s few)
  refine law.first rfl rfl other fun t real => ?_
  split
  case h_1 => exact reads_importDecl.bind fun i _ => law.make .importStmt
  case h_2 => exact law.unknown (reads_whileLoop hblock N s few)
  case h_3 => exact reads_chain hblock real few
  case h_6 => exact reads_returnStmt.here
  case h_7 => exact hblock.bind few fun b _ => law.make .blockStmt
  case h_8 =>
    refine law.peek rfl fun second => law.peek ?_ fun _ => ?_
    · rcases second with _ | kind
      · rfl
      · cases kind with
        | symbol sign => cases sign <;> rfl
        | _ => rfl
    split
    case h_1 => exact law.unknown (reads_rangeLoop hblock N s few)
    case h_2 => exact (reads_artifactDecl hblock).bind few fun a _ => law.make .artifactStmt
    case h_7 =>
      refine law.look fun st st' same => ?_
      rw [same]
      exact law.ite ((reads_procDecl hblock).bind few fun p _ => law.make .procStmt) other
    case h_8 => exact other
    all_goals exact reads_varDecl.bind fun v _ => law.make .varStmt
  case h_9 => exact other
  all_goals
    refine law.bumpKnown real (law.make ?_)
    first | exact .breakLoop | exact .skipTurn

omit hblock in
theorem holds_stmtEnd : law.Holds N none s stmtEnd stmtEnd fun _ => s := by
  refine law.current (fun t _ _ => law.ite ?_ ?_) fun t t' eof eof' _ => ?_
  · rw [← bind_pure advance]
    exact law.step (law.done rfl)
  · exact law.ite (law.done rfl) (law.failExpected (.inl rfl))
  · rw [if_neg (by simp [eof]), if_pos (by simp [eof]), if_neg (by simp [eof']),
      if_pos (by simp [eof'])]
    exact law.done rfl

theorem reads_terminatedStmt (topLevel afterChain : Bool) :
    law.ReadsUpTo n (terminatedStmt block topLevel afterChain)
      (terminatedStmt block' topLevel afterChain) (.admitted topLevel afterChain) := by
  intro N s few
  refine law.current (fun t real _ => law.ite (law.failAt (.inl rfl)) ?_) fun t t' eof eof' _ => ?_
  on_goal 2 => rw [if_neg (by simp [eof]), if_neg (by simp [eof'])]
  all_goals
    refine (reads_stmtWith hblock).bind few fun x _ => ?_
    have ended (admitted : admits topLevel afterChain x) : law.Holds N none (.stmt x :: s)
        (do stmtEnd; return x) (do stmtEnd; return x) fun x =>
          .admitted topLevel afterChain x :: s :=
      law.bind holds_stmtEnd fun _ _ => law.make (.admitted admitted)
    dsimp only
    split
    case h_4 noImport noArtifact noCond =>
      refine ended ?_
      cases x <;> simp_all [admits]
    all_goals
      split
      · exact law.failOver (by simp [Stmt.extent])
      · next admitted => exact ended (by simpa [admits] using admitted)

omit hblock in
theorem semi_of_eof (t : Token) (eof : t.kind = .eof) : (t.kind == .symbol .semi) = false := by
  simp [eof]

omit hblock in
theorem ends_stmtsWith {topLevel afterChain : Bool} :
    Ends fun a => stmtsWith block topLevel a afterChain :=
  .of_succ (p := pure []) rfl fun a ctx st eof => by
    rw [stmtsWith, runAt_modify, dropWhile_of_eof semi_of_eof eof, runAt_isEnd,
      if_pos (by simp [eof])]

end Blocks

/-! ### Statements -/

theorem reads_stmtsWith {block block' : Parser Block}
    (hblock : ∀ law : TreeLaw, law.ReadsUpTo n block block' .block) (topLevel : Bool) {a b : Nat}
    (enough : Enough n a b) (afterChain : Bool) :
    law.ReadsUpTo n (stmtsWith block topLevel a afterChain) (stmtsWith block' topLevel b afterChain)
      (.stmts topLevel afterChain) := by
  induction a generalizing n b afterChain with
  | zero => exact fun N s few => law.boundZero few enough ends_stmtsWith (law.make .stmtsNil)
  | succ a ih =>
    refine fun N s few => law.boundSucc few enough ends_stmtsWith fun b enough => ?_
    refine law.bind (law.drop semi_of_eof) fun _ _ =>
      law.ifEnd (law.make .stmtsNil) fun t real => ?_
    refine law.isKnown real fun _ => law.ite (law.make .stmtsNil) ?_
    have stmt (law : TreeLaw) := reads_terminatedStmt (hblock law) topLevel afterChain N s few
    refine law.goOn real (.of_holds stmt) (stmt law) fun N' s' afterChain le => ?_
    exact ih (fun law => (hblock law).mono (n.sub_le 1)) enough.pred afterChain N' s' (by omega)

theorem ends_blockWithin : Ends blockWithin :=
  .of_succ (p := do failExpected (← Parser.current) (.token (.symbol .lbrace))) rfl
    fun a ctx st eof => by
      rw [blockWithin, runAt_current, expectSign, expect, bind_assoc, runAt_current,
        if_neg (by simp [eof])]
      rfl

theorem reads_blockWithin {a b : Nat} (enough : Enough n a b) (law : TreeLaw) :
    law.ReadsUpTo n (blockWithin a) (blockWithin b) .block := by
  induction a generalizing n b law with
  | zero => exact fun N s few => law.boundZero few enough ends_blockWithin reads_stop.here
  | succ a ih =>
    refine fun N s few => law.boundSucc few enough ends_blockWithin fun b enough => ?_
    refine reads_expectSign.bind fun _ _ => law.remaining fun m c d hc hd le => ?_
    have hblock (law : TreeLaw) := (ih enough.pred law).mono (show m ≤ n - 1 by simp at le; omega)
    have enough : Enough m (c + 1) (d + 1) := .inr ⟨Nat.le_succ_of_le hc, Nat.le_succ_of_le hd⟩
    refine (reads_stmtsWith hblock _ enough _).bind le_rfl fun ss _ => ?_
    exact closing (by simp) fun _ => law.make .block

theorem reads_block (law : TreeLaw) : law.Reads block .block :=
  fun _ _ _ _ => law.remaining fun _ _ _ ha hb _ =>
    reads_blockWithin (.inr ⟨Nat.le_succ_of_le ha, Nat.le_succ_of_le hb⟩) law _ _ le_rfl

/-- The statements of a program. -/
theorem reads_program : law.Reads program fun p => .stmts true false p.stmts := by
  refine fun _ N s _ => law.remaining fun m a b ha hb _ => ?_
  have enough : Enough m (a + 1) (b + 1) := .inr ⟨Nat.le_succ_of_le ha, Nat.le_succ_of_le hb⟩
  refine (reads_stmtsWith (fun law => reads_block law m) _ enough _).bind le_rfl fun ss _ => ?_
  exact law.done rfl

end Parser

end ArkLang
