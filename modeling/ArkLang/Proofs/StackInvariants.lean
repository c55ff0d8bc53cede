import Mathlib.Data.List.TakeWhile
import ArkLang.Proofs.Grammar

/-!
# Invariants of the stack

What holds of the state of a parser and of its stack, and is kept by every step, holds wherever a
parser gives a value. If a parser fails, its error and the state it leaves have a property as well,
and with it statements go on behind an error.

## Main definitions

* `StackInvariant` — a property of states and stacks that steps and productions keep
* `StackInvariant.law` — the law of parsers that keep it
-/

namespace ArkLang

/-- A property of states with a stack that steps and productions keep, and one of failures. -/
structure StackInvariant where
  Holds : ParseContext → ParseState → List Fragment → Prop
  Failed : ParseContext → ParseError → ParseState → Prop
  reduce : ∀ {ctx st s s'}, Reduces s s' → Holds ctx st s → Holds ctx st s'
  past : ∀ {ctx st s}, (st.next ctx).kind ≠ .eof → Holds ctx st s →
    Holds ctx st.past (.token (st.next ctx) :: s)
  skip : ∀ {ctx st s} {f : List Token → List Token}, (∀ ts, f ts <:+ ts) →
    (∀ ts t, t ∈ ts → t.kind = .eof → t ∈ f ts) → Holds ctx st s →
    Holds ctx { st with rest := f st.rest } s
  numbered : ∀ {ctx st s}, Holds ctx st s → Holds ctx st.numbered (.number st.nextId :: s)
  otherThan : ∀ {ctx st s d}, ctx.dialect ≠ d → Holds ctx st s → Holds ctx st (.otherThan d :: s)
  failAt : ∀ {ctx st s t fault}, st.next ctx = t ∨ .token t ∈ s → Holds ctx st s →
    Failed ctx ⟨fault, t.span, t.position⟩ st
  failOver : ∀ {ctx st s span fault},
    span = (st.next ctx).span ∨ span ∈ (Fragment.extentsAll s).map Extent.span → Holds ctx st s →
    Failed ctx ⟨fault, span, ((ctx.tokens.find? fun t => span.offset ≤ t.span.offset).getD
      (endToken ctx.tokens)).position⟩ st
  recover : ∀ {ctx st st' s start e}, ctx.recovering = true → Holds ctx st s → Failed ctx e st' →
    st'.rest <:+ st.rest → st.nextId ≤ st'.nextId → Holds ctx (Parser.recoveredState start e st') s
  behind : ∀ {ctx st s topLevel afterChain xs}, ctx.recovering = true →
    Holds ctx st (.stmts topLevel false xs :: s) → Holds ctx st (.stmts topLevel afterChain xs :: s)

namespace StackInvariant

variable {α β : Type} {I : StackInvariant} {ctx : ParseContext} {st st' : ParseState}
  {s : List Fragment} {after : α → List Fragment} {p : Parser α}

/-- What an outcome and the state behind it have to be. -/
def Leads (I : StackInvariant) (ctx : ParseContext) (after : α → List Fragment) :
    Except ParseError α × ParseState → Prop
  | (.ok a, st) => I.Holds ctx st (after a)
  | (.error e, st) => I.Failed ctx e st

/-- A parser that keeps an invariant where the next token is known. -/
def Keeps (I : StackInvariant) (nx : Option (Token × Token)) (s : List Fragment) (p : Parser α)
    (after : α → List Fragment) : Prop :=
  ∀ ctx st, (∀ u ∈ nx, st.next ctx = u.1) → I.Holds ctx st s → I.Leads ctx after (runAt p ctx st)

theorem Keeps.gives (h : I.Keeps none s p after) (here : I.Holds ctx st s) {a : α}
    (run : Gives p ctx st a st') : I.Holds ctx st' (after a) := by
  have leads := h ctx st (by simp) here
  rwa [run] at leads

/-- Statements keep an invariant also behind an error. -/
theorem keeps_goOn {start : Nat} {stmt : Parser Stmt} {more : Bool → Parser (List Stmt)}
    {topLevel afterChain : Bool} (forward : Forward stmt)
    (hstmt : I.Keeps none s stmt fun x => .admitted topLevel afterChain x :: s)
    (hmore : ∀ afterChain s, I.Keeps none s (more afterChain) fun xs =>
      .stmts topLevel afterChain xs :: s) :
    I.Keeps none s (Parser.goOn start stmt more) fun xs => .stmts topLevel afterChain xs :: s := by
  intro ctx st _ here
  have first := hstmt ctx st (by simp) here
  have moved := forward ctx st
  rw [Parser.runAt_goOn]
  rcases run : runAt stmt ctx st with ⟨e | x, st₁⟩
  · rw [run] at first moved
    dsimp only
    split
    · next recovering =>
      have rest := hmore false s ctx (Parser.recoveredState start e st₁) (by simp)
        (I.recover recovering here first moved.1 moved.2)
      revert rest
      rcases runAt (more false) ctx (Parser.recoveredState start e st₁) with ⟨e | xs, st₂⟩
      · exact id
      · exact I.behind recovering
    · exact first
  · rw [run] at first
    have rest := hmore (Parser.isChain x) _ ctx st₁ (by simp) first
    dsimp only
    rw [← bind_pure_comp, runAt_bind]
    revert rest
    rcases runAt (more (Parser.isChain x)) ctx st₁ with ⟨e | xs, st₂⟩
    · exact id
    · exact I.reduce .stmtsCons

/-- Parsers keep an invariant, because their steps do. -/
def law (I : StackInvariant) : TreeLaw where
  Holds _ nx s p _ after := I.Keeps nx s p after
  pure _ _ _ _ here := here
  bind {α β N nx s p q f g mid after} hp hf ctx st known here := by
    have first := hp ctx st known here
    rw [runAt_bind]
    rcases run : runAt p ctx st with ⟨e | a, st₁⟩
    · rwa [run] at first
    · rw [run] at first
      exact hf a ⟨ctx, st, st₁, run⟩ ctx st₁ (by simp) first
  reduce reduces h ctx st known here := h ctx st known (I.reduce reduces here)
  unknown h ctx st _ here := h ctx st (by simp) here
  spent _ _ h := h
  current {α N nx s f g after} h h' ctx st known here := by
    have same : ∀ u ∈ nx, u.1 = st.next ctx := fun u mem => (known u mem).symm
    by_cases eof : (st.next ctx).kind = .eof
    · exact h' _ _ eof eof same ctx st (by simp) here
    · exact h _ eof same ctx st (by simp) here
  past {α N t s f g after} real h ctx st known here := by
    obtain rfl := known _ rfl
    exact h ctx st.past (by simp) (I.past real here)
  stay {α N t t' s f g after} eof _ h ctx st known here := by
    obtain rfl := known _ rfl
    rw [Parser.runAt_stay eof]
    exact h ctx st known here
  first {α N nx s f g after} hf _ hnone hsome ctx st _ here := by
    obtain ⟨_ | ⟨t, ts⟩, nextId, errors⟩ := st
    · exact hnone ctx ⟨[], nextId, errors⟩ (by simp) here
    by_cases eof : t.kind = .eof
    · rw [← hf, ← eof] at hnone
      exact hnone ctx ⟨t :: ts, nextId, errors⟩ (by simp) here
    · exact hsome t eof ctx ⟨t :: ts, nextId, errors⟩ (by simp [ParseState.next]) here
  peek _ h ctx st known here := h _ ctx st known here
  look h ctx st known here := h st st rfl ctx st known here
  remaining h ctx st known here :=
    h 0 st.rest.length 0 (Nat.zero_le _) (Nat.zero_le _) (Nat.zero_le _) ctx st known here
  drop {N s skipped} inside _ _ _ here := by
    refine I.skip (fun _ => List.dropWhile_suffix _) (fun ts t mem eof => ?_) here
    rw [← List.takeWhile_append_dropWhile (p := skipped) (l := ts)] at mem
    refine (List.mem_append.mp mem).resolve_left fun mem => ?_
    simpa [inside t eof] using List.mem_takeWhile_imp mem
  freshId _ _ _ here := I.numbered here
  failAt shown ctx st known here := by
    refine I.failAt (shown.imp_left ?_) here
    rintro rfl
    exact known _ rfl
  failEnd _ _ _ _ known here := I.failAt (.inl (known _ rfl)) here
  failOver shown ctx st known here := by
    refine I.failOver (shown.imp_left fun mem => ?_) here
    obtain ⟨u, next, rfl⟩ := Option.mem_map.mp mem
    rw [known u next]
  refuse {α N nx s d stop stop' rest rest' after} _ hstop hrest ctx st known here := by
    change I.Leads ctx after (runAt (if ctx.dialect = d then stop else rest) ctx st)
    split
    · exact hstop ctx st known here
    · next other => exact hrest ctx st known (I.otherThan other here)
  goOn {N t s stmt stmt' more more' topLevel afterChain} _ forward hstmt hmore ctx st _ here := by
    rw [Parser.runAt_remaining]
    exact keeps_goOn forward hstmt (fun afterChain s' => hmore 0 s' afterChain (Nat.zero_le _)) ctx
      st (by simp) here

end StackInvariant

/-- A parser that started with some tokens and numbers goes forward from there. -/
def moving (start : List Token) (first : NodeId) : StackInvariant where
  Holds _ st _ := st.rest <:+ start ∧ first ≤ st.nextId
  Failed _ _ st := st.rest <:+ start ∧ first ≤ st.nextId
  reduce _ here := here
  past _ here := ⟨(Parser.afterNext_suffix _).trans here.1, here.2⟩
  skip suffix _ here := ⟨(suffix _).trans here.1, here.2⟩
  numbered here := ⟨here.1, Nat.le_succ_of_le here.2⟩
  otherThan _ here := here
  failAt _ here := here
  failOver _ here := here
  recover _ _ failed _ _ := ⟨(Parser.skipToBoundary_suffix _ _ _).trans failed.1, failed.2⟩
  behind _ here := here

/-- Parsers that obey all laws go forward. -/
theorem Forward.of_holds {α : Type} {N : Nat} {p q : Parser α} {s : List Fragment}
    {after : α → List Fragment} (h : ∀ law : TreeLaw, law.Holds N none s p q after) :
    Forward p := by
  intro ctx st
  have leads := h (moving st.rest st.nextId).law ctx st (by simp)
    ⟨List.suffix_rfl, Nat.le_refl _⟩
  revert leads
  rcases runAt p ctx st with ⟨e | a, st'⟩ <;> exact id

end ArkLang
