import ArkLang.Proofs.Changes

/-!
# What checks leave alone

Tables only grow: a symbol may get its type and a procedure its signature, but nothing else that was
written is changed behind the code that wrote it. What the tables hold of a node is written by the
one item or statement that the node belongs to, so around the check of an item nothing happens to
its nodes.
-/

namespace ArkLang

open List

variable {α β : Type} {o : Outline} {K : Region} {s s₁ s' F : Analysis} {n : NodeId}

namespace Analysis

/-- The tables hold the same of a node. -/
structure SameAt (n : NodeId) (s s' : Analysis) : Prop where
  type : s'.exprTypes.get? n = s.exprTypes.get? n
  resolution : s'.resolutions.get? n = s.resolutions.get? n
  call : s'.calls.get? n = s.calls.get? n
  declSymbol : s'.declSymbols.get? n = s.declSymbols.get? n
  procDecl : s'.procDecls.get? n = s.procDecls.get? n
  pending : s'.pending.toList.filter (·.call.id == n) = s.pending.toList.filter (·.call.id == n)

namespace SameAt

theorem refl (n : NodeId) (s : Analysis) : SameAt n s s :=
  ⟨rfl, rfl, rfl, rfl, rfl, rfl⟩

theorem begin (n : NodeId) (s : Analysis) (i : Item) : SameAt n s (s.begin i) :=
  ⟨rfl, rfl, rfl, rfl, rfl, rfl⟩

theorem finish (n : NodeId) (s : Analysis) (i : Item) : SameAt n s (s.finish i) :=
  ⟨rfl, rfl, rfl, rfl, rfl, rfl⟩

theorem trans (h : SameAt n s s₁) (h' : SameAt n s₁ s') : SameAt n s s' :=
  ⟨h'.type.trans h.type, h'.resolution.trans h.resolution, h'.call.trans h.call,
    h'.declSymbol.trans h.declSymbol, h'.procDecl.trans h.procDecl, h'.pending.trans h.pending⟩

end SameAt

/-- A change writes at its own nodes only. -/
theorem Change.sameAt (h : s.Change o K s') (out : n ∉ K.nodes) : SameAt n s s' := by
  have other {m : NodeId} (mem : m ∈ K.nodes) : m ≠ n := fun same => out (same ▸ mem)
  have unread {γ : Type} {table : NodeTable γ} {m : NodeId} {x : γ} (ne : m ≠ n) :
      (table.insert m x).get? n = table.get? n := by
    simp [Std.TreeMap.getElem?_insert, ne]
  cases h with
  | type t mem => exact { SameAt.refl n s with type := unread (other mem) }
  | resolution r mem => exact { SameAt.refl n s with resolution := unread (other mem) }
  | call mem _ => exact { SameAt.refl n s with call := unread (other mem) }
  | declSymbol symbol mem => exact { SameAt.refl n s with declSymbol := unread (other mem) }
  | newProc mem _ _ => exact { SameAt.refl n s with procDecl := unread (other mem) }
  | method _ _ _ mem _ =>
    exact { SameAt.refl n s with
      call := unread (other mem)
      pending := by simp [filter_append, other mem] }
  | _ => exact ⟨rfl, rfl, rfl, rfl, rfl, rfl⟩

end Analysis

/-! ### What only grows -/

namespace ProcEntry.Filled

variable {p q r : ProcEntry}

theorem refl (p : ProcEntry) : p.Filled p :=
  ⟨rfl, prefix_rfl, rfl, id⟩

theorem trans (h : p.Filled q) (h' : q.Filled r) : p.Filled r where
  info := by rw [h'.info, h.info]
  captures := h.captures.trans h'.captures
  hasDeclaredRet := h'.hasDeclaredRet.trans h.hasDeclaredRet
  writesSelf := h'.writesSelf ∘ h.writesSelf

end ProcEntry.Filled

namespace Analysis

/-- What later tables keep of earlier ones: symbols up to their types, procedures as far as they are
filled, properties, errors, items and postponed calls. -/
structure Grows (s s' : Analysis) : Prop where
  symbols : ∀ (id : SymbolId) (sym : SymbolInfo), s.symbols[id]? = some sym →
    ∃ type, s'.symbols[id]? = some { sym with type }
  procs : ∀ (id : ProcId) (p : ProcEntry), s.procs[id]? = some p →
    ∃ q, s'.procs[id]? = some q ∧ p.Filled q
  props : ∀ name, (s.props.get? name).getD [] <+: (s'.props.get? name).getD []
  errors : s.errors.toList <+: s'.errors.toList
  started : s.started ⊆ s'.started
  finished : s.finished <:+ s'.finished
  pending : s.pending.toList <+: s'.pending.toList

namespace Grows

theorem refl (s : Analysis) : Grows s s where
  symbols _ sym h := ⟨sym.type, h⟩
  procs _ p h := ⟨p, h, .refl p⟩
  props _ := prefix_rfl
  errors := prefix_rfl
  started := List.Subset.refl _
  finished := suffix_rfl
  pending := prefix_rfl

theorem begin (s : Analysis) (i : Item) : Grows s (s.begin i) :=
  { refl s with started := subset_cons_self _ _ }

theorem finish (s : Analysis) (i : Item) : Grows s (s.finish i) :=
  { refl s with finished := suffix_cons _ _ }

theorem trans (h : Grows s s₁) (h' : Grows s₁ s') : Grows s s' where
  symbols id sym found := by
    obtain ⟨type, found⟩ := h.symbols id sym found
    obtain ⟨type', found⟩ := h'.symbols id _ found
    exact ⟨type', found⟩
  procs id p found := by
    obtain ⟨q, found, first⟩ := h.procs id p found
    obtain ⟨r, found, second⟩ := h'.procs id q found
    exact ⟨r, found, first.trans second⟩
  props name := (h.props name).trans (h'.props name)
  errors := h.errors.trans h'.errors
  started := List.Subset.trans h.started h'.started
  finished := h.finished.trans h'.finished
  pending := h.pending.trans h'.pending

end Grows

theorem Grows.size_procs (h : s.Grows s') : s.procs.size ≤ s'.procs.size := by
  by_contra less
  obtain ⟨p, found, -⟩ := h.procs s'.procs.size _
    (Array.getElem?_eq_getElem (Nat.lt_of_not_le less))
  simp at found

/-- No change takes back what was written. -/
theorem Change.grows (h : s.Change o K s') : Grows s s' := by
  have modified {id : ProcId} {f : ProcEntry → ProcEntry} (filled : ∀ p, ProcEntry.Filled p (f p))
      (j : ProcId) (p : ProcEntry) (found : s.procs[j]? = some p) :
      ∃ q, (s.procs.modify id f)[j]? = some q ∧ p.Filled q := by
    by_cases here : id = j
    · exact ⟨f p, by simp [Array.getElem?_modify, here, found], filled p⟩
    · exact ⟨p, by simp [Array.getElem?_modify, here, found], .refl p⟩
  have pushed {γ : Type} {xs : Array γ} {x y : γ} {j : Nat} (found : xs[j]? = some x) :
      (xs.push y)[j]? = some x := by
    obtain ⟨inside, rfl⟩ := Array.getElem?_eq_some_iff.mp found
    simp [Array.getElem?_push, Nat.ne_of_lt inside]
  cases h with
  | newSymbol => exact { Grows.refl s with symbols := fun _ sym h => ⟨sym.type, pushed h⟩ }
  | symbolType id type =>
    refine { Grows.refl s with symbols := fun j sym found => ?_ }
    by_cases here : id = j
    · exact ⟨type, by simp [Array.getElem?_modify, here, found]⟩
    · exact ⟨sym.type, by simp [Array.getElem?_modify, here, found]⟩
  | newProc => exact { Grows.refl s with procs := fun _ p h => ⟨p, pushed h, .refl p⟩ }
  | proc id filled => exact { Grows.refl s with procs := modified filled }
  | params filled => exact { Grows.refl s with procs := modified filled }
  | @prop prop artifact mem =>
    refine { Grows.refl s with props := fun name => ?_ }
    by_cases here : name = artifact
    · simp [here]
    · simp [here]
  | started => exact { Grows.refl s with started := subset_cons_self _ _ }
  | finished => exact { Grows.refl s with finished := suffix_cons _ _ }
  | method => exact { Grows.refl s with pending := by simp }
  | error => exact { Grows.refl s with errors := by simp }
  | _ => exact { Grows.refl s with }

end Analysis

namespace Trace

open Analysis

theorem grows (h : Trace o K s s') : Grows s s' := by
  induction h with
  | refl => exact .refl _
  | change first _ ih => exact first.grows.trans ih
  | @item K s s₁ s' i _ _ _ _ _ _ _ _ inner rest =>
    exact (((Grows.begin s i).trans inner).trans (.finish s₁ i)).trans rest

theorem sameAt (h : Trace o K s s') (out : n ∉ K.nodes)
    (others : ∀ i ∈ s'.started, i ∉ s.started → n ∉ o.code i) : SameAt n s s' := by
  induction h with
  | refl => exact .refl _ _
  | change first rest ih =>
    refine (first.sameAt out).trans (ih out fun i later new => others i later fun old => new ?_)
    exact first.grows.started old
  | @item K s s₁ s' i _ _ _ new _ _ inner rest ihInner ihRest =>
    have within : s₁.started ⊆ s'.started := rest.grows.started
    have begun : i ∈ s₁.started := inner.grows.started mem_cons_self
    have first : SameAt n (s.begin i) s₁ :=
      ihInner (others i (within begun) new) fun j later fresh =>
        others j (within later) fun old => fresh (mem_cons_of_mem _ old)
    have second : SameAt n (s₁.finish i) s' :=
      ihRest out fun j later fresh => others j later fun old =>
        fresh (inner.grows.started (mem_cons_of_mem _ old))
    exact (((SameAt.begin n s i).trans first).trans (.finish n s₁ i)).trans second

/-- Nodes of items that were begun before are left alone. -/
theorem sameAt_of_held (h : Trace o K s s') (out : n ∉ K.nodes)
    (held : ∀ i, i ∉ s.started → n ∉ o.code i) : SameAt n s s' :=
  h.sameAt out fun i _ new => held i new

end Trace

end ArkLang
