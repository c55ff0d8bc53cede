import ArkLang.Proofs.DeclaredNames

/-!
# Jumps of accepted units

Every body of an accepted unit was checked to its end without errors, those of artifacts and of
procedures in blocks too. So all jumps stand in what they leave.
-/

namespace ArkLang

open List

section Items

variable {o : Outline} {K : Region} {s s' : Analysis}

/-- Items that a trace begins are finished in it. -/
theorem Trace.finished (h : Trace o K s s') {i : Item} (own : ¬ o.IsNested i)
    (begun : i ∈ s'.started) : i ∈ s.started ∨ i ∈ s'.finished := by
  induction h with
  | refl => exact .inl begun
  | change first _ ih =>
    refine (ih begun).imp_left fun begun => ?_
    cases first with
    | started nested =>
      rcases List.mem_cons.mp begun with rfl | old
      · exact absurd nested own
      · exact old
    | _ => exact begun
  | @item K s s₁ s' j _ _ _ _ _ _ inner rest ihInner ihRest =>
    have kept : (s₁.finish j).finished ⊆ s'.finished := rest.grows.finished.subset
    rcases ihRest begun with begun | ended
    · rcases ihInner begun with old | ended
      · rcases List.mem_cons.mp old with rfl | old
        · exact .inr (kept mem_cons_self)
        · exact .inl old
      · exact .inr (kept (mem_cons_of_mem _ ended))
    · exact .inr ended

end Items

theorem Stmt.artifactNode_sublist (ss : List Stmt) :
    ((ss.filterMap Stmt.artifact?).map (·.node.id)).Sublist (Stmt.idsAll ss) := by
  induction ss with
  | nil => exact .slnil
  | cons s ss ih =>
    rw [Stmt.idsAll]
    cases s with
    | artifact decl =>
      obtain ⟨node, name, kind, members⟩ := decl
      exact ((nil_sublist (Member.idsAll members)).append ih).cons_cons _
    | _ => exact ih.trans (sublist_append_right _ _)

variable {module : ModuleId} {r : Resolver} {p : Program} {unit : CheckedUnit}

theorem Outline.Lists.artifactDecls {o : Outline} (h : o.Lists p.stmts p.stmts) :
    o.artifacts.map (·.decl) = p.stmts.filterMap Stmt.artifact? := by
  simpa [Function.comp_def] using congrArg (List.map Prod.fst) h.artifacts

theorem Outline.Lists.find?_artifact {o : Outline} (h : o.Lists p.stmts p.stmts)
    (distinct : p.ids.Nodup) {a : ArtifactDecl} (mem : .artifact a ∈ p.stmts) :
    ∃ b ∈ o.artifacts, b.decl = a ∧
      o.artifacts.find? (·.decl.node.id == a.node.id) = some b := by
  have decls := h.artifactDecls
  have here : a ∈ p.stmts.filterMap Stmt.artifact? := List.mem_filterMap.mpr ⟨_, mem, rfl⟩
  obtain ⟨c, hc, rfl⟩ := List.mem_map.mp (decls ▸ here)
  cases found : o.artifacts.find? (·.decl.node.id == c.decl.node.id) with
  | none => simpa using List.find?_eq_none.mp found c hc
  | some b =>
    have inList := mem_of_find?_eq_some found
    refine ⟨b, inList, ?_, rfl⟩
    have nodup := distinct.sublist (Stmt.artifactNode_sublist p.stmts)
    exact inj_on_of_nodup_map nodup (decls ▸ mem_map_of_mem inList) here
      (by simpa using find?_some found)

/-- All jumps of an accepted unit stand in what they leave. -/
theorem jumpsIn_of_analyze (distinct : p.ids.Nodup) (accepted : analyze module r p = .ok unit) :
    p.JumpsIn := by
  obtain ⟨-, free⟩ := eq_unit_of_analyze accepted
  have lists := Outline.lists_of_run free
  generalize ho : Outline.ofProgram module r p = o at free lists
  have trace := Check.trace_program o p
  have leaves := Analysis.leaves_ofProgram distinct ho.symm
  obtain ⟨u, t, run⟩ := Check.total_program p o (.ofOutline o)
  have run : runAt (Check.program p) o (.ofOutline o) = (.ok u, t) := run
  have checked := leaves.value u (by rw [run])
  have aligned := leaves.aligned
  rw [run] at trace checked aligned
  have clean : t.errors = #[] := by
    have before := Analysis.errors_prefix_checked o p
    rwa [run, free, prefix_nil, Array.toList_eq_nil_iff] at before
  -- A body that is begun was checked to its end, without errors.
  have body {st : Stmt} (mem : st ∈ p.stmts) {id : ProcId} {proc : LocalProc}
      (found : o.procs[id]? = some proc) (own : Check.Bodies o st id) : proc.decl.JumpsIn := by
    have isOwn : ¬ o.IsNested (.body id) := Nat.not_le.mpr (Array.getElem?_eq_some_iff.mp found).1
    have ended := (trace.finished isOwn ((checked st mem).2 id own)).resolve_left not_mem_nil
    exact aligned.jumps clean id proc found ended
  constructor
  · refine Stmt.allJumpIn_iff.mpr fun st mem => ?_
    by_cases isProc : ∃ d, st = .proc d
    · obtain ⟨d, rfl⟩ := isProc
      have listed : Outline.topHead d ∈ o.procs.toList.map Outline.head := by
        rw [lists.procs]
        exact mem_append_right _ (mem_map_of_mem (List.mem_filterMap.mpr ⟨_, mem, rfl⟩))
      obtain ⟨proc, hproc, same⟩ := List.mem_map.mp listed
      obtain rfl : proc.decl = d := congrArg ProcHead.decl same
      obtain ⟨id, found⟩ := Array.getElem?_of_mem (Array.mem_toList_iff.mp hproc)
      exact body mem found (.proc found)
    · exact (checked st mem).1 clean fun d same => isProc ⟨d, same⟩
  · intro a mem d hd
    obtain ⟨b, hb, rfl, here⟩ := lists.find?_artifact distinct mem
    obtain ⟨id, method, at_⟩ := lists.methods b hb d hd
    rw [getElem?_map, Array.getElem?_toList] at at_
    obtain ⟨proc, found, same⟩ := Option.map_eq_some_iff.mp at_
    obtain rfl : proc.decl = d := congrArg ProcHead.decl same
    exact body mem found (.method here method (Array.getElem?_eq_some_iff.mp found).1)

end ArkLang
