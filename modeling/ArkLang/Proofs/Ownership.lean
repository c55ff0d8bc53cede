import Mathlib.Data.List.Nodup
import ArkLang.Analysis.Item
import ArkLang.Proofs.ParsedTrees

/-!
# The item that a node belongs to

The code of a unit is divided among its items and its module-level statements: the value of a
variable, the defaults and the body of a procedure, the properties of an artifact. A node belongs to
one of them only. Checking an item therefore leaves the nodes of every other item alone.
-/

namespace ArkLang

open List

variable {k : NodeId}

def VarDecl.valueIds (v : VarDecl) : List NodeId :=
  Expr.idsOption v.value

def ArtifactDecl.propIds (a : ArtifactDecl) : List NodeId :=
  a.props.flatMap VarDecl.valueIds

theorem VarDecl.count_valueIds (v : VarDecl) :
    v.valueIds.count k + [v.node.id].count k = v.ids.count k := by
  rw [VarDecl.ids, count_cons, count_cons, count_nil, Nat.zero_add]
  rfl

namespace Stmt

def typeCode : Stmt → List NodeId
  | .artifact decl => decl.ids
  | _ => []

def valueCode : Stmt → List NodeId
  | .var decl => decl.ids
  | .proc decl => decl.ids
  | _ => []

/-- The node that declares a variable of the module, whose value is checked without it. -/
def varNode : Stmt → List NodeId
  | .var decl => [decl.node.id]
  | _ => []

/-- The nodes of module-level code that belong to no item. -/
def topCode : Stmt → List NodeId
  | .importUnit _ | .var _ | .proc _ | .artifact _ => []
  | s => s.ids

/-- The code of a statement is divided into three parts. -/
theorem count_ids (s : Stmt) :
    s.ids.count k = s.typeCode.count k + s.valueCode.count k + s.topCode.count k := by
  cases s with
  | importUnit decl => rfl
  | var decl => exact (Nat.zero_add _).symm
  | proc decl => exact (Nat.zero_add _).symm
  | artifact decl => rfl
  | _ => simp only [typeCode, valueCode, topCode, count_nil, Nat.zero_add]

theorem count_idsAll (ss : List Stmt) : (Stmt.idsAll ss).count k =
    (ss.flatMap typeCode).count k + (ss.flatMap valueCode).count k +
      (ss.flatMap topCode).count k := by
  induction ss with
  | nil => rfl
  | cons s ss ih =>
    have first := count_ids (k := k) s
    simp only [Stmt.idsAll, flatMap_cons, count_append]
    omega

theorem varNode_sublist (ss : List Stmt) : (ss.flatMap varNode).Sublist (Stmt.idsAll ss) := by
  induction ss with
  | nil => exact .slnil
  | cons s ss ih =>
    rw [flatMap_cons, Stmt.idsAll]
    refine List.Sublist.append ?_ ih
    cases s with
    | var decl => exact (nil_sublist _).cons_cons _
    | _ => exact nil_sublist _

end Stmt

namespace Outline

def code (o : Outline) : Item → List NodeId
  | .global id => (o.globals[id]?.map (·.decl.valueIds)).getD []
  | .signature id => (o.procs[id]?.map (Param.idsAll ·.decl.params)).getD []
  | .body id => (o.procs[id]?.map (·.decl.body.ids)).getD []
  | .props name => (o.artifacts.filter (·.name == name)).flatMap (·.decl.propIds)

def owned (o : Outline) : List (Item × NodeId) :=
  (o.globals.toList.zipIdx.flatMap fun x => x.1.decl.valueIds.map (Prod.mk (.global x.2))) ++
  (o.procs.toList.zipIdx.flatMap fun x => (Param.idsAll x.1.decl.params).map
    (Prod.mk (.signature x.2)) ++ x.1.decl.body.ids.map (Prod.mk (.body x.2))) ++
  (o.artifacts.flatMap fun a => a.decl.propIds.map (Prod.mk (.props a.name)))

def ids (o : Outline) : List NodeId :=
  o.globals.toList.flatMap (·.decl.valueIds) ++
  (o.procs.toList.flatMap fun p => Param.idsAll p.decl.params ++ p.decl.body.ids) ++
  o.artifacts.flatMap (·.decl.propIds)

def procNodes (o : Outline) : List NodeId :=
  o.procs.toList.map (·.decl.node.id)

variable {o : Outline}

theorem map_snd_owned (o : Outline) : o.owned.map Prod.snd = o.ids := by
  have values {α β : Type} (f : α → Nat → List (β × NodeId)) (g : α → List NodeId)
      (h : ∀ a i, (f a i).map Prod.snd = g a) (xs : List α) (n : Nat) :
      ((xs.zipIdx n).flatMap fun x => f x.1 x.2).map Prod.snd = xs.flatMap g := by
    induction xs generalizing n with
    | nil => rfl
    | cons x xs ih => simp [h, ih]
  rw [owned, map_append, map_append, ids]
  congr 1
  · congr 1
    · exact values (fun (g : LocalGlobal) i => g.decl.valueIds.map (Prod.mk (Item.global i))) _
        (fun _ _ => by simp) _ 0
    · exact values (fun (p : LocalProc) i =>
        (Param.idsAll p.decl.params).map (Prod.mk (Item.signature i)) ++
        p.decl.body.ids.map (Prod.mk (.body i)))
        (fun p => Param.idsAll p.decl.params ++ p.decl.body.ids) (fun _ _ => by simp) _ 0
  · simp [map_flatMap]

theorem mem_owned {i : Item} (h : k ∈ o.code i) : (i, k) ∈ o.owned := by
  simp only [owned, mem_append]
  cases i with
  | global id =>
    cases found : o.globals[id]? with
    | none => simp [code, found] at h
    | some g =>
      refine .inl (.inl (List.mem_flatMap.mpr ⟨(g, id), ?_, ?_⟩))
      · rwa [mem_zipIdx_iff_getElem?, Array.getElem?_toList]
      · simpa [code, found] using h
  | signature id | body id =>
    cases found : o.procs[id]? with
    | none => simp [code, found] at h
    | some p =>
      refine .inl (.inr (List.mem_flatMap.mpr ⟨(p, id), ?_, ?_⟩))
      · rwa [mem_zipIdx_iff_getElem?, Array.getElem?_toList]
      · simpa [code, found] using h
  | props name =>
    obtain ⟨a, found, hk⟩ := List.mem_flatMap.mp h
    obtain ⟨mem, named⟩ := List.mem_filter.mp found
    rw [← eq_of_beq named]
    exact .inr (List.mem_flatMap.mpr ⟨a, mem, List.mem_map.mpr ⟨k, hk, rfl⟩⟩)

/-- A node belongs to one item only. -/
theorem eq_of_mem_code (distinct : o.ids.Nodup) {i j : Item} (hi : k ∈ o.code i)
    (hj : k ∈ o.code j) : i = j := by
  rw [← map_snd_owned] at distinct
  have same := inj_on_of_nodup_map distinct (mem_owned hi) (mem_owned hj) rfl
  exact congrArg Prod.fst same

theorem mem_ids_of_mem_code {i : Item} (h : k ∈ o.code i) : k ∈ o.ids := by
  rw [← map_snd_owned]
  exact List.mem_map.mpr ⟨_, mem_owned h, rfl⟩

/-! ### Counting nodes -/

/-- The nodes of all items, behind those that declare the procedures. -/
def nodes (o : Outline) : List NodeId :=
  o.procNodes ++ o.ids

theorem count_nodes (o : Outline) : o.nodes.count k =
    (o.procs.toList.map (·.decl.node.id)).count k +
    ((o.globals.toList.flatMap (·.decl.valueIds)).count k +
    (o.procs.toList.flatMap fun p => Param.idsAll p.decl.params ++ p.decl.body.ids).count k +
    (o.artifacts.flatMap (·.decl.propIds)).count k) := by
  rw [nodes, procNodes, ids, count_append, count_append, count_append]

@[simp]
theorem nodes_bind (name : Ident) (b : Binding) : (o.bind name b).nodes = o.nodes := by
  unfold bind
  split <;> rfl

theorem count_addProc (proc : LocalProc) :
    (o.addProc proc).nodes.count k = o.nodes.count k + proc.decl.ids.count k := by
  obtain ⟨⟨node, name, params, ret, body⟩, path, kind, self⟩ := proc
  rw [count_nodes, count_nodes, addProc, ProcDecl.ids]
  simp [count_cons]
  omega

theorem count_addTopLevel (decl : ProcDecl) :
    (o.addTopLevel decl).nodes.count k = o.nodes.count k + decl.ids.count k := by
  rw [addTopLevel, nodes_bind, count_addProc]

theorem count_addGlobal (position : Nat) (decl : VarDecl) :
    (o.addGlobal position decl).nodes.count k + [decl.node.id].count k =
      o.nodes.count k + decl.ids.count k := by
  have value := decl.count_valueIds (k := k)
  unfold addGlobal
  dsimp only
  split <;> rw [nodes_bind, count_nodes, count_nodes] <;> simp <;> omega

@[simp]
theorem nodes_addImport (r : Resolver) (decl : Import) : (o.addImport r decl).nodes = o.nodes := by
  unfold addImport
  split <;> rw [nodes_bind] <;> rfl

theorem count_addMembers (artifact : ArtifactDecl) (node : Node) (name : Ident)
    (kind : ArtifactKind)
    (members : List Member) (m : Members) :
    (members.foldl (Members.add artifact) m).outline.nodes.count k +
        (ArtifactDecl.mk node name kind members).propIds.count k ≤
      m.outline.nodes.count k + (Member.idsAll members).count k := by
  induction members generalizing m with
  | nil => simp [ArtifactDecl.propIds, ArtifactDecl.props, Member.idsAll]
  | cons member rest ih =>
    have step := ih (m.add artifact member)
    rw [foldl_cons, Member.idsAll, count_append]
    cases member with
    | prop decl =>
      have added : (m.add artifact (.prop decl)).outline.nodes = m.outline.nodes := by
        unfold Members.add
        dsimp only
        split <;> rfl
      have props : (ArtifactDecl.mk node name kind (.prop decl :: rest)).propIds.count k =
          decl.valueIds.count k + (ArtifactDecl.mk node name kind rest).propIds.count k :=
        count_append
      have value := decl.count_valueIds (k := k)
      rw [added] at step
      rw [props, Member.ids]
      omega
    | proc decl =>
      have added : (m.add artifact (.proc decl)).outline.nodes.count k ≤
          m.outline.nodes.count k + decl.ids.count k := by
        unfold Members.add
        dsimp only
        split
        · exact Nat.le_add_right _ _
        · rw [count_addProc]
      have props : (ArtifactDecl.mk node name kind (.proc decl :: rest)).propIds =
          (ArtifactDecl.mk node name kind rest).propIds := rfl
      rw [props, Member.ids]
      omega
    | enumCase decl =>
      have added : (m.add artifact (.enumCase decl)).outline.nodes = m.outline.nodes := by
        unfold Members.add
        dsimp only
        split <;> rfl
      have props : (ArtifactDecl.mk node name kind (.enumCase decl :: rest)).propIds =
          (ArtifactDecl.mk node name kind rest).propIds := rfl
      rw [added] at step
      rw [props]
      omega

theorem count_addArtifact (position : Nat) (decl : ArtifactDecl) :
    (o.addArtifact position decl).nodes.count k ≤ o.nodes.count k + decl.ids.count k := by
  obtain ⟨node, name, kind, members⟩ := decl
  unfold addArtifact
  dsimp only
  split
  · rw [nodes_bind]
    exact Nat.le_add_right _ _
  · have := count_addMembers (k := k) ⟨node, name, kind, members⟩ node name kind members
      { outline := o.bind name (.artifact ⟨o.module, name.value⟩) }
    rw [nodes_bind] at this
    rw [ArtifactDecl.ids, count_cons]
    simp only [count_nodes] at this ⊢
    simp only [flatMap_append, count_append, flatMap_cons, flatMap_nil,
      append_nil]
    omega

theorem count_addTypes (r : Resolver) (position : Nat) (stmts : List Stmt) :
    (o.addTypes r position stmts).nodes.count k ≤
      o.nodes.count k + (stmts.flatMap Stmt.typeCode).count k := by
  induction stmts generalizing o position with
  | nil => exact Nat.le_add_right _ _
  | cons stmt rest ih =>
    rw [flatMap_cons, count_append]
    cases stmt with
    | importUnit decl =>
      have := ih (o := o.addImport r decl) (position + 1)
      rw [nodes_addImport] at this
      simp only [Stmt.typeCode, count_nil, Nat.zero_add]
      exact this
    | artifact decl =>
      have := ih (o := o.addArtifact position decl) (position + 1)
      have added := count_addArtifact (k := k) (o := o) position decl
      simp only [Stmt.typeCode, addTypes]
      omega
    | _ =>
      simp only [Stmt.typeCode, count_nil, Nat.zero_add]
      exact ih (o := o) (position + 1)

theorem count_addValues (position : Nat) (stmts : List Stmt) :
    (o.addValues position stmts).nodes.count k + (stmts.flatMap Stmt.varNode).count k =
      o.nodes.count k + (stmts.flatMap Stmt.valueCode).count k := by
  induction stmts generalizing o position with
  | nil => rfl
  | cons stmt rest ih =>
    rw [flatMap_cons, flatMap_cons, count_append, count_append]
    cases stmt with
    | proc decl =>
      have := ih (o := o.addTopLevel decl) (position + 1)
      have added := count_addTopLevel (k := k) (o := o) decl
      simp only [Stmt.valueCode, Stmt.varNode, addValues, count_nil]
      omega
    | var decl =>
      have := ih (o := o.addGlobal position decl) (position + 1)
      have added := count_addGlobal (k := k) (o := o) position decl
      simp only [Stmt.valueCode, Stmt.varNode, addValues]
      omega
    | _ =>
      simp only [Stmt.valueCode, Stmt.varNode, count_nil, Nat.zero_add]
      exact ih (o := o) (position + 1)

section Program

variable {module : ModuleId} {r : Resolver} {p : Program}

theorem count_ofProgram : (ofProgram module r p).nodes.count k +
    (p.stmts.flatMap Stmt.varNode).count k + (p.stmts.flatMap Stmt.topCode).count k ≤
      p.ids.count k := by
  have types := count_addTypes (k := k) (o := { module, reached := r.interface? }) r 0 p.stmts
  have values := count_addValues (k := k)
    (o := addTypes r { module, reached := r.interface? } 0 p.stmts) 0 p.stmts
  have none : ({ module, reached := r.interface? } : Outline).nodes.count k = 0 := rfl
  rw [ofProgram, Program.ids, Stmt.count_idsAll]
  omega

variable (distinct : p.ids.Nodup)

include distinct

theorem nodup_nodes_ofProgram : (ofProgram module r p).nodes.Nodup := by
  rw [nodup_iff_count_le_one] at distinct ⊢
  intro k
  have total := @count_ofProgram k module r p
  have once := distinct k
  omega

/-- No node of a program belongs to two items. -/
theorem nodup_ids_ofProgram : (ofProgram module r p).ids.Nodup :=
  (nodup_nodes_ofProgram distinct).of_append_right

theorem not_mem_topCode_of_mem_nodes (h : k ∈ (ofProgram module r p).nodes) :
    k ∉ p.stmts.flatMap Stmt.topCode := by
  intro top
  have total := @count_ofProgram k module r p
  have once := List.nodup_iff_count_le_one.mp distinct k
  have item := List.count_pos_iff.mpr h
  have outside := List.count_pos_iff.mpr top
  omega

theorem not_mem_of_mem_varNode (h : k ∈ p.stmts.flatMap Stmt.varNode) :
    k ∉ (ofProgram module r p).nodes ∧ k ∉ p.stmts.flatMap Stmt.topCode := by
  have total := @count_ofProgram k module r p
  have once := List.nodup_iff_count_le_one.mp distinct k
  have declares := List.count_pos_iff.mpr h
  constructor
  · intro item
    have item := List.count_pos_iff.mpr item
    omega
  · intro top
    have outside := List.count_pos_iff.mpr top
    omega

theorem nodup_varNode : (p.stmts.flatMap Stmt.varNode).Nodup :=
  distinct.sublist (Stmt.varNode_sublist p.stmts)

theorem nodup_topCode : (p.stmts.flatMap Stmt.topCode).Nodup := by
  rw [nodup_iff_count_le_one] at distinct ⊢
  intro k
  have once := distinct k
  rw [Program.ids, Stmt.count_idsAll] at once
  exact (Nat.le_add_left _ _).trans once

end Program

end Outline

end ArkLang
