import Mathlib.Data.List.Forall2
import ArkLang.C.Tree

/-!
# Which lists code releases

A list lives in a variable of a block. Code that leaves the block, by a jump or at its end, has to
release the list before: once, and the lists that were declared last first. What is to be released
at a point of a function follows from the declarations in front of it, in the blocks that are still
open.
-/

namespace ArkLang

namespace C

/-- A block that is open at a point of a function. -/
structure OpenBlock where
  /-- The variables declared in the block so far that hold lists, the last one first. -/
  lists : List Name := []
  isLoopBody : Bool := false
  deriving DecidableEq, Repr, Inhabited

/-- The lists in some open blocks up to the innermost loop body; none outside of loops. -/
def listsInLoop? : List OpenBlock → Option (List Name)
  | [] => none
  | block :: outer =>
    if block.isLoopBody then some block.lists else (listsInLoop? outer).map (block.lists ++ ·)

/-- Open blocks behind the declaration of a variable. -/
def declared (holdsList : Name → Bool) (name : Name) : List OpenBlock → List OpenBlock
  | [] => []
  | block :: outer =>
    if holdsList name then { block with lists := name :: block.lists } :: outer
    else block :: outer

/-- A point of a function. -/
structure Point where
  /-- The open blocks, innermost first. -/
  blocks : List OpenBlock := [{}]
  /-- What the statements right in front of the point release, in order. -/
  released : List Name := []
  /-- Whether the statement right in front of the point is a jump. -/
  jumped : Bool := false
  deriving DecidableEq, Repr, Inhabited

namespace Point

/-- The lists in all open blocks, innermost and latest first. -/
def lists (pt : Point) : List Name :=
  pt.blocks.flatMap OpenBlock.lists

/-- The lists in the innermost block, latest first. -/
def ownLists (pt : Point) : List Name :=
  (pt.blocks.head?.map OpenBlock.lists).getD []

/-- What was released is what had to be, each list once. -/
def Released (pt : Point) (expected : List Name) : Prop :=
  pt.released = expected ∧ expected.Nodup

/-- The end of a block: it releases its own lists, unless it ends in a jump. -/
def EndsBlock (pt : Point) : Prop :=
  if pt.jumped then pt.released = [] else pt.Released pt.ownLists

/-- The end of a function: if it returns no value and does not end in a jump, it releases its lists
and its parameters. -/
def EndsFunction (params : List Name) (isVoid : Bool) (pt : Point) : Prop :=
  if pt.jumped || !isVoid then pt.released = [] else pt.Released (pt.lists ++ params)

def after (holdsList : Name → Bool) (pt : Point) : Stmt → Point
  | .release _ name => ⟨pt.blocks, pt.released ++ [name], false⟩
  | .declare _ _ name _ => ⟨declared holdsList name pt.blocks, [], false⟩
  | .ret _ | .breakLoop | .continueLoop => ⟨pt.blocks, [], true⟩
  | _ => ⟨pt.blocks, [], false⟩

def enter (blocks : List OpenBlock) (isLoopBody : Bool) : Point :=
  { blocks := { isLoopBody } :: blocks }

end Point

mutual

/-- A statement releases what it has to: lists are released right in front of a jump or at the end
of a block, and every jump and every block inside the statement releases exactly the live lists. -/
def Stmt.Releases (holdsList : Name → Bool) (params : List Name) (pt : Point) : Stmt → Prop
  | .release _ _ => True
  | .ret _ => pt.Released (pt.lists ++ params)
  | .breakLoop | .continueLoop => ∃ lists, listsInLoop? pt.blocks = some lists ∧ pt.Released lists
  | .cond arms fallback => pt.released = [] ∧
      Arm.ReleasesAll holdsList params pt.blocks arms ∧
      Stmt.ReleasesOption holdsList params pt.blocks fallback
  | .whileLoop _ body | .countLoop _ _ _ _ _ _ body => pt.released = [] ∧
      Stmt.ReleasesTo holdsList params Point.EndsBlock (.enter pt.blocks true) body
  | .block body => pt.released = [] ∧
      Stmt.ReleasesTo holdsList params Point.EndsBlock (.enter pt.blocks false) body
  | _ => pt.released = []

/-- Statements release what they have to, up to a point as it is demanded. -/
def Stmt.ReleasesTo (holdsList : Name → Bool) (params : List Name) (goal : Point → Prop)
    (pt : Point) : List Stmt → Prop
  | [] => goal pt
  | s :: ss => s.Releases holdsList params pt ∧
      Stmt.ReleasesTo holdsList params goal (pt.after holdsList s) ss

def Arm.ReleasesAll (holdsList : Name → Bool) (params : List Name) (blocks : List OpenBlock) :
    List Arm → Prop
  | [] => True
  | ⟨_, body⟩ :: arms =>
      Stmt.ReleasesTo holdsList params Point.EndsBlock (.enter blocks false) body ∧
        Arm.ReleasesAll holdsList params blocks arms

def Stmt.ReleasesOption (holdsList : Name → Bool) (params : List Name) (blocks : List OpenBlock) :
    Option (List Stmt) → Prop
  | none => True
  | some body => Stmt.ReleasesTo holdsList params Point.EndsBlock (.enter blocks false) body

end

section Rules

variable {holdsList : Name → Bool} {params : List Name} {goal goal' : Point → Prop} {pt : Point}

/-- Code in sequence goes on where its first part ends. -/
theorem Stmt.releasesTo_append {ss ts : List Stmt} :
    Stmt.ReleasesTo holdsList params goal pt (ss ++ ts) ↔
      Stmt.ReleasesTo holdsList params
        (fun pt => Stmt.ReleasesTo holdsList params goal pt ts) pt ss := by
  induction ss generalizing pt with
  | nil => rfl
  | cons s ss ih => simp only [List.cons_append, Stmt.ReleasesTo, ih]

def Releasing : List Stmt → List Name → Prop :=
  List.Forall₂ fun s name => ∃ type, s = .release type name

/-- Releases in a row add to what was released. -/
theorem Stmt.releasesTo_releases {ss : List Stmt} {names : List Name} (h : Releasing ss names) :
    Stmt.ReleasesTo holdsList params goal pt ss ↔
      goal ⟨pt.blocks, pt.released ++ names, if names = [] then pt.jumped else false⟩ := by
  induction h generalizing pt with
  | nil => simp [Stmt.ReleasesTo]
  | @cons s name ss names first rest ih =>
    obtain ⟨type, rfl⟩ := first
    rw [Stmt.ReleasesTo, ih]
    simp [Stmt.Releases, Point.after]

end Rules

end C

end ArkLang
