import ArkLang.Analysis.State

/-!
# Methods that change their receiver

A method changes its receiver if it writes to it, or if it calls a method that does on the receiver
or on a part of it. Once that is known for all methods, the receivers of all method calls are
judged: a receiver that cannot be written to takes no method that changes it.
-/

namespace ArkLang

namespace Analysis

variable (s : Analysis) (o : Outline)

/-- Whether a method changes its receiver, given the methods of the unit that do. -/
def isMutating (mutating : List ProcId) (ref : ArtifactRef) (method : String) : Bool :=
  match o.method? ref method with
  | some (.ofProc id) => mutating.contains id
  | some (.ofInterface info) => info.mutatesSelf
  | none => false

/-- The methods that write to their receiver themselves. -/
def directlyMutating : List ProcId :=
  s.procs.toList.filterMap fun p =>
    if p.info.isMethod && p.writesSelf then some p.info.id else none

/-- Adds the caller of a call on its own receiver, if the callee changes the receiver. -/
def addCaller (mutating : List ProcId) (p : PendingReceiver) : List ProcId :=
  match p.place.root, p.caller with
  | .self, some caller =>
    let isMethod := (s.procs[caller]?).any (·.info.isMethod)
    if isMethod && !mutating.contains caller && isMutating o mutating p.artifact p.method then
      caller :: mutating
    else
      mutating
  | _, _ => mutating

/-- Goes through all calls a given number of times. -/
def mutatingRounds : Nat → List ProcId → List ProcId
  | 0, mutating => mutating
  | n + 1, mutating => mutatingRounds n (s.pending.toList.foldl (s.addCaller o) mutating)

/-- The methods of the unit that change their receiver. Every round but the last adds one. -/
def mutatingMethods : List ProcId :=
  s.mutatingRounds o s.procs.size s.directlyMutating

/-- Marks a call as one of a method that changes its receiver, or as one of a method that does
not. -/
def markCall (calls : NodeTable CallTarget) (id : NodeId) (mutating : Bool) :
    NodeTable CallTarget :=
  match calls.get? id with
  | some (.method ref name supplied total _ receiver) =>
    calls.insert id (.method ref name supplied total mutating receiver)
  | _ => calls

/-- Marks a procedure as one that changes its receiver, if it is a method. -/
def markMethod (mutating : List ProcId) (p : ProcEntry) : ProcEntry :=
  match p.info.kind with
  | .method ref _ => { p with info.kind := .method ref (mutating.contains p.info.id) }
  | _ => p

/-- Marks a method call, and judges its receiver. -/
def judge (mutating : List ProcId) (s : Analysis) (p : PendingReceiver) : Analysis :=
  let mutates := isMutating o mutating p.artifact p.method
  let s := { s with calls := markCall s.calls p.call.id mutates }
  match p.place.fixed with
  | some reason =>
    if mutates then
      { s with errors := s.errors.push ⟨.mutatesFixed p.method reason, p.call.span⟩ }
    else
      s
  | none => s

/-- Records which methods change their receiver, and judges every receiver. -/
def settleMutation : Analysis :=
  let mutating := s.mutatingMethods o
  let s := s.pending.toList.foldl (judge o mutating) s
  { s with procs := s.procs.map (markMethod mutating) }

end Analysis

end ArkLang
