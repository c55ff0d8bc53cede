import ArkLang.Analysis.Fault
import ArkLang.Build.Source
import ArkLang.Lowering.Fault
import ArkLang.Manifest.Basic
import ArkLang.Tree.Parser

/-!
# Diagnostics

Everything that can go wrong on the way from a manifest and units to C, with the unit it is found in
and its place there.
-/

namespace ArkLang

/-- The phases of a build, in order. -/
inductive Phase where
  | config | load | lex | parse | semantic | lowering
  deriving DecidableEq, Repr, Inhabited

namespace Phase

def all : List Phase :=
  [config, load, lex, parse, semantic, lowering]

def name : Phase → String
  | config => "config"
  | load => "load"
  | lex => "lex"
  | parse => "parse"
  | semantic => "semantic"
  | lowering => "lowering"

end Phase

/-- What can go wrong. -/
inductive Problem where
  | manifest (fault : ManifestFault)
  | load (fault : LoadFault)
  | lex (fault : LexFault)
  | parse (fault : ParseFault)
  | semantic (fault : SemanticFault)
  | lowering (fault : LowerFault)

namespace Problem

def phase : Problem → Phase
  | manifest _ => .config
  | load _ => .load
  | lex _ => .lex
  | parse _ => .parse
  | semantic _ => .semantic
  | lowering _ => .lowering

/-- The class under which a problem is reported. -/
def kindName : Problem → String
  | manifest _ => "Manifest"
  | load fault => fault.kindName
  | lex fault => fault.kindName
  | parse fault => fault.kindName
  | semantic fault => fault.kind.name
  | lowering _ => "UnsupportedConstruct"

def message : Problem → String
  | manifest fault => fault.message
  | load fault => fault.message
  | lex fault => fault.message
  | parse fault => fault.message
  | semantic fault => fault.message
  | lowering fault => fault.message

end Problem

/-- A place in a unit. -/
structure Location where
  position : Position
  span : Span
  deriving DecidableEq, Repr, Inhabited

/-- A problem of a unit, with its place if it has one. -/
structure Diagnostic where
  problem : Problem
  /-- The name of the unit. -/
  unit : String
  place : Option Location

namespace Diagnostic

/-- The line and column of a diagnostic; zero without a place. -/
def position (d : Diagnostic) : Position :=
  match d.place with
  | some place => place.position
  | none => ⟨0, 0⟩

def text (d : Diagnostic) : String :=
  d.problem.phase.name ++ " error [" ++ d.problem.kindName ++ "]: " ++ d.problem.message

/-- A problem without a place. -/
def unplaced (unit : String) (problem : Problem) : Diagnostic :=
  ⟨problem, unit, none⟩

def ofLex (unit : String) (e : LexError) : Diagnostic :=
  ⟨.lex e.fault, unit, some ⟨e.position, e.span⟩⟩

def ofParse (unit : String) (e : ParseError) : Diagnostic :=
  ⟨.parse e.fault, unit, some ⟨e.position, e.span⟩⟩

/-- A problem at a span of a text. -/
def atSpan (unit : String) (index : LineIndex) (span : Span) (problem : Problem) : Diagnostic :=
  ⟨problem, unit, some ⟨index.position span.offset, span⟩⟩

/-- Whether a diagnostic does not stand behind another one. -/
def le (a b : Diagnostic) : Bool :=
  a.position.line < b.position.line ||
    a.position.line = b.position.line && a.position.column ≤ b.position.column

end Diagnostic

end ArkLang
