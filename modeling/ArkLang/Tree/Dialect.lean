/-!
# Dialects

A unit is written in one of two dialects. The inferred dialect lets types be left out; the strict
dialect asks for a type at every declaration and parameter and knows procedure types.
-/

namespace ArkLang

/-- How declarations are written in a unit. -/
inductive Dialect where
  /-- `x := 1`, `x ::= 1`, `x: int`; types of parameters and results may be left out. -/
  | inferred
  /-- `x: int = 1`, `x :: int = 1`; types everywhere, also of procedures. -/
  | strict
  deriving DecidableEq, Repr, Inhabited

namespace Dialect

def text : Dialect → String
  | inferred => "inferred"
  | strict => "strict"

/-- A name in lower case that no dialect has. -/
structure Unknown where
  name : String
  deriving DecidableEq, Repr

def Unknown.message (u : Unknown) : String :=
  "unknown dialect '" ++ u.name ++ "' (expected 'inferred' or 'strict')"

/-- The dialect with a name, whatever the case of its ASCII letters. -/
def ofText (name : String) : Except Unknown Dialect :=
  let lower := name.map Char.toLower
  if lower = inferred.text then .ok inferred
  else if lower = strict.text then .ok strict
  else .error ⟨lower⟩

end Dialect

end ArkLang
