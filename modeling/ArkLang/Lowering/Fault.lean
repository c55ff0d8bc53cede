import ArkLang.Module.Unit

/-!
# What cannot be lowered

A checked unit gives no cause for these faults. They arise where something is missing from what was
found out about it, or where two units of a program share a name.
-/

namespace ArkLang

/-- The causes of lowering errors. -/
inductive LowerFault where
  | noUnits
  | unknownType
  | missingArtifact (ref : ArtifactRef)
  | missingProc
  | missingSymbol
  | missingResolution
  | missingTarget
  | missingDefault (param : String)
  /-- A name that denotes no value, as it is written. -/
  | notValue (text : String)
  | jumpOutsideLoop
  | rangeEnd (type : Ty)
  | arrayLiteral (type : Ty)
  | notIndexable (type : Ty)
  | noMethodReceiver
  | noListReceiver
  | pushWithoutArgument
  | powArguments
  | builtinWithoutArgument (builtin : Builtin)
  | builtinArgument (builtin : Builtin) (type : Ty)
  /-- A record of more known properties than its declaration has. Lowering breaks off there, with
  nothing to report. -/
  | shortRecord (ref : ArtifactRef)
  deriving DecidableEq, Repr, Inhabited

def LowerFault.message : LowerFault → String
  | noUnits => "no units to lower"
  | unknownType => "unresolved type reached lowering"
  | missingArtifact ref =>
    s!"artifact `{ref.name}` from module `{ref.module.name}` was never analyzed"
  | missingProc => "procedure declaration was never analyzed"
  | missingSymbol => "declaration without a symbol"
  | missingResolution => "unresolved name reached lowering"
  | missingTarget => "call without a resolved target"
  | missingDefault param => s!"parameter `{param}` has no default"
  | notValue text => s!"`{text}` is not a value"
  | jumpOutsideLoop => "loop control outside of a loop"
  | rangeEnd type => s!"cannot iterate up to a `{type.text}`"
  | arrayLiteral type => s!"array literal of type `{type.text}`"
  | notIndexable type => s!"cannot index a `{type.text}`"
  | noMethodReceiver => "method call without a receiver"
  | noListReceiver => "list operation without a receiver"
  | pushWithoutArgument => "`push` without an argument"
  | powArguments => "`pow` needs two arguments"
  | builtinWithoutArgument builtin => s!"`{builtin.name}` without an argument"
  | builtinArgument builtin type => s!"`{builtin.name}` of a `{type.text}`"
  | shortRecord ref => s!"`{ref.name}` has more properties than its declaration"

end ArkLang
