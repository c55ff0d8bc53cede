import ArkLang.Build.Project
import ArkLang.Proofs.InputEnds
import ArkLang.Proofs.ClosedCaptures
import ArkLang.Proofs.Conditions
import ArkLang.Proofs.DefinedNames
import ArkLang.Proofs.DefinitionOrder
import ArkLang.Proofs.DiagnosticOrder
import ArkLang.Proofs.Dialects
import ArkLang.Proofs.EnumValues
import ArkLang.Proofs.Isolation
import ArkLang.Proofs.ListRestrictions
import ArkLang.Proofs.NormalForms
import ArkLang.Proofs.NormalOrder
import ArkLang.Proofs.NormalPaths
import ArkLang.Proofs.OperatorTrees
import ArkLang.Proofs.ParserBounds
import ArkLang.Proofs.RoundTrip
import ArkLang.Proofs.StringLiterals
import ArkLang.Proofs.Temporaries
import ArkLang.Proofs.TypeNames
