import UseImports.CommandLine
import UseImports.Editor.Session
import UseImports.Main
import UseImports.Proofs.Calls
import UseImports.Proofs.Check
import UseImports.Proofs.Code.Shape
import UseImports.Proofs.CommandLine
import UseImports.Proofs.Declaration.Nesting
import UseImports.Proofs.Edit.Appending
import UseImports.Proofs.Edit.Idempotence
import UseImports.Proofs.Edit.LineGroups
import UseImports.Proofs.Edit.Reexpansion
import UseImports.Proofs.Edit.Simultaneous
import UseImports.Proofs.Editor.Commands
import UseImports.Proofs.Editor.Conversion
import UseImports.Proofs.Editor.Findings
import UseImports.Proofs.Editor.Mirror
import UseImports.Proofs.Settings
