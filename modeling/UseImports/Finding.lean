import UseImports.Analysis
import UseImports.Config

/-!
# Findings

A finding is an import that nothing uses or a class that nothing imports.

Main definitions:
* `Finding` (`DiagnosticRecord`): what is found, and where.
* `findings` (`project`): the findings of an analysis in the order of the text.
-/

namespace UseImports

/-- What a finding is about. -/
inductive FindingKind where
  | unusedImport
  | unimportedClass
deriving DecidableEq, Repr

namespace FindingKind

/-- The code that names the kind (`code`). -/
def code : FindingKind → String
  | unusedImport => "unused-import"
  | unimportedClass => "unimported-class"

/-- Reads the code of a kind (`from_code`). -/
def ofCode? : String → Option FindingKind
  | "unused-import" => some unusedImport
  | "unimported-class" => some unimportedClass
  | _ => none

@[simp] theorem ofCode?_code (k : FindingKind) : ofCode? k.code = some k := by
  cases k <;> rfl

end FindingKind

/-- An import that nothing uses, by its full name, or a class that nothing imports, by its short
name (`DiagnosticRecord`). -/
structure Finding where
  span : Span
  severity : Severity
  kind : FindingKind
  name : String
deriving DecidableEq, Repr

namespace Finding

/-- The name under which findings are reported. -/
def source : String :=
  "php-use"

/-- The wording of a finding. -/
def message (f : Finding) : String :=
  match f.kind with
  | .unusedImport => "Unused import: " ++ f.name
  | .unimportedClass => "Class " ++ f.name ++ " is not imported"

end Finding

/-- The findings of an analysis by their spans (`project`); where spans agree, imports come first.
-/
def findings (a : Analysis) (severity : Severity) : List Finding :=
  let unused := a.unused.map fun d => Finding.mk d.span severity .unusedImport d.fqn
  let unimported := a.unimported.map fun u => Finding.mk u.span severity .unimportedClass u.name
  (unused ++ unimported).mergeSort fun f g => f.span.le g.span

end UseImports
