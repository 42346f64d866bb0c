import UseImports.Declaration.Reader
import UseImports.Reference.Scan

/-!
# Analysis

The analysis of a document brings its imports and its references together: which imports nothing
uses, and which names lack an import.

Main definitions:
* `usedClasses`, `usedFunctions`: the full names that the references reach.
* `findUnused` (`find_unused`): the imports that nothing uses.
* `findUnimported` (`find_unimported`): the references that nothing accounts for.
* `analyze` (`analyze`): the analysis of a text.
-/

namespace UseImports

/-- A type that neither an import nor the document nor PHP itself accounts for
(`UnimportedReference`). -/
structure Unimported where
  span : Span
  line : Nat
  name : String
deriving DecidableEq, Repr

/-! ## Use -/

/-- The full names of the classes that the references reach through an import. -/
def usedClasses (table : AliasTable) (rs : List Reference) : List String :=
  (rs.filter (·.kind == .type)).filterMap fun r => (table.resolveClass? r.name).map (·.fqn)

/-- The full names of the functions that the references reach through an import. -/
def usedFunctions (table : AliasTable) (rs : List Reference) : List String :=
  (rs.filter (·.kind == .function)).filterMap fun r => (table.get? .function r.name).map (·.fqn)

/-- Nothing uses the import. Constants always count as used, and so do classes that need no import.
-/
def isUnused (classes functions : List String) (d : Declaration) : Bool :=
  match d.kind with
  | .cls => !classes.contains d.fqn && !isBuiltin d.fqn
  | .function => !functions.contains d.fqn
  | .const => false

/-- The imports that nothing uses, in the order of the text (`find_unused`). -/
def findUnused (ds : List Declaration) (classes functions : List String) : List Declaration :=
  (ds.filter (isUnused classes functions)).mergeSort fun a b => a.span.start ≤ b.span.start

/-- The reference needs an import that is not there. -/
def lacksImport (table : AliasTable) (declared : List String) (r : Reference) : Bool :=
  r.kind == .type && r.isBare && !table.contains .cls r.name && !declared.contains r.name &&
    !isBuiltin r.name

/-- The references that need an import, in the order of the text (`find_unimported`). -/
def findUnimported (d : Document) (rs : List Reference) (table : AliasTable)
    (declared : List String) :
    List Unimported :=
  (rs.filter (lacksImport table declared)).map fun r => ⟨r.span, d.lineOf r.span.start, r.name⟩

/-! ## Analysis -/

/-- Everything that is known about the imports of a document. -/
structure Analysis where
  declarations : List Declaration
  aliases : AliasTable
  references : List Reference
  usedClasses : List String
  usedFunctions : List String
  unused : List Declaration
  unimported : List Unimported
  ownNamespace? : Option NamespaceDeclaration
  declaredClasses : List String

/-- The analysis of a document (`analyze_session`). -/
def Document.analyze (d : Document) : Analysis :=
  let declarations := d.declarations
  let aliases := AliasTable.build declarations
  let refs := UseImports.references d declarations aliases
  let classes := UseImports.usedClasses aliases refs
  let functions := UseImports.usedFunctions aliases refs
  let declared := d.declaredClasses
  { declarations
    aliases
    references := refs
    usedClasses := classes
    usedFunctions := functions
    unused := findUnused declarations classes functions
    unimported := findUnimported d refs aliases declared
    ownNamespace? := d.ownNamespace?
    declaredClasses := declared }

/-- The analysis of a text (`analyze`). -/
def analyze (text : String) : Except MaskError Analysis :=
  (Document.ofString text).map Document.analyze

end UseImports
