import UseImports.Declaration.Reader
import UseImports.Edit.Basic

/-!
# Expanding and collapsing references

Expanding writes the full name wherever a short name stands alone in the code; collapsing does the
reverse. Comments and strings are left alone, since only the code view is searched.

Main definitions:
* `declarationLines` (`declaration_lines`): the lines on which nothing is expanded.
* `expandReferences` (`expand_references`): the edits that write out a class name, the last one in
  the text first.
* `collapseReferences` (`collapse_references`): the edits that shorten it, the last one first.
-/

namespace UseImports

/-- The places where a word stands, without overlap, from left to right (`word_occurrences`). -/
def occurrences (code : List Char) (word : String) : List (Cursor × Cursor) :=
  (Cursor.atStart code).findAll fun c => (c.literal? word).map fun stop => ((c, stop), stop)

/-- The lines of the import statements, of the namespace declaration and of class declarations
(`declaration_lines`). -/
def declarationLines (d : Document) : List Nat :=
  let imports := d.declarations.flatMap fun decl =>
    let (first, last) := lineExtent d.text decl.statement
    (List.range (last + 1)).drop first
  let own := match d.ownNamespace? with
    | some n => [d.lineOf n.statement.start]
    | none => []
  imports ++ own ++ d.classSpans.map fun s => d.lineOf s.start

/-- Neither side of the occurrence goes on with an identifier character. -/
def isStandalone (start stop : Cursor) : Bool :=
  !start.before.head?.any isIdentChar && !stop.after.head?.any isIdentChar

/-- The occurrence is part of a qualified name, a variable or a member. -/
def isPartOfName (start stop : Cursor) : Bool :=
  start.before.head? == some '\\' || start.before.head? == some '$' ||
    stop.after.head? == some '\\' ||
    start.before.take 2 == ['>', '-'] || start.before.take 2 == [':', ':']

/-- The occurrence is a reference that can be expanded. -/
def isExpandable (d : Document) (skipped : List Nat) (start stop : Cursor) : Bool :=
  isStandalone start stop && !skipped.contains (d.lineOf start.offset) &&
    !isPartOfName start stop && !endsInKeyword start.before ["function", "const", "case"]

/-- The name with one leading backslash. -/
def fullyQualified (name : String) : String :=
  "\\" ++ stripLeading name

/-- The edits that write the full name for every reference by the short one (`expand_references`).
-/
def expandReferences (d : Document) (short fqn : String) : List Edit :=
  if short.isEmpty then []
  else
    let skipped := declarationLines d
    let found := (occurrences d.code short).filter fun (start, stop) =>
      isExpandable d skipped start stop
    (found.map fun (start, stop) => ⟨start.spanTo stop, fullyQualified fqn⟩).reverse

/-- The edits that write the short name for every reference by the full one (`collapse_references`).
-/
def collapseReferences (d : Document) (fqn short : String) : List Edit :=
  let found := (occurrences d.code (fullyQualified fqn)).filter fun (start, stop) =>
    isStandalone start stop && stop.after.head? != some '\\'
  (found.map fun (start, stop) => ⟨start.spanTo stop, short⟩).reverse

end UseImports
