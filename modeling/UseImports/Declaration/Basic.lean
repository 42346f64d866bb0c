import UseImports.Name.Basic
import UseImports.Text.Span

/-!
# Import declarations

An import declaration is one imported name. A `use` statement with several clauses, or with a group
in braces, makes several declarations, which share the statement.

Main definitions:
* `ImportKind`: classes, functions and constants live in separate name spaces.
* `Declaration` (`ImportDeclaration`): one imported name and where it stands.
* `Declaration.localName` (`local_name`): the name under which it is known in the document.
* `Declaration.plainStatement` (`to_plain_statement`): a statement of its own that imports the same
  name.
-/

namespace UseImports

/-- What an import makes known. -/
inductive ImportKind where
  | cls
  | function
  | const
deriving DecidableEq, Repr

/-- The keyword that marks an import of this kind; classes have none. -/
def ImportKind.keyword? : ImportKind → Option String
  | .cls => none
  | .function => some "function"
  | .const => some "const"

/-- One imported name (`ImportDeclaration`). -/
structure Declaration where
  /-- The full name, without a leading backslash. -/
  fqn : String
  aliasName : Option String
  kind : ImportKind
  /-- The whole statement if it imports one name; else the clause, or the name inside a group. -/
  span : Span
  /-- The statement from its keyword to its semicolon. -/
  statement : Span
  /-- The line on which the name stands. -/
  line : Nat
  /-- What stands in front of the braces of a group. -/
  groupPrefix : Option String
  /-- The statement imports other names too. -/
  sharesStatement : Bool
deriving DecidableEq, Repr

namespace Declaration

/-- The name under which the import is known (`local_name`): its alias or the last segment of its
name. -/
def localName (d : Declaration) : String :=
  d.aliasName.getD (shortName d.fqn)

/-- What is imported, and under which name: a declaration without its places. -/
def meaning (d : Declaration) : String × Option String × ImportKind :=
  (d.fqn, d.aliasName, d.kind)

/-- The statement that imports this name alone (`to_plain_statement`). -/
def plainStatement (d : Declaration) : String :=
  let front := match d.kind.keyword? with
    | some k => k ++ " "
    | none => ""
  let behind := match d.aliasName with
    | some a => " as " ++ a
    | none => ""
  "use " ++ front ++ d.fqn ++ behind ++ ";"

end Declaration

end UseImports
