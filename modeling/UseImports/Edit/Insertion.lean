import UseImports.Analysis
import UseImports.Edit.Basic

/-!
# Adding an import

A class is imported by a statement behind the last import of its namespace, else behind
the namespace declaration, else behind the open tag, else at the start of the text. A class whose
short name is taken gets an alias made of its parent namespace and its short name, with a number if
that is taken too.

Main definitions:
* `ImportOutcome`: what importing a class comes to.
* `freshAlias` (`synthesize_alias`): an alias that is not taken.
* `insertionEdit` (`insertion_edit`): where a new statement goes.
* `planImport` (`plan_import`): the plan to import a class.
-/

namespace UseImports

/-- What importing a class into a document comes to. -/
inductive ImportOutcome where
  /-- The class is imported, under the given name. -/
  | alreadyImported (localName : String)
  /-- A class outside all namespaces, in a document without one. -/
  | notNeeded
  /-- A new statement, with the alias if the short name is taken and the name that code should use.
  -/
  | insert (edit : Edit) (aliasName : Option String) (localName : String)
deriving DecidableEq, Repr

/-! ## Aliases -/

/-- The first choice for the alias of a class. -/
def aliasBase (fqn : String) : String :=
  match parentNamespace? fqn with
  | some parent => capitalized (shortName parent) ++ shortName fqn
  | none => "Global" ++ shortName fqn

/-- An alias for the class that is not taken (`synthesize_alias`): the first choice, or else the
first choice followed by the least number from two on that makes it free. Among as many numbers as
there are names taken, and one more, one does. -/
def freshAlias (fqn : String) (taken : List String) : String :=
  let base := aliasBase fqn
  if taken.contains base then
    let numbered := (List.range (taken.length + 1)).map fun n => base ++ toString (n + 2)
    (numbered.find? fun name => !taken.contains name).getD base
  else base

/-! ## Places -/

/-- Inserts `content` in front of the line behind `line` (`insert_after_line`); behind an unfinished
last line a line break comes first. -/
def insertAfterLine (cs : List Char) (line : Nat) (content : String) : Edit :=
  let offset := nextLineStart cs line
  if offset = byteLength cs && !cs.isEmpty && cs.getLast? != some '\n' then
    Edit.insert offset ("\n" ++ content)
  else Edit.insert offset content

/-- The last import behind the offset. -/
def lastImport? (ds : List Declaration) (offset : Nat) : Option Declaration :=
  (ds.filter fun d => offset ≤ d.statement.start).foldl (fun best d =>
    match best with
    | some b => if b.statement.stop ≤ d.statement.stop then some d else some b
    | none => some d) none

/-- The indentation of the first line with text on it, from the given line on (`next_code_indent`).
-/
def nextIndent (cs : List Char) (line : Nat) : List Char :=
  let numbers := (List.range (lineCount cs)).drop line
  match (numbers.map (lineText cs)).find? fun l => !isBlankText l with
  | some l => indentation l
  | none => []

/-- The insertion behind a namespace declaration. There is one blank line in front of the new
statement, which an existing one may be, and one behind it if code follows. -/
def insertAfterNamespace (cs : List Char) (n : NamespaceDeclaration) (statement : String) : Edit :=
  let newline := lineBreak cs
  let line := lineOf cs n.statement.start
  let next := line + 1
  let indent := if n.braced then String.ofList (nextIndent cs next) else ""
  let content := indent ++ statement ++ newline
  if next < lineCount cs && isBlankText (lineText cs next) then
    let gap := if next + 1 < lineCount cs && !isBlankText (lineText cs (next + 1)) then
      newline else ""
    insertAfterLine cs next (content ++ gap)
  else
    let gap := if next < lineCount cs && !(lineText cs next).isEmpty then newline else ""
    insertAfterLine cs line (newline ++ content ++ gap)

/-- The insertion of a statement at its preferred place (`insertion_edit`). -/
def insertionEdit (doc : Document) (a : Analysis) (statement : String) : Edit :=
  let cs := doc.text
  let newline := lineBreak cs
  let behindNamespace := match a.ownNamespace? with
    | some n => n.statement.stop
    | none => 0
  match lastImport? a.declarations behindNamespace with
  | some last =>
    let (first, line) := lineExtent cs last.statement
    let indent := String.ofList (indentation (lineText cs first))
    insertAfterLine cs line (indent ++ statement ++ newline)
  | none =>
    match a.ownNamespace? with
    | some n => insertAfterNamespace cs n statement
    | none =>
      match doc.openTag? with
      | some tag => insertAfterLine cs (lineOf cs tag.start) (statement ++ newline)
      | none => Edit.insert 0 (statement ++ newline)

/-! ## The plan -/

/-- The names that an import may not take. -/
def takenNames (a : Analysis) : List String :=
  a.aliases.names .cls ++ a.declaredClasses

/-- The last class import of the given name. -/
def classImport? (ds : List Declaration) (fqn : String) : Option Declaration :=
  ds.reverse.find? fun d => d.kind == .cls && d.fqn == fqn

/-- The plan to import a class, whose name may have leading backslashes (`plan_import`). -/
def planImport (doc : Document) (a : Analysis) (name : String) : ImportOutcome :=
  let fqn := stripLeading name
  match classImport? a.declarations fqn with
  | some d => .alreadyImported d.localName
  | none =>
    if isBare fqn && a.ownNamespace?.isNone then .notNeeded
    else
      let taken := takenNames a
      let short := shortName fqn
      let aliasName := if taken.contains short then some (freshAlias fqn taken) else none
      let statement := match aliasName with
        | some n => "use " ++ fqn ++ " as " ++ n ++ ";"
        | none => "use " ++ fqn ++ ";"
      .insert (insertionEdit doc a statement) aliasName (aliasName.getD short)

end UseImports
