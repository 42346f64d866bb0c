import UseImports.Edit.Expansion
import UseImports.Edit.Removal
import UseImports.Edit.Sorting
import UseImports.Editor.Command
import UseImports.Editor.TextEdit

/-!
# Code actions

The actions that an editor offers for a place in a document: to remove the imports that nothing uses
and to sort the others, to import a class, and to write a class by its full name.

Main definitions:
* `ActionKind`, `ActionKind.isWanted`: the kinds of actions, and which of them an editor asks for.
* `CodeAction`: an action, and its JSON form.
* `codeActions` (`code_actions`): the actions for a place.
-/

namespace UseImports

/-- The kinds of actions. -/
inductive ActionKind where
  | quickFix
  | fixAll
  | organizeImports
  | refactor
deriving DecidableEq, Repr

namespace ActionKind

/-- Every kind, in the order in which they are announced. -/
def all : List ActionKind :=
  [quickFix, fixAll, organizeImports, refactor]

/-- The name of a kind; a point divides a kind from its subkinds. -/
def name : ActionKind → String
  | quickFix => "quickfix"
  | fixAll => "source.fixAll"
  | organizeImports => "source.organizeImports"
  | refactor => "refactor.rewrite"

/-- The kind is one of the kinds asked for, or a subkind of one (`kind_requested`); without a list,
every kind is. -/
def isWanted (only : Option (List String)) (k : ActionKind) : Bool :=
  match only with
  | none => true
  | some wanted => wanted.any fun w => k.name == w || (w ++ ".").toList.isPrefixOf k.name.toList

end ActionKind

/-- An action. -/
structure CodeAction where
  title : String
  kind : ActionKind
  /-- The diagnostics that the action settles. -/
  diagnostics : Option (List Diagnostic) := none
  edit : Option WorkspaceEdit := none
  command : Option (Command × CommandArguments) := none
  isPreferred : Bool := false
deriving Repr

/-- The JSON form of an action. -/
def CodeAction.toJson (a : CodeAction) : Json :=
  .ofFields
    [("title", Json.string a.title), ("kind", Json.string a.kind.name),
     ("diagnostics", a.diagnostics.map fun ds => .array (ds.map Diagnostic.toJson)),
     ("edit", a.edit.map WorkspaceEdit.toJson),
     ("command", a.command.map fun (command, argument) =>
       .object [("title", .string a.title), ("command", .string command.name),
         ("arguments", .array [argument.toJson])]),
     ("isPreferred", if a.isPreferred then some (.bool true) else none)]

/-- What an editor asks actions for. -/
structure ActionRequest where
  uri : String
  range : Range
  diagnostics : List Diagnostic := []
  only : Option (List String) := none

namespace ActionRequest

/-- The diagnostics of the request that report findings of this kind. -/
def reporting (r : ActionRequest) (kind : FindingKind) : List Diagnostic :=
  r.diagnostics.filter fun d => d.kind? == some kind

end ActionRequest

/-- The actions that remove the imports that nothing uses (`removal_actions`). -/
def removalActions (r : ActionRequest) (doc : Document) (a : Analysis) : List CodeAction :=
  if a.unused.isEmpty then []
  else
    let edit := some (workspaceEdit r.uri doc.text (planRemoval doc.text a))
    let related := r.reporting .unusedImport
    let fix : List CodeAction :=
      if related.isEmpty then []
      else [{ title := "Remove unused imports", kind := .quickFix, diagnostics := some related, edit
              isPreferred := true }]
    fix ++
      [{ title := "Remove all unused imports", kind := .fixAll, edit },
       { title := "Remove unused imports", kind := .organizeImports, edit }]

/-- The first diagnostic about each name, with the name. -/
def firstByName (seen : List String) : List Diagnostic → List (String × Diagnostic)
  | [] => []
  | d :: ds =>
    match d.name? with
    | some name =>
      if seen.contains name then firstByName seen ds else (name, d) :: firstByName (name :: seen) ds
    | none => firstByName seen ds

/-- The actions that import a class that lacks an import (`import_actions`). -/
def importActions (r : ActionRequest) : List CodeAction :=
  (firstByName [] (r.reporting .unimportedClass)).map fun (name, d) =>
    { title := "Import class " ++ name
      kind := .quickFix
      diagnostics := some [d]
      command := some (.importClass, { uri := r.uri, className := some name })
      isPreferred := true }

/-- The action that sorts the imports, if they are not in order (`sort_action`). -/
def sortAction? (r : ActionRequest) (doc : Document) (a : Analysis) (mode : SortMode) :
    Option CodeAction := do
  let edit ← planSort doc.text a mode
  return { title := "Sort imports", kind := .organizeImports
           edit := some (workspaceEdit r.uri doc.text [edit]) }

/-- The action that writes the class at the start of the range by its full name, if an import binds
the word there and there is anything to write (`expand_action`). -/
def expandAction? (r : ActionRequest) (doc : Document) (a : Analysis) : Option CodeAction := do
  let (_, word) ← wordAround doc.text (offsetAt doc.text r.range.start)
  let short := String.ofList word
  let binding ← a.aliases.get? .cls short
  let edits := expandReferences doc short binding.fqn
  if edits.isEmpty then none
  else some { title := "Expand " ++ short ++ " to fully-qualified name", kind := .refactor
              edit := some (workspaceEdit r.uri doc.text edits) }

/-- The actions for a request about an analysed document (`code_actions`). -/
def codeActions (r : ActionRequest) (doc : Document) (a : Analysis) (mode : SortMode) :
    List CodeAction :=
  let actions := removalActions r doc a ++ importActions r ++ (sortAction? r doc a mode).toList ++
    (expandAction? r doc a).toList
  actions.filter fun action => action.kind.isWanted r.only

end UseImports
