import UseImports.Edit.Insertion
import UseImports.Editor.Message
import UseImports.Workspace

/-!
# What a command comes to

A command is planned on the text of its document before anything happens: it has nothing to say, it
has a notice, or it has edits and a notice for when they are applied. Only the search for a class
looks further than the document, and may ask the user to choose.

Main definitions:
* `CommandPlan`: what a command comes to.
* `CommandContext`: what a plan may depend on apart from the document.
* `planCommand`: the plan of a command, and the questions that were asked on the way.
-/

namespace UseImports

/-- What a command comes to. -/
inductive CommandPlan where
  /-- Nothing, without a notice. -/
  | nothing
  /-- A notice and nothing else. -/
  | notice (type : MessageType) (text : String)
  /-- Edits, and the notice for when they are applied. -/
  | edits (edits : List Edit) (success : String)
deriving DecidableEq, Repr

/-- What a plan may depend on apart from the document. -/
structure CommandContext where
  config : Config
  /-- The files of the workspace, if there is one. -/
  source : Option FileSource
  /-- There is somebody to ask. -/
  hasClient : Bool
  /-- The answer to a question. -/
  choice : Option String

/-! ## Plans -/

/-- The class that a command is about (`target_name`): the one that its argument names, without
blanks around it and backslashes in front, or else the word at its position. -/
def targetName? (a : CommandArguments) (cs : List Char) : Option String :=
  match a.className with
  | some name =>
    let name := (trim name.toList).dropWhile (· == '\\')
    if name.isEmpty then none else some (String.ofList name)
  | none => do
    let (_, word) ← wordAround cs (offsetAt cs (← a.position))
    return String.ofList word

/-- The plan to remove the imports that nothing uses (`remove_unused_imports`). -/
def planRemovalCommand (doc : Document) : CommandPlan :=
  let a := doc.analyze
  if a.unused.isEmpty then .notice .info "No unused imports found!"
  else .edits (planRemoval doc.text a) ("Removed " ++ toString a.unused.length ++
    " unused import(s)!")

/-- The plan to sort the imports (`sort_imports`). -/
def planSortCommand (doc : Document) (mode : SortMode) : CommandPlan :=
  match planSort doc.text doc.analyze mode with
  | some edit => .edits [edit] "Sorted imports!"
  | none => .notice .info "Imports are already sorted!"

/-- The plan to write a class by its full name (`expand_class_name`). -/
def planExpandCommand (doc : Document) (requested : String) : CommandPlan :=
  let name := shortName requested
  match doc.analyze.aliases.get? .cls name with
  | none => .notice .warning ("Class " ++ name ++ " is not imported!")
  | some binding =>
    let edits := expandReferences doc name binding.fqn
    .edits edits ("Expanded " ++ toString edits.length ++ " reference(s) to " ++ binding.fqn ++ "!")

/-- The plan to import a class, given its full name and namespace. -/
def planImportOf (doc : Document) (className fqn : String) (parent : Option String) : CommandPlan :=
  match planImport doc doc.analyze fqn with
  | .alreadyImported _ => .notice .info ("Class " ++ className ++ " is already imported!")
  | .notNeeded =>
    .notice .info ("Class " ++ className ++ " is in the global namespace, no import needed!")
  | .insert edit aliasName _ =>
    let origin := parent.getD "the global namespace"
    let suffix := match aliasName with
      | some a => " as " ++ a
      | none => ""
    .edits [edit] ("Imported class " ++ className ++ " from " ++ origin ++ suffix ++ "!")

/-! ## Searching -/

/-- Asks the user to choose (`ask_for_candidate`); without anybody to ask, nobody chooses. -/
def askForCandidate (ctx : CommandContext) (className : String) (candidates : List Candidate) :
    List ServerMessage × Resolution :=
  if ctx.hasClient then
    ([.question ("Select which " ++ className ++ " class to import") (candidates.map (·.fqn))],
      choose candidates ctx.choice)
  else ([], .cancelled)

/-- The plan to import a class that has to be searched in the workspace (`find_candidate`). A search
that fails finds nothing. -/
def planSearchedImport (ctx : CommandContext) (doc : Document) (className : String) :
    List ServerMessage × CommandPlan :=
  match ctx.source with
  | none => ([], .notice .error "No workspace folder found!")
  | some source =>
    let resolution := match resolveClass source className ctx.config.exclude with
      | .ok r => r
      | .error _ => .notFound
    let (asked, resolution) := match resolution with
      | .needsChoice candidates => askForCandidate ctx className candidates
      | r => ([], r)
    (asked, match resolution with
      | .found c => planImportOf doc className c.fqn c.parent
      | .notFound => .notice .error ("Class " ++ className ++ " not found in workspace!")
      | .needsChoice _ => .nothing
      | .cancelled => .nothing)

/-- The plan to import a class (`import_class`). A qualified name needs no search. -/
def planImportCommand (ctx : CommandContext) (doc : Document) (requested : String) :
    List ServerMessage × CommandPlan :=
  let className := shortName requested
  if requested.toList.contains '\\' then
    ([], planImportOf doc className requested (parentNamespace? requested))
  else if doc.analyze.aliases.contains .cls className then
    ([], .notice .info ("Class " ++ className ++ " is already imported!"))
  else planSearchedImport ctx doc className

/-! ## Commands -/

/-- The plan of a command on the text of its document, and the questions that were asked. -/
def planCommand (ctx : CommandContext) (command : Command) (a : CommandArguments) (text : String) :
    Except MaskError (List ServerMessage × CommandPlan) :=
  match command with
  | .removeUnusedImports => do return ([], planRemovalCommand (← Document.ofString text))
  | .sortImports => do return ([], planSortCommand (← Document.ofString text) ctx.config.sortMode)
  | .expandClassName =>
    match targetName? a text.toList with
    | none => return ([], .nothing)
    | some requested => do return ([], planExpandCommand (← Document.ofString text) requested)
  | .importClass =>
    match targetName? a text.toList with
    | none => return ([], .notice .warning "No class name at cursor!")
    | some requested => do return planImportCommand ctx (← Document.ofString text) requested

end UseImports
