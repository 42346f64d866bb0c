import UseImports.Editor.Diagnostic

/-!
# Commands

A command works on one open document. Its first argument says on which, and may name a class or a
place.

Main definitions:
* `Command`: the commands, by their names.
* `CommandArguments` (`CommandArgs`): the first argument, and its JSON form.
-/

namespace UseImports

/-- What an editor can ask for. -/
inductive Command where
  | removeUnusedImports
  | importClass
  | sortImports
  | expandClassName
deriving DecidableEq, Repr

namespace Command

/-- Every command, in the order in which they are announced. -/
def all : List Command :=
  [removeUnusedImports, importClass, sortImports, expandClassName]

/-- The name of a command. -/
def name : Command → String
  | removeUnusedImports => "phpUse.removeUnusedImports"
  | importClass => "phpUse.importClass"
  | sortImports => "phpUse.sortImports"
  | expandClassName => "phpUse.expandClassName"

/-- Reads the name of a command. -/
def ofName? (s : String) : Option Command :=
  all.find? fun c => c.name == s

end Command

/-- The argument of a command (`CommandArgs`). -/
structure CommandArguments where
  uri : String
  className : Option String := none
  position : Option Position := none
deriving DecidableEq, Repr

namespace CommandArguments

/-- The JSON form of an argument (`to_value`). -/
def toJson (a : CommandArguments) : Json :=
  .ofFields [("uri", Json.string a.uri), ("className", a.className.map .string),
    ("position", a.position.map Position.toJson)]

/-- Reads an argument, for which the bare URI of the document will do. -/
def ofJson? (reader : UriReader) (j : Json) : Option CommandArguments :=
  match reader.ofJson? j with
  | some uri => some { uri }
  | none => do
    match ← j.record? ["uri", "className", "position"] 2 with
    | [some uri, className, position] =>
      return {
        uri := ← reader.ofJson? uri
        className := ← Json.optional? Json.string? className
        position := ← Json.optional? Position.ofJson? position }
    | _ => none

/-- Reads the first of the arguments (`from_arguments`). -/
def ofArguments? (reader : UriReader) (arguments : List Json) : Option CommandArguments :=
  arguments.head?.bind (ofJson? reader)

end CommandArguments

end UseImports
