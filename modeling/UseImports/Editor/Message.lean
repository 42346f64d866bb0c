import UseImports.Editor.Action

/-!
# Messages to the editor

What is sent to an editor on top of the answers to its requests.

Main definitions:
* `MessageType`, `ServerMessage`: the messages.
* `ServerMessage.method`, `ServerMessage.parameters`: their form on the wire.
* `serverCapabilities`: what the server announces of itself.
-/

namespace UseImports

/-- How much a message matters. -/
inductive MessageType where
  | error
  | warning
  | info
deriving DecidableEq, Repr

/-- The number of a message type. -/
def MessageType.code : MessageType → Nat
  | error => 1
  | warning => 2
  | info => 3

/-- A message to the editor. -/
inductive ServerMessage where
  /-- A line for the log. -/
  | log (type : MessageType) (text : String)
  /-- A notice for the user. -/
  | notice (type : MessageType) (text : String)
  /-- A question to the user with the answers to choose from. -/
  | question (text : String) (answers : List String)
  /-- Edits to apply. -/
  | applyEdit (edit : WorkspaceEdit)
  /-- All the diagnostics of a document. -/
  | publish (uri : String) (diagnostics : List Diagnostic)
deriving Repr

namespace ServerMessage

/-- The name of the message. -/
def method : ServerMessage → String
  | log .. => "window/logMessage"
  | notice .. => "window/showMessage"
  | question .. => "window/showMessageRequest"
  | applyEdit .. => "workspace/applyEdit"
  | publish .. => "textDocument/publishDiagnostics"

/-- The parameters of the message. -/
def parameters : ServerMessage → Json
  | log type text => .object [("type", .ofNat type.code), ("message", .string text)]
  | notice type text => .object [("type", .ofNat type.code), ("message", .string text)]
  | question text answers =>
    .object [("type", .ofNat MessageType.info.code), ("message", .string text),
      ("actions", .array (answers.map fun a => .object [("title", .string a)]))]
  | applyEdit edit => .object [("edit", edit.toJson)]
  | publish uri diagnostics =>
    .object [("uri", .string uri), ("diagnostics", .array (diagnostics.map Diagnostic.toJson))]

end ServerMessage

/-- The name and the version of the server. -/
def serverInfo : Json :=
  .object [("name", .string "php-use"), ("version", .string "0.3.0")]

/-- What the server announces: whole texts on every change and on saving, the kinds of its actions
and its commands. -/
def serverCapabilities : Json :=
  .object
    [("textDocumentSync", .object
       [("openClose", .bool true), ("change", .ofNat 1),
        ("save", .object [("includeText", .bool true)])]),
     ("codeActionProvider", .object
       [("codeActionKinds", .ofStrings (ActionKind.all.map ActionKind.name)),
        ("resolveProvider", .bool false)]),
     ("executeCommandProvider", .object [("commands", .ofStrings (Command.all.map Command.name))])]

end UseImports
