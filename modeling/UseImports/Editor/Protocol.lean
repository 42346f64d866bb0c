import UseImports.Data.Json.Text
import UseImports.Editor.Session

/-!
# The editor's messages

An editor sends requests, which have an identifier and want an answer, and notifications. Each of
them is an event of the session or ends it.

Main definitions:
* `Incoming`, `Incoming.ofJson?`: a message from the editor.
* `event?`: the event that a message tells of.
* `answerJson`, `failureJson`, `requestJson`, `notificationJson`: messages to the editor.
-/

namespace UseImports

/-- A message from the editor. -/
structure Incoming where
  /-- The identifier of a request or of the answer to one. -/
  id : Option Json
  method : Option String
  parameters : Json
  /-- The result, if the message is an answer. -/
  result : Option Json

/-- Reads a message. -/
def Incoming.ofJson? : Json → Option Incoming
  | j@(.object _) =>
    some { id := j.get? "id", method := (j.get? "method").bind Json.string?
           parameters := (j.get? "params").getD .null, result := j.get? "result" }
  | _ => none

/-! ## Events -/

section Events

variable (reader : UriReader)

/-- The URI of the document that parameters are about. -/
def documentUri? (parameters : Json) : Option String := do
  reader.ofJson? (← (← parameters.get? "textDocument").get? "uri")

/-- Reads the start of a session. -/
def startEvent? (parameters : Json) : Option Event := do
  let folders ← match parameters.get? "workspaceFolders" with
    | some (.array items) => items.mapM fun item => item.get? "uri"
    | _ => some []
  let folders ← folders.mapM reader.ofJson?
  let root ← Json.optional? reader.ofJson? (parameters.get? "rootUri")
  return .start folders root (parameters.get? "initializationOptions")

/-- Reads a request for actions. -/
def actionEvent? (parameters : Json) : Option Event := do
  let context := (parameters.get? "context").getD .null
  let given ← (← context.get? "diagnostics").array?
  return .actions {
    uri := ← documentUri? reader parameters
    range := ← Range.ofJson? (← parameters.get? "range")
    diagnostics := ← given.mapM (Diagnostic.ofJson? reader)
    only := ← Json.optional? Json.strings? (context.get? "only") }

/-- The event that a message tells of; `none` where the parameters do not fit. -/
def event? (method : String) (parameters : Json) : Option Event :=
  match method with
  | "initialize" => startEvent? reader parameters
  | "initialized" => some .started
  | "shutdown" => some .shutdown
  | "textDocument/didOpen" => do
    let text ← (← (← parameters.get? "textDocument").get? "text").string?
    return .opened (← documentUri? reader parameters) text
  | "textDocument/didChange" => do
    let changes ← (← parameters.get? "contentChanges").array?
    let texts ← changes.mapM fun c => (c.get? "text").bind Json.string?
    return .changed (← documentUri? reader parameters) texts
  | "textDocument/didSave" => do
    let text ← Json.optional? Json.string? (parameters.get? "text")
    return .saved (← documentUri? reader parameters) text
  | "textDocument/didClose" => do return .closed (← documentUri? reader parameters)
  | "workspace/didChangeConfiguration" =>
    some (.configured ((parameters.get? "settings").getD .null))
  | "textDocument/codeAction" => actionEvent? reader parameters
  | "workspace/executeCommand" => do
    let name ← (← parameters.get? "command").string?
    let arguments ← Json.optional? Json.array? (parameters.get? "arguments")
    return .command name (arguments.getD [])
  | _ => none

end Events

/-! ## Replies of the client -/

/-- The answer to the message is awaited. -/
def ServerMessage.isRequest : ServerMessage → Bool
  | .question .. => true
  | .applyEdit .. => true
  | _ => false

/-- The replies with the answer to a request. -/
def Replies.learn (r : Replies) (request : ServerMessage) (answer : Option Json) : Replies :=
  match request with
  | .question .. => { r with choice := answer.bind fun j => (j.get? "title").bind Json.string? }
  | .applyEdit .. =>
    { r with accepts := (answer.bind fun j => (j.get? "applied").bind Json.bool?).getD false }
  | _ => r

/-! ## Messages to the editor -/

/-- A message with the mark that all of them have. -/
def envelope (members : List (String × Json)) : Json :=
  .object (("jsonrpc", .string "2.0") :: members)

/-- The answer to a request. -/
def answerJson (id : Json) (response : Response) : Json :=
  envelope [("id", id), ("result", response.toJson)]

/-- The answer to a request that failed. -/
def failureJson (id : Json) (code : Int) (text : String) : Json :=
  envelope [("id", id), ("error", .object [("code", .ofInt code), ("message", .string text)])]

/-- A message that wants an answer. -/
def requestJson (id : Nat) (m : ServerMessage) : Json :=
  envelope [("id", .ofNat id), ("method", .string m.method), ("params", m.parameters)]

/-- A message that wants no answer. -/
def notificationJson (m : ServerMessage) : Json :=
  envelope [("method", .string m.method), ("params", m.parameters)]

end UseImports
