import UseImports.Config.Files
import UseImports.Data.Entries
import UseImports.Editor.Plan

/-!
# Sessions with an editor

A session knows the texts of the open documents, the workspace and the settings, and what
diagnostics it has published. It answers one event after the other. With a client, edits are sent to
it and only it changes documents; without one, they are made right away. How URIs are read is a
parameter of every session.

Main definitions:
* `Session` (`Backend`): the state of a session.
* `Event`: what an editor tells or asks.
* `Response`: the answer to an event.
* `Session.refresh` (`refresh_diagnostics`): publishes the diagnostics of a document anew.
* `Session.step`: the answer to an event, and the session afterwards.
-/

namespace UseImports

/-- The state of a session (`Backend`). -/
structure Session where
  /-- A client is there to be sent messages. -/
  hasClient : Bool := false
  /-- The texts of the open documents by URI. -/
  documents : List (String × String) := []
  /-- The directory of the workspace. -/
  root : Option TreePath := none
  config : Config := {}
  /-- The diagnostics last published by URI. -/
  published : List (String × List Diagnostic) := []

/-- What a session finds on disk. -/
structure Surroundings where
  files : FileTree
  /-- The user's file with settings. -/
  userSettings : Option Content

/-- How the client replies to what it is sent during an event. -/
structure Replies where
  /-- It applies the edits. -/
  accepts : Bool := true
  /-- The answer that the user chooses. -/
  choice : Option String := none

/-- What an editor tells or asks. -/
inductive Event where
  /-- The session begins, with the URIs of the folders of the workspace and of its root, and a layer
  of settings. -/
  | start (folders : List String) (root : Option String) (options : Option Json)
  | started
  | shutdown
  | opened (uri text : String)
  /-- The new texts of a document. -/
  | changed (uri : String) (texts : List String)
  | saved (uri : String) (text : Option String)
  | closed (uri : String)
  | configured (settings : Json)
  | actions (request : ActionRequest)
  | command (name : String) (arguments : List Json)

/-- The answer to an event. -/
inductive Response where
  /-- Nothing to tell. -/
  | done
  /-- What the server announces of itself. -/
  | announcement
  | actions (offered : List CodeAction)
  /-- The notice that a command ends with. -/
  | notice (text : String)
deriving Repr

/-- The JSON form of an answer. -/
def Response.toJson : Response → Json
  | done => .null
  | announcement => .object [("capabilities", serverCapabilities), ("serverInfo", serverInfo)]
  | actions [] => .null
  | actions offered => .array (offered.map CodeAction.toJson)
  | notice text => .string text

/-- The session afterwards, the messages that were sent, and the answer. -/
structure Outcome where
  session : Session
  messages : List ServerMessage := []
  response : Response := .done

namespace Session

/-- A session without a client, with the settings of its workspace. -/
def inWorkspace (env : Surroundings) (root : TreePath) : Session :=
  { root := some root, config := loadConfig env.files env.userSettings (some root) }

/-- The messages that are sent, which are none without a client. -/
def send (s : Session) (messages : List ServerMessage) : List ServerMessage :=
  if s.hasClient then messages else []

/-- The text of an open document. -/
def document? (s : Session) (uri : String) : Option String :=
  s.documents.lookup uri

/-- The diagnostics last published for a document. -/
def publishedFor (s : Session) (uri : String) : List Diagnostic :=
  (s.published.lookup uri).getD []

/-- The session with a new text of a document. -/
def store (s : Session) (uri text : String) : Session :=
  { s with documents := setEntry s.documents uri text }

/-! ## Diagnostics -/

/-- The diagnostics that are shown for a text: none if the settings turn them off. -/
def shownDiagnostics (c : Config) (text : String) : Except MaskError (List Diagnostic) :=
  if c.enableAutoDetect && c.showDiagnostics then
    (analyze text).map fun a => diagnostics text.toList (findings a c.diagnosticSeverity)
  else .ok []

/-- Publishes the diagnostics of a document anew, if it is open (`refresh_diagnostics`). -/
def refresh (s : Session) (uri : String) : Except MaskError Outcome :=
  match s.document? uri with
  | none => .ok { session := s }
  | some text =>
    (shownDiagnostics s.config text).map fun ds =>
      { session := { s with published := setEntry s.published uri ds }
        messages := s.send [.publish uri ds] }

/-- Publishes the diagnostics of several documents anew. -/
def refreshEach (s : Session) : List String → Except MaskError Outcome
  | [] => .ok { session := s }
  | uri :: uris => do
    let first ← s.refresh uri
    let rest ← first.session.refreshEach uris
    return { session := rest.session, messages := first.messages ++ rest.messages }

/-- The URIs of the open documents, read anew; a name that is no URI is left out. -/
def documentUris (s : Session) (reader : UriReader) : List String :=
  s.documents.filterMap fun entry => reader.normal? entry.1

/-- Publishes the diagnostics of all open documents anew (`refresh_all_diagnostics`). -/
def refreshAll (s : Session) (reader : UriReader) : Except MaskError Outcome :=
  s.refreshEach (s.documentUris reader)

/-! ## Commands -/

/-- Ends a command with a notice, which is only logged if the settings say so (`finish`). -/
def finish (s : Session) (type : MessageType) (text : String) : Outcome where
  session := s
  messages := s.send [if s.config.showNotifications then .notice type text else .log type text]
  response := .notice text

/-- Applies edits to a document and tells whether they are applied (`apply_document_edits`). No
edits need nobody to apply them. -/
def applyTo (s : Session) (replies : Replies) (uri text : String) (edits : List Edit) :
    Except MaskError (Outcome × Except EditError Bool) :=
  if edits.isEmpty then .ok ({ session := s }, .ok true)
  else
    match applyEdits text edits with
    | .error e => .ok ({ session := s }, .error e)
    | .ok updated =>
      if s.hasClient then
        .ok ({ session := s, messages := [.applyEdit (workspaceEdit uri text.toList edits)] },
          .ok replies.accepts)
      else ((s.store uri updated).refresh uri).map fun o => (o, .ok true)

/-- Carries out a plan (`apply_and_report`). -/
def carryOut (s : Session) (replies : Replies) (uri text : String) (plan : CommandPlan) :
    Except MaskError Outcome :=
  match plan with
  | .nothing => .ok { session := s }
  | .notice type notice => .ok (s.finish type notice)
  | .edits edits success => do
    let (applied, verdict) ← s.applyTo replies uri text edits
    let last := match verdict with
      | .ok true => applied.session.finish .info success
      | .ok false => applied.session.finish .error "Failed to apply edit!"
      | .error e => applied.session.finish .error ("Failed to apply edit: " ++ e.message)
    return { last with messages := applied.messages ++ last.messages }

/-- What the plan of a command may depend on. -/
def context (s : Session) (env : Surroundings) (replies : Replies) : CommandContext where
  config := s.config
  source := s.root.map env.files.source
  hasClient := s.hasClient
  choice := replies.choice

/-- Runs a command (`execute_command`); a document that is not open and an unknown command come to
nothing. -/
def runCommand (s : Session) (reader : UriReader) (env : Surroundings) (replies : Replies)
    (name : String) (arguments : List Json) : Except MaskError Outcome :=
  match CommandArguments.ofArguments? reader arguments with
  | none =>
    .ok { session := s
          messages := s.send [.log .warning (name ++ ": missing document argument")] }
  | some a =>
    match s.document? a.uri, Command.ofName? name with
    | some text, some command => do
      let (asked, plan) ← planCommand (s.context env replies) command a text
      let o ← s.carryOut replies a.uri text plan
      return { o with messages := asked ++ o.messages }
    | _, _ => .ok { session := s }

/-! ## Events -/

/-- The session at its start (`initialize`). The first folder counts as the root of the workspace,
and else the root that is given. -/
def begin (s : Session) (reader : UriReader) (env : Surroundings) (folders : List String)
    (root : Option String) (options : Option Json) : Session :=
  let rootPath := (folders.head?.or root).bind reader.filePath?
  let config := loadConfig env.files env.userSettings rootPath
  { s with
    root := rootPath
    config := match options with
      | some layer => config.withLayerIfValid layer
      | none => config }

/-- New settings (`did_change_configuration`). A layer that is refused changes nothing and is
logged. -/
def configure (s : Session) (reader : UriReader) (settings : Json) : Except MaskError Outcome :=
  match s.config.withLayer settings with
  | .ok config => { s with config }.refreshAll reader
  | .error e => .ok { session := s, messages := s.send [.log .warning ("php-use: " ++ e.message)] }

/-- The actions for a place in a document, none if it is not open (`code_action`). -/
def offerActions (s : Session) (request : ActionRequest) : Except MaskError Outcome :=
  match s.document? request.uri with
  | none => .ok { session := s, response := .actions [] }
  | some text =>
    (Document.ofString text).map fun doc =>
      { session := s
        response := .actions (codeActions request doc doc.analyze s.config.sortMode) }

/-- The answer to an event, and the session afterwards (`initialize`, `did_open`, `did_change`,
`did_save`, `did_close`, `did_change_configuration`, `code_action`, `execute_command`). -/
def step (s : Session) (reader : UriReader) (env : Surroundings) (replies : Replies) :
    Event → Except MaskError Outcome
  | .start folders root options =>
    .ok { session := s.begin reader env folders root options, response := .announcement }
  | .started => .ok { session := s, messages := s.send [.log .info "php-use initialized!"] }
  | .shutdown => .ok { session := s }
  | .opened uri text => (s.store uri text).refresh uri
  | .changed uri texts =>
    match texts with
    | [] => .ok { session := s }
    | text :: _ => (s.store uri text).refresh uri
  | .saved uri text =>
    match text with
    | some text => (s.store uri text).refresh uri
    | none => s.refresh uri
  | .closed uri =>
    .ok { session := { s with
            documents := eraseEntry s.documents uri
            published := eraseEntry s.published uri }
          messages := s.send [.publish uri []] }
  | .configured settings => s.configure reader settings
  | .actions request => s.offerActions request
  | .command name arguments => s.runCommand reader env replies name arguments

end Session

end UseImports
