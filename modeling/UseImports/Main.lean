import UseImports.CommandLine
import UseImports.Editor.Protocol
import UseImports.Uri

/-!
# The program

With files to check, the program checks them and ends. Without, it serves an editor on the standard
input and output, one message behind a header with its length after the other.

Everything that decides anything is elsewhere; this module reads files and messages, and writes
them.
-/

namespace UseImports.Program

/-! ## Files -/

/-- The names along a path. -/
def pathNames (path : String) : List String :=
  ((splitOnChar (· == '/') path.toList).map String.ofList).filter (· ≠ "")

/-- The text of a path from the root. -/
def pathText (p : TreePath) : String :=
  "/" ++ String.intercalate "/" p

/-- The working directory. -/
def workingDirectory : IO TreePath := do
  return pathNames (← IO.currentDir).toString

/-- An error of the system as that of a file. -/
def fileError : IO.Error → FileError
  | .noFileOrDirectory .. => .notFound
  | .permissionDenied .. => .permissionDenied
  | .resourceExhausted _ code text | .hardwareFault code text | .otherError code text =>
    .other code.toNat text
  | e => .other 5 (toString e)

/-- The content of a file, or why it cannot be read. -/
def readFile (path : String) : IO (Except FileError Content) := do
  try
    return .ok (← IO.FS.readBinFile path).data.toList
  catch e => return .error (fileError e)

/-- The content of a file, if it can be read. -/
def readContent (path : String) : IO (Option Content) := do
  return (← readFile path).toOption

/-- The user's file with settings. -/
def userSettings : IO (Option Content) := do
  let home := (← IO.getEnv "HOME").map (· ++ "/.config")
  match (← IO.getEnv "XDG_CONFIG_HOME").or home with
  | some directory => readContent (directory ++ "/php-use/config.toml")
  | none => return none

/-- The tree with what is found at a place: a file, a directory or nothing. -/
def addPlace (t : FileTree) (p : TreePath) : IO FileTree := do
  if (t.get? p).isSome then return t
  match ← readFile (pathText p) with
  | .ok content => return { t with files := t.files ++ [(p, content)] }
  | .error e =>
    let isDirectory ← try
        let _ ← IO.FS.realPath (pathText p ++ "/.")
        (← IO.FS.realPath (pathText p)).isDir
      catch _ => pure false
    if isDirectory then return { t with directories := t.directories ++ [p] }
    if e = .permissionDenied then
      return { t with files := t.files ++ [(p, [])], unreadable := t.unreadable ++ [(p, e)] }
    return t

/-- The tree with the files in it that cannot be opened for writing. -/
def addFaults (t : FileTree) : IO FileTree :=
  t.files.foldlM (fun t (p, _) => do
    try
      let _ ← IO.FS.Handle.mk (pathText p) .readWrite
      return t
    catch e => return { t with faults := t.faults ++ [(p, { cause := fileError e })] }) t

/-- The tree with the places on the way along names. -/
def addAlong (t : FileTree) (p : TreePath) : List String → IO FileTree
  | [] => return t
  | name :: names => do
    let p := if name = "." then p else if name = ".." then p.dropLast else p ++ [name]
    addAlong (← addPlace t p) p names

/-- The tree with the place that a written path leads to. -/
def addWritten (t : FileTree) (cwd : TreePath) (path : String) : IO FileTree :=
  addAlong t (if path.toList.head? == some '/' then [] else cwd) (pathNames path)

/-- The files below a directory. -/
partial def filesBelow (p : TreePath) : IO (List (TreePath × Content)) := do
  let path ← IO.FS.realPath (pathText p)
  let mut found := []
  for entry in ← path.readDir do
    let below := p ++ [entry.fileName]
    if ← entry.path.isDir then
      unless FileTree.isHidden entry.fileName do
        found := found ++ (← filesBelow below)
    else if let some content ← readContent (pathText below) then
      found := found ++ [(below, content)]
  return found

/-! ## Checking -/

/-- Checks files: prints the findings and writes what was mended. -/
def check (arguments : Arguments) : IO UInt32 := do
  let cwd ← workingDirectory
  let settings ← addPlace { directories := [cwd] } (cwd ++ [settingsFileName])
  let tree ← arguments.check.foldlM (fun t path => addWritten t cwd path) settings
  let tree ← if arguments.fix then addFaults tree else pure tree
  match runCheck tree (← userSettings) cwd arguments with
  | .error _ =>
    IO.eprintln "the label of a heredoc does not end"
    return 101
  | .ok run =>
    for line in run.output do IO.println line
    for line in run.errors do IO.eprintln line
    let mut exitCode := UInt32.ofNat run.exitCode
    for (p, content) in run.tree.files do
      if tree.get? p ≠ some content then
        try
          IO.FS.writeBinFile (pathText p) ⟨content.toArray⟩
        catch e =>
          IO.eprintln (pathText p ++ ": " ++ (fileError e).message)
          exitCode := 2
    return exitCode

/-! ## Serving -/

/-- Reads the header of a message and gives the length of its body. -/
partial def readHeader (input : IO.FS.Stream) (length : Option Nat) : IO (Option Nat) := do
  let line ← input.getLine
  if line.isEmpty then return none
  let text := String.ofList (trim line.toList)
  if text.isEmpty then return length
  let name := "content-length:"
  if eqIgnoreCase (text.toList.take name.length) name.toList then
    readHeader input (String.ofList (trim (text.toList.drop name.length))).toNat?
  else readHeader input length

/-- Reads the body of a message. -/
partial def readBody (input : IO.FS.Stream) (length : Nat) (read : ByteArray) :
    IO (Option ByteArray) := do
  if length ≤ read.size then return some read
  let more ← input.read (USize.ofNat (length - read.size))
  if more.size = 0 then return none
  readBody input length (read ++ more)

/-- Reads a message; `none` at the end of the input. -/
def readMessage (input : IO.FS.Stream) : IO (Option Json) := do
  match ← readHeader input none with
  | none => return none
  | some length =>
    match ← readBody input length .empty with
    | none => return none
    | some body => return some (((decodeUtf8? body.data.toList).bind Json.parse?).getD .null)

/-- Writes a message behind its header. -/
def writeMessage (output : IO.FS.Stream) (j : Json) : IO Unit := do
  let text := j.render
  output.putStr ("Content-Length: " ++ toString text.utf8ByteSize ++ "\r\n\r\n" ++ text)
  output.flush

/-- The two ends of the connection to the editor, and the messages that wait to be handled. -/
structure Connection where
  input : IO.FS.Stream
  output : IO.FS.Stream
  waiting : IO.Ref (List Json)

/-- The next message that is not an answer. -/
def Connection.next (c : Connection) : IO (Option Json) := do
  match ← c.waiting.get with
  | j :: rest =>
    c.waiting.set rest
    return some j
  | [] => readMessage c.input

/-- Waits for the answer to a request; other messages are put off. -/
partial def Connection.await (c : Connection) (id : Nat) : IO (Option Json) := do
  match ← readMessage c.input with
  | none => return none
  | some j =>
    match Incoming.ofJson? j with
    | some ⟨some key, none, _, result⟩ =>
      if key.unsigned? = some id then return result else c.await id
    | _ =>
      c.waiting.modify (· ++ [j])
      c.await id

/-- Takes a step, asking the client on the way: the step is taken again with what has been learnt
until no request is left open. -/
partial def takeStep (c : Connection) (s : Session) (env : Surroundings) (e : Event)
    (replies : Replies) (asked : Nat) : IO (Except MaskError Outcome) := do
  match s.step Uri.reader env replies e with
  | .error cause => return .error cause
  | .ok o =>
    match (o.messages.filter ServerMessage.isRequest)[asked]? with
    | none => return .ok o
    | some request =>
      writeMessage c.output (requestJson asked request)
      takeStep c s env e (replies.learn request (← c.await asked)) (asked + 1)

/-- What a session finds on disk when it handles an event. -/
def surroundings (s : Session) (e : Event) : IO Surroundings := do
  let root := match e with
    | .start folders root _ => (folders.head?.or root).bind Uri.reader.filePath?
    | _ => none
  let tree ← match root, e, s.root with
    | some p, _, _ => addPlace {} (p ++ [settingsFileName])
    | none, .command .., some p => try
        pure { files := ← filesBelow p }
      catch _ => pure {}
    | _, _, _ => pure {}
  return ⟨tree, ← userSettings⟩

/-- Handles a message, and gives the session afterwards. -/
def handle (c : Connection) (s : Session) (m : Incoming) (method : String) : IO Session := do
  let fail (code : Int) (text : String) : IO Session := do
    if let some id := m.id then writeMessage c.output (failureJson id code text)
    return s
  match event? Uri.reader method m.parameters with
  | none => fail (-32602) ("cannot be handled: " ++ method)
  | some e =>
    match ← takeStep c s (← surroundings s e) e {} 0 with
    | .error _ => fail (-32603) "the label of a heredoc does not end"
    | .ok o =>
      for message in o.messages do
        unless message.isRequest do writeMessage c.output (notificationJson message)
      if let some id := m.id then writeMessage c.output (answerJson id o.response)
      return o.session

/-- Handles messages until the editor leaves. -/
partial def serve (c : Connection) (s : Session) : IO Unit := do
  match ← c.next with
  | none => return
  | some j =>
    match Incoming.ofJson? j with
    | some m =>
      match m.method with
      | some "exit" => return
      | some method => serve c (← handle c s m method)
      | none => serve c s
    | none => serve c s

end UseImports.Program

open UseImports UseImports.Program in
/-- Checks files or serves an editor, as the arguments say. -/
def main (arguments : List String) : IO UInt32 := do
  match Arguments.parse arguments with
  | .error e =>
    IO.eprintln ("error: " ++ e.message)
    return 2
  | .ok .help =>
    IO.println "--check FILE...  print the findings of files"
    IO.println "--fix            with --check, remove unused imports in place"
    IO.println "--sort           with --fix, also sort the import block"
    return 0
  | .ok .version =>
    IO.println "0.3.0"
    return 0
  | .ok (.run request) =>
    if request.check.isEmpty then
      serve ⟨← IO.getStdin, ← IO.getStdout, ← IO.mkRef []⟩ { hasClient := true }
      return 0
    else check request
