import UseImports.Uri.Host
import UseImports.Uri.Reader

/-!
# URIs

The program's own reader of URIs. A URI is read leniently and kept in its normal form: the scheme
and the names of hosts in lower case, dot segments resolved, characters that may not stand where
they are as escapes. It knows hosts by names in ASCII only; nothing that is proved of a session
rests on this reader.

Main definitions:
* `Uri`: a URI by its parts.
* `Uri.parse?`: reads a URI; one without a scheme is refused.
* `Uri.text`: the normal form.
* `Uri.filePath?`: the path of the file that a URI names.
* `Uri.reader`: all of it as a reader of URIs.
-/

namespace UseImports

/-- Who answers for a URI. -/
structure Authority where
  /-- User name and password with the sign behind them; empty if there are none. -/
  userInfo : String
  /-- The host; empty for files of this machine. -/
  host : String
  port : Option Nat
deriving DecidableEq, Repr

/-- The path of a URI. -/
inductive UriPath where
  /-- A text without structure. -/
  | rootless (text : String)
  /-- Segments, each behind a slash. -/
  | segments (names : List String)
deriving DecidableEq, Repr

/-- A URI by its parts, all of them in normal form. -/
structure Uri where
  scheme : String
  authority : Option Authority
  path : UriPath
  query : Option String
  fragment : Option String
deriving DecidableEq, Repr

/-! ## Schemes -/

/-- The schemes of the web and of files, with their default ports. -/
def specialSchemes : List (String × Option Nat) :=
  [("http", some 80), ("https", some 443), ("ws", some 80), ("wss", some 443), ("ftp", some 21),
   ("file", none)]

/-- The scheme is one of the web or of files. -/
def isSpecialScheme (scheme : String) : Bool :=
  (specialSchemes.lookup scheme).isSome

/-- Reads the scheme, in lower case, and the text behind its colon. -/
def schemeAndRest? (cs : List Char) : Option (String × List Char) :=
  let isSchemeChar (c : Char) : Bool := c.isAlphanum || c == '+' || c == '-' || c == '.'
  match cs.takeWhile isSchemeChar, cs.dropWhile isSchemeChar with
  | c :: scheme, ':' :: rest =>
    if c.isAlpha then some (String.ofList ((c :: scheme).map Char.toLower), rest) else none
  | _, _ => none

/-! ## Paths -/

/-- A segment in which escaped points count as points. -/
def withPlainDots : List Char → List Char
  | '%' :: '2' :: 'e' :: cs => '.' :: withPlainDots cs
  | '%' :: '2' :: 'E' :: cs => '.' :: withPlainDots cs
  | c :: cs => c :: withPlainDots cs
  | [] => []

/-- The segment is a drive letter. -/
def isDriveLetter : List Char → Bool
  | [c, ':'] | [c, '|'] => c.isAlpha
  | _ => false

/-- The segments without the last; the drive letter of a file stays. -/
def parentSegments (isFile : Bool) (path : List (List Char)) : List (List Char) :=
  match isFile, path with
  | true, [drive] => if isDriveLetter drive then [drive] else []
  | _, path => path.dropLast

/-- Resolves the segments of a text behind those that are known: one point is left out, two points
take the last one away, and either leaves an empty segment at the end. -/
def resolveSegments (isFile : Bool) (path : List (List Char)) : List (List Char) → List (List Char)
  | [] => path
  | seg :: rest =>
    let closing := if rest.isEmpty then [[]] else []
    if withPlainDots seg = ['.', '.'] then
      resolveSegments isFile (parentSegments isFile path ++ closing) rest
    else if withPlainDots seg = ['.'] then resolveSegments isFile (path ++ closing) rest
    else
      let seg := if isFile && path.isEmpty && isDriveLetter seg then seg.take 1 ++ [':'] else seg
      resolveSegments isFile (path ++ [percentEncode EscapeSet.path seg]) rest

/-- The segments of a file's path; empty ones at its start do not count. -/
def withoutLeadingEmpty (path : List (List Char)) : List (List Char) :=
  match path.dropWhile List.isEmpty with
  | [] => [[]]
  | path => path

/-- Reads a path with or without its leading slash. -/
def readPath (scheme : String) (cs : List Char) : UriPath :=
  let special := isSpecialScheme scheme
  let isFile := scheme == "file"
  let isSlash (c : Char) : Bool := c == '/' || (special && c == '\\')
  if cs.isEmpty && !special then .segments []
  else
    let cs := match cs with
      | c :: rest => if isSlash c then rest else c :: rest
      | [] => []
    let path := resolveSegments isFile [] (splitOnChar isSlash cs)
    .segments ((if isFile then withoutLeadingEmpty path else path).map String.ofList)

/-! ## Authorities -/

/-- Cuts a text at the last character of a kind. -/
def cutAtLast? (p : Char → Bool) (cs : List Char) : Option (List Char × List Char) :=
  let after := (cs.reverse.takeWhile fun c => !p c).reverse
  if after.length < cs.length then some (cs.take (cs.length - after.length - 1), after) else none

/-- Writes user name and password. -/
def renderUserInfo (cs : List Char) : String :=
  let name := cs.takeWhile (· ≠ ':')
  let password := (cs.dropWhile (· ≠ ':')).drop 1
  if name.isEmpty && password.isEmpty then ""
  else
    let encode := percentEncode EscapeSet.userInfo
    String.ofList
      (encode name ++ (if password.isEmpty then [] else ':' :: encode password) ++ ['@'])

/-- The host and what follows it, which is a colon and a port if it is not empty. Colons between
brackets belong to the host. -/
def hostAndPort (cs : List Char) : List Char × List Char :=
  if cs.head? == some '[' then
    let inside := cs.takeWhile (· ≠ ']')
    let rest := cs.dropWhile (· ≠ ']')
    (inside ++ rest.takeWhile (· ≠ ':'), rest.dropWhile (· ≠ ':'))
  else (cs.takeWhile (· ≠ ':'), cs.dropWhile (· ≠ ':'))

/-- Reads a port, which is left out if it is the default of the scheme. -/
def port? (scheme : String) (cs : List Char) : Option (Option Nat) :=
  if cs.isEmpty then some none
  else do
    let n ← digitsValue? 10 cs
    if 65535 < n then none
    else if specialSchemes.lookup scheme = some (some n) then some none
    else some (some n)

/-- Reads an authority under any scheme but that of files. -/
def authority? (scheme : String) (cs : List Char) : Option Authority := do
  let special := isSpecialScheme scheme
  let (user, hostPort) := match cutAtLast? (· == '@') cs with
    | some (user, hostPort) => (some user, hostPort)
    | none => (none, cs)
  if user.isSome && hostPort.isEmpty then none
  let (hostText, portText) := hostAndPort hostPort
  if hostText.isEmpty && (special || !portText.isEmpty) then none
  let host ← if special then host? hostText else plainHost? hostText
  let port ← port? scheme (portText.drop 1)
  return ⟨(user.map renderUserInfo).getD "", String.ofList host, port⟩

/-! ## Reading -/

/-- The start of a URI of the scheme of files: the host, and the path behind it. -/
def fileParts? (cs : List Char) : Option (Authority × List Char) :=
  let isSlash (c : Char) : Bool := c == '/' || c == '\\'
  match cs with
  | a :: b :: rest =>
    if isSlash a && isSlash b then
      let hostText := rest.takeWhile fun c => !isSlash c
      let path := rest.dropWhile fun c => !isSlash c
      if isDriveLetter hostText then some (⟨"", "", none⟩, rest)
      else if hostText.isEmpty then some (⟨"", "", none⟩, path)
      else do
        let host := String.ofList (← host? hostText)
        return (⟨"", if host = "localhost" then "" else host, none⟩, path)
    else some (⟨"", "", none⟩, cs)
  | _ => some (⟨"", "", none⟩, cs)

/-- The text without blanks and control characters around it and without tabs and line ends in it.
-/
def withoutNoise (cs : List Char) : List Char :=
  let isNoise (c : Char) : Bool := c.toNat ≤ 0x20
  (dropEndWhile isNoise (cs.dropWhile isNoise)).filter fun c => c != '\t' && c != '\n' && c != '\r'

/-- The text in front of the first character of a kind, and what is behind it if there is one. -/
def cutAtFirst (p : Char → Bool) (cs : List Char) : List Char × Option (List Char) :=
  match cs.dropWhile fun c => !p c with
  | _ :: after => (cs.takeWhile fun c => !p c, some after)
  | [] => (cs, none)

/-- Reads the authority and the path. -/
def authorityAndPath? (scheme : String) (cs : List Char) : Option (Option Authority × UriPath) :=
  if scheme = "file" then do
    let (authority, path) ← fileParts? cs
    return (some authority, readPath scheme path)
  else if isSpecialScheme scheme then do
    let isSlash (c : Char) : Bool := c == '/' || c == '\\'
    let cs := cs.dropWhile isSlash
    let authority ← authority? scheme (cs.takeWhile fun c => !isSlash c)
    return (some authority, readPath scheme (cs.dropWhile fun c => !isSlash c))
  else
    match cs with
    | '/' :: '/' :: rest => do
      let authority ← authority? scheme (rest.takeWhile (· ≠ '/'))
      return (some authority, readPath scheme (rest.dropWhile (· ≠ '/')))
    | '/' :: _ => some (none, readPath scheme cs)
    | _ => some (none, .rootless (String.ofList (percentEncode EscapeSet.control cs)))

/-- The text of an authority. -/
def Authority.text (a : Authority) : String :=
  a.userInfo ++ a.host ++ (match a.port with
    | some n => ":" ++ toString n
    | none => "")

/-- The text of a path. -/
def UriPath.text : UriPath → String
  | .rootless text => text
  | .segments names => String.join (names.map ("/" ++ ·))

namespace Uri

/-- Reads a URI. -/
def parse? (s : String) : Option Uri := do
  let (scheme, rest) ← schemeAndRest? (withoutNoise s.toList)
  let (rest, fragment) := cutAtFirst (· == '#') rest
  let (rest, query) := cutAtFirst (· == '?') rest
  let (authority, path) ← authorityAndPath? scheme rest
  let querySet := if isSpecialScheme scheme then EscapeSet.specialQuery else EscapeSet.query
  return { scheme, authority, path
           query := query.map fun q => String.ofList (percentEncode querySet q)
           fragment := fragment.map fun f => String.ofList (percentEncode EscapeSet.fragment f) }

/-- The normal form of a URI. Without an authority, a path that starts with two slashes gets a dot
segment in front, so that it is not taken for one. -/
def text (u : Uri) : String :=
  let authority := match u.authority, u.path with
    | some a, _ => "//" ++ a.text
    | none, .segments ("" :: _ :: _) => "/."
    | none, _ => ""
  let query := match u.query with
    | some q => "?" ++ q
    | none => ""
  let fragment := match u.fragment with
    | some f => "#" ++ f
    | none => ""
  u.scheme ++ ":" ++ authority ++ u.path.text ++ query ++ fragment

/-- The names along the path of the file that the URI names: its path has segments and belongs to
this machine. -/
def filePath? (u : Uri) : Option (List String) :=
  match u.path with
  | .rootless _ => none
  | .segments segments =>
    let isLocal := match u.authority with
      | none => true
      | some a => a.host == "" || a.host == "localhost"
    if isLocal && !segments.isEmpty then
      let names := segments.flatMap fun s =>
        splitOnChar (· == '/') (decodeLossy (percentDecode s.toList))
      some ((names.map String.ofList).filter fun n => n != "" && n != ".")
    else none

/-- The program's reader of URIs. -/
def reader : UriReader where
  normal? s := (parse? s).map text
  filePath? s := (parse? s).bind filePath?

end Uri

end UseImports
