import UseImports.Data.Toml.Scalar
import UseImports.Data.Toml.Table
import UseImports.Data.Toml.Text

/-!
# TOML documents

Files with settings are TOML documents. A document is read as a whole: whatever is not well formed,
sets a key twice or opens a table twice, refuses all of it.

Main definitions:
* `value?`: a value, with the arrays and inline tables in it.
* `parseToml?`: a document as a JSON object.
-/

namespace UseImports

namespace Toml

/-- How deep arrays and inline tables may be nested. -/
def maxDepth : Nat :=
  80

/-- Reads a string behind which the quotes do not open several lines. -/
def oneLine (read : List Char → Option (List Char × List Char)) (cs : List Char) :
    Option (Json × List Char) :=
  (read cs).map fun (s, rest) => (.string (String.ofList s), rest)

mutual

/-- Reads a value. The fuel bounds the parts that are read, `depth` the nesting. -/
def value? (fuel depth : Nat) (cs : List Char) : Option (Json × List Char) :=
  match fuel with
  | 0 => none
  | fuel + 1 =>
    match cs with
    | '\x22' :: '\x22' :: '\x22' :: rest => oneLine (basicLines? .none) (dropFirstLineEnd rest)
    | '\x22' :: rest => oneLine basicString? rest
    | '\x27' :: '\x27' :: '\x27' :: rest => oneLine literalLines? (dropFirstLineEnd rest)
    | '\x27' :: rest => oneLine literalString? rest
    | '[' :: rest =>
      match depth with
      | 0 => none
      | depth + 1 => (items? fuel depth rest).map fun (items, rest) => (.array items, rest)
    | '\x7b' :: rest =>
      match depth with
      | 0 => none
      | depth + 1 =>
        (inline? fuel depth [] rest).map fun (entries, rest) => (tableJson entries, rest)
    | cs => plainValue? cs

/-- Reads the items of an array and its closing bracket. -/
def items? (fuel depth : Nat) (cs : List Char) : Option (List Json × List Char) :=
  match fuel with
  | 0 => none
  | fuel + 1 => do
    match ← skipTrivia? cs with
    | ']' :: rest => return ([], rest)
    | cs =>
      let (item, rest) ← value? fuel depth cs
      match ← skipTrivia? rest with
      | ']' :: rest => return ([item], rest)
      | ',' :: rest =>
        let (items, rest) ← items? fuel depth rest
        return (item :: items, rest)
      | _ => none

/-- Reads the entries of an inline table and its closing brace. -/
def inline? (fuel depth : Nat) (entries : TomlEntries) (cs : List Char) :
    Option (TomlEntries × List Char) :=
  match fuel with
  | 0 => none
  | fuel + 1 => do
    match ← skipTrivia? cs with
    | '\x7d' :: rest => return (entries, rest)
    | cs =>
      let (path, key, rest) ← keyPath? cs
      match rest with
      | '=' :: rest =>
        let (json, rest) ← value? fuel depth (skipBlanks rest)
        let entries ← assign? path key json .header entries
        match ← skipTrivia? rest with
        | '\x7d' :: rest => return (entries, rest)
        | ',' :: rest => inline? fuel depth entries rest
        | _ => none
      | _ => none

end

/-- A document while it is read: its tables, and the path of the table that is open. -/
structure Draft where
  root : TomlEntries
  current : List String

/-- Reads a header in single or double brackets. -/
def header? (d : Draft) (cs : List Char) : Option (Draft × List Char) := do
  match cs with
  | '[' :: rest =>
    let (path, key, rest) ← keyPath? rest
    match rest with
    | ']' :: ']' :: rest => return (⟨← appendTable? path key d.root, path ++ [key]⟩, rest)
    | _ => none
  | cs =>
    let (path, key, rest) ← keyPath? cs
    match rest with
    | ']' :: rest => return (⟨← openTable? path key d.root, path ++ [key]⟩, rest)
    | _ => none

/-- Reads a key and its value into the open table. -/
def keyValue? (d : Draft) (cs : List Char) : Option (Draft × List Char) := do
  let (path, key, rest) ← keyPath? cs
  match rest with
  | '=' :: rest =>
    let (json, rest) ← value? (2 * rest.length + 2) maxDepth (skipBlanks rest)
    let root ← descend false (assign? path key json) d.current .header d.root
    return (⟨root, d.current⟩, rest)
  | _ => none

/-- Reads statements, one a line, until the text ends. Every statement takes up some of the text, so
that its length is fuel enough. -/
def statements? : (fuel : Nat) → Draft → List Char → Option Draft
  | 0, _, _ => none
  | fuel + 1, d, cs => do
    match ← skipTrivia? cs with
    | [] => return d
    | '[' :: rest =>
      let (d, rest) ← header? d rest
      statements? fuel d (← endOfLine? rest)
    | cs =>
      let (d, rest) ← keyValue? d cs
      statements? fuel d (← endOfLine? rest)

end Toml

/-- A document as a JSON object. A byte order mark in front of it does not count. -/
def parseToml? (cs : List Char) : Option Json := do
  let cs := match cs with
    | c :: rest => if c.toNat == 0xfeff then rest else c :: rest
    | [] => []
  let d ← Toml.statements? (cs.length + 1) ⟨[], []⟩ cs
  return tableJson d.root

end UseImports
