import UseImports.Data.Json

/-!
# Tables of TOML

A TOML document builds up nested tables. A table is opened once by a header, and a header also opens
the tables on the way to it; dotted keys open tables of their own. Which of these a table comes from
decides whether it may still grow.

Main definitions:
* `Toml`: a value, a table with its origin, or an array of tables.
* `descend`: changes the table at the end of a path.
* `assign?`: sets a dotted key in a table.
* `openTable?`, `appendTable?`: what the two kinds of headers do.
* `tableJson`: a table as a JSON value.
-/

namespace UseImports

/-- Where a table comes from. -/
inductive TableOrigin where
  /-- A header names it, or it is the whole document or an inline table. -/
  | header
  /-- It is on the way to a table that a header names. -/
  | implied
  /-- A dotted key goes through it. -/
  | dotted
deriving DecidableEq, Repr

/-- What a key stands for. -/
inductive Toml where
  /-- A value that cannot grow. -/
  | value (json : Json)
  | table (origin : TableOrigin) (entries : List (String × Toml))
  /-- The tables of headers in double brackets, in order. -/
  | tables (items : List (List (String × Toml)))
deriving Inhabited

/-- The keys of a table and what they stand for. -/
abbrev TomlEntries := List (String × Toml)

namespace Toml

/-- The entries with a new meaning of a key, which comes last if the key is new. -/
def put (entries : TomlEntries) (key : String) (new : Toml) : TomlEntries :=
  if (entries.lookup key).isSome then
    entries.map fun (k, old) => (k, if k = key then new else old)
  else entries ++ [(key, new)]

/-- Changes the table at the end of a path. Missing tables are made, with an origin that says
whether the path is that of a dotted key. A dotted key may not enter a table that a header opened;
both ways an array of tables stands for its last table. -/
def descend (isDotted : Bool) (change : TableOrigin → TomlEntries → Option TomlEntries) :
    List String → TableOrigin → TomlEntries → Option TomlEntries
  | [], origin, entries => change origin entries
  | key :: path, _, entries =>
    match entries.lookup key with
    | none =>
      let origin := if isDotted then TableOrigin.dotted else .implied
      (descend isDotted change path origin []).map fun new => put entries key (.table origin new)
    | some (.table origin inner) =>
      if isDotted && origin == .header then none
      else (descend isDotted change path origin inner).map fun new =>
        put entries key (.table origin new)
    | some (.tables items) =>
      match items.getLast? with
      | none => none
      | some last => (descend isDotted change path .header last).map fun new =>
          put entries key (.tables (items.dropLast ++ [new]))
    | some (.value _) => none

/-- Sets a key in a table. The key must be new; behind a dotted path the table must come from dotted
keys, and in front of none from anything else. -/
def assign? (path : List String) (key : String) (json : Json) (origin : TableOrigin)
    (entries : TomlEntries) : Option TomlEntries :=
  descend true (fun origin entries =>
    if (origin == .dotted) == path.isEmpty || (entries.lookup key).isSome then none
    else some (put entries key (.value json))) path origin entries

/-- Opens the table of a header in single brackets: it must be new or only implied so far. -/
def openTable? (path : List String) (key : String) (root : TomlEntries) : Option TomlEntries :=
  descend false (fun _ entries =>
    match entries.lookup key with
    | none => some (put entries key (.table .header []))
    | some (.table .implied inner) => some (put entries key (.table .header inner))
    | some _ => none) path .header root

/-- Appends a table to the array of a header in double brackets. -/
def appendTable? (path : List String) (key : String) (root : TomlEntries) : Option TomlEntries :=
  descend false (fun _ entries =>
    match entries.lookup key with
    | none => some (put entries key (.tables [[]]))
    | some (.tables items) => some (put entries key (.tables (items ++ [[]])))
    | some _ => none) path .header root

mutual

/-- The JSON form of what a key stands for. -/
def toJson : Toml → Json
  | .value json => json
  | .table _ entries => .object (entriesJson entries)
  | .tables items => .array (itemsJson items)

/-- The members of the JSON form of a table. -/
def entriesJson : List (String × Toml) → List (String × Json)
  | [] => []
  | (key, t) :: rest => (key, t.toJson) :: entriesJson rest

/-- The JSON forms of the tables of an array. -/
def itemsJson : List (List (String × Toml)) → List Json
  | [] => []
  | entries :: rest => .object (entriesJson entries) :: itemsJson rest

end

end Toml

/-- A table as a JSON value. -/
def tableJson (entries : TomlEntries) : Json :=
  .object (Toml.entriesJson entries)

end UseImports
