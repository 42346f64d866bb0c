import UseImports.Declaration.Basic
import UseImports.Document

/-!
# Reading import declarations

Every import-level `use` statement of a document gives its declarations, in the order of the text.
The forms are

* `use A\B;`, `use A\B as C;`, `use \A\B;`, and several such clauses with commas between them,
* `use function A\b;`, `use const A\B;`, where a clause may have a kind of its own,
* `use A\B\{C, D as E, function f};`, with a comma allowed behind the last member.

A statement that is not of these forms gives no declaration. A `use` in a class body or behind a
closure's parameters is no import: it stands outside the import regions or does not begin a
statement.

Main definitions:
* `statementBody?`: the text of a statement from behind its keyword to its semicolon.
* `Clause`, `readClause?`: one clause of a statement.
* `readSequence`, `readGroup`: the two forms of a statement.
* `Document.declarations` (`parse_use_statements`): all declarations of a document.
-/

namespace UseImports

/-! ## The extent of a statement -/

/-- The number of characters up to the semicolon that ends the statement (`statement_end`). A
statement holds names, backslashes, commas, ASCII white space and at most one open brace at a time;
it needs a name, and its braces must be closed. -/
def statementLength? : (inBraces sawName : Bool) → List Char → Option Nat
  | _, _, [] => none
  | inBraces, sawName, c :: cs =>
    if c = ';' then if !inBraces && sawName then some 0 else none
    else if c = '{' then
      if inBraces then none else (statementLength? true sawName cs).map (· + 1)
    else if c = '}' then
      if inBraces then (statementLength? false sawName cs).map (· + 1) else none
    else if c = ',' || c = '\\' || isSpace c then (statementLength? inBraces sawName cs).map (· + 1)
    else if isIdentChar c then (statementLength? inBraces true cs).map (· + 1)
    else none

/-- The text of a statement between its keyword and its semicolon. -/
def statementBody? (c : Cursor) : Option (List Char) :=
  (statementLength? false false c.after).map c.after.take

/-! ## Clauses -/

/-- One clause of a statement: an optional kind, a name and an optional alias. Offsets count from
the start of the clause. -/
structure Clause where
  kind : Option ImportKind
  name : List Char
  nameSpan : Span
  aliasName : Option (List Char)
  /-- Where the name, or the alias if there is one, ends. -/
  stop : Nat
deriving DecidableEq, Repr

/-- Moves over the keyword of a kind and the white space behind it (`parse_kind`). -/
def kindKeyword? (c : Cursor) : Option (ImportKind × Cursor) :=
  match c.folded? "function" with
  | some k => k.blanks?.map (.function, ·)
  | none => ((c.folded? "const").bind Cursor.blanks?).map (.const, ·)

/-- Moves over the keyword `as` between white space. -/
def aliasKeyword? (c : Cursor) : Option Cursor := do
  let gap ← c.blanks?
  let keyword ← gap.folded? "as"
  keyword.blanks?

/-- Reads a name and an optional alias up to the end of the clause. -/
def readNamed? (kind : Option ImportKind) (c : Cursor) : Option Clause := do
  let stop ← c.qualifiedName?
  if stop.after.isEmpty then
    return ⟨kind, c.upTo stop, c.spanTo stop, none, stop.offset⟩
  let second ← aliasKeyword? stop
  let last ← second.ident?
  if last.after.isEmpty then
    return ⟨kind, c.upTo stop, c.spanTo stop, some (second.upTo last), last.offset⟩
  none

/-- Reads a whole clause. A keyword of a kind is taken as such where the rest then reads as a name,
and else as a name itself. -/
def readClause? (cs : List Char) : Option Clause :=
  let c := Cursor.atStart cs
  match (kindKeyword? c).bind fun (kind, name) => readNamed? (some kind) name with
  | some clause => some clause
  | none => readNamed? none c

/-- The offset and the trimmed text of each piece, pieces of white space left out (`split_trimmed`).
-/
def trimmedPieces : (offset : Nat) → List (List Char) → List (Nat × List Char)
  | _, [] => []
  | offset, piece :: pieces =>
    let lead := byteLength (piece.takeWhile isBlank)
    let rest := trimmedPieces (offset + byteLength piece + 1) pieces
    if (trim piece).isEmpty then rest else (offset + lead, trim piece) :: rest

/-- The clauses of a text with their offsets; `none` when one of them cannot be read. -/
def readClauses? (offset : Nat) (cs : List Char) : Option (List (Nat × Clause)) :=
  (trimmedPieces offset (splitOnChar (· == ',') cs)).mapM fun (start, piece) =>
    (readClause? piece).map (start, ·)

/-! ## Statements -/

/-- What the clauses of one statement have in common. -/
structure StatementHead where
  statement : Span
  kind : ImportKind

/-- The declarations of a statement without braces (`parse_sequence`). -/
def readSequence (d : Document) (head : StatementHead) (offset : Nat) (body : List Char) :
    List Declaration :=
  match readClauses? offset body with
  | none => []
  | some clauses =>
    let shares := decide (1 < clauses.length)
    clauses.map fun (start, clause) =>
      { fqn := stripLeading (String.ofList clause.name)
        aliasName := clause.aliasName.map String.ofList
        kind := clause.kind.getD head.kind
        span := if shares then ⟨start + clause.nameSpan.start, start + clause.stop⟩
          else head.statement
        statement := head.statement
        line := d.lineOf (start + clause.nameSpan.start)
        groupPrefix := none
        sharesStatement := shares }

/-- What stands in front of the braces of a group, without the backslashes at its ends; `none` when
it is no name. -/
def groupName? (cs : List Char) : Option (List Char) :=
  let name := dropEndWhile (· == '\\') ((trim cs).dropWhile (· == '\\'))
  match (Cursor.atStart name).qualifiedName? with
  | some stop => if stop.after.isEmpty then some name else none
  | none => none

/-- The declarations of a group (`parse_group`): `front` stands before its braces and `inner`
between them. -/
def readGroup (d : Document) (head : StatementHead) (offset : Nat) (front inner : List Char) :
    List Declaration :=
  match groupName? front, readClauses? (offset + byteLength front + 1) inner with
  | some group, some clauses =>
    if clauses.any fun (_, clause) => clause.name.head? == some '\\' then []
    else
      clauses.map fun (start, clause) =>
        { fqn := String.ofList (group ++ '\\' :: clause.name)
          aliasName := clause.aliasName.map String.ofList
          kind := clause.kind.getD head.kind
          span := ⟨start + clause.nameSpan.start, start + clause.nameSpan.stop⟩
          statement := head.statement
          line := d.lineOf (start + clause.nameSpan.start)
          groupPrefix := some (String.ofList group)
          sharesStatement := decide (1 < clauses.length) }
  | _, _ => []

/-- The declarations of the statement whose keyword lies between the two places (`parse_statement`).
-/
def readStatement (d : Document) (keyword stop : Cursor) : List Declaration :=
  match statementBody? stop with
  | none => []
  | some body =>
    let statement : Span := ⟨keyword.offset, stop.offset + byteLength body + 1⟩
    let (kind, start) := match kindKeyword? (Cursor.atStart body).skipBlanks with
      | some (kind, start) => (kind, start)
      | none => (.cls, Cursor.atStart body)
    let offset := stop.offset + start.offset
    let front := start.after.takeWhile (· ≠ '{')
    match start.after.drop front.length with
    | [] => readSequence d ⟨statement, kind⟩ offset front
    | _ :: rest =>
      let inner := rest.takeWhile (· ≠ '}')
      match rest.drop inner.length with
      | [] => []
      | _ :: tail =>
        if (trim tail).isEmpty then readGroup d ⟨statement, kind⟩ offset front inner else []

/-- Reads the keyword `use` where it is a word of its own. -/
def Cursor.useKeyword? (c : Cursor) : Option ((Cursor × Cursor) × Cursor) :=
  ((c.keyword? ["use"]).filter Cursor.atWordEnd).map fun stop => ((c, stop), stop)

/-- The import declarations of a document, in the order of its text (`parse_use_statements`). -/
def Document.declarations (d : Document) : List Declaration :=
  let regions := d.importRegions
  ((Cursor.atStart d.code).findAll Cursor.useKeyword?).flatMap fun (keyword, stop) =>
    if regions.any (·.contains keyword.offset) && keyword.startsStatement then
      readStatement d keyword stop
    else []

end UseImports
