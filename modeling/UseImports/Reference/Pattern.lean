import UseImports.Reference.Basic
import UseImports.Text.Cursor

/-!
# The patterns of the rules

Each rule is a reader that recognises a phrase of the code and tells which part of it holds the
names. A phrase may be read in one way only, with one exception: a modifier in front of a type may
turn out to be the type itself, as in `(static $x`, so the readers of types try all modifiers first
and then give them back one at a time.

Main definitions:
* `Phrase`: the part of a phrase that holds the names.
* `type?`, `types?`, `modifiersThen?`: type expressions and what stands in front of them.
* `Rule.phrase?`: the phrase of a rule.
-/

namespace UseImports

/-- The part of a phrase that holds the names. -/
structure Phrase where
  start : Cursor
  stop : Cursor

/-! ## Types -/

/-- Moves over one member of a type expression: a name, perhaps nullable and perhaps in parentheses.
-/
def type? (c : Cursor) : Option Cursor := do
  let inner := (c.optional (Cursor.literal? "(")).skipBlanks
  let name := (inner.optional (Cursor.literal? "?")).skipBlanks
  let stop ← name.qualifiedName?
  return (stop.skipBlanks.literal? ")").getD stop

/-- Moves over a type expression (`type_list`): members joined by bars and ampersands. -/
def types? (c : Cursor) : Option Cursor :=
  c.listOf? (fun d => d == '|' || d == '&') type?

/-- The words that may stand in front of a type. -/
def modifierWords : List String :=
  ["public", "protected", "private", "readonly", "final", "abstract", "static"]

/-- Moves over `(set)` behind a modifier. -/
def setScope? (c : Cursor) : Option Cursor := do
  let inner ← c.literal? "("
  let word ← inner.skipBlanks.folded? "set"
  word.skipBlanks.literal? ")"

/-- Moves over a modifier and the white space behind it. -/
def modifier? (c : Cursor) : Option Cursor :=
  (c.oneOf? modifierWords).bind fun word => (word.optional setScope?).blanks?

/-- Runs `next` behind as many modifiers as possible, with fewer of them if it fails there. The
first number bounds the number of modifiers. -/
def modifiersThen? {α : Type} (next : Cursor → Option α) : Nat → Cursor → Option α
  | 0, c => next c
  | n + 1, c =>
    match modifier? c with
    | some behind => modifiersThen? next n behind <|> next c
    | none => next c

/-! ## Phrases -/

/-- A phrase whose names are read by `names?` from the cursor on, and that ends with them. -/
def phrase? (names? : Cursor → Option Cursor) (c : Cursor) : Option (Phrase × Cursor) :=
  (names? c).map fun stop => (⟨c, stop⟩, stop)

/-- Names with commas between them (`name_list`). -/
def names? (c : Cursor) : Option Cursor :=
  c.listOf? (· == ',') Cursor.qualifiedName?

/-- Names with bars between them. -/
def alternatives? (c : Cursor) : Option Cursor :=
  c.listOf? (· == '|') Cursor.qualifiedName?

/-- Moves over an attribute in brackets. -/
def attributeGroup? (c : Cursor) : Option Cursor := do
  let inner ← c.literal? "#["
  let close ← (inner.skipWhile (· ≠ ']')).literal? "]"
  return close.skipBlanks

/-- Moves from the end of a parameter's type to behind the dollar sign of its name: white space or
an ampersand must divide the two, and dots may follow. -/
def parameterName? (c : Cursor) : Option Cursor := do
  let gap := c.skipBlanks
  let behind ← gap.literal? "&" <|> c.blanks?
  let dots := behind.skipBlanks.optional (Cursor.literal? "...")
  dots.skipBlanks.literal? "$"

/-- A typed parameter. -/
def parameterPhrase? (c : Cursor) : Option (Phrase × Cursor) := do
  let inner ← c.char? fun d => d == '(' || d == ','
  let start := inner.skipBlanks.optional attributeGroup?
  modifiersThen? (fun t => do
    let stop ← types? t
    let last ← parameterName? stop
    return (⟨t, stop⟩, last)) start.after.length start

/-- A return type. -/
def returnPhrase? (c : Cursor) : Option (Phrase × Cursor) := do
  let close ← c.literal? ")"
  let colon ← close.skipBlanks.literal? ":"
  let start := colon.skipBlanks
  let stop ← types? start
  let next := stop.skipBlanks
  let last ← next.char? (fun d => d == '{' || d == ';') <|> next.literal? "=>"
  return (⟨start, stop⟩, last)

/-- A typed property. -/
def propertyPhrase? (c : Cursor) : Option (Phrase × Cursor) := do
  let keyword ← c.keyword? ["public", "protected", "private", "var", "readonly", "static"]
  let start ← keyword.blanks?
  modifiersThen? (fun t => do
    let stop ← types? t
    let last ← stop.blanks?.bind (Cursor.literal? "$")
    return (⟨t, stop⟩, last)) start.after.length start

/-- A name in front of a double colon. -/
def accessPhrase? (c : Cursor) : Option (Phrase × Cursor) := do
  let stop ← c.qualifiedName?
  let last ← stop.literal? "::"
  return (⟨c, stop⟩, last)

/-- A name behind one of the keywords. -/
def keywordPhrase? (words : List String) (names? : Cursor → Option Cursor) (c : Cursor) :
    Option (Phrase × Cursor) := do
  let keyword ← c.keyword? words
  let start ← keyword.blanks?
  phrase? names? start

/-- The classes that a `catch` names. -/
def catchPhrase? (c : Cursor) : Option (Phrase × Cursor) := do
  let keyword ← c.keyword? ["catch"]
  let inner ← keyword.skipBlanks.literal? "("
  phrase? alternatives? inner.skipBlanks

/-- The name of an attribute. -/
def attributePhrase? (c : Cursor) : Option (Phrase × Cursor) := do
  let inner ← c.literal? "#["
  phrase? Cursor.qualifiedName? inner.skipBlanks

/-- The traits that a class uses. -/
def traitPhrase? (c : Cursor) : Option (Phrase × Cursor) := do
  let (phrase, stop) ← keywordPhrase? ["use"] names? c
  let last ← stop.skipBlanks.char? fun d => d == ';' || d == '{'
  return (phrase, last)

/-- The phrase that a rule finds at a place, and the place behind it. Function calls depend on the
imports and have no phrase of their own. -/
def Rule.phrase? : Rule → Cursor → Option (Phrase × Cursor)
  | .keywordSingle => keywordPhrase? ["new", "instanceof"] Cursor.qualifiedName?
  | .keywordList => keywordPhrase? ["extends", "implements"] names?
  | .catchClause => catchPhrase?
  | .staticAccess => accessPhrase?
  | .parameterHint => parameterPhrase?
  | .returnType => returnPhrase?
  | .propertyType => propertyPhrase?
  | .attribute => attributePhrase?
  | .traitUse => traitPhrase?
  | .functionCall => fun _ => none

end UseImports
