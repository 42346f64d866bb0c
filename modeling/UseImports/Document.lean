import UseImports.CodeView
import UseImports.Text.Cursor
import UseImports.Text.Lines
import UseImports.Name.Builtin

/-!
# Documents

A document is a text together with its code view. What can be told about it without knowing its
imports is found here: the namespace, the classes it declares, its open tag, and the regions in
which an import may stand.

Main definitions:
* `Document.ofText`: the document of a text, if the text has a code view.
* `Document.ownNamespace?` (`namespace`): the first namespace declaration.
* `Document.classSpans`, `Document.declaredClasses`: the class-like declarations.
* `Document.importRegions` (`import_level_regions`): what lies in no braces but those of namespaces.
* `Document.openTag?` (`open_tag`): the first open tag of the text.
-/

namespace UseImports

/-- A text and its code view (`ScanSession`); offsets mean the same in both. -/
structure Document where
  text : List Char
  code : List Char
deriving DecidableEq, Repr

namespace Document

/-- The document of a text. -/
def ofText (cs : List Char) : Except MaskError Document :=
  (codeView cs).map fun code => ⟨cs, code⟩

/-- The document of a string. -/
def ofString (s : String) : Except MaskError Document :=
  ofText s.toList

/-- The line of an offset. -/
def lineOf (d : Document) (offset : Nat) : Nat :=
  UseImports.lineOf d.text offset

end Document

/-! ## Statements -/

/-- What stands in front of a place, nearest first, lets a statement begin there: nothing but white
space back to a semicolon, a brace or the start of the text. -/
def Cursor.startsStatement (c : Cursor) : Bool :=
  match c.before.dropWhile isSpace with
  | [] => true
  | p :: _ => p == ';' || p == '{' || p == '}'

/-- The last byte of the code in front of the offset that is no ASCII white space
(`prev_code_byte`). -/
def Document.lastCodeByte? (d : Document) (offset : Nat) : Option UInt8 :=
  ((utf8Bytes d.code).take offset).reverse.find? fun b => !isSpace (Char.ofNat b.toNat)

/-- A statement may begin at the offset (`at_statement_start`). -/
def Document.startsStatement (d : Document) (offset : Nat) : Bool :=
  match d.lastCodeByte? offset with
  | none => true
  | some b => b == 0x3b || b == 0x7b || b == 0x7d

/-! ## Namespaces -/

/-- A namespace declaration as it stands in the code. -/
structure NamespaceClause where
  /-- Where the keyword stands. -/
  start : Cursor
  /-- Where the name begins. -/
  name : Cursor
  /-- Where the name ends. -/
  nameStop : Cursor
  /-- Where the semicolon or brace stands. -/
  delimiter : Cursor
  /-- Behind the semicolon or brace. -/
  stop : Cursor

/-- The clause opens a brace. -/
def NamespaceClause.braced (n : NamespaceClause) : Bool :=
  n.delimiter.after.head? == some '{'

/-- Reads the keyword `namespace`, a name and a semicolon or brace. -/
def Cursor.namespaceClause? (c : Cursor) : Option (NamespaceClause × Cursor) := do
  let keyword ← c.keyword? ["namespace"]
  let name ← keyword.blanks?
  let nameStop ← name.qualifiedName?
  let delimiter := nameStop.skipBlanks
  let stop ← delimiter.char? fun d => d == ';' || d == '{'
  return (⟨c, name, nameStop, delimiter, stop⟩, stop)

/-- The namespace of a document. -/
structure NamespaceDeclaration where
  name : String
  statement : Span
  line : Nat
  braced : Bool
deriving DecidableEq, Repr

namespace Document

/-- The namespace clauses of the code, wherever they stand. -/
def namespaceClauses (d : Document) : List NamespaceClause :=
  (Cursor.atStart d.code).findAll Cursor.namespaceClause?

/-- The first namespace clause that begins a statement (`namespace`). -/
def ownNamespace? (d : Document) : Option NamespaceDeclaration :=
  (d.namespaceClauses.find? (·.start.startsStatement)).map fun n =>
    { name := stripLeading (String.ofList (n.name.upTo n.nameStop))
      statement := n.start.spanTo n.stop
      line := d.lineOf n.name.offset
      braced := n.braced }

end Document

/-! ## Classes -/

/-- Reads a keyword that declares a class-like type, and its name. -/
def Cursor.classClause? (c : Cursor) : Option ((Cursor × Cursor × Cursor) × Cursor) := do
  let keyword ← c.keyword? ["class", "interface", "trait", "enum"]
  let name ← keyword.blanks?
  let stop ← name.ident?
  return ((c, name, stop), stop)

namespace Document

/-- The declared classes with the places of their names. A keyword behind a double colon is the name
of a constant, and a reserved word is no class name. -/
def classNames (d : Document) : List (Span × List Char) :=
  ((Cursor.atStart d.code).findAll Cursor.classClause?).filterMap fun (start, name, stop) =>
    let word := name.upTo stop
    if start.before.take 2 == [':', ':'] || isReserved (String.ofList word) then none
    else some (name.spanTo stop, word)

/-- Where the names of the declared classes stand (`class_declaration_spans`). -/
def classSpans (d : Document) : List Span :=
  d.classNames.map (·.1)

/-- The names of the declared classes, in the order of the text (`declared_classes`). -/
def declaredClasses (d : Document) : List String :=
  d.classNames.map fun (_, word) => String.ofList word

end Document

/-! ## Open tags -/

/-- Reads an open tag. -/
def Cursor.openTag? (c : Cursor) : Option (Span × Cursor) :=
  match (c.folded? "<?php").filter Cursor.atWordEnd <|> c.literal? "<?=" with
  | some stop => some (c.spanTo stop, stop)
  | none => none

/-- The first open tag of the text (`open_tag`). -/
def Document.openTag? (d : Document) : Option Span :=
  ((Cursor.atStart d.text).findAll Cursor.openTag?).head?

/-! ## Import regions -/

/-- The regions of the code behind the offset. `braces` holds the open braces, innermost first, each
marked whether a namespace opened it, and `region` is the start of the region that is still open. -/
def regionsFrom (opensNamespace : Nat → Bool) :
    (offset : Nat) → (braces : List Bool) → (region : Option Nat) → List Char → List Span
  | offset, _, some start, [] => [⟨start, offset⟩]
  | _, _, none, [] => []
  | offset, braces, region, c :: cs =>
    if c = '{' then
      if opensNamespace offset then
        regionsFrom opensNamespace (offset + 1) (true :: braces) region cs
      else match region with
        | some start =>
          ⟨start, offset⟩ :: regionsFrom opensNamespace (offset + 1) (false :: braces) none cs
        | none => regionsFrom opensNamespace (offset + 1) (false :: braces) none cs
    else if c = '}' then
      let outer := braces.drop 1
      let reopened := if region.isNone && outer.all id then some (offset + 1) else region
      regionsFrom opensNamespace (offset + 1) outer reopened cs
    else regionsFrom opensNamespace (offset + c.utf8Size) braces region cs

namespace Document

/-- The offsets of the braces that open namespaces. -/
def namespaceBraces (d : Document) : List Nat :=
  (d.namespaceClauses.filter (·.braced)).map (·.delimiter.offset)

/-- The spans in which imports may stand (`import_level_regions`): outside every pair of braces
except those of namespaces. -/
def importRegions (d : Document) : List Span :=
  let braces := d.namespaceBraces
  regionsFrom (braces.contains ·) 0 [] (some 0) d.code

end Document

end UseImports
