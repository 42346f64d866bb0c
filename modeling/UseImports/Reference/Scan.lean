import UseImports.AliasTable
import UseImports.Declaration.Basic
import UseImports.Document
import UseImports.Reference.Pattern

/-!
# Finding references

All rules run over the whole code of a document, and what they find is put in the order of the text.
A place that two rules find counts for the first of them.

Main definitions:
* `typeReferences`: what the rules for types find.
* `functionCalls` (`scan_function_calls`): the calls of imported functions.
* `references` (`scan_usages`): all references, in order, one for each span.
-/

namespace UseImports

/-- The offset lies in one of the import statements. -/
def inImport (ds : List Declaration) (offset : Nat) : Bool :=
  ds.any fun d => d.statement.contains offset

/-- A variable or a property stands in front of the double colon, not a class
(`is_dynamic_receiver`). -/
def isDynamicReceiver (start : Cursor) : Bool :=
  match start.before with
  | '$' :: _ => true
  | '>' :: '-' :: _ => true
  | _ => false

/-- The place lies where the rule applies: outside the import statements, for traits outside
the import regions too, and for static access not behind a variable. -/
def Rule.applies (ds : List Declaration) (regions : List Span) (rule : Rule) (start : Cursor) :
    Bool :=
  !inImport ds start.offset &&
  (rule != .traitUse || !regions.any (·.contains start.offset)) &&
  (rule != .staticAccess || !isDynamicReceiver start)

/-- The references that a rule finds in the code. -/
def Rule.references (code : List Char) (ds : List Declaration) (regions : List Span) (rule : Rule) :
    List Reference :=
  ((Cursor.atStart code).findAll rule.phrase?).flatMap fun phrase =>
    if rule.applies ds regions phrase.start then
      (phrase.start.namesUpTo phrase.stop).map fun (span, name) =>
        ⟨span, String.ofList name, .type, rule⟩
    else []

/-- The rules for types, in the order in which they claim a place. -/
def typeRules : List Rule :=
  [.keywordSingle, .keywordList, .catchClause, .staticAccess, .parameterHint, .returnType,
   .propertyType, .attribute, .traitUse]

/-- The references that the rules for types find, rule by rule. -/
def typeReferences (d : Document) (ds : List Declaration) : List Reference :=
  let regions := d.importRegions
  typeRules.flatMap fun rule => rule.references d.code ds regions

/-! ## Function calls -/

/-- What stands in front makes the name part of a longer name, a variable or a member
(`is_qualified_or_member`). -/
def isQualifiedOrMember (start : Cursor) : Bool :=
  match start.before with
  | '\\' :: _ => true
  | '$' :: _ => true
  | '>' :: '-' :: _ => true
  | ':' :: ':' :: _ => true
  | _ => false

/-- Reads one of the names as a whole word, with an open parenthesis behind it. -/
def Cursor.call? (names : List String) (c : Cursor) : Option (Phrase × Cursor) := do
  if !c.atWordStart then none
  let stop := c.skipWhile isWordChar
  if !names.contains (String.ofList (c.after.takeWhile isWordChar)) then none
  let last ← stop.skipBlanks.literal? "("
  return (⟨c, stop⟩, last)

/-- The calls of the functions with the given local names (`scan_function_calls`). -/
def functionCalls (d : Document) (ds : List Declaration) (names : List String) : List Reference :=
  let calls := (Cursor.atStart d.code).findAll (Cursor.call? names)
  let proper := calls.filter fun p =>
    !inImport ds p.start.offset && !isQualifiedOrMember p.start &&
    !endsInKeyword p.start.before ["new", "function", "fn"]
  proper.map fun p =>
    ⟨p.start.spanTo p.stop, String.ofList (p.start.upTo p.stop), .function, .functionCall⟩

/-! ## All references -/

/-- The references without those whose span is that of the one before. -/
def distinctSpans : List Reference → List Reference
  | [] => []
  | [r] => [r]
  | r :: s :: rs =>
    match distinctSpans (s :: rs) with
    | [] => [r]
    | t :: ts => if r.span = t.span then r :: ts else r :: t :: ts

/-- The references of a document with the given imports, in the order of the text (`scan_usages`).
-/
def references (d : Document) (ds : List Declaration) (table : AliasTable) : List Reference :=
  let found := typeReferences d ds ++ functionCalls d ds (table.names .function)
  distinctSpans (found.mergeSort fun r s => r.span.le s.span)

end UseImports
