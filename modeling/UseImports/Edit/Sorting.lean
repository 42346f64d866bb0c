import UseImports.Analysis
import UseImports.Edit.Basic
import UseImports.Edit.NameOrder

/-!
# Sorting imports

The import block is the first run of import statements on consecutive lines that they have to
themselves. Sorting puts the lines of its statements in order and changes no line.

Main definitions:
* `BlockEntry`: a statement of the block with its lines.
* `importBlock` (`import_block`): the entries of the block.
* `planSort` (`plan_sort`): the edit that sorts the block, if it is not in order.
-/

namespace UseImports

/-- A statement of the import block. -/
structure BlockEntry where
  /-- The name by which the statement is sorted. -/
  key : String
  /-- Its lines, without the last line end. -/
  span : Span
  lines : List Char
deriving DecidableEq, Repr

/-- The name by which a statement is sorted (`sort_key`): that of its first declaration or of its
group. Functions and constants come behind the classes. -/
def sortKey (d : Declaration) : String :=
  let name := d.groupPrefix.getD d.fqn
  match d.kind.keyword? with
  | some k => "~" ++ k ++ " " ++ name
  | none => name

/-- The first declaration of each statement. -/
def firstDeclarations : List Declaration → List Declaration
  | [] => []
  | [d] => [d]
  | d :: e :: ds =>
    match firstDeclarations (e :: ds) with
    | [] => [d]
    | f :: fs => if d.statement = f.statement then d :: fs else d :: f :: fs

/-- The entry of a statement that has its lines to itself. -/
def blockEntry (cs : List Char) (d : Declaration) : BlockEntry :=
  let (first, last) := lineExtent cs d.statement
  let span : Span := ⟨lineStart cs first, lineEnd cs last⟩
  ⟨sortKey d, span, span.slice cs⟩

/-- The entries of the block among the statements, given the line on which the part already found
ends. -/
def blockFrom (cs : List Char) : (lastLine : Option Nat) → List Declaration → List BlockEntry
  | _, [] => []
  | none, d :: ds =>
    if isAlone cs d.statement then
      blockEntry cs d :: blockFrom cs (some (lineExtent cs d.statement).2) ds
    else blockFrom cs none ds
  | some line, d :: ds =>
    let (first, last) := lineExtent cs d.statement
    if isAlone cs d.statement && first == line + 1 then
      blockEntry cs d :: blockFrom cs (some last) ds
    else []

/-- The entries of the import block (`import_block`). -/
def importBlock (cs : List Char) (ds : List Declaration) : List BlockEntry :=
  blockFrom cs none (firstDeclarations ds)

/-- The entries in order, those with the same key as they stand. -/
def sortEntries (mode : SortMode) (entries : List BlockEntry) : List BlockEntry :=
  entries.mergeSort fun a b => mode.le a.key b.key

/-- The span from the start of the first entry to the end of the last. -/
def blockSpan? (entries : List BlockEntry) : Option Span := do
  let first ← entries.head?
  let last ← entries.getLast?
  return ⟨first.span.start, last.span.stop⟩

/-- The edit that sorts the import block (`plan_sort`); none when there is no block or it is in
order. -/
def planSort (cs : List Char) (a : Analysis) (mode : SortMode) : Option Edit :=
  let entries := importBlock cs a.declarations
  let sorted := sortEntries mode entries
  if sorted = entries then none
  else (blockSpan? entries).map fun span =>
    ⟨span, String.intercalate (lineBreak cs) (sorted.map fun e => String.ofList e.lines)⟩

/-- The import block is in order (`is_sorted`). -/
def isSorted (cs : List Char) (a : Analysis) (mode : SortMode) : Bool :=
  (planSort cs a mode).isNone

end UseImports
