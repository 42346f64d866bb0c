import UseImports.Analysis
import UseImports.Edit.Basic

/-!
# Removing unused imports

A statement that imports nothing but unused names goes with its lines. A statement that imports some
unused names is replaced by one plain statement for each name that stays. Statements that go and
have only spaces and tabs between them go together, so that no empty line is left behind.

Main definitions:
* `byStatement`: the declarations of each statement.
* `survivors`: what is left of a statement.
* `planRemoval` (`plan_removal`): the edits, the last one in the text first.
-/

namespace UseImports

/-- The statements with their declarations, in the order of the text. -/
def byStatement : List Declaration → List (Span × List Declaration)
  | [] => []
  | d :: ds =>
    match byStatement ds with
    | (statement, members) :: rest =>
      if statement = d.statement then (statement, d :: members) :: rest
      else (d.statement, [d]) :: (statement, members) :: rest
    | [] => [(d.statement, [d])]

/-- The plain statements of the names that stay, on lines of their own with the indentation of the
statement that they replace. -/
def survivors (cs : List Char) (statement : Span) (alive : List Declaration) : String :=
  let line := lineOf cs statement.start
  let indent := String.ofList (indentation (lineText cs line))
  let lineEnds := fromLine cs line
  let newline :=
    if ['\r', '\n'].isPrefixOf (lineEnds.drop (firstLine lineEnds).length) then "\r\n" else "\n"
  String.intercalate (newline ++ indent) (alive.map Declaration.plainStatement)

/-- Only spaces and tabs stand between the two spans (`only_blanks_between`). -/
def onlyIndentBetween (cs : List Char) (first second : Span) : Bool :=
  ((Span.mk first.stop second.start).slice cs).all isIndent

/-- The edit that ends a run of statements that go. -/
def endRun (cs : List Char) : Option Span → List Edit
  | some run => [Edit.delete (wholeLines cs run)]
  | none => []

/-- The edits for the statements, in the order of the text, behind a run of statements that go. -/
def removalFrom (cs : List Char) (unused : List Span) :
    (run : Option Span) → List (Span × List Declaration) → List Edit
  | run, [] => endRun cs run
  | run, (statement, members) :: rest =>
    let alive := members.filter fun d => !unused.contains d.span
    if alive.isEmpty then
      match run with
      | some r =>
        if onlyIndentBetween cs r statement then
          removalFrom cs unused (some ⟨r.start, statement.stop⟩) rest
        else Edit.delete (wholeLines cs r) :: removalFrom cs unused (some statement) rest
      | none => removalFrom cs unused (some statement) rest
    else
      let rewritten :=
        if alive.length < members.length then [⟨statement, survivors cs statement alive⟩] else []
      endRun cs run ++ rewritten ++ removalFrom cs unused none rest

/-- The edits that remove every unused import, the last one in the text first (`plan_removal`). -/
def planRemoval (cs : List Char) (a : Analysis) : List Edit :=
  if a.unused.isEmpty then []
  else (removalFrom cs (a.unused.map (·.span)) none (byStatement a.declarations)).reverse

end UseImports
