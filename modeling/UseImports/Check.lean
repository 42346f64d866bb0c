import UseImports.Edit.Removal
import UseImports.Edit.Sorting
import UseImports.FileTree
import UseImports.Finding

/-!
# Checking files

The findings of a file are printed one a line. On request the imports that nothing uses are removed
and the others sorted, and the file is written back; a file that is not UTF-8 is never written.

Main definitions:
* `findingLine` (`format_findings`): the line of a finding.
* `fixText`: the text after removal and sorting.
* `checkText` (`check_text`): the findings of a text and its fixed form.
* `checkFile` (`check_file`): the same for a file.
-/

namespace UseImports

/-- What is mended. -/
structure FixOptions where
  removeUnused : Bool := false
  sort : Bool := false
deriving DecidableEq, Repr, Inhabited

/-- What checking a text gives. -/
structure CheckReport where
  /-- The lines of the findings of the text as it was. -/
  findings : List String
  /-- The text after mending, if that changed it. -/
  fixed : Option String
deriving DecidableEq, Repr

/-- Why a check comes to nothing. -/
inductive CheckFailure where
  /-- The text has no code view. -/
  | mask (cause : MaskError)
  /-- Planned edits do not fit the text. -/
  | edit (cause : EditError)
deriving Repr

/-! ## Texts -/

/-- The line of a finding (`format_findings`). -/
def findingLine (path : String) (cs : List Char) (f : Finding) : String :=
  let p := position cs f.span.start
  path ++ ":" ++ toString (p.line + 1) ++ ":" ++ toString (p.character + 1) ++ ": " ++
    f.severity.label ++ ": " ++ f.message ++ " [" ++ Finding.source ++ "]"

/-- The analysis of a text, with a failure as the failure of a check. -/
def analyzeForCheck (text : String) : Except CheckFailure Analysis :=
  (analyze text).mapError .mask

/-- The text after a batch of edits, with a failure as the failure of a check. -/
def applyForCheck (text : String) (edits : List Edit) : Except CheckFailure String :=
  (applyEdits text edits).mapError .edit

/-- The text without the imports that nothing uses. -/
def withoutUnused (text : String) : Except CheckFailure String := do
  applyForCheck text (planRemoval text.toList (← analyzeForCheck text))

/-- The text with its imports in order (`sorted`). -/
def withSortedImports (text : String) (mode : SortMode) : Except CheckFailure String := do
  match planSort text.toList (← analyzeForCheck text) mode with
  | some edit => applyForCheck text [edit]
  | none => return text

/-- The text after removal and sorting, as far as they are asked for. -/
def fixText (text : String) (mode : SortMode) (fix : FixOptions) : Except CheckFailure String := do
  let text ← if fix.removeUnused then withoutUnused text else pure text
  if fix.sort then withSortedImports text mode else return text

/-- The findings of a text and its fixed form (`check_text`). -/
def checkText (path text : String) (c : Config) (fix : FixOptions) :
    Except CheckFailure CheckReport := do
  let a ← analyzeForCheck text
  let lines := (findings a c.diagnosticSeverity).map (findingLine path text.toList)
  let fixed ← fixText text c.sortMode fix
  return ⟨lines, if fixed = text then none else some fixed⟩

/-! ## Files -/

/-- Why a file could not be read or a mended text not be written. -/
inductive CheckError where
  | file (cause : FileError)
  | edit (cause : EditError)
  | notUtf8
deriving DecidableEq, Repr

/-- The wording of an error. -/
def CheckError.message : CheckError → String
  | file cause => cause.message
  | edit cause => cause.message
  | notUtf8 => "not valid UTF-8, imports left unchanged"

/-- What checking a file gives. -/
structure FileReport where
  findings : List String := []
  /-- The mended text was written back. -/
  written : Bool := false
  /-- Why a mended text was not written. -/
  error : Option CheckError := none
deriving DecidableEq, Repr, Inhabited

/-- The outcome of checking a content: the report, and the content to write if there is one. -/
def checkContent (path : String) (content : Content) (c : Config) (fix : FixOptions) :
    Except MaskError (FileReport × Option Content) :=
  match checkText path (String.ofList (decodeLossy content)) c fix with
  | .error (.mask cause) => .error cause
  | .error (.edit cause) => .ok ({ error := some (.edit cause) }, none)
  | .ok ⟨findings, none⟩ => .ok ({ findings }, none)
  | .ok ⟨findings, some fixed⟩ =>
    if (decodeUtf8? content).isSome then .ok ({ findings }, some (utf8Bytes fixed.toList))
    else .ok ({ findings, error := some .notUtf8 }, none)

/-- Writes what a check wants written, and reports how that went. -/
def FileReport.carryOut (report : FileReport) (t : FileTree) (p : TreePath) :
    Option Content → FileReport × FileTree
  | none => (report, t)
  | some content =>
    match t.write p content with
    | (tree, none) => ({ report with written := true }, tree)
    | (tree, some e) => ({ report with error := some (.file e) }, tree)

/-- Checks the file that a path leads to (`check_file`): the report and the tree afterwards, or why
the file cannot be read. -/
def checkFile (t : FileTree) (cwd : TreePath) (path : String) (c : Config) (fix : FixOptions) :
    Except MaskError (Except FileError (FileReport × FileTree)) :=
  match t.locate cwd path >>= fun p => (t.read p).map fun content => (p, content) with
  | .error e => .ok (.error e)
  | .ok (p, content) =>
    (checkContent path content c fix).map fun (report, new) => .ok (report.carryOut t p new)

end UseImports
