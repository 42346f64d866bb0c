import UseImports.Edit.Basic
import UseImports.Editor.Diagnostic

/-!
# Edits for an editor

An editor takes edits by ranges of lines and columns, each range in the text before any of the
edits.

Main definitions:
* `TextEdit`, `textEdits`: edits by ranges.
* `WorkspaceEdit`: the edits of a document, and its JSON form.
-/

namespace UseImports

/-- The replacement of a range. -/
structure TextEdit where
  range : Range
  newText : String
deriving DecidableEq, Repr

/-- The JSON form of an edit. -/
def TextEdit.toJson (e : TextEdit) : Json :=
  .object [("range", e.range.toJson), ("newText", .string e.newText)]

/-- The edits of a text by ranges (`text_edits`). -/
def textEdits (cs : List Char) (edits : List Edit) : List TextEdit :=
  edits.map fun e => ⟨range cs e.span, e.replacement⟩

/-- The edits of one document. -/
structure WorkspaceEdit where
  uri : String
  edits : List TextEdit
deriving DecidableEq, Repr

/-- The JSON form of the edits of a document. -/
def WorkspaceEdit.toJson (e : WorkspaceEdit) : Json :=
  .object [("changes", .object [(e.uri, .array (e.edits.map TextEdit.toJson))])]

/-- The edits of the document with this URI and text (`workspace_edit`). -/
def workspaceEdit (uri : String) (cs : List Char) (edits : List Edit) : WorkspaceEdit :=
  ⟨uri, textEdits cs edits⟩

end UseImports
