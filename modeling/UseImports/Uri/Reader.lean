import UseImports.Data.Json

/-!
# Readers of URIs

Documents are named by URIs, and two texts name the same document when they have one normal form.
What normal form a text has is not for the editor's session to say: it takes a reader of URIs, and
asks it for two things only.

Main definitions:
* `UriReader`: how URIs are read.
* `UriReader.IsUri`: the normal forms.
* `UriReader.Idempotent`: what a reader promises, that normal forms are read as they stand.
-/

namespace UseImports

/-- How URIs are read. -/
structure UriReader where
  /-- The normal form of a text; `none` if it is no URI. -/
  normal? : String → Option String
  /-- The names along the path of the file that a URI names, if it names one. -/
  filePath? : String → Option (List String)

namespace UriReader

variable (reader : UriReader)

/-- The text is the normal form of a URI. -/
def IsUri (name : String) : Prop :=
  reader.normal? name = some name

instance (name : String) : Decidable (reader.IsUri name) :=
  inferInstanceAs (Decidable (_ = _))

/-- Normal forms are read as they stand. -/
def Idempotent : Prop :=
  ∀ text name, reader.normal? text = some name → reader.IsUri name

/-- Reads a URI into its normal form. -/
def ofJson? (j : Json) : Option String :=
  j.string?.bind reader.normal?

end UriReader

end UseImports
