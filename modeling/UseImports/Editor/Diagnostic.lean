import UseImports.Finding
import UseImports.Uri.Reader

/-!
# Diagnostics

An editor is told of findings by diagnostics, and gives diagnostics back, its own and those of
others, when it asks for actions. The name that a finding is about travels in the data of its
diagnostic.

Main definitions:
* `Diagnostic`, `Diagnostic.ofJson?`, `Diagnostic.toJson`: a diagnostic and its JSON form.
* `diagnostics` (`to_lsp`): the diagnostics of findings.
* `Diagnostic.kind?`, `Diagnostic.name?`: the finding behind a diagnostic.
-/

namespace UseImports

/-! ## Positions -/

namespace Position

/-- The JSON form of a position. -/
def toJson (p : Position) : Json :=
  .object [("line", .ofNat p.line), ("character", .ofNat p.character)]

/-- Reads a position. -/
def ofJson? (j : Json) : Option Position := do
  match ← j.record? ["line", "character"] 0 with
  | [some line, some character] => return ⟨← line.unsigned?, ← character.unsigned?⟩
  | _ => none

end Position

namespace Range

/-- The JSON form of a range. -/
def toJson (r : Range) : Json :=
  .object [("start", r.start.toJson), ("end", r.stop.toJson)]

/-- Reads a range. -/
def ofJson? (j : Json) : Option Range := do
  match ← j.record? ["start", "end"] 0 with
  | [some start, some stop] => return ⟨← Position.ofJson? start, ← Position.ofJson? stop⟩
  | _ => none

end Range

/-! ## Diagnostics -/

/-- The code of a diagnostic. -/
inductive DiagnosticCode where
  | number (value : Int)
  | text (value : String)
deriving DecidableEq, Repr

namespace DiagnosticCode

/-- The JSON form of a code. -/
def toJson : DiagnosticCode → Json
  | number n => .ofInt n
  | text s => .string s

/-- Reads a code. -/
def ofJson? : Json → Option DiagnosticCode
  | .string s => some (text s)
  | j => j.signed?.map number

end DiagnosticCode

/-- Another place that bears on a diagnostic. -/
structure RelatedPlace where
  uri : String
  range : Range
  message : String
deriving DecidableEq, Repr

namespace RelatedPlace

/-- The JSON form of a related place. -/
def toJson (p : RelatedPlace) : Json :=
  .object [("location", .object [("uri", .string p.uri), ("range", p.range.toJson)]),
    ("message", .string p.message)]

/-- Reads a related place. -/
def ofJson? (reader : UriReader) (j : Json) : Option RelatedPlace := do
  match ← j.record? ["location", "message"] 0 with
  | [some location, some message] =>
    match ← location.record? ["uri", "range"] 0 with
    | [some uri, some range] =>
      return ⟨← reader.ofJson? uri, ← Range.ofJson? range, ← message.string?⟩
    | _ => none
  | _ => none

end RelatedPlace

/-- A remark on a range of a document. -/
structure Diagnostic where
  range : Range
  severity : Option Int
  code : Option DiagnosticCode
  /-- Where the code is described. -/
  codeDescription : Option String
  source : Option String
  message : String
  relatedInformation : Option (List RelatedPlace)
  tags : Option (List Int)
  data : Option Json
deriving Repr

namespace Diagnostic

/-- The tag of code that could go. -/
def unnecessary : Int :=
  1

/-- The JSON form of a diagnostic, without the fields that have no value. -/
def toJson (d : Diagnostic) : Json :=
  .ofFields
    [("range", d.range.toJson), ("severity", d.severity.map .ofInt),
     ("code", d.code.map DiagnosticCode.toJson),
     ("codeDescription", d.codeDescription.map fun href => .object [("href", .string href)]),
     ("source", d.source.map .string), ("message", Json.string d.message),
     ("relatedInformation",
       d.relatedInformation.map fun places => .array (places.map RelatedPlace.toJson)),
     ("tags", d.tags.map fun tags => .array (tags.map .ofInt)), ("data", d.data)]

/-- Reads the description of a code. -/
def codeDescription? (reader : UriReader) (j : Json) : Option String := do
  match ← j.record? ["href"] 0 with
  | [some href] => reader.ofJson? href
  | _ => none

/-- Reads a diagnostic. -/
def ofJson? (reader : UriReader) (j : Json) : Option Diagnostic := do
  match ← j.record? ["range", "severity", "code", "codeDescription", "source", "message",
      "relatedInformation", "tags", "data"] 0 with
  | [some range, severity, code, description, source, some message, related, tags, data] =>
    return {
      range := ← Range.ofJson? range
      severity := ← Json.optional? Json.signed? severity
      code := ← Json.optional? DiagnosticCode.ofJson? code
      codeDescription := ← Json.optional? (codeDescription? reader) description
      source := ← Json.optional? Json.string? source
      message := ← message.string?
      relatedInformation := ←
        Json.optional? (fun j => do (← j.array?).mapM (RelatedPlace.ofJson? reader)) related
      tags := ← Json.optional? (fun j => do (← j.array?).mapM Json.signed?) tags
      data := ← Json.optional? some data }
  | _ => none

/-- The diagnostic of a finding in a text. -/
def ofFinding (cs : List Char) (f : Finding) : Diagnostic where
  range := UseImports.range cs f.span
  severity := some f.severity.code
  code := some (.text f.kind.code)
  codeDescription := none
  source := some Finding.source
  message := f.message
  relatedInformation := none
  tags := if f.kind = .unusedImport then some [unnecessary] else none
  data := some (.string f.name)

/-- The kind of the finding that the diagnostic reports, if it reports one (`finding_kind`). -/
def kind? (d : Diagnostic) : Option FindingKind :=
  if d.source = some Finding.source then
    match d.code with
    | some (.text code) => FindingKind.ofCode? code
    | _ => none
  else none

/-- The name that the diagnostic is about (`finding_name`). -/
def name? (d : Diagnostic) : Option String :=
  d.data.bind Json.string?

end Diagnostic

/-- The diagnostics of findings in a text (`to_lsp`). -/
def diagnostics (cs : List Char) (fs : List Finding) : List Diagnostic :=
  fs.map (Diagnostic.ofFinding cs)

end UseImports
