import UseImports.Data.Entries
import UseImports.Data.Json
import UseImports.Edit.NameOrder

/-!
# Settings

The settings come in layers, each a JSON object that has to mention only what it changes. A layer
counts as a whole: if one of its values cannot be read, none of them takes effect.

Main definitions:
* `Severity`, `Config`: the settings, with the defaults as default values.
* `settingsSection`: the part of a layer that holds settings.
* `Setting`: the six settings, each with its key, its values and how they are read and written.
* `Config.withLayer` (`with_overrides`): the settings under a layer, read key by key.
* `Json.overlay`, `Config.withOverlay`: the same by way of the settings written as an object, which
  the layer is laid over member by member (`merge`).
-/

namespace UseImports

/-- How serious a finding is. -/
inductive Severity where
  | error
  | warning
  | information
  | hint
deriving DecidableEq, Repr, Inhabited

namespace Severity

/-- The name of a severity in settings. -/
def name : Severity → String
  | error => "Error"
  | warning => "Warning"
  | information => "Information"
  | hint => "Hint"

/-- The word for a severity on the command line (`label`). -/
def label : Severity → String
  | error => "error"
  | warning => "warning"
  | information => "info"
  | hint => "hint"

/-- The number of a severity in an editor's messages (`to_lsp`). -/
def code : Severity → Nat
  | error => 1
  | warning => 2
  | information => 3
  | hint => 4

/-- Reads the name of a severity, which may also be written in lower case or as its label. -/
def ofName? : String → Option Severity
  | "Error" | "error" => some error
  | "Warning" | "warning" => some warning
  | "Information" | "information" | "info" => some information
  | "Hint" | "hint" => some hint
  | _ => none

end Severity

namespace SortMode

/-- The name of a sort mode in settings. -/
def name : SortMode → String
  | alphabetical => "alphabetical"
  | natural => "natural"

/-- Reads the name of a sort mode. -/
def ofName? : String → Option SortMode
  | "alphabetical" => some alphabetical
  | "natural" => some natural
  | _ => none

end SortMode

/-- The settings. -/
structure Config where
  /-- Documents are analysed when they change. -/
  enableAutoDetect : Bool := true
  /-- Findings are published. -/
  showDiagnostics : Bool := true
  /-- The outcome of a command is shown, and not only logged. -/
  showNotifications : Bool := true
  diagnosticSeverity : Severity := .information
  /-- The patterns of the paths that the search for a class leaves out. -/
  exclude : List String := ["**/node_modules/**", "**/.git/**"]
  sortMode : SortMode := .alphabetical
deriving DecidableEq, Repr, Inhabited

/-- Why a layer is refused. -/
inductive SettingsError where
  /-- The value of the setting cannot be read. -/
  | unreadable (key : String)
deriving DecidableEq, Repr

/-- The wording of an error. -/
def SettingsError.message : SettingsError → String
  | unreadable key => "invalid settings: the value of " ++ key ++ " cannot be read"

/-! ## Reading values -/

/-- Reads one of several names: a text, or an object whose only member has that name and the value
`null`. -/
def choice? {α : Type} (ofName? : String → Option α) : Json → Option α
  | .string s => ofName? s
  | .object [(s, .null)] => ofName? s
  | _ => none

/-! ## The settings one by one -/

/-- The settings of a `Config`. -/
inductive Setting where
  | enableAutoDetect
  | showDiagnostics
  | showNotifications
  | diagnosticSeverity
  | exclude
  | sortMode
deriving DecidableEq, Repr

namespace Setting

/-- The name of the setting in a layer. -/
def key : Setting → String
  | enableAutoDetect => "enableAutoDetect"
  | showDiagnostics => "showDiagnostics"
  | showNotifications => "showNotifications"
  | diagnosticSeverity => "diagnosticSeverity"
  | exclude => "exclude"
  | sortMode => "sortMode"

/-- What the setting may be set to. -/
abbrev Value : Setting → Type
  | enableAutoDetect | showDiagnostics | showNotifications => Bool
  | diagnosticSeverity => Severity
  | exclude => List String
  | sortMode => SortMode

/-- Reads a value of the setting. -/
def read : (k : Setting) → Json → Option k.Value
  | enableAutoDetect | showDiagnostics | showNotifications => Json.bool?
  | diagnosticSeverity => choice? Severity.ofName?
  | exclude => Json.strings?
  | sortMode => choice? SortMode.ofName?

/-- Writes a value of the setting. -/
def write : (k : Setting) → k.Value → Json
  | enableAutoDetect | showDiagnostics | showNotifications => Json.bool
  | diagnosticSeverity => fun v => .string v.name
  | exclude => Json.ofStrings
  | sortMode => fun v => .string v.name

end Setting

/-- The value of a setting. -/
def Config.get (c : Config) : (k : Setting) → k.Value
  | .enableAutoDetect => c.enableAutoDetect
  | .showDiagnostics => c.showDiagnostics
  | .showNotifications => c.showNotifications
  | .diagnosticSeverity => c.diagnosticSeverity
  | .exclude => c.exclude
  | .sortMode => c.sortMode

/-! ## Layers -/

/-- The part of a layer that holds settings: the member `php-use`, if there is one, and else the
layer itself. -/
def settingsSection (layer : Json) : Json :=
  (layer.get? "php-use").getD layer

namespace Config

/-- The value of a setting under a section, which is the current one unless the section mentions it.
-/
def under (c : Config) (section' : Json) (k : Setting) : Except SettingsError k.Value :=
  match section'.get? k.key with
  | none => .ok (c.get k)
  | some json =>
    match k.read json with
    | some value => .ok value
    | none => .error (.unreadable k.key)

/-- The settings under a section. -/
def withSection (c : Config) (s : Json) : Except SettingsError Config := do
  let enableAutoDetect ← c.under s .enableAutoDetect
  let showDiagnostics ← c.under s .showDiagnostics
  let showNotifications ← c.under s .showNotifications
  let diagnosticSeverity ← c.under s .diagnosticSeverity
  let exclude ← c.under s .exclude
  let sortMode ← c.under s .sortMode
  return { enableAutoDetect, showDiagnostics, showNotifications, diagnosticSeverity, exclude,
           sortMode }

/-- The settings under a layer (`with_overrides`). What is not an object mentions no setting. -/
def withLayer (c : Config) (layer : Json) : Except SettingsError Config :=
  c.withSection (settingsSection layer)

/-- The settings under a layer that is passed over if it is refused. -/
def withLayerIfValid (c : Config) (layer : Json) : Config :=
  match c.withLayer layer with
  | .ok c' => c'
  | .error _ => c

end Config

/-! ## Layers over the written settings -/

mutual

/-- Lays a value over another one (`merge`): the members of an object over those of an object, and
else the value itself. -/
def Json.overlay : (layer base : Json) → Json
  | .object members, .object base => .object (Json.overlayMembers members base)
  | layer, _ => layer

/-- Lays members over those of an object. -/
def Json.overlayMembers : (members base : List (String × Json)) → List (String × Json)
  | [], base => base
  | (name, value) :: members, base =>
    setEntry (Json.overlayMembers members base) name
      (match base.lookup name with
      | some old => Json.overlay value old
      | none => value)

end

namespace Config

/-- The settings written as the members of an object. -/
def members (c : Config) : List (String × Json) :=
  [Setting.enableAutoDetect, .showDiagnostics, .showNotifications, .diagnosticSeverity,
    .exclude, .sortMode].map
    fun k => (k.key, k.write (c.get k))

/-- The settings that are read from scratch after a layer has been laid over the written settings.
What is not an object changes nothing. -/
def withOverlay (c : Config) (layer : Json) : Except SettingsError Config :=
  match settingsSection layer with
  | .object members => withSection {} (.object (Json.overlayMembers members c.members))
  | _ => .ok c

end Config

end UseImports
