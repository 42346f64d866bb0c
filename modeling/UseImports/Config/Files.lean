import UseImports.Config
import UseImports.Data.Toml
import UseImports.FileTree

/-!
# Settings in files

Settings are read from the user's file and then from the file of the workspace, each a layer over
what was there. A file that is missing or broken is passed over.

Main definitions:
* `Config.withContent`: the settings under a file.
* `loadConfig` (`load`): the settings under both files.
-/

namespace UseImports

/-- The name of the file with the settings of a workspace. -/
def settingsFileName : String :=
  ".php-use.toml"

/-- The layer that a file holds, if it holds one (`read_toml_layer`). -/
def settingsLayer? (content : Content) : Option Json :=
  (decodeUtf8? content).bind parseToml?

/-- The settings under a file, if there is one and it can be read. -/
def Config.withContent (c : Config) (content : Option Content) : Config :=
  match content.bind settingsLayer? with
  | some layer => c.withLayerIfValid layer
  | none => c

/-- The settings under the user's file and the file of the workspace (`load`). -/
def loadConfig (t : FileTree) (user : Option Content) (root : Option TreePath) : Config :=
  let workspace := root.bind fun p => (t.read (p ++ [settingsFileName])).toOption
  (Config.withContent {} user).withContent workspace

end UseImports
