import UseImports.Text.Bytes

/-!
# File trees

A file tree holds the contents of files by their paths from the root. A directory exists when a
file is below it or when it is listed as one. Reading a file can fail, and so can writing it; a
write that fails leaves the file as it was or holding only the start of the new content.

Main definitions:
* `FileTree`: files and directories, and what goes wrong with them.
* `FileTree.locate`: the place that a written path leads to.
* `FileTree.read`, `FileTree.write`: the content of a file.
* `FileTree.visibleFiles`: the files below a directory on paths without hidden names.
-/

namespace UseImports

/-- The names along the way from the root to a file or directory. -/
abbrev TreePath := List String

/-- The content of a file. -/
abbrev Content := List UInt8

/-- Why a file cannot be read or written. -/
inductive FileError where
  | notFound
  | notADirectory
  | isADirectory
  | permissionDenied
  /-- Any other error of the system. -/
  | other (code : Nat) (text : String)
deriving DecidableEq, Repr

/-- The wording of an error. -/
def FileError.message : FileError → String
  | notFound => "No such file or directory (os error 2)"
  | notADirectory => "Not a directory (os error 20)"
  | isADirectory => "Is a directory (os error 21)"
  | permissionDenied => "Permission denied (os error 13)"
  | other code text => text ++ " (os error " ++ toString code ++ ")"

/-- How writing a file fails. -/
structure WriteFault where
  cause : FileError
  /-- The number of bytes that get through before the failure; `none` if the file is not even
  opened, so that it keeps its content. -/
  passed : Option Nat := none
deriving DecidableEq, Repr

/-- What is in the file after the failed attempt to write a content over another. -/
def WriteFault.leaves (f : WriteFault) (old new : Content) : Content :=
  match f.passed with
  | some n => new.take n
  | none => old

/-- Files with their contents, and directories that may be empty. -/
structure FileTree where
  files : List (TreePath × Content) := []
  directories : List TreePath := []
  /-- The files that cannot be read. -/
  unreadable : List (TreePath × FileError) := []
  /-- The files that cannot be written. -/
  faults : List (TreePath × WriteFault) := []
deriving Inhabited, Repr

namespace FileTree

/-- The content of the file at a place. -/
def get? (t : FileTree) (p : TreePath) : Option Content :=
  t.files.lookup p

/-- There is a directory at the place. -/
def hasDirectory (t : FileTree) (p : TreePath) : Bool :=
  p.isEmpty || t.directories.any p.isPrefixOf ||
    t.files.any fun (q, _) => p.isPrefixOf q && p.length < q.length

/-- Follows names from a place. The empty name and a point stay, two points go to the directory
above; each name needs a directory to be looked up in. -/
def follow (t : FileTree) (p : TreePath) : List String → Except FileError TreePath
  | [] => .ok p
  | name :: names =>
    if t.hasDirectory p then
      if name = "" || name = "." then t.follow p names
      else if name = ".." then t.follow p.dropLast names
      else t.follow (p ++ [name]) names
    else if (t.get? p).isSome then .error .notADirectory
    else .error .notFound

/-- The place that a written path leads to: from the root if it starts with a slash, and else from
the working directory. -/
def locate (t : FileTree) (cwd : TreePath) (path : String) : Except FileError TreePath :=
  let names := (splitOnChar (· == '/') path.toList).map String.ofList
  if path.isEmpty then .error .notFound
  else if path.toList.head? == some '/' then t.follow [] names
  else t.follow cwd names

/-- Reads the file at a place. -/
def read (t : FileTree) (p : TreePath) : Except FileError Content :=
  match t.get? p, t.unreadable.lookup p with
  | some content, none => .ok content
  | some _, some e => .error e
  | none, _ => if t.hasDirectory p then .error .isADirectory else .error .notFound

/-- What is in the file at a place after a content was written over another, or should have been. -/
def leaves (t : FileTree) (p : TreePath) (old new : Content) : Content :=
  match t.faults.lookup p with
  | some f => f.leaves old new
  | none => new

/-- Writes the file at a place: the tree afterwards, and why the attempt failed if it did. -/
def write (t : FileTree) (p : TreePath) (content : Content) : FileTree × Option FileError :=
  ({ t with files := t.files.map fun (q, old) =>
    (q, if q = p then t.leaves p old content else old) }, (t.faults.lookup p).map WriteFault.cause)

@[simp] theorem map_fst_write (t : FileTree) (p : TreePath) (content : Content) :
    (t.write p content).1.files.map Prod.fst = t.files.map Prod.fst := by
  simp [write, Function.comp_def]

/-- A name that starts with a point is hidden. -/
def isHidden (name : String) : Bool :=
  name.toList.head? == some '.'

/-- The files below a directory, by their paths from there, without those on a path with a hidden
name. -/
def visibleFiles (t : FileTree) (root : TreePath) : List (TreePath × Content) :=
  t.files.filterMap fun (q, content) =>
    if root.isPrefixOf q then
      let below := q.drop root.length
      if below.isEmpty || below.any isHidden then none else some (below, content)
    else none

end FileTree

end UseImports
