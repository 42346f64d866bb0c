import UseImports.Document
import UseImports.Edit.NameOrder
import UseImports.FileTree
import UseImports.Glob.Reader

/-!
# Finding classes in a workspace

A class is searched by its short name: first in the files that bear its name, and if none of them
declares it, in all PHP files. One declaring file settles the matter, several leave a choice.

Main definitions:
* `Candidate`, `candidate?`: a file that declares a class.
* `FileSource`: how files are found and read.
* `resolveClass` (`resolve_class`): the search.
* `choose` (`choose`): settles a choice.
* `FileTree.source`: the files of a directory as a source.
-/

namespace UseImports

/-- A file that declares a class (`WorkspaceClassCandidate`). -/
structure Candidate where
  path : TreePath
  /-- The namespace of the file. -/
  parent : Option String
  fqn : String
deriving DecidableEq, Repr

namespace Candidate

/-- The order of paths, name by name. -/
def comparePaths (p q : TreePath) : Ordering :=
  List.compareLex (fun a b => compareBytes (nameBytes a) (nameBytes b)) p q

/-- The order of namespaces, of which none comes first. -/
def compareParents : Option String → Option String → Ordering
  | none, none => .eq
  | none, some _ => .lt
  | some _, none => .gt
  | some a, some b => compareBytes (nameBytes a) (nameBytes b)

/-- The order of candidates: by path, and then by namespace and name. -/
def compare (c d : Candidate) : Ordering :=
  (comparePaths c.path d.path).then ((compareParents c.parent d.parent).then
    (compareBytes (nameBytes c.fqn) (nameBytes d.fqn)))

/-- The first candidate does not come behind the second. -/
def le (c d : Candidate) : Bool :=
  compare c d != .gt

end Candidate

/-- The candidate that a document makes for a class, if it declares it. -/
def Document.candidate? (doc : Document) (path : TreePath) (className : String) :
    Option Candidate :=
  if doc.declaredClasses.contains className then
    let parent := doc.ownNamespace?.map (·.name)
    let fqn := match parent with
      | some n => n ++ "\\" ++ className
      | none => className
    some ⟨path, parent, fqn⟩
  else none

/-- The candidate that a text makes for a class (`candidate_from_text`). -/
def candidate? (path : TreePath) (text className : String) : Except MaskError (Option Candidate) :=
  (Document.ofString text).map fun doc => doc.candidate? path className

/-- How files are found and read. -/
structure FileSource where
  /-- The files whose path matches the pattern and none of the excluded ones, in any order. -/
  find : (pattern : String) → (exclude : List String) → List TreePath
  /-- The content of a file, if it can be read. -/
  read : TreePath → Option Content

/-- What the search for a class comes to. -/
inductive Resolution where
  | found (candidate : Candidate)
  | notFound
  /-- Several files declare the class; they are listed by path. -/
  | needsChoice (candidates : List Candidate)
  /-- Nobody chose. -/
  | cancelled
deriving DecidableEq, Repr

/-- The candidates among the files (`scan_files`); files that cannot be read make none. -/
def scanFiles (src : FileSource) (className : String) (files : List TreePath) :
    Except MaskError (List Candidate) := do
  let found ← files.mapM fun p =>
    match src.read p with
    | some content => candidate? p (String.ofList (decodeLossy content)) className
    | none => pure none
  return found.filterMap id

/-- Neighbours of the same path count once. -/
def dedupByPath : List Candidate → List Candidate
  | [] => []
  | [c] => [c]
  | c :: d :: cs =>
    match dedupByPath (d :: cs) with
    | [] => [c]
    | e :: es => if c.path = e.path then c :: es else c :: e :: es

/-- What candidates amount to. -/
def settle (candidates : List Candidate) : Resolution :=
  match dedupByPath (candidates.mergeSort Candidate.le) with
  | [] => .notFound
  | [c] => .found c
  | cs => .needsChoice cs

/-- The pattern of the files that bear the name of a class. -/
def namedFilePattern (className : String) : String :=
  "**/" ++ className ++ ".php"

/-- The pattern of all PHP files. -/
def allFilesPattern : String :=
  "**/*.php"

/-- Searches a class by its short name (`resolve_class`). -/
def resolveClass (src : FileSource) (className : String) (exclude : List String) :
    Except MaskError Resolution := do
  let named ← scanFiles src className (src.find (namedFilePattern className) exclude)
  if named.isEmpty then
    return settle (← scanFiles src className (src.find allFilesPattern exclude))
  else return settle named

/-- Settles a choice by the full name of a candidate (`choose`); any other answer cancels it. -/
def choose (candidates : List Candidate) (selection : Option String) : Resolution :=
  match selection with
  | none => .cancelled
  | some fqn =>
    match candidates.find? fun c => c.fqn == fqn with
    | some c => .found c
    | none => .cancelled

namespace FileTree

/-- The bytes of a path with slashes between its names. -/
def pathBytes (p : TreePath) : List UInt8 :=
  nameBytes (String.intercalate "/" p)

/-- The visible files below a directory whose path from there matches the pattern and none of the
excluded ones (`find_files`). -/
def findFiles (t : FileTree) (root : TreePath) (pattern : String) (exclude : List String) :
    List TreePath :=
  ((t.visibleFiles root).map Prod.fst).filter fun p =>
    matchesAny [pattern] (pathBytes p) && !matchesAny exclude (pathBytes p)

/-- The files below a directory as a source; paths start at the directory. -/
def source (t : FileTree) (root : TreePath) : FileSource where
  find := t.findFiles root
  read p := (t.read (root ++ p)).toOption

end FileTree

end UseImports
