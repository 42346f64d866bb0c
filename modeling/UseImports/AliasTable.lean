import UseImports.Declaration.Basic

/-!
# Alias tables

The alias table of a document says what each local name stands for. Classes, functions and constants
have separate tables. A name that is imported more than once stands for its last import.

Main definitions:
* `AliasTable.build` (`build`): the table of a list of declarations.
* `AliasTable.get?` (`get`): what a local name of a kind stands for.
* `AliasTable.resolveClass?` (`resolve_class_reference`): the import through which a class reference
  goes.
-/

namespace UseImports

/-- What a local name stands for (`AliasBinding`). -/
structure Binding where
  localName : String
  fqn : String
  kind : ImportKind
  /-- The place of the import among the declarations of the document. -/
  index : Nat
deriving DecidableEq, Repr

/-- The bindings of a document; no two have one kind and one local name. -/
structure AliasTable where
  bindings : List Binding
deriving Repr

namespace AliasTable

/-- The bindings of the declarations, of which the first has the given place. -/
def bindingsFrom : Nat → List Declaration → List Binding
  | _, [] => []
  | i, d :: ds =>
    let later := bindingsFrom (i + 1) ds
    if later.any fun b => b.kind == d.kind && b.localName == d.localName then later
    else ⟨d.localName, d.fqn, d.kind, i⟩ :: later

/-- The table of a list of declarations (`build`). -/
def build (ds : List Declaration) : AliasTable :=
  ⟨bindingsFrom 0 ds⟩

/-- What the local name stands for (`get`). -/
def get? (t : AliasTable) (kind : ImportKind) (name : String) : Option Binding :=
  t.bindings.find? fun b => b.kind == kind && b.localName == name

/-- The local name is bound (`contains`). -/
def contains (t : AliasTable) (kind : ImportKind) (name : String) : Bool :=
  (t.get? kind name).isSome

/-- The import through which a class reference goes (`resolve_class_reference`): that of its first
segment. A name with a leading backslash goes through none. -/
def resolveClass? (t : AliasTable) (name : String) : Option Binding :=
  if name.toList.head? == some '\\' then none else t.get? .cls (firstSegment name)

/-- The bindings of one kind. -/
def ofKind (t : AliasTable) (kind : ImportKind) : List Binding :=
  t.bindings.filter (·.kind == kind)

/-- The local names of one kind. -/
def names (t : AliasTable) (kind : ImportKind) : List String :=
  (t.ofKind kind).map (·.localName)

/-- The number of bindings (`len`). -/
def size (t : AliasTable) : Nat :=
  t.bindings.length

/-- No name is bound (`is_empty`). -/
def isEmpty (t : AliasTable) : Bool :=
  t.bindings.isEmpty

end AliasTable

end UseImports
