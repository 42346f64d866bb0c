import UseImports.Text.Upper

/-!
# Names

A name is a sequence of segments joined by backslashes, possibly with a leading backslash.

Main definitions:
* `shortName` (`short_name`): the last segment.
* `parentNamespace?` (`parent_namespace`): everything in front of it.
* `firstSegment`: the segment through which a name is looked up.
* `stripLeading`: the name without leading backslashes.
-/

namespace UseImports

/-- The name without its leading backslashes. -/
def stripLeading (name : String) : String :=
  String.ofList (name.toList.dropWhile (· == '\\'))

/-- The part of a name behind its last backslash (`short_name`). -/
def shortName (name : String) : String :=
  String.ofList (name.toList.reverse.takeWhile (· != '\\')).reverse

/-- The part of a name in front of its last backslash, leading backslashes apart
(`parent_namespace`). -/
def parentNamespace? (name : String) : Option String :=
  let cs := name.toList.dropWhile (· == '\\')
  if cs.contains '\\' then
    some (String.ofList ((cs.reverse.dropWhile (· != '\\')).drop 1).reverse)
  else none

/-- The part of a name in front of its first backslash. -/
def firstSegment (name : String) : String :=
  String.ofList (name.toList.takeWhile (· != '\\'))

/-- The name has a single segment and no leading backslash. -/
def isBare (name : String) : Bool :=
  !name.toList.contains '\\'

/-- The name with its first character in upper case (`capitalize`). -/
def capitalized (name : String) : String :=
  String.ofList (capitalize name.toList)

end UseImports
