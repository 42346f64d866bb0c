import UseImports.Glob.Basic

/-!
# Reading path patterns

The text of a pattern is read from left to right. Braces hold alternatives with commas between them,
brackets a class of characters, and a backslash takes the next character as it is. What two stars
stand for depends on what is around them.

Main definitions:
* `GlobFrame`: the alternatives that are being read.
* `readDoubleStar`: what two stars stand for.
* `Glob.parse?`: reads a pattern.
-/

namespace UseImports

/-- Alternatives that are being read: the finished branches and the pieces of the open one, both
with the last one first. -/
structure GlobFrame where
  branches : List (List GlobPiece) := []
  pieces : List GlobPiece := []

namespace GlobFrame

/-- Adds a piece to the open branch. -/
def push (f : GlobFrame) (piece : GlobPiece) : GlobFrame :=
  { f with pieces := piece :: f.pieces }

/-- Ends the open branch and begins another. -/
def nextBranch (f : GlobFrame) : GlobFrame :=
  ⟨f.pieces.reverse :: f.branches, []⟩

/-- The piece that the alternatives make up. -/
def close (f : GlobFrame) : GlobPiece :=
  .alternatives f.nextBranch.branches.reverse

/-- Two stars that are no more than stars. -/
def pushStars (f : GlobFrame) : GlobFrame :=
  (f.push .anyBytes).push .anyBytes

/-- Puts a piece for directories in the place of the slash in front of it. Directories in front of
it that already reach as far stay as they are. -/
def replaceSlash (f : GlobFrame) (piece : GlobPiece) : GlobFrame :=
  match f.pieces with
  | .leadingDirectories :: _ => f
  | .everythingBelow :: _ => f
  | _ :: pieces => { f with pieces := piece :: pieces }
  | [] => f

end GlobFrame

/-- Where the reader stands. -/
inductive GlobMode where
  | plain
  /-- In a class: its ranges so far with the last one first, whether nothing has been read of it,
  and whether a range waits for its end. -/
  | inClass (negated : Bool) (ranges : List (Char × Char)) (isFirst isOpen : Bool)

/-- Two stars may stand for directories behind a slash, and at the start of a branch. -/
def mayBeDirectories (previous : Option Char) (isNested : Bool) : Bool :=
  previous == some '/' || (isNested && (previous == some ',' || previous == some '\x7b'))

/-- What two stars with no slash behind them stand for. -/
def readDoubleStar (previous : Option Char) (isNested : Bool) (f : GlobFrame) (next : Option Char) :
    GlobFrame :=
  if f.pieces.isEmpty then
    if next.isNone then f.push .leadingDirectories else f.pushStars
  else if mayBeDirectories previous isNested &&
      (next.isNone || (isNested && (next == some ',' || next == some '\x7d'))) then
    f.replaceSlash .everythingBelow
  else f.pushStars

/-- What two stars and a slash stand for. -/
def readDoubleStarSlash (previous : Option Char) (isNested : Bool) (f : GlobFrame) : GlobFrame :=
  if f.pieces.isEmpty then f.push .leadingDirectories
  else if mayBeDirectories previous isNested then f.replaceSlash .innerDirectories
  else f.pushStars.push (.literal '/')

/-- The ranges with the last one ended; a range may not go backwards. -/
def endRange? (c : Char) : List (Char × Char) → Option (List (Char × Char))
  | [] => none
  | r :: ranges => if c < r.1 then none else some ((r.1, c) :: ranges)

/-- Reads a pattern, given the character in front, the enclosing alternatives, those being read and
where the reader stands. -/
def readGlob (previous : Option Char) (outer : List GlobFrame) (f : GlobFrame) (mode : GlobMode) :
    List Char → Option (List GlobPiece)
  | [] =>
    match mode, outer with
    | .plain, [] => some f.pieces.reverse
    | _, _ => none
  | c :: cs =>
    match mode with
    | .inClass negated ranges isFirst isOpen =>
      if c == ']' && !isFirst then
        let ranges := if isOpen then ('-', '-') :: ranges else ranges
        readGlob (some c) outer (f.push (.byteClass negated ranges.reverse)) .plain cs
      else if isOpen then
        match endRange? c ranges with
        | some ranges => readGlob (some c) outer f (.inClass negated ranges false false) cs
        | none => none
      else if c == '-' && !isFirst then
        readGlob (some c) outer f (.inClass negated ranges false true) cs
      else readGlob (some c) outer f (.inClass negated ((c, c) :: ranges) false false) cs
    | .plain =>
      match c, cs with
      | '?', cs => readGlob (some '?') outer (f.push .anyByte) .plain cs
      | '*', '*' :: '/' :: cs =>
        readGlob (some '/') outer (readDoubleStarSlash previous (!outer.isEmpty) f) .plain cs
      | '*', '*' :: cs =>
        readGlob (some '*') outer (readDoubleStar previous (!outer.isEmpty) f cs.head?) .plain cs
      | '*', cs => readGlob (some '*') outer (f.push .anyBytes) .plain cs
      | '[', '!' :: cs => readGlob (some '!') outer f (.inClass true [] true false) cs
      | '[', '^' :: cs => readGlob (some '^') outer f (.inClass true [] true false) cs
      | '[', cs => readGlob (some '[') outer f (.inClass false [] true false) cs
      | '\x7b', cs => readGlob (some '\x7b') (f :: outer) {} .plain cs
      | '\x7d', cs =>
        match outer with
        | parent :: outer => readGlob (some '\x7d') outer (parent.push f.close) .plain cs
        | [] => none
      | ',', cs =>
        if outer.isEmpty then readGlob (some ',') outer (f.push (.literal ',')) .plain cs
        else readGlob (some ',') outer f.nextBranch .plain cs
      | '\\', d :: cs => readGlob (some d) outer (f.push (.literal d)) .plain cs
      | '\\', [] => none
      | c, cs => readGlob (some c) outer (f.push (.literal c)) .plain cs

namespace Glob

/-- Reads a pattern; a class, a range, a brace or an escape that is not complete refuses it. -/
def parse? (s : String) : Option Glob :=
  (readGlob none [] {} .plain s.toList).map Glob.mk

end Glob

/-- One of the patterns matches the path (`build_glob_set`). Patterns that cannot be read match
nothing. -/
def matchesAny (patterns : List String) (path : List UInt8) : Bool :=
  patterns.any fun p =>
    match Glob.parse? p with
    | some g => g.matchesPath path
    | none => false

end UseImports
