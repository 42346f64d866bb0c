import UseImports.Text.Basic

/-!
# Path patterns

A pattern is a sequence of pieces, each of which matches some run of the bytes of a path. A single
wildcard stands for one byte and a star for any number of them, slashes included; two stars between
slashes stand for any number of directories.

Main definitions:
* `GlobPiece`: the pieces.
* `GlobPiece.rests`: what may be left of a path behind a piece.
* `Glob.matchesPath`: a pattern matches a whole path.
-/

namespace UseImports

/-- A piece of a pattern. -/
inductive GlobPiece where
  | literal (c : Char)
  /-- Any one byte. -/
  | anyByte
  /-- Any number of bytes. -/
  | anyBytes
  /-- Any number of directories, at the start. -/
  | leadingDirectories
  /-- A slash, and any number of directories with the slashes behind them. -/
  | innerDirectories
  /-- A slash and everything below. -/
  | everythingBelow
  /-- A byte of the ranges, or one outside of them. -/
  | byteClass (negated : Bool) (ranges : List (Char × Char))
  /-- One of several patterns. -/
  | alternatives (branches : List (List GlobPiece))
deriving Inhabited, Repr

/-- A pattern. -/
structure Glob where
  pieces : List GlobPiece
deriving Inhabited, Repr

/-! ## Bytes -/

/-- The slash that divides the names of a path. -/
def slashByte : UInt8 :=
  0x2f

/-- What is left of the bytes behind a run that they start with. -/
def stripRun : (run bytes : List UInt8) → List (List UInt8)
  | [], bytes => [bytes]
  | _ :: _, [] => []
  | a :: run, b :: bytes => if a = b then stripRun run bytes else []

/-- All that may be left of the bytes behind any number of them. -/
def allRests : List UInt8 → List (List UInt8)
  | [] => [[]]
  | b :: bytes => (b :: bytes) :: allRests bytes

/-- What is left of the bytes behind each slash. -/
def restsBehindSlashes : List UInt8 → List (List UInt8)
  | [] => []
  | b :: bytes =>
    if b = slashByte then bytes :: restsBehindSlashes bytes else restsBehindSlashes bytes

/-- The bytes that a range of a class holds. A character of several bytes counts as its bytes, so
that a range goes from the last byte of its first character to the first byte of its last. -/
def inByteRange (r : Char × Char) (b : UInt8) : Bool :=
  let low := utf8Bytes [r.1]
  let high := utf8Bytes [r.2]
  low.contains b || (r.1 != r.2 && (high.contains b ||
    match low.getLast?, high.head? with
    | some first, some last => first ≤ b && b ≤ last
    | _, _ => false))

/-! ## Matching -/

mutual

/-- The pattern has no pieces but alternatives that have none. -/
def isVoid : List GlobPiece → Bool
  | [] => true
  | .alternatives branches :: pieces => areVoid branches && isVoid pieces
  | _ :: _ => false

/-- Every branch is void. -/
def areVoid : List (List GlobPiece) → Bool
  | [] => true
  | branch :: branches => isVoid branch && areVoid branches

end

mutual

/-- What may be left of the bytes behind a piece. Void branches do not count, and without any other
the piece takes up no byte. -/
def GlobPiece.rests : GlobPiece → List UInt8 → List (List UInt8)
  | .literal c, bytes => stripRun (utf8Bytes [c]) bytes
  | .anyByte, bytes => (bytes.tail?).toList
  | .anyBytes, bytes => allRests bytes
  | .leadingDirectories, bytes => bytes :: restsBehindSlashes bytes
  | .innerDirectories, bytes =>
    match bytes with
    | b :: rest => if b = slashByte then rest :: restsBehindSlashes rest else []
    | [] => []
  | .everythingBelow, bytes =>
    match bytes with
    | b :: rest => if b = slashByte then allRests rest else []
    | [] => []
  | .byteClass negated ranges, bytes =>
    match bytes with
    | b :: rest => if ranges.any (inByteRange · b) != negated then [rest] else []
    | [] => []
  | .alternatives branches, bytes =>
    if areVoid branches then [bytes] else restsOfBranches branches bytes

/-- What may be left behind a pattern of something that may be left in front of it. -/
def restsOfPieces : List GlobPiece → List (List UInt8) → List (List UInt8)
  | [], starts => starts
  | piece :: pieces, starts => restsOfPieces pieces (starts.flatMap piece.rests).eraseDups

/-- What may be left of the bytes behind one of the branches. -/
def restsOfBranches : List (List GlobPiece) → List UInt8 → List (List UInt8)
  | [], _ => []
  | branch :: branches, bytes =>
    (if isVoid branch then [] else restsOfPieces branch [bytes]) ++ restsOfBranches branches bytes

end

namespace Glob

/-- The pattern is two stars and nothing else. -/
def isEverything (g : Glob) : Bool :=
  match g.pieces with
  | [.leadingDirectories] => true
  | _ => false

/-- The pattern matches the whole path. -/
def matchesPath (g : Glob) (path : List UInt8) : Bool :=
  g.isEverything || (restsOfPieces g.pieces [path]).contains []

end Glob

end UseImports
