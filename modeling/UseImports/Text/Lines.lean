import UseImports.Text.Span

/-!
# Lines and positions

Lines end at line feeds, and a carriage return in front of the line feed belongs to the line's end.
A position is a line and a column, both counted from zero, the column in UTF-16 code units.

Main definitions:
* `lineCount`, `lineOf`, `lineStart`, `nextLineStart`, `lineText`, `lineEnd`: lines and their
  offsets.
* `position`, `range`: the position of an offset, the range of a span.
* `offsetAt` (`offset`): the offset of a position; columns behind the end of a line mean its end,
  and lines behind the last one mean the end of the text.
-/

namespace UseImports

/-! ## Lines -/

/-- The number of lines (`line_count`); a text that ends in a line feed has an empty last line. -/
def lineCount : List Char → Nat
  | [] => 1
  | c :: cs => (if c = '\n' then 1 else 0) + lineCount cs

/-- The line of an offset (`line_of`): the number of line feeds that lie wholly before it. -/
def lineOf : List Char → Nat → Nat
  | [], _ => 0
  | c :: cs, n =>
    if c.utf8Size ≤ n then (if c = '\n' then 1 else 0) + lineOf cs (n - c.utf8Size) else 0

/-- The offset at which a line starts (`line_start`); a line behind the last one starts at the end
of the text. -/
def lineStart : List Char → Nat → Nat
  | _, 0 => 0
  | [], _ + 1 => 0
  | c :: cs, l + 1 => c.utf8Size + lineStart cs (if c = '\n' then l else l + 1)

/-- The offset at which the next line starts (`next_line_start`). -/
def nextLineStart (cs : List Char) (line : Nat) : Nat :=
  lineStart cs (line + 1)

/-- The text from the start of a line on. -/
def fromLine : List Char → Nat → List Char
  | cs, 0 => cs
  | [], _ + 1 => []
  | c :: cs, l + 1 => fromLine cs (if c = '\n' then l else l + 1)

/-- A text up to its first line end, which is left out. -/
def firstLine (cs : List Char) : List Char :=
  let line := cs.takeWhile (· ≠ '\n')
  if line.length < cs.length && line.getLast? == some '\r' then line.dropLast else line

/-- The text of a line without its line end (`line_text`). -/
def lineText (cs : List Char) (line : Nat) : List Char :=
  firstLine (fromLine cs line)

/-- The offset at which the text of a line ends, in front of its line end (`line_end`). -/
def lineEnd (cs : List Char) (line : Nat) : Nat :=
  lineStart cs line + byteLength (lineText cs line)

/-! ## Positions -/

/-- A line and a column in UTF-16 code units, both counted from zero. -/
structure Position where
  line : Nat
  character : Nat
deriving DecidableEq, Repr, Inhabited

/-- Two positions; the second one is not part of the range. -/
structure Range where
  start : Position
  stop : Position
deriving DecidableEq, Repr, Inhabited

/-- The number of UTF-16 code units of a character. -/
def utf16Size (c : Char) : Nat :=
  if c.toNat < 0x10000 then 1 else 2

/-- The number of UTF-16 code units of a text. -/
def utf16Length : List Char → Nat
  | [] => 0
  | c :: cs => utf16Size c + utf16Length cs

/-- The position of an offset (`position`). Behind the end of the text it is that of the end; inside
a character it has column zero. -/
def position (cs : List Char) (offset : Nat) : Position :=
  let offset := min offset (byteLength cs)
  let line := lineOf cs offset
  ⟨line, utf16Length ((Span.mk (lineStart cs line) offset).slice cs)⟩

/-- The range of a span (`range`). -/
def range (cs : List Char) (s : Span) : Range :=
  ⟨position cs s.start, position cs s.stop⟩

/-- The bytes of the shortest initial part of a line that has at least the given number of UTF-16
code units, or of the whole line when it is too short. -/
def bytesToColumn : List Char → Nat → Nat
  | _, 0 => 0
  | [], _ + 1 => 0
  | c :: cs, n + 1 => c.utf8Size + bytesToColumn cs (n + 1 - utf16Size c)

/-- The offset of a position (`offset`). -/
def offsetAt (cs : List Char) (p : Position) : Nat :=
  if p.line < lineCount cs then
    lineStart cs p.line + bytesToColumn (lineText cs p.line) p.character
  else byteLength cs

end UseImports
