import UseImports.Text.Span
import UseImports.Text.WordChar

/-!
# Cursors

A cursor is a place in a text that knows what stands on both of its sides. Readers move a cursor
forward over what they recognise or fail; `findAll` runs a reader over a whole text.

Main definitions:
* `Cursor`: the place, with `offset`, `advance` and `skipWhile`.
* `literal?`, `keyword?`, `ident?`, `qualifiedName?`: readers of tokens.
* `listOf?`: a separated list, as long as possible.
* `findAll`: all matches of a reader, leftmost first and without overlap.

Names are read as far as they go, and no token that can follow one begins with a word character, so
a reader never has to give back a part of a name.
-/

namespace UseImports

/-- A place in a text: the characters in front of it, nearest first, and those behind it. -/
structure Cursor where
  before : List Char
  after : List Char
deriving DecidableEq, Repr

namespace Cursor

/-- The place in front of a whole text. -/
def atStart (cs : List Char) : Cursor :=
  ⟨[], cs⟩

/-- The byte offset of the place. -/
def offset (c : Cursor) : Nat :=
  byteLength c.before

/-- The whole text. -/
def text (c : Cursor) : List Char :=
  c.before.reverse ++ c.after

/-- The place `n` characters further on, or the end of the text. -/
def advance (n : Nat) (c : Cursor) : Cursor :=
  ⟨(c.after.take n).reverse ++ c.before, c.after.drop n⟩

@[simp] theorem text_advance (n : Nat) (c : Cursor) : (c.advance n).text = c.text := by
  simp [advance, text]

/-- The place behind the characters that satisfy `p`. -/
def skipWhile (p : Char → Bool) (c : Cursor) : Cursor :=
  ⟨(c.after.takeWhile p).reverse ++ c.before, c.after.dropWhile p⟩

@[simp] theorem text_skipWhile (p : Char → Bool) (c : Cursor) : (c.skipWhile p).text = c.text := by
  simp [skipWhile, text]

/-- The place behind any white space. -/
def skipBlanks (c : Cursor) : Cursor :=
  c.skipWhile isBlank

/-- The place behind at least one white space character. -/
def blanks? (c : Cursor) : Option Cursor :=
  if c.after.head?.any isBlank then some c.skipBlanks else none

/-- The characters between this place and a later one. -/
def upTo (c stop : Cursor) : List Char :=
  c.after.take (c.after.length - stop.after.length)

/-- The span between this place and a later one. -/
def spanTo (c stop : Cursor) : Span :=
  ⟨c.offset, stop.offset⟩

/-! ## Tokens -/

/-- No word character stands in front. -/
def atWordStart (c : Cursor) : Bool :=
  !c.before.head?.any isWordChar

/-- No word character follows. -/
def atWordEnd (c : Cursor) : Bool :=
  !c.after.head?.any isWordChar

/-- Moves over exactly these characters. -/
def literal? (s : String) (c : Cursor) : Option Cursor :=
  if s.toList.isPrefixOf c.after then some (c.advance s.toList.length) else none

/-- Moves over one character that satisfies `p`. -/
def char? (p : Char → Bool) (c : Cursor) : Option Cursor :=
  if c.after.head?.any p then some (c.advance 1) else none

/-- Moves over what the reader recognises, or stays. -/
def optional (reader : Cursor → Option Cursor) (c : Cursor) : Cursor :=
  (reader c).getD c

/-- The lower-case ASCII letter that equals the character under simple case folding, if there is
one: besides the two cases of a letter, the long s is an `s` and the Kelvin sign a `k`. -/
def foldLetter (c : Char) : Char :=
  if c = 'ſ' then 's' else if c = 'K' then 'k' else c.toLower

/-- Moves over the word, given in lower case, in any case. -/
def folded? (word : String) (c : Cursor) : Option Cursor :=
  let n := word.toList.length
  if (c.after.take n).map foldLetter = word.toList then some (c.advance n) else none

/-- Moves over the first of the words that follows, in any case. -/
def oneOf? (words : List String) (c : Cursor) : Option Cursor :=
  words.findSome? fun w => c.folded? w

/-- Moves over one of the words, in any case, where a word may begin. -/
def keyword? (words : List String) (c : Cursor) : Option Cursor :=
  if c.atWordStart then c.oneOf? words else none

/-- An identifier follows. -/
def beginsIdent (cs : List Char) : Bool :=
  cs.head?.any isIdentStart

/-- Moves over an identifier. -/
def ident? (c : Cursor) : Option Cursor :=
  if beginsIdent c.after then some (c.skipWhile isWordChar) else none

/-- The number of characters with which a qualified name goes on: word characters, and backslashes
in front of an identifier. -/
def nameRest : List Char → Nat
  | [] => 0
  | c :: cs =>
    if isWordChar c || (c == '\\' && beginsIdent cs) then nameRest cs + 1 else 0

/-- Moves over a qualified name: identifiers joined by backslashes, with or without a leading one.
-/
def qualifiedName? (c : Cursor) : Option Cursor :=
  let body := c.optional (literal? "\\")
  if beginsIdent body.after then some (body.advance (nameRest body.after)) else none

/-- Moves over further `item`s, each behind a `separator` with white space around it. A separator
that no item follows is left. The first argument bounds the number of items. -/
def moreItems (separator : Char → Bool) (item : Cursor → Option Cursor) : Nat → Cursor → Cursor
  | 0, c => c
  | n + 1, c =>
    match (c.skipBlanks.char? separator).bind fun s => item s.skipBlanks with
    | some next => moreItems separator item n next
    | none => c

/-- Moves over a list of at least one `item` with separators between them. -/
def listOf? (separator : Char → Bool) (item : Cursor → Option Cursor) (c : Cursor) :
    Option Cursor :=
  (item c).map fun first => moreItems separator item first.after.length first

/-! ## Searching -/

/-- The matches of `reader` in the text behind `before`, the first `skip` characters of which belong
to the match before. -/
def findFrom {α : Type} (reader : Cursor → Option (α × Cursor)) :
    (skip : Nat) → (before after : List Char) → List α
  | _, _, [] => []
  | n + 1, before, c :: after => findFrom reader n (c :: before) after
  | 0, before, c :: after =>
    match reader ⟨before, c :: after⟩ with
    | some (a, stop) =>
      a :: findFrom reader (after.length - stop.after.length) (c :: before) after
    | none => findFrom reader 0 (c :: before) after

/-- All matches of `reader` from the cursor on: it is tried at every place in turn, and the search
goes on behind a match. -/
def findAll {α : Type} (reader : Cursor → Option (α × Cursor)) (c : Cursor) : List α :=
  findFrom reader 0 c.before c.after

/-- The qualified names between two places. -/
def namesUpTo (c stop : Cursor) : List (Span × List Char) :=
  findAll (fun d => d.qualifiedName?.map fun e =>
    ((d.spanTo e, d.upTo e), e)) ⟨c.before, c.upTo stop⟩

end Cursor

end UseImports
