import UseImports.Text.Basic
import UseImports.Text.Hex

/-!
# The texts of TOML

The readers of strings, keys, comments and line ends. A reader gives what it read and the rest, or
nothing where the text is not well formed.

Main definitions:
* `skipBlanks`, `skipTrivia?`, `endOfLine?`: what may stand between the parts.
* `basicString?`, `literalString?` and their forms over several lines.
* `keyPath?`: a dotted key.
-/

namespace UseImports.Toml

/-! ## Between the parts -/

/-- A character that may stand in comments and strings: no control character but the tab. -/
def isPlain (c : Char) : Bool :=
  c == '\t' || (0x20 ≤ c.toNat && c.toNat != 0x7f)

/-- The text behind spaces and tabs. -/
def skipBlanks (cs : List Char) : List Char :=
  cs.dropWhile isIndent

/-- The text behind blanks, line ends and comments. -/
def skipTriviaFrom? : (inComment : Bool) → List Char → Option (List Char)
  | _, [] => some []
  | _, '\n' :: cs => skipTriviaFrom? false cs
  | _, '\r' :: '\n' :: cs => skipTriviaFrom? false cs
  | true, c :: cs => if isPlain c then skipTriviaFrom? true cs else none
  | false, c :: cs =>
    if isIndent c then skipTriviaFrom? false cs
    else if c == '#' then skipTriviaFrom? true cs
    else some (c :: cs)

/-- The text behind blanks, line ends and comments. -/
def skipTrivia? (cs : List Char) : Option (List Char) :=
  skipTriviaFrom? false cs

/-- The text behind the end of the line, in front of which blanks and a comment may stand. -/
def endOfLine? (cs : List Char) : Option (List Char) :=
  let rest := skipBlanks cs
  let afterComment := if rest.head? == some '#' then rest.dropWhile isPlain else rest
  match afterComment with
  | [] => some []
  | '\n' :: cs => some cs
  | '\r' :: '\n' :: cs => some cs
  | _ => none

/-! ## Strings -/

/-- The character with the code that the digits give. -/
def scalar? (digits : List Char) : Option Char := do
  let n ← digits.foldlM (fun n c => (hexValue? c).map (16 * n + ·)) 0
  if n.isValidChar then some (Char.ofNat n) else none

/-- The character that a letter behind a backslash stands for. -/
def shortEscape? : Char → Option Char
  | 'b' => some '\x08'
  | 'e' => some '\x1b'
  | 'f' => some '\x0c'
  | 'n' => some '\n'
  | 'r' => some '\r'
  | 't' => some '\t'
  | '\x22' => some '\x22'
  | '\\' => some '\\'
  | _ => none

/-- Puts a character in front of what was read. -/
def consRead (c : Char) (r : List Char × List Char) : List Char × List Char :=
  (c :: r.1, r.2)

/-- Reads a string behind its double quote. -/
def basicString? : List Char → Option (List Char × List Char)
  | [] => none
  | '\x22' :: cs => some ([], cs)
  | '\\' :: 'x' :: a :: b :: cs => do
    let c ← scalar? [a, b]
    return consRead c (← basicString? cs)
  | '\\' :: 'u' :: a :: b :: c :: d :: cs => do
    let x ← scalar? [a, b, c, d]
    return consRead x (← basicString? cs)
  | '\\' :: 'U' :: a :: b :: c :: d :: e :: f :: g :: h :: cs => do
    let x ← scalar? [a, b, c, d, e, f, g, h]
    return consRead x (← basicString? cs)
  | '\\' :: c :: cs => do
    let x ← shortEscape? c
    return consRead x (← basicString? cs)
  | c :: cs => if isPlain c && c != '\\' then (basicString? cs).map (consRead c) else none

/-- Reads a string behind its single quote. -/
def literalString? : List Char → Option (List Char × List Char)
  | [] => none
  | '\x27' :: cs => some ([], cs)
  | c :: cs => if isPlain c then (literalString? cs).map (consRead c) else none

/-- Whether a string is in the middle of white space that a backslash at the end of a line leaves
out. -/
inductive Folding where
  | none
  /-- Behind the backslash, before the line end. -/
  | beforeLineEnd
  /-- Behind the line end. -/
  | behindLineEnd
deriving DecidableEq, Repr

/-- Reads a string of several lines behind its three double quotes. Up to two quotes may stand in
front of the three that end it. -/
def basicLines? (folding : Folding) : List Char → Option (List Char × List Char)
  | [] => none
  | '\n' :: cs =>
    if folding = .none then (basicLines? .none cs).map (consRead '\n')
    else basicLines? .behindLineEnd cs
  | '\r' :: '\n' :: cs =>
    if folding = .none then (basicLines? .none cs).map fun r => consRead '\r' (consRead '\n' r)
    else basicLines? .behindLineEnd cs
  | c :: cs =>
    if folding ≠ .none && isIndent c then basicLines? folding cs
    else if folding = .beforeLineEnd then none
    else
      match c, cs with
      | '\x22', '\x22' :: '\x22' :: '\x22' :: '\x22' :: cs => some (['\x22', '\x22'], cs)
      | '\x22', '\x22' :: '\x22' :: '\x22' :: cs => some (['\x22'], cs)
      | '\x22', '\x22' :: '\x22' :: cs => some ([], cs)
      | '\\', 'x' :: a :: b :: cs => do
        let x ← scalar? [a, b]
        return consRead x (← basicLines? .none cs)
      | '\\', 'u' :: a :: b :: c :: d :: cs => do
        let x ← scalar? [a, b, c, d]
        return consRead x (← basicLines? .none cs)
      | '\\', 'U' :: a :: b :: c :: d :: e :: f :: g :: h :: cs => do
        let x ← scalar? [a, b, c, d, e, f, g, h]
        return consRead x (← basicLines? .none cs)
      | '\\', '\n' :: cs => basicLines? .behindLineEnd cs
      | '\\', '\r' :: '\n' :: cs => basicLines? .behindLineEnd cs
      | '\\', e :: cs =>
        if isIndent e then basicLines? .beforeLineEnd cs
        else do
          let x ← shortEscape? e
          return consRead x (← basicLines? .none cs)
      | c, cs => if isPlain c && c != '\\' then (basicLines? .none cs).map (consRead c) else none

/-- Reads a string of several lines behind its three single quotes. -/
def literalLines? : List Char → Option (List Char × List Char)
  | [] => none
  | '\x27' :: '\x27' :: '\x27' :: '\x27' :: '\x27' :: cs => some (['\x27', '\x27'], cs)
  | '\x27' :: '\x27' :: '\x27' :: '\x27' :: cs => some (['\x27'], cs)
  | '\x27' :: '\x27' :: '\x27' :: cs => some ([], cs)
  | '\n' :: cs => (literalLines? cs).map (consRead '\n')
  | '\r' :: '\n' :: cs => (literalLines? cs).map fun r => consRead '\r' (consRead '\n' r)
  | c :: cs => if isPlain c then (literalLines? cs).map (consRead c) else none

/-- The text of a string of several lines without the line end directly behind its quotes. -/
def dropFirstLineEnd : List Char → List Char
  | '\n' :: cs => cs
  | '\r' :: '\n' :: cs => cs
  | cs => cs

/-! ## Keys -/

/-- A character of a key without quotes. -/
def isBareKeyChar (c : Char) : Bool :=
  c.isAlphanum || c == '_' || c == '-'

/-- Reads a part of a key. -/
def simpleKey? (cs : List Char) : Option (String × List Char) :=
  match cs with
  | '\x22' :: rest => (basicString? rest).map fun (key, rest) => (String.ofList key, rest)
  | '\x27' :: rest => (literalString? rest).map fun (key, rest) => (String.ofList key, rest)
  | _ =>
    let key := cs.takeWhile isBareKeyChar
    if key.isEmpty then none else some (String.ofList key, cs.dropWhile isBareKeyChar)

/-- Reads a dotted key of at most `fuel` parts. -/
def keyPathFrom? : (fuel : Nat) → List Char → Option (List String × List Char)
  | 0, _ => none
  | fuel + 1, cs => do
    let (key, rest) ← simpleKey? (skipBlanks cs)
    match skipBlanks rest with
    | '.' :: rest =>
      let (keys, rest) ← keyPathFrom? fuel rest
      return (key :: keys, rest)
    | rest => return ([key], rest)

/-- Reads a dotted key, with the blanks around its parts: the tables on the way and the last part.
-/
def keyPath? (cs : List Char) : Option (List String × String × List Char) := do
  let (keys, rest) ← keyPathFrom? (cs.length + 1) cs
  return (keys.dropLast, ← keys.getLast?, rest)

end UseImports.Toml
