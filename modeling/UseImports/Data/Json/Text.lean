import UseImports.Data.Json
import UseImports.Text.Hex

/-!
# The text of JSON values

JSON values are sent to and read from an editor as text. Written texts have no blanks; read texts
may have them between the parts.

Main definitions:
* `Json.render`: writes a value.
* `Json.parse?`: reads a value.
-/

namespace UseImports.Json

/-! ## Writing -/

/-- A character of a string; quotes, backslashes and control characters are escaped. -/
def renderChar (c : Char) : List Char :=
  if c == '\x22' || c == '\\' then ['\\', c]
  else if c.toNat < 0x20 then
    ['\\', 'u', '0', '0', hexDigit (c.toNat / 16), hexDigit (c.toNat % 16)]
  else [c]

/-- A string in its quotes. -/
def renderString (s : String) : List Char :=
  '\x22' :: s.toList.flatMap renderChar ++ ['\x22']

/-- A number with its decimal point. -/
def renderNumber (mantissa : Int) (exponent : Nat) : List Char :=
  if exponent = 0 then (toString mantissa).toList
  else
    let digits := Nat.toDigits 10 mantissa.natAbs
    let padded := List.replicate (exponent + 1 - digits.length) '0' ++ digits
    (if mantissa < 0 then ['-'] else []) ++ padded.take (padded.length - exponent) ++
      '.' :: padded.drop (padded.length - exponent)

/-- Pieces with commas between them. -/
def withCommas : List (List Char) → List Char
  | [] => []
  | [piece] => piece
  | piece :: pieces => piece ++ ',' :: withCommas pieces

mutual

/-- The characters of a value. -/
def renderChars : Json → List Char
  | null => "null".toList
  | bool true => "true".toList
  | bool false => "false".toList
  | number m e => renderNumber m e
  | string s => renderString s
  | array items => '[' :: withCommas (renderItems items) ++ [']']
  | object members => '\x7b' :: withCommas (renderMembers members) ++ ['\x7d']

/-- The items of an array. -/
def renderItems : List Json → List (List Char)
  | [] => []
  | item :: items => renderChars item :: renderItems items

/-- The members of an object. -/
def renderMembers : List (String × Json) → List (List Char)
  | [] => []
  | (name, value) :: members =>
    (renderString name ++ ':' :: renderChars value) :: renderMembers members

end

/-- The text of a value. -/
def render (j : Json) : String :=
  String.ofList (renderChars j)

/-! ## Reading -/

/-- White space between the parts of a text. -/
def isGap (c : Char) : Bool :=
  c == ' ' || c == '\t' || c == '\n' || c == '\r'

/-- The number that four digits give. -/
def unit? (a b c d : Char) : Option Nat :=
  [a, b, c, d].foldlM (fun n x => (hexValue? x).map (16 * n + ·)) 0

/-- The character of a code; a half of a pair that stands alone is replaced. -/
def charOfUnit (n : Nat) : Char :=
  if n.isValidChar then Char.ofNat n else Char.ofNat 0xfffd

/-- The character that a letter behind a backslash stands for. -/
def shortEscape? : Char → Option Char
  | '\x22' => some '\x22'
  | '\\' => some '\\'
  | '/' => some '/'
  | 'b' => some '\x08'
  | 'f' => some '\x0c'
  | 'n' => some '\n'
  | 'r' => some '\r'
  | 't' => some '\t'
  | _ => none

/-- Reads a string behind its quote. The first half of a pair of codes, if one was just read, is
given. -/
def readString? (half : Option Nat) : List Char → Option (List Char × List Char)
  | '\\' :: 'u' :: a :: b :: c :: d :: cs => do
    let n ← unit? a b c d
    match half with
    | some high =>
      if 0xdc00 ≤ n && n < 0xe000 then
        let code := 0x10000 + (high - 0xd800) * 0x400 + (n - 0xdc00)
        let (s, rest) ← readString? none cs
        return (Char.ofNat code :: s, rest)
      else
        let (s, rest) ← readString? none cs
        return (charOfUnit high :: charOfUnit n :: s, rest)
    | none =>
      if 0xd800 ≤ n && n < 0xdc00 then readString? (some n) cs
      else
        let (s, rest) ← readString? none cs
        return (charOfUnit n :: s, rest)
  | cs =>
    let before := (half.map charOfUnit).toList
    match cs with
    | [] => none
    | '\x22' :: cs => some (before, cs)
    | '\\' :: e :: cs => do
      let c ← shortEscape? e
      let (s, rest) ← readString? none cs
      return (before ++ c :: s, rest)
    | c :: cs =>
      if c.toNat < 0x20 || c == '\\' then none
      else do
        let (s, rest) ← readString? none cs
        return (before ++ c :: s, rest)

/-- The value of decimal digits. -/
def decimal (ds : List Char) : Nat :=
  ds.foldl (fun n d => 10 * n + (d.toNat - 0x30)) 0

/-- Reads an exponent, which is zero if there is none. -/
def readExponent? : List Char → Option (Int × List Char)
  | c :: cs =>
    if c == 'e' || c == 'E' then
      let (isNegative, cs) := match cs with
        | '-' :: cs => (true, cs)
        | '+' :: cs => (false, cs)
        | cs => (false, cs)
      let ds := cs.takeWhile Char.isDigit
      if ds.isEmpty || 4 < ds.length then none
      else
        let n : Int := decimal ds
        some (if isNegative then -n else n, cs.dropWhile Char.isDigit)
    else some (0, c :: cs)
  | [] => some (0, [])

/-- Reads a number. -/
def readNumber? (cs : List Char) : Option (Json × List Char) := do
  let (isNegative, cs) := match cs with
    | '-' :: cs => (true, cs)
    | cs => (false, cs)
  let whole := cs.takeWhile Char.isDigit
  if whole.isEmpty || (1 < whole.length && whole.head? == some '0') then none
  let (fraction, rest) ← match cs.dropWhile Char.isDigit with
    | '.' :: rest =>
      let ds := rest.takeWhile Char.isDigit
      if ds.isEmpty then none else some (ds, rest.dropWhile Char.isDigit)
    | rest => some ([], rest)
  let (power, rest) ← readExponent? rest
  let digits : Int := decimal (whole ++ fraction)
  let mantissa := if isNegative then -digits else digits
  let exponent := (fraction.length : Int) - power
  if 0 ≤ exponent then return (.number mantissa exponent.toNat, rest)
  else return (.number (mantissa * Int.ofNat (Nat.pow 10 (-exponent).toNat)) 0, rest)

mutual

/-- Reads a value; the fuel bounds the parts that are read. -/
def readValue? : (fuel : Nat) → List Char → Option (Json × List Char)
  | 0, _ => none
  | fuel + 1, cs =>
    match cs.dropWhile isGap with
    | 'n' :: 'u' :: 'l' :: 'l' :: rest => some (.null, rest)
    | 't' :: 'r' :: 'u' :: 'e' :: rest => some (.bool true, rest)
    | 'f' :: 'a' :: 'l' :: 's' :: 'e' :: rest => some (.bool false, rest)
    | '\x22' :: rest =>
      (readString? none rest).map fun (s, rest) => (.string (String.ofList s), rest)
    | '[' :: rest =>
      match rest.dropWhile isGap with
      | ']' :: rest => some (.array [], rest)
      | rest => (readItems? fuel rest).map fun (items, rest) => (.array items, rest)
    | '\x7b' :: rest =>
      match rest.dropWhile isGap with
      | '\x7d' :: rest => some (.object [], rest)
      | rest => (readMembers? fuel rest).map fun (members, rest) => (.object members, rest)
    | rest => readNumber? rest

/-- Reads the items of an array and its closing bracket. -/
def readItems? : (fuel : Nat) → List Char → Option (List Json × List Char)
  | 0, _ => none
  | fuel + 1, cs => do
    let (item, rest) ← readValue? fuel cs
    match rest.dropWhile isGap with
    | ']' :: rest => return ([item], rest)
    | ',' :: rest =>
      let (items, rest) ← readItems? fuel rest
      return (item :: items, rest)
    | _ => none

/-- Reads the members of an object and its closing brace. -/
def readMembers? : (fuel : Nat) → List Char → Option (List (String × Json) × List Char)
  | 0, _ => none
  | fuel + 1, cs => do
    match cs.dropWhile isGap with
    | '\x22' :: rest =>
      let (name, rest) ← readString? none rest
      match rest.dropWhile isGap with
      | ':' :: rest =>
        let (value, rest) ← readValue? fuel rest
        let member := (String.ofList name, value)
        match rest.dropWhile isGap with
        | '\x7d' :: rest => return ([member], rest)
        | ',' :: rest =>
          let (members, rest) ← readMembers? fuel rest
          return (member :: members, rest)
        | _ => none
      | _ => none
    | _ => none

end

/-- Reads a value that is the whole text. -/
def parse? (cs : List Char) : Option Json := do
  let (j, rest) ← readValue? (2 * cs.length + 2) cs
  if (rest.dropWhile isGap).isEmpty then some j else none

end UseImports.Json
