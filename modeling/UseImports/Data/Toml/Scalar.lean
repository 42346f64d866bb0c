import UseImports.Data.Json
import UseImports.Text.Hex

/-!
# The plain values of TOML

Truth values, numbers, dates and times are written without quotes. Integers fit 64 bits and floats a
double; dates are dates of the calendar. Floats that are not finite have no JSON form and become
`null`, and a date or time becomes an object around its text.

Main definitions:
* `integer?`, `float?`, `dateTime?`: the kinds of values.
* `plainValue?`: any of them.
-/

namespace UseImports.Toml

/-! ## Digits -/

/-- The digits of a text in which single underscores may divide digits. -/
def digits? (isDigit : Char → Bool) : List Char → Option (List Char)
  | [] => none
  | [d] => if isDigit d then some [d] else none
  | d :: '_' :: cs => if isDigit d then (digits? isDigit cs).map (d :: ·) else none
  | d :: cs => if isDigit d then (digits? isDigit cs).map (d :: ·) else none

/-- The number that digits give to a base. -/
def digitsNumber (base : Nat) (ds : List Char) : Nat :=
  ds.foldl (fun n d => base * n + (hexValue? d).getD 0) 0

/-- The digits of a decimal integer, which has no leading zero. -/
def decimalDigits? (cs : List Char) : Option (List Char) := do
  let ds ← digits? Char.isDigit cs
  if 1 < ds.length && ds.head? == some '0' then none else some ds

/-- The sign of a number, and what is behind it. -/
def signAndRest : List Char → Bool × List Char
  | '-' :: cs => (true, cs)
  | '+' :: cs => (false, cs)
  | cs => (false, cs)

/-- The number with its sign. -/
def signed (isNegative : Bool) (n : Nat) : Int :=
  if isNegative then -n else n

/-! ## Integers -/

/-- Reads an integer: decimal with or without a sign, or to the base 16, 8 or 2 behind its mark. -/
def integer? (cs : List Char) : Option Int := do
  let n ← match cs with
    | '0' :: 'x' :: ds =>
      (digits? (fun c => (hexValue? c).isSome) ds).map fun ds => (digitsNumber 16 ds : Int)
    | '0' :: 'o' :: ds =>
      (digits? (fun c => '0' ≤ c && c ≤ '7') ds).map fun ds => (digitsNumber 8 ds : Int)
    | '0' :: 'b' :: ds =>
      (digits? (fun c => c == '0' || c == '1') ds).map fun ds => (digitsNumber 2 ds : Int)
    | cs =>
      let (isNegative, rest) := signAndRest cs
      (decimalDigits? rest).map fun ds => signed isNegative (digitsNumber 10 ds)
  if -0x8000000000000000 ≤ n ∧ n < 0x8000000000000000 then some n else none

/-! ## Floats -/

/-- The least number that is too large for a double, halfway behind the greatest one. -/
def floatLimit : Nat :=
  Nat.pow 2 1024 - Nat.pow 2 970

/-- The decimal is too large for a double. Where the number of digits settles it, no power is
computed. -/
def overflows (mantissa : Nat) (exponent : Int) : Bool :=
  let size : Int := (Nat.toDigits 10 mantissa).length + exponent
  if mantissa = 0 || size < 300 then false
  else if 320 < size then true
  else if 0 ≤ exponent then floatLimit ≤ mantissa * Nat.pow 10 exponent.toNat
  else floatLimit * Nat.pow 10 (-exponent).toNat ≤ mantissa

/-- A float as a JSON number, which shows that it is not an integer. -/
def floatJson (isNegative : Bool) (mantissa : Nat) (exponent : Int) : Json :=
  if mantissa = 0 || exponent < -400 then .number 0 1
  else if exponent < 0 then .number (signed isNegative mantissa) (-exponent).toNat
  else .number (signed isNegative (mantissa * Nat.pow 10 (exponent.toNat + 1))) 1

/-- Reads the exponent of a float. -/
def exponent? (cs : List Char) : Option Int := do
  let (isNegative, rest) := signAndRest cs
  return signed isNegative (digitsNumber 10 (← digits? Char.isDigit rest))

/-- Reads a float: an integer with a fraction, an exponent or both, or one of the values that are
not finite. -/
def float? (cs : List Char) : Option Json := do
  let (isNegative, rest) := signAndRest cs
  if rest = "inf".toList ∨ rest = "nan".toList then return .null
  let isExponentMark (c : Char) : Bool := c == 'e' || c == 'E'
  let front := rest.takeWhile fun c => !isExponentMark c
  let power ← match rest.dropWhile fun c => !isExponentMark c with
    | [] => some 0
    | _ :: ds => exponent? ds
  let whole ← decimalDigits? (front.takeWhile (· ≠ '.'))
  let fraction ← match front.dropWhile (· ≠ '.') with
    | [] => if front.length < rest.length then some [] else none
    | _ :: ds => digits? Char.isDigit ds
  let mantissa := digitsNumber 10 (whole ++ fraction)
  let exponent := power - fraction.length
  if overflows mantissa exponent then none else return floatJson isNegative mantissa exponent

/-! ## Dates and times -/

/-- Reads a number of exactly two digits that lies between two bounds, and gives what is behind it.
-/
def twoDigits? (low high : Nat) : List Char → Option (Nat × List Char)
  | a :: b :: cs =>
    let n := digitsNumber 10 [a, b]
    if a.isDigit && b.isDigit && low ≤ n && n ≤ high then some (n, cs) else none
  | _ => none

/-- The number of days of a month. -/
def daysInMonth (year month : Nat) : Nat :=
  if month = 2 then
    if year % 4 = 0 ∧ (year % 100 ≠ 0 ∨ year % 400 = 0) then 29 else 28
  else if month = 4 ∨ month = 6 ∨ month = 9 ∨ month = 11 then 30
  else 31

/-- Reads a date, and gives what is behind it. -/
def date? (cs : List Char) : Option (List Char) :=
  match cs with
  | a :: b :: c :: d :: '-' :: rest =>
    if [a, b, c, d].all Char.isDigit then do
      let year := digitsNumber 10 [a, b, c, d]
      let (month, rest) ← twoDigits? 1 12 rest
      match rest with
      | '-' :: rest => return (← twoDigits? 1 (daysInMonth year month) rest).2
      | _ => none
    else none
  | _ => none

/-- Reads a time, whose seconds may be missing, and gives what is behind it. -/
def time? (cs : List Char) : Option (List Char) := do
  let (_, rest) ← twoDigits? 0 23 cs
  match rest with
  | ':' :: rest =>
    let (_, rest) ← twoDigits? 0 59 rest
    match rest with
    | ':' :: rest =>
      let (_, rest) ← twoDigits? 0 60 rest
      match rest with
      | '.' :: d :: rest => if d.isDigit then return rest.dropWhile Char.isDigit else none
      | rest => return rest
    | rest => return rest
  | _ => none

/-- The text is the offset of a time zone, or empty. -/
def isZone : List Char → Bool
  | [] => true
  | ['Z'] | ['z'] => true
  | c :: rest =>
    if c == '+' || c == '-' then
      match twoDigits? 0 24 rest with
      | some (_, ':' :: rest) =>
        match twoDigits? 0 59 rest with
        | some (_, []) => true
        | _ => false
      | _ => false
    else false

/-- The text is a date, a time or both, with an offset behind both. -/
def isDateTime (cs : List Char) : Bool :=
  match date? cs with
  | some [] => true
  | some (c :: rest) =>
    if c == 'T' || c == 't' || c == ' ' then
      match time? rest with
      | some zone => isZone zone
      | none => false
    else false
  | none => time? cs == some []

/-- Reads a date or time as an object around its text. -/
def dateTime? (cs : List Char) : Option Json :=
  if isDateTime cs then some (.object [("datetime", .string (String.ofList cs))]) else none

/-! ## Values -/

/-- A character behind which no value without quotes goes on. -/
def endsPlainValue (c : Char) : Bool :=
  " \t\r\n#,]\x7d=".toList.contains c

/-- The text of a value without quotes, and what is behind it. A blank between a date and a time
belongs to the text. -/
def plainText (cs : List Char) : List Char × List Char :=
  let isInside (c : Char) : Bool := !endsPlainValue c
  let front := cs.takeWhile isInside
  match date? front, cs.dropWhile isInside with
  | some [], ' ' :: d :: rest =>
    if d.isDigit then
      (front ++ ' ' :: (d :: rest).takeWhile isInside, (d :: rest).dropWhile isInside)
    else (front, ' ' :: d :: rest)
  | _, rest => (front, rest)

/-- Reads a value without quotes. -/
def plainValue? (cs : List Char) : Option (Json × List Char) := do
  let (front, rest) := plainText cs
  let json ←
    if front = "true".toList then some (.bool true)
    else if front = "false".toList then some (.bool false)
    else
      match integer? front with
      | some n => some (.ofInt n)
      | none => (float? front).or (dateTime? front)
  return (json, rest)

end UseImports.Toml
