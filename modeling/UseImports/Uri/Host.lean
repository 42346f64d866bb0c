import UseImports.Text.Bytes
import UseImports.Uri.Percent

/-!
# Hosts

The host of a URI is a name, an IPv4 address or an IPv6 address in brackets. Addresses are written
in one way only: IPv4 as four decimal numbers, IPv6 as lower-case groups with the first longest run
of zero groups left out. Names are those of ASCII.

Main definitions:
* `ipv4?`, `ipv6?`: read an address.
* `renderIpv4`, `renderIpv6`: write an address.
* `host?`: reads the host under a scheme of the web or of files.
* `plainHost?`: reads the host under any other scheme.
-/

namespace UseImports

/-- A character that no host may hold. -/
def isForbiddenInHost (c : Char) : Bool :=
  "\x00\t\n\r #/:<>?@[\\]^|".toList.contains c

/-- A character that no name of a host may hold. -/
def isForbiddenInName (c : Char) : Bool :=
  isForbiddenInHost c || c.toNat < 0x20 || c == '%' || c.toNat == 0x7f

/-! ## Numbers -/

/-- The value of digits to a base. -/
def digitsValue? (base : Nat) (cs : List Char) : Option Nat :=
  cs.foldlM (fun n c => do
    let d ← hexValue? c
    if d < base then some (base * n + d) else none) 0

/-! ## IPv4 -/

/-- Reads a part of an IPv4 address, which is decimal, octal behind a zero or hexadecimal behind
`0x`. -/
def ipv4Part? : List Char → Option Nat
  | [] => none
  | '0' :: 'x' :: ds => digitsValue? 16 ds
  | '0' :: 'X' :: ds => digitsValue? 16 ds
  | '0' :: d :: ds => digitsValue? 8 (d :: ds)
  | ds => digitsValue? 10 ds

/-- The parts of a name without the empty one behind a final point. -/
def nameParts (cs : List Char) : List (List Char) :=
  let parts := splitOnChar (· == '.') cs
  if 1 < parts.length && parts.getLast? == some [] then parts.dropLast else parts

/-- The last part of the name is a number, so that the name has to be an IPv4 address. -/
def endsInNumber (cs : List Char) : Bool :=
  match (nameParts cs).getLast? with
  | some last => (!last.isEmpty && last.all Char.isDigit) || (ipv4Part? last).isSome
  | none => false

/-- Reads an IPv4 address of at most four parts, of which the last one fills what the others leave.
-/
def ipv4? (cs : List Char) : Option Nat := do
  let numbers ← (nameParts cs).mapM ipv4Part?
  let last ← numbers.getLast?
  let front := numbers.dropLast
  if 4 < numbers.length || front.any (255 < ·) || Nat.pow 256 (5 - numbers.length) ≤ last then none
  return front.foldl (fun n part => 256 * n + part) 0 * Nat.pow 256 (5 - numbers.length) + last

/-- Writes an IPv4 address. -/
def renderIpv4 (n : Nat) : List Char :=
  (String.intercalate "." ([n / 0x1000000, n / 0x10000 % 256, n / 0x100 % 256, n % 256].map
    toString)).toList

/-! ## IPv6 -/

/-- Reads a group of an IPv6 address. -/
def ipv6Group? (cs : List Char) : Option Nat :=
  if cs.isEmpty || 4 < cs.length then none else digitsValue? 16 cs

/-- Reads one of the four decimal numbers at the end of an IPv6 address. -/
def decimalByte? (cs : List Char) : Option Nat := do
  if cs.isEmpty || (1 < cs.length && cs.head? == some '0') then none
  let n ← digitsValue? 10 cs
  if 255 < n then none else some n

/-- Reads the groups between colons; the last one may be an IPv4 address, which makes two groups. -/
def ipv6Groups? (cs : List Char) : Option (List Nat) :=
  if cs.isEmpty then some []
  else do
    let parts := splitOnChar (· == ':') cs
    let last ← parts.getLast?
    let front ← parts.dropLast.mapM ipv6Group?
    if last.contains '.' then
      match ← (splitOnChar (· == '.') last).mapM decimalByte? with
      | [a, b, c, d] => return front ++ [256 * a + b, 256 * c + d]
      | _ => none
    else return front ++ [← ipv6Group? last]

/-- Cuts a text at its first two colons in a row. -/
def cutAtDoubleColon : List Char → Option (List Char × List Char)
  | ':' :: ':' :: cs => some ([], cs)
  | c :: cs => (cutAtDoubleColon cs).map fun (front, back) => (c :: front, back)
  | [] => none

/-- Reads an IPv6 address: eight groups, or fewer around two colons that stand for the missing
zeros. -/
def ipv6? (cs : List Char) : Option (List Nat) :=
  match cutAtDoubleColon cs with
  | none => do
    let groups ← ipv6Groups? cs
    if groups.length = 8 then some groups else none
  | some (front, back) => do
    if front.contains '.' then none
    let fs ← ipv6Groups? front
    let bs ← ipv6Groups? back
    if fs.length + bs.length < 8 then
      some (fs ++ List.replicate (8 - fs.length - bs.length) 0 ++ bs)
    else none

/-- The length of the run of zeros at the start. -/
def zeroRun (groups : List Nat) : Nat :=
  (groups.takeWhile (· == 0)).length

/-- The start and the length of the first longest run of at least two zero groups. -/
def longestZeroRun? (groups : List Nat) : Option (Nat × Nat) :=
  let runs := (List.range groups.length).map fun i => (i, zeroRun (groups.drop i))
  runs.foldl (fun best (i, n) =>
    match best with
    | some (_, m) => if m < n then some (i, n) else best
    | none => if 2 ≤ n then some (i, n) else none) none

/-- Writes groups with colons between them. -/
def renderGroups (groups : List Nat) : List Char :=
  (String.intercalate ":" (groups.map fun n => String.ofList (Nat.toDigits 16 n))).toList

/-- Writes an IPv6 address. -/
def renderIpv6 (groups : List Nat) : List Char :=
  match longestZeroRun? groups with
  | some (i, n) => renderGroups (groups.take i) ++ [':', ':'] ++ renderGroups (groups.drop (i + n))
  | none => renderGroups groups

/-! ## Hosts -/

/-- Reads the address between brackets. -/
def bracketedHost? (cs : List Char) : Option (List Char) := do
  if cs.getLast? != some ']' then none
  let groups ← ipv6? (cs.drop 1).dropLast
  return '[' :: renderIpv6 groups ++ [']']

/-- Reads the host under a scheme of the web or of files: escapes are resolved and letters
lower-cased. -/
def host? (cs : List Char) : Option (List Char) :=
  if cs.head? == some '[' then bracketedHost? cs
  else do
    let name := (decodeLossy (percentDecode cs)).map Char.toLower
    if name.isEmpty || name.any (fun c => isForbiddenInName c || 0x7f < c.toNat) then none
    if endsInNumber name then return renderIpv4 (← ipv4? name)
    return name

/-- Reads the host under any other scheme. -/
def plainHost? (cs : List Char) : Option (List Char) :=
  if cs.head? == some '[' then bracketedHost? cs
  else if cs.any isForbiddenInHost then none
  else some (percentEncode EscapeSet.control cs)

end UseImports
