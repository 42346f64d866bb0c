/-!
# The order of names

Two orders in which imports can be sorted. Both ignore the case of ASCII letters at first and fall
back to the bytes as they are where that leaves two names equal, so that different names are never
equal.

Main definitions:
* `SortMode`: by bytes, or with digit runs as numbers.
* `naturalCompare` (`natural_cmp`): compares byte by byte, but a run of digits with another as
  numbers.
* `SortMode.compare` (`compare`): the order of a mode.
-/

namespace UseImports

/-- How names are compared. -/
inductive SortMode where
  /-- By bytes. -/
  | alphabetical
  /-- By bytes, but runs of digits as numbers. -/
  | natural
deriving DecidableEq, Repr, Inhabited

/-- The UTF-8 bytes of a name. -/
def nameBytes (s : String) : List UInt8 :=
  s.toUTF8.data.toList

/-- The byte with an ASCII letter in lower case. -/
def lowerByte (b : UInt8) : UInt8 :=
  if 0x41 ≤ b && b ≤ 0x5a then b + 0x20 else b

/-- An ASCII digit. -/
def isDigitByte (b : UInt8) : Bool :=
  0x30 ≤ b && b ≤ 0x39

/-- The lexicographic order of byte strings. -/
def compareBytes (as bs : List UInt8) : Ordering :=
  List.compareLex compare as bs

/-- A digit run without its leading zeros (`trim_zeros`); at least one digit stays. -/
def significantDigits (ds : List UInt8) : List UInt8 :=
  match ds.dropWhile (· == 0x30) with
  | [] => ds.drop (ds.length - 1)
  | rest => rest

/-- The order of digit runs as numbers: the longer one is greater, leading zeros apart. -/
def compareNumerals (as bs : List UInt8) : Ordering :=
  let a := significantDigits as
  let b := significantDigits bs
  (compare a.length b.length).then (compareBytes a b)

/-- Compares byte by byte without regard to case, and where both sides have digits the digit runs as
numbers (`natural_cmp`). -/
def naturalCompare (as bs : List UInt8) : Ordering :=
  match as, bs with
  | [], [] => .eq
  | [], _ :: _ => .lt
  | _ :: _, [] => .gt
  | a :: as, b :: bs =>
    if isDigitByte a && isDigitByte b then
      (compareNumerals (a :: as.takeWhile isDigitByte) (b :: bs.takeWhile isDigitByte)).then
        (naturalCompare (as.dropWhile isDigitByte) (bs.dropWhile isDigitByte))
    else (compare (lowerByte a) (lowerByte b)).then (naturalCompare as bs)
termination_by as.length
decreasing_by
  · exact Nat.lt_succ_of_le (List.dropWhile_sublist _).length_le
  · simp

/-- The order of names (`compare`). -/
def SortMode.compare (mode : SortMode) (a b : String) : Ordering :=
  let as := nameBytes a
  let bs := nameBytes b
  let coarse := match mode with
    | .alphabetical => compareBytes (as.map lowerByte) (bs.map lowerByte)
    | .natural => naturalCompare as bs
  coarse.then (compareBytes as bs)

/-- The first name does not come behind the second. -/
def SortMode.le (mode : SortMode) (a b : String) : Bool :=
  mode.compare a b != .gt

end UseImports
