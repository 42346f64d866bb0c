import UseImports.Text.Basic
import UseImports.Text.Hex

/-!
# Percent encoding

A character that may not stand in a part of a URI is written as the bytes of its UTF-8 encoding,
each as a percent sign with two hexadecimal digits. Which characters these are depends on the part.

Main definitions:
* `EscapeSet` and the sets of the parts of a URI.
* `percentEncode`: writes a text.
* `percentDecode`: the bytes that a text stands for.
-/

namespace UseImports

/-! ## Sets -/

/-- The characters that are written as escapes. -/
abbrev EscapeSet := Char → Bool

namespace EscapeSet

/-- Control characters and everything outside ASCII. -/
def control : EscapeSet := fun c => c.toNat < 0x20 || 0x7e < c.toNat

/-- The set of fragments. -/
def fragment : EscapeSet := fun c => control c || " \x22<>\x60".toList.contains c

/-- The set of queries. -/
def query : EscapeSet := fun c => control c || " \x22#<>".toList.contains c

/-- The set of queries under the schemes of the web and of files. -/
def specialQuery : EscapeSet := fun c => query c || c == '\x27'

/-- The set of paths. -/
def path : EscapeSet := fun c => fragment c || "#?\x7b\x7d".toList.contains c

/-- The set of user names and passwords. -/
def userInfo : EscapeSet := fun c => path c || "/:;=@[\\]^|".toList.contains c

end EscapeSet

/-! ## Encoding -/

/-- A byte as an escape. -/
def percentByte (b : UInt8) : List Char :=
  ['%', hexDigit (b.toNat / 16), hexDigit (b.toNat % 16)]

/-- The text with the characters of the set as escapes. -/
def percentEncode (set : EscapeSet) (cs : List Char) : List Char :=
  cs.flatMap fun c => if set c then (utf8Bytes [c]).flatMap percentByte else [c]

/-! ## Decoding -/

/-- The bytes of a text in which each escape stands for its byte. A percent sign that starts no
escape stands for itself. -/
def percentDecode : List Char → List UInt8
  | [] => []
  | '%' :: a :: b :: cs =>
    match hexValue? a, hexValue? b with
    | some m, some n => UInt8.ofNat (16 * m + n) :: percentDecode cs
    | _, _ => 0x25 :: percentDecode (a :: b :: cs)
  | c :: cs => utf8Bytes [c] ++ percentDecode cs

end UseImports
