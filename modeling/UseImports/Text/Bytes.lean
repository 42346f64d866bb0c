import UseImports.Text.Basic

/-!
# Bytes as text

The content of a file is a list of bytes. It is read as UTF-8; bytes that are no part of a character
are each time replaced by the replacement character, one for every longest piece that could have
begun one.

Main definitions:
* `decodeFirst`: the character at the start of a list of bytes.
* `decodeUtf8?`: the text of a list of bytes, if all of it is UTF-8.
* `decodeLossy`: the text of any list of bytes.
-/

namespace UseImports

/-- A byte in the middle of a character. -/
def isContinuation (b : UInt8) : Bool :=
  0x80 ≤ b && b ≤ 0xbf

/-- The number of bytes of a character that begins with this byte, and the least and greatest second
byte; longer forms of short characters, surrogates and code points that are too large are excluded.
-/
def leadByte? (b : UInt8) : Option (Nat × UInt8 × UInt8) :=
  if 0xc2 ≤ b && b ≤ 0xdf then some (2, 0x80, 0xbf)
  else if b == 0xe0 then some (3, 0xa0, 0xbf)
  else if b == 0xed then some (3, 0x80, 0x9f)
  else if 0xe1 ≤ b && b ≤ 0xef then some (3, 0x80, 0xbf)
  else if b == 0xf0 then some (4, 0x90, 0xbf)
  else if 0xf1 ≤ b && b ≤ 0xf3 then some (4, 0x80, 0xbf)
  else if b == 0xf4 then some (4, 0x80, 0x8f)
  else none

/-- The six bits that a byte in the middle of a character adds. -/
def continuationBits (b : UInt8) : Nat :=
  b.toNat % 64

/-- What stands at the start of a list of bytes. -/
inductive Decoded where
  /-- A character, and the bytes behind it. -/
  | char (c : Char) (rest : List UInt8)
  /-- No character: the bytes behind the longest piece that could have begun one. -/
  | broken (rest : List UInt8)
deriving Repr

/-- The bytes behind what was read. -/
def Decoded.rest : Decoded → List UInt8
  | char _ rest => rest
  | broken rest => rest

/-- Reads the character that begins with `b`. -/
def decodeFirst (b : UInt8) (bs : List UInt8) : Decoded :=
  if b < 0x80 then .char (Char.ofNat b.toNat) bs
  else
    match leadByte? b, bs with
    | none, _ => .broken bs
    | some _, [] => .broken []
    | some (size, low, high), b₁ :: bs₁ =>
      if !(low ≤ b₁ && b₁ ≤ high) then .broken (b₁ :: bs₁)
      else if size == 2 then
        .char (Char.ofNat ((b.toNat % 32) * 64 + continuationBits b₁)) bs₁
      else
        match bs₁ with
        | [] => .broken []
        | b₂ :: bs₂ =>
          if !isContinuation b₂ then .broken (b₂ :: bs₂)
          else if size == 3 then
            .char (Char.ofNat
              (((b.toNat % 16) * 64 + continuationBits b₁) * 64 + continuationBits b₂)) bs₂
          else
            match bs₂ with
            | [] => .broken []
            | b₃ :: bs₃ =>
              if !isContinuation b₃ then .broken (b₃ :: bs₃)
              else
                .char (Char.ofNat
                  ((((b.toNat % 8) * 64 + continuationBits b₁) * 64 + continuationBits b₂) * 64 +
                    continuationBits b₃)) bs₃

/-- Reading one character leaves no more bytes than there were behind its first. -/
theorem length_rest_decodeFirst (b : UInt8) (bs : List UInt8) :
    (decodeFirst b bs).rest.length ≤ bs.length := by
  unfold decodeFirst
  repeat' split
  all_goals simp_all [Decoded.rest]
  all_goals omega

/-- The text of a list of bytes, if all of it is UTF-8. -/
def decodeUtf8? (bs : List UInt8) : Option (List Char) :=
  match bs with
  | [] => some []
  | b :: bs =>
    match _h : decodeFirst b bs with
    | .char c rest => (decodeUtf8? rest).map (c :: ·)
    | .broken _ => none
termination_by bs.length
decreasing_by
  have := length_rest_decodeFirst b bs
  simp only [_h, Decoded.rest] at this
  simp only [List.length_cons]
  omega

/-- The character that stands for bytes that are not UTF-8. -/
def replacementChar : Char :=
  Char.ofNat 0xfffd

/-- The text of a list of bytes, with a replacement character for every piece that is not UTF-8. -/
def decodeLossy (bs : List UInt8) : List Char :=
  match bs with
  | [] => []
  | b :: bs =>
    match _h : decodeFirst b bs with
    | .char c rest => c :: decodeLossy rest
    | .broken rest => replacementChar :: decodeLossy rest
termination_by bs.length
decreasing_by
  all_goals
    have := length_rest_decodeFirst b bs
    simp only [_h, Decoded.rest] at this
    simp only [List.length_cons]
    omega

end UseImports
