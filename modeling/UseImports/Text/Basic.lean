import UseImports.Text.Blank

/-!
# Texts and byte offsets

A text is a list of characters, and a place in it is given by a byte offset into its UTF-8 encoding.
Only an offset between two characters is a place where a text can be cut.

Main definitions:
* `byteLength`: the number of bytes of a text.
* `splitAtByte`: cuts a text at an offset, if the offset lies between two characters.
* `splitNear`: cuts a text at the last such place that is not behind an offset.
* `splitOnChar`: the parts of a text between separators.
* `isIdentChar` (`is_ident_byte`): letters, digits and underscores of ASCII, and every character
  outside ASCII.
* `wordAround` (`word_at_offset`): the identifier that touches an offset.
* `eqIgnoreCase`: equality up to the case of ASCII letters.

Main statements:
* `splitAtByte_append`: a concatenation is cut where its first part ends.
* `append_of_splitAtByte`, `byteLength_of_splitAtByte`: the two parts are the text, and the first
  one is as long as the offset says.
-/

namespace UseImports

/-! ## Bytes -/

/-- The number of bytes of the UTF-8 encoding of a text. -/
def byteLength : List Char → Nat
  | [] => 0
  | c :: cs => c.utf8Size + byteLength cs

@[simp] theorem byteLength_nil : byteLength [] = 0 := rfl

@[simp] theorem byteLength_cons (c : Char) (cs : List Char) :
    byteLength (c :: cs) = c.utf8Size + byteLength cs := rfl

@[simp] theorem byteLength_append (as bs : List Char) :
    byteLength (as ++ bs) = byteLength as + byteLength bs := by
  induction as with
  | nil => simp
  | cons c as ih => simp [ih, Nat.add_assoc]

@[simp] theorem byteLength_reverse (cs : List Char) : byteLength cs.reverse = byteLength cs := by
  induction cs with
  | nil => rfl
  | cons c cs ih => simp [ih, Nat.add_comm]

theorem byteLength_replicate (n : Nat) (c : Char) :
    byteLength (List.replicate n c) = n * c.utf8Size := by
  induction n with
  | zero => simp
  | succ n ih => simp [List.replicate_succ, ih, Nat.succ_mul, Nat.add_comm]

/-- The bytes of the UTF-8 encoding of a text. -/
def utf8Bytes (cs : List Char) : List UInt8 :=
  cs.flatMap String.utf8EncodeChar

/-! ## Cutting a text -/

/-- Cuts a text at a byte offset; there is no cut behind its end or inside a character. -/
def splitAtByte : Nat → List Char → Option (List Char × List Char)
  | 0, cs => some ([], cs)
  | _ + 1, [] => none
  | n + 1, c :: cs =>
    if c.utf8Size ≤ n + 1 then
      (splitAtByte (n + 1 - c.utf8Size) cs).map fun parts => (c :: parts.1, parts.2)
    else none

theorem splitAtByte_zero (cs : List Char) : splitAtByte 0 cs = some ([], cs) := by
  unfold splitAtByte
  rfl

/-- **A concatenation is cut where its first part ends.** -/
theorem splitAtByte_append (as bs : List Char) :
    splitAtByte (byteLength as) (as ++ bs) = some (as, bs) := by
  induction as with
  | nil => exact splitAtByte_zero bs
  | cons c as ih =>
    obtain ⟨n, hn⟩ : ∃ n, c.utf8Size + byteLength as = n + 1 :=
      ⟨c.utf8Size + byteLength as - 1, by have := c.utf8Size_pos; omega⟩
    simp only [byteLength_cons, List.cons_append, hn]
    unfold splitAtByte
    rw [if_pos (by omega), show n + 1 - c.utf8Size = byteLength as by omega, ih]
    rfl

/-- **The parts of a cut make up the text.** -/
theorem append_of_splitAtByte {n : Nat} {cs as bs : List Char}
    (h : splitAtByte n cs = some (as, bs)) : as ++ bs = cs := by
  induction cs generalizing n as bs with
  | nil => cases n <;> simp_all [splitAtByte]
  | cons c cs ih =>
    cases n with
    | zero => simp_all [splitAtByte]
    | succ n =>
      simp only [splitAtByte] at h
      split at h
      · obtain ⟨⟨as', bs'⟩, hp, heq⟩ := Option.map_eq_some_iff.1 h
        simp only [Prod.mk.injEq] at heq
        obtain ⟨rfl, rfl⟩ := heq
        simp [ih hp]
      · simp at h

/-- **The first part of a cut is as long as the offset says.** -/
theorem byteLength_of_splitAtByte {n : Nat} {cs as bs : List Char}
    (h : splitAtByte n cs = some (as, bs)) : byteLength as = n := by
  induction cs generalizing n as bs with
  | nil => cases n <;> simp_all [splitAtByte]
  | cons c cs ih =>
    cases n with
    | zero => simp_all [splitAtByte]
    | succ n =>
      simp only [splitAtByte] at h
      split at h
      · obtain ⟨⟨as', bs'⟩, hp, heq⟩ := Option.map_eq_some_iff.1 h
        simp only [Prod.mk.injEq] at heq
        obtain ⟨rfl, rfl⟩ := heq
        simp only [byteLength_cons, ih hp]
        omega
      · simp at h

/-- Cuts a text at the last place between two characters that is not behind the byte offset. -/
def splitNear : Nat → List Char → List Char × List Char
  | _, [] => ([], [])
  | n, c :: cs =>
    if c.utf8Size ≤ n then
      let parts := splitNear (n - c.utf8Size) cs
      (c :: parts.1, parts.2)
    else ([], c :: cs)

/-- The offset lies in the text, between two characters. -/
def isBoundary (cs : List Char) (n : Nat) : Bool :=
  (splitAtByte n cs).isSome

/-- The boundaries of a text are the ends of its initial parts. -/
theorem isBoundary_iff {cs : List Char} {n : Nat} :
    isBoundary cs n = true ↔ ∃ as bs, cs = as ++ bs ∧ byteLength as = n := by
  rw [isBoundary, Option.isSome_iff_exists]
  constructor
  · rintro ⟨⟨as, bs⟩, hcut⟩
    exact ⟨as, bs, (append_of_splitAtByte hcut).symm, byteLength_of_splitAtByte hcut⟩
  · rintro ⟨as, bs, rfl, rfl⟩
    exact ⟨(as, bs), splitAtByte_append as bs⟩

/-- The parts of a text between the separators; always at least one. -/
def splitOnChar (isSeparator : Char → Bool) : List Char → List (List Char)
  | [] => [[]]
  | c :: cs =>
    if isSeparator c then [] :: splitOnChar isSeparator cs
    else
      match splitOnChar isSeparator cs with
      | [] => [[c]]
      | part :: parts => (c :: part) :: parts

theorem splitOnChar_of_forall {isSeparator : Char → Bool} {cs : List Char}
    (h : ∀ c ∈ cs, isSeparator c = false) : splitOnChar isSeparator cs = [cs] := by
  induction cs with
  | nil => rfl
  | cons c cs ih =>
    have hc : ¬ isSeparator c = true := by simp [h c List.mem_cons_self]
    rw [splitOnChar, if_neg hc, ih fun x hx => h x (List.mem_cons_of_mem c hx)]

/-- The first part ends at the first separator. -/
theorem splitOnChar_append {isSeparator : Char → Bool} {as : List Char}
    (h : ∀ c ∈ as, isSeparator c = false) {c : Char} (hc : isSeparator c = true) (cs : List Char) :
    splitOnChar isSeparator (as ++ c :: cs) = as :: splitOnChar isSeparator cs := by
  induction as with
  | nil => rw [List.nil_append, splitOnChar, if_pos hc]
  | cons a as ih =>
    have ha : ¬ isSeparator a = true := by simp [h a List.mem_cons_self]
    rw [List.cons_append, splitOnChar, if_neg ha, ih fun x hx => h x (List.mem_cons_of_mem a hx)]

/-! ## Identifiers -/

/-- A character of an identifier, as far as its bytes tell (`is_ident_byte`): every character
outside ASCII counts. -/
def isIdentChar (c : Char) : Bool :=
  c.isAlphanum || c == '_' || 0x80 ≤ c.toNat

/-- The identifier that touches the offset, with the offset of its start (`word_at_offset`). -/
def wordAround (cs : List Char) (n : Nat) : Option (Nat × List Char) :=
  let parts := splitNear n cs
  let left := parts.1.reverse.takeWhile isIdentChar
  let word := left.reverse ++ parts.2.takeWhile isIdentChar
  if word.isEmpty then none else some (byteLength parts.1 - byteLength left, word)

/-- The two texts differ at most in the case of ASCII letters. -/
def eqIgnoreCase (as bs : List Char) : Bool :=
  as.map Char.toLower == bs.map Char.toLower

/-- The last identifier of a text, read off its reversal, is one of the keywords in any ASCII case.
-/
def endsInKeyword (before : List Char) (keywords : List String) : Bool :=
  let word := ((before.dropWhile isBlank).takeWhile isIdentChar).reverse
  keywords.any fun k => eqIgnoreCase word k.toList

/-- The word in front of the offset is one of the keywords (`follows_keyword`); `none` when the text
has no cut there. -/
def followsKeyword? (cs : List Char) (n : Nat) (keywords : List String) : Option Bool :=
  (splitAtByte n cs).map fun parts => endsInKeyword parts.1.reverse keywords

end UseImports
