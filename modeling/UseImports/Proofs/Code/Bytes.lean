import UseImports.Proofs.Code.Heredoc
import UseImports.Proofs.Code.View
import UseImports.Proofs.Text.LineSplit
import UseImports.Proofs.Text.Utf8
import Mathlib.Data.List.TakeWhile

/-!
# The code view byte by byte

The walk over a text (`mask_non_code`) never has to know which bytes make up a character. A walk
over the bytes, which takes each byte for a character of its own, gives every byte the verdict that
its character has: whatever decides something is ASCII, and the bytes of all other characters are
treated alike. So a character is kept as a whole or blanked as a whole, and the bytes that are left
are UTF-8.

* `maskBytes`: the code view of bytes.
* `verdicts_spread`: **every byte has the verdict of its character.**
* `maskBytes_utf8Bytes`: **the code view of the bytes of a text** are the bytes of its code view.
-/

namespace UseImports

variable {c x y : Char} {cs w xs : List Char} {v : Verdict} {n : Nat} {m : Mode} {b : UInt8}

/-! ## Bytes as characters -/

/-- The byte as a character of its own. -/
def byteChar (b : UInt8) : Char :=
  Char.ofNat b.toNat

/-- What stands for a byte in the code view. -/
def Verdict.renderByte (b : UInt8) : Verdict → UInt8
  | .keep => b
  | .blank => if b = 0x0a ∨ b = 0x0d then b else 0x20

/-- The code view of bytes: each is walked over as a character of its own. -/
def maskBytes (bs : List UInt8) : Except MaskError (List UInt8) :=
  (verdicts (bs.map byteChar)).map fun vs => List.zipWith (fun b v => Verdict.renderByte b v) bs vs

/-- The bytes of a character, each as a character of its own. -/
def spreadChar (c : Char) : List Char :=
  (String.utf8EncodeChar c).map byteChar

/-- The bytes of a text, each as a character of its own. -/
def spread (cs : List Char) : List Char :=
  cs.flatMap spreadChar

theorem map_byteChar_utf8Bytes (cs : List Char) : (utf8Bytes cs).map byteChar = spread cs :=
  List.map_flatMap

@[simp] theorem spread_nil : spread [] = [] := rfl

theorem spread_cons (c : Char) (cs : List Char) :
    spread (c :: cs) = spreadChar c ++ spread cs := rfl

theorem spread_append (as bs : List Char) : spread (as ++ bs) = spread as ++ spread bs :=
  List.flatMap_append

@[simp] theorem length_spreadChar (c : Char) : (spreadChar c).length = c.utf8Size := by
  rw [spreadChar, List.length_map, String.length_utf8EncodeChar]

theorem length_spread (cs : List Char) : (spread cs).length = byteLength cs := by
  rw [← map_byteChar_utf8Bytes, List.length_map, length_utf8Bytes]

/-- A character outside ASCII, as a byte or as what it is. -/
def isWide (c : Char) : Bool :=
  0x80 ≤ c.toNat

theorem toNat_byteChar (b : UInt8) : (byteChar b).toNat = b.toNat := by
  have hvalid : b.toNat.isValidChar := .inl (Nat.lt_trans b.toNat_lt (by decide))
  rw [byteChar, Char.ofNat, dif_pos hvalid]
  rfl

theorem spreadChar_of_ascii (h : isWide c = false) : spreadChar c = [c] := by
  have hlt : c.val.toNat ≤ 127 := by
    have : ¬ 0x80 ≤ c.toNat := by simpa [isWide] using h
    exact Nat.le_of_lt_succ (Nat.not_le.mp this)
  rw [spreadChar, String.utf8EncodeChar, if_pos hlt, List.map_singleton, byteChar,
    toNat_ofNat_of_lt (by omega), charOfNat_toNat c rfl]

theorem utf8Size_of_ascii (h : isWide c = false) : c.utf8Size = 1 := by
  rw [← length_spreadChar, spreadChar_of_ascii h]
  rfl

theorem isWide_of_mem_spreadChar (h : isWide c = true) (hx : x ∈ spreadChar c) :
    isWide x = true := by
  have hwide : 0x80 ≤ c.val.toNat := by simpa [isWide] using h
  have hvalid := Char.toNat_valid c
  have hbyte : ∀ n, 128 ≤ n → n < 256 → isWide (byteChar (UInt8.ofNat n)) = true := by
    intro n hlow hhigh
    rw [isWide, toNat_byteChar, toNat_ofNat_of_lt hhigh]
    simpa using hlow
  obtain ⟨v, hv⟩ : ∃ v, v = c.val.toNat := ⟨_, rfl⟩
  rw [← hv] at hwide hvalid
  rw [spreadChar, String.utf8EncodeChar, ← hv, if_neg (by omega)] at hx
  split at hx
  · simp only [List.map_cons, List.map_nil, List.mem_cons, List.not_mem_nil, or_false] at hx
    rcases hx with rfl | rfl <;> exact hbyte _ (by omega) (by omega)
  split at hx
  · simp only [List.map_cons, List.map_nil, List.mem_cons, List.not_mem_nil, or_false] at hx
    rcases hx with rfl | rfl | rfl <;> exact hbyte _ (by omega) (by omega)
  · simp only [List.map_cons, List.map_nil, List.mem_cons, List.not_mem_nil, or_false] at hx
    rcases hx with rfl | rfl | rfl | rfl <;> exact hbyte _ (by omega) (by omega)

theorem exists_spreadChar_eq_cons (c : Char) : ∃ x xs, spreadChar c = x :: xs := by
  refine List.exists_cons_of_length_pos ?_
  rw [length_spreadChar]
  exact c.utf8Size_pos

/-! ## What stands at the start of the bytes -/

/-- A test that cannot tell one character outside ASCII from another. -/
def AsciiTest (p : Char → Bool) : Prop :=
  ∀ c x, isWide c = true → isWide x = true → p c = p x

theorem asciiTest_isIdentChar : AsciiTest isIdentChar := by
  have hwide : ∀ c, isWide c = true → isIdentChar c = true := by
    intro c hc
    have : 0x80 ≤ c.toNat := by simpa [isWide] using hc
    simp [isIdentChar, this]
  intro c x hc hx
  rw [hwide c hc, hwide x hx]

theorem ne_of_isWide (hc : isWide c = true) (hx : isWide x = false) : c ≠ x := by
  rintro rfl
  rw [hc] at hx
  cases hx

theorem asciiTest_isIndent : AsciiTest isIndent := by
  have hwide : ∀ c, isWide c = true → isIndent c = false := by
    intro c hc
    simp [isIndent, ne_of_isWide hc (x := ' ') rfl, ne_of_isWide hc (x := '\t') rfl]
  intro c x hc hx
  rw [hwide c hc, hwide x hx]

theorem asciiTest_ne_break : AsciiTest (· ≠ '\n') := by
  intro c x hc hx
  simp [ne_of_isWide hc (x := '\n') rfl, ne_of_isWide hx (x := '\n') rfl]

section AsciiTest

variable {p : Char → Bool} (hp : AsciiTest p)
include hp

theorem test_of_mem_spreadChar (hx : x ∈ spreadChar c) : p x = p c := by
  cases hc : isWide c with
  | false =>
    rw [spreadChar_of_ascii hc, List.mem_singleton] at hx
    rw [hx]
  | true => exact hp x c (isWide_of_mem_spreadChar hc hx) hc

theorem takeWhile_spread (cs : List Char) : (spread cs).takeWhile p = spread (cs.takeWhile p) := by
  induction cs with
  | nil => rfl
  | cons c cs ih =>
    have hmem : ∀ x ∈ spreadChar c, p x = p c := fun x hx => test_of_mem_spreadChar hp hx
    rw [spread_cons, List.takeWhile_cons]
    split
    · rename_i hc
      rw [List.takeWhile_append_of_pos fun x hx => (hmem x hx).trans hc, ih, spread_cons]
    · rename_i hc
      obtain ⟨x, xs, hs⟩ := exists_spreadChar_eq_cons c
      have hx : p x ≠ true := (hmem x (hs ▸ List.mem_cons_self)) ▸ hc
      rw [hs, List.cons_append, List.takeWhile_cons, if_neg hx, spread_nil]

theorem dropWhile_spread (cs : List Char) : (spread cs).dropWhile p = spread (cs.dropWhile p) := by
  have hsplit : spread (cs.takeWhile p) ++ (spread cs).dropWhile p =
      spread (cs.takeWhile p) ++ spread (cs.dropWhile p) := by
    rw [← takeWhile_spread hp, List.takeWhile_append_dropWhile, takeWhile_spread hp,
      ← spread_append, List.takeWhile_append_dropWhile]
  exact List.append_cancel_left hsplit

theorem any_head?_spread (cs : List Char) : (spread cs).head?.any p = cs.head?.any p := by
  cases cs with
  | nil => rfl
  | cons c cs =>
    obtain ⟨x, xs, hs⟩ := exists_spreadChar_eq_cons c
    rw [spread_cons, hs]
    exact test_of_mem_spreadChar hp (hs ▸ List.mem_cons_self)

end AsciiTest

/-- ASCII text, possibly in the other case, is seen in the bytes where it is seen in the text. -/
theorem map_take_spread {f : Char → Char} (hf : ∀ c, isWide c = true → isWide (f c) = true)
    (hw : ∀ c ∈ w, isWide c = false) (cs : List Char) :
    ((spread cs).take w.length).map f = w ↔ (cs.take w.length).map f = w := by
  induction w generalizing cs with
  | nil => simp
  | cons y w ih =>
    cases cs with
    | nil => rfl
    | cons c cs =>
      have hy := hw y List.mem_cons_self
      cases hc : isWide c with
      | false =>
        rw [spread_cons, spreadChar_of_ascii hc]
        simp only [List.length_cons, List.singleton_append, List.take_succ_cons, List.map_cons,
          List.cons.injEq, ih (fun x hx => hw x (List.mem_cons_of_mem y hx)) cs]
      | true =>
        obtain ⟨x, xs, hs⟩ := exists_spreadChar_eq_cons c
        have hx := isWide_of_mem_spreadChar hc (hs ▸ List.mem_cons_self)
        rw [spread_cons, hs]
        simp [ne_of_isWide (hf x hx) hy, ne_of_isWide (hf c hc) hy]

theorem take_spread (hw : ∀ c ∈ w, isWide c = false) (cs : List Char) :
    (spread cs).take w.length = w ↔ cs.take w.length = w := by
  have := map_take_spread (f := id) (fun _ h => h) hw cs
  simpa using this

theorem head?_spread (hy : isWide y = false) (cs : List Char) :
    (spread cs).head? = some y ↔ cs.head? = some y := by
  have hone : ∀ l : List Char, l.head? = some y ↔ l.take 1 = [y] := by
    intro l
    cases l <;> simp
  rw [hone, hone]
  exact take_spread (w := [y]) (by simpa using hy) cs

/-- Behind ASCII text the bytes are those of the rest. -/
theorem drop_spread {w cs : List Char} (hw : ∀ c ∈ w, isWide c = false) (h : cs.take w.length = w) :
    (spread cs).drop w.length = spread (cs.drop w.length) := by
  have hspread : spread w = w := by
    clear h
    induction w with
    | nil => rfl
    | cons c w ih =>
      rw [spread_cons, spreadChar_of_ascii (hw c List.mem_cons_self),
        ih fun x hx => hw x (List.mem_cons_of_mem c hx)]
      rfl
  conv_lhs => rw [← List.take_append_drop w.length cs, h, spread_append, hspread]
  exact List.drop_left

theorem byteChar_injective : Function.Injective byteChar := by
  intro b d h
  have := congrArg Char.toNat h
  rw [toNat_byteChar, toNat_byteChar] at this
  exact UInt8.toNat_inj.mp this

theorem isPrefixOf_spread (label cs : List Char) :
    (spread label).isPrefixOf (spread cs) = label.isPrefixOf cs := by
  rw [Bool.eq_iff_iff, List.isPrefixOf_iff_prefix, List.isPrefixOf_iff_prefix,
    ← map_byteChar_utf8Bytes,
    ← map_byteChar_utf8Bytes, List.prefix_map_iff_of_injective byteChar_injective,
    utf8Bytes_prefix_iff]

/-! ## Verdicts on bytes -/

/-- The verdicts on the bytes of a text, given those on its characters. Verdicts that no character
is left for stay as they are. -/
def spreadVerdicts : List Verdict → List Char → List Verdict
  | vs, [] => vs
  | [], _ :: _ => []
  | v :: vs, c :: cs => List.replicate c.utf8Size v ++ spreadVerdicts vs cs

@[simp] theorem spreadVerdicts_nil (cs : List Char) : spreadVerdicts [] cs = [] := by
  cases cs <;> rfl

@[simp] theorem spreadVerdicts_nil_right (vs : List Verdict) : spreadVerdicts vs [] = vs := by
  cases vs <;> rfl

theorem spreadVerdicts_cons (v : Verdict) (vs : List Verdict) (c : Char) (cs : List Char) :
    spreadVerdicts (v :: vs) (c :: cs) = List.replicate c.utf8Size v ++ spreadVerdicts vs cs := rfl

/-- The same verdict on every character of a text. -/
theorem spreadVerdicts_replicate (v : Verdict) (vs : List Verdict) (X Y : List Char) :
    spreadVerdicts (List.replicate X.length v ++ vs) (X ++ Y) =
      List.replicate (byteLength X) v ++ spreadVerdicts vs Y := by
  induction X with
  | nil => rfl
  | cons c X ih =>
    rw [List.length_cons, List.replicate_succ, List.cons_append, List.cons_append,
      spreadVerdicts_cons, ih, byteLength_cons, List.replicate_add, List.append_assoc]

/-- Verdicts on ASCII text are verdicts on its bytes. -/
theorem spreadVerdicts_ascii (h : ∀ c ∈ cs.take n, isWide c = false) :
    spreadVerdicts (List.replicate n v) cs = List.replicate n v := by
  induction n generalizing cs with
  | zero => exact spreadVerdicts_nil cs
  | succ n ih =>
    cases cs with
    | nil => rfl
    | cons c cs =>
      rw [List.replicate_succ, spreadVerdicts_cons, utf8Size_of_ascii (h c List.mem_cons_self),
        ih fun x hx => h x (List.mem_cons_of_mem c hx)]
      rfl

/-! ## Heredocs -/

/-- Outside of the start of a line nothing closes a heredoc. -/
theorem closingLine_wide (hx : ∀ x ∈ xs, isWide x = true) (label ys : List Char) :
    closingLine label false (xs ++ ys) = (closingLine label false ys).map (xs.length + ·) := by
  induction xs with
  | nil =>
    rw [List.nil_append]
    cases closingLine label false ys <;> simp
  | cons x xs ih =>
    have hne := ne_of_isWide (hx x List.mem_cons_self) (x := '\n') rfl
    rw [List.cons_append, closingLine]
    simp only [Bool.false_and, Bool.false_eq_true, if_false, Bool.or_false,
      beq_eq_false_iff_ne.mpr hne, ih fun y hy => hx y (List.mem_cons_of_mem x hy), Option.map_map,
      List.length_cons]
    congr 1
    funext n
    simp only [Function.comp_apply]
    omega

/-- **The line that closes a heredoc** is found in the bytes where it is found in the text. -/
theorem closingLine_spread (label : List Char) (atStart : Bool) (cs : List Char) :
    closingLine (spread label) atStart (spread cs) =
      (closingLine label atStart cs).map fun n => byteLength (cs.take n) := by
  induction cs generalizing atStart with
  | nil => rfl
  | cons c cs ih =>
    -- the identifier closes the heredoc in both readings or in none
    have htest : ((spread label).isPrefixOf (spread (c :: cs)) &&
          !((spread (c :: cs)).drop (spread label).length).head?.any isIdentChar) =
        (label.isPrefixOf (c :: cs) && !((c :: cs).drop label.length).head?.any isIdentChar) := by
      rw [isPrefixOf_spread]
      by_cases hp : label.isPrefixOf (c :: cs) = true
      · obtain ⟨t, ht⟩ := List.isPrefixOf_iff_prefix.mp hp
        rw [← ht, spread_append, List.drop_left, List.drop_left,
          any_head?_spread asciiTest_isIdentChar]
      · rw [Bool.eq_false_iff.mpr hp]
        rfl
    obtain ⟨x, xs, hs⟩ := exists_spreadChar_eq_cons c
    have hcons : spread (c :: cs) = x :: (xs ++ spread cs) := by
      rw [spread_cons, hs]
      rfl
    rw [hcons, closingLine, ← hcons, Bool.and_assoc, htest, closingLine, Bool.and_assoc]
    split
    · rfl
    · cases hc : isWide c with
      | false =>
        rw [spreadChar_of_ascii hc] at hs
        obtain ⟨rfl, rfl⟩ := List.cons.inj hs
        rw [List.nil_append, ih, Option.map_map, Option.map_map]
        congr 1
        funext n
        simp only [Function.comp_apply, List.take_succ_cons, byteLength_cons, utf8Size_of_ascii hc]
        omega
      | true =>
        have hwide : ∀ y ∈ x :: xs, isWide y = true := fun y hy =>
          isWide_of_mem_spreadChar hc (hs ▸ hy)
        have hflag : ∀ y, isWide y = true → (y == '\n' || (atStart && isIndent y)) = false := by
          intro y hy
          simp [isIndent, ne_of_isWide hy (x := '\n') rfl, ne_of_isWide hy (x := ' ') rfl,
            ne_of_isWide hy (x := '\t') rfl]
        have hlen : xs.length + 1 = c.utf8Size := by
          rw [← length_spreadChar, hs]
          rfl
        rw [hflag x (hwide x List.mem_cons_self), hflag c hc,
          closingLine_wide fun y hy => hwide y (List.mem_cons_of_mem x hy), ih, Option.map_map,
          Option.map_map,
          Option.map_map]
        congr 1
        funext n
        simp only [Function.comp_apply, List.take_succ_cons, byteLength_cons]
        omega

theorem isEmpty_spread (cs : List Char) : (spread cs).isEmpty = cs.isEmpty := by
  cases cs with
  | nil => rfl
  | cons c cs =>
    obtain ⟨x, xs, hs⟩ := exists_spreadChar_eq_cons c
    rw [spread_cons, hs]
    rfl

theorem byteLength_of_ascii (h : ∀ c ∈ cs, isWide c = false) : byteLength cs = cs.length := by
  induction cs with
  | nil => rfl
  | cons c cs ih =>
    rw [byteLength_cons, utf8Size_of_ascii (h c List.mem_cons_self),
      ih fun x hx => h x (List.mem_cons_of_mem c hx), List.length_cons]
    omega

/-- One verdict more than there are characters. -/
theorem spreadVerdicts_past (v : Verdict) (X : List Char) :
    spreadVerdicts (List.replicate (X.length + 1) v) X = List.replicate (byteLength X + 1) v := by
  have := spreadVerdicts_replicate v [v] X []
  rwa [List.append_nil, spreadVerdicts_nil_right, ← List.replicate_succ',
    ← List.replicate_succ'] at this

theorem spreadVerdicts_whole (v : Verdict) (X : List Char) :
    spreadVerdicts (List.replicate X.length v) X = List.replicate (byteLength X) v := by
  have := spreadVerdicts_replicate v [] X []
  rwa [List.append_nil, List.append_nil, spreadVerdicts_nil, List.append_nil] at this

/-- A heredoc from behind its identifier on, where what stands in front of the identifier and the
closing quote are ASCII. -/
theorem heredocLabelled_spread {lead quote : Nat} {P label tail : List Char}
    (hP : ∀ c ∈ P, isWide c = false) (hlead : P.length = lead + quote) (hquote : quote ≤ 1)
    (htail : ∀ c ∈ tail.take quote, isWide c = false) :
    heredocLabelled lead quote (spread label) (spread tail) =
      (heredocLabelled lead quote label tail).map (spreadVerdicts · (P ++ (label ++ tail))) := by
  unfold heredocLabelled
  rw [isEmpty_spread, isEmpty_spread]
  split
  · simp [Except.map]
  split
  · rfl
  rename_i hopen
  have hle : quote ≤ tail.length := by
    rw [Bool.and_eq_true, beq_iff_eq, List.isEmpty_iff] at hopen
    rcases Nat.le_one_iff_eq_zero_or_eq_one.mp hquote with rfl | rfl
    · exact Nat.zero_le _
    · exact List.length_pos_iff.mpr fun h => hopen ⟨rfl, h⟩
  have hlen : (tail.take quote).length = quote := by rw [List.length_take]; omega
  have hdrop : (spread tail).drop quote = spread (tail.drop quote) := by
    have := @drop_spread _ tail htail (by rw [hlen])
    rwa [hlen] at this
  obtain ⟨line, hline⟩ : ∃ line, line = (tail.drop quote).takeWhile (· ≠ '\n') := ⟨_, rfl⟩
  obtain ⟨rest, hrest⟩ : ∃ rest, rest = (tail.drop quote).dropWhile (· ≠ '\n') := ⟨_, rfl⟩
  -- the text is the front, the identifier, the quote, the first line and the rest
  have hsplit : tail = tail.take quote ++ (line ++ rest) := by
    rw [hline, hrest, List.takeWhile_append_dropWhile, List.take_append_drop]
  have hfront : byteLength P = lead + quote := (byteLength_of_ascii hP).trans hlead
  have hclose : byteLength (tail.take quote) = quote := (byteLength_of_ascii htail).trans hlen
  dsimp only
  rw [hdrop, takeWhile_spread asciiTest_ne_break, length_spread, length_spread, ← hline,
    ← length_spread line,
    hline, ← takeWhile_spread asciiTest_ne_break, drop_length_takeWhile,
    dropWhile_spread asciiTest_ne_break,
    drop_length_takeWhile, takeWhile_spread asciiTest_ne_break, ← hline, ← hrest, length_spread]
  cases hbreak : rest with
  | nil =>
    -- the text ends with the first line
    rw [hbreak, List.append_nil] at hsplit
    have hcount : lead + quote + label.length + quote + line.length =
        (P ++ (label ++ tail)).length := by
      rw [hsplit]
      simp only [List.length_append, hlen, hlead]
      omega
    have hbytes : byteLength (P ++ (label ++ tail)) =
        lead + quote + byteLength label + quote + byteLength line := by
      rw [hsplit]
      simp only [byteLength_append, hfront, hclose]
      omega
    rw [spread_nil, List.drop_nil, closingLine, closingLine, Except.map, List.length_nil,
      List.replicate_zero, List.append_nil, List.append_nil, hcount, spreadVerdicts_past, hbytes]
  | cons c body =>
    -- the first line ends, and the body is searched for the identifier
    obtain rfl : c = '\n' := eq_break_of_dropWhile (hrest.symm.trans hbreak)
    rw [hbreak] at hsplit
    have htext : P ++ (label ++ tail) =
        (P ++ (label ++ (tail.take quote ++ (line ++ ['\n'])))) ++ body := by
      conv_lhs => rw [hsplit]
      simp
    have hcount : lead + quote + label.length + quote + line.length + 1 =
        (P ++ (label ++ (tail.take quote ++ (line ++ ['\n'])))).length := by
      simp only [List.length_append, hlen, hlead, List.length_singleton]
      omega
    have hbytes : byteLength (P ++ (label ++ (tail.take quote ++ (line ++ ['\n'])))) =
        lead + quote + byteLength label + quote + byteLength line + 1 := by
      simp only [byteLength_append, hfront, hclose, byteLength_cons, byteLength_nil,
        show ('\n' : Char).utf8Size = 1 from rfl]
      omega
    rw [spread_cons, show spreadChar '\n' = ['\n'] from spreadChar_of_ascii rfl,
      List.singleton_append,
      List.drop_one, List.tail_cons, List.drop_one, List.tail_cons, closingLine_spread, hcount,
      htext, length_spread]
    cases hclosing : closingLine label true body with
    | none =>
      simp only [Option.map_none, Except.map]
      rw [spreadVerdicts_replicate, hbytes, spreadVerdicts_whole]
    | some n =>
      obtain ⟨X, t, rfl, rfl⟩ := closingLine_split hclosing
      have hlabel := spreadVerdicts_replicate .keep [] label t
      rw [List.append_nil, spreadVerdicts_nil, List.append_nil] at hlabel
      simp only [Option.map_some, Except.map, List.take_left]
      rw [List.append_assoc, List.append_assoc, spreadVerdicts_replicate, spreadVerdicts_replicate,
        hbytes, hlabel]

theorem quoteLength_spread (cs : List Char) : quoteLength (spread cs) = quoteLength cs := by
  have hone := head?_spread (y := '\x27') rfl cs
  have htwo := head?_spread (y := '\x22') rfl cs
  unfold quoteLength
  simp only [Bool.or_eq_true, beq_iff_eq, hone, htwo]

/-- The quote in front of a heredoc's identifier is ASCII. -/
theorem ascii_of_quoteLength : ∀ c ∈ cs.take (quoteLength cs), isWide c = false := by
  intro c hc
  unfold quoteLength at hc
  split at hc
  · rename_i hq
    cases cs with
    | nil => simp at hc
    | cons d cs =>
      obtain rfl : c = d := by simpa using hc
      simp only [List.head?_cons, Bool.or_eq_true, beq_iff_eq, Option.some.injEq] at hq
      rcases hq with rfl | rfl <;> rfl
  · simp at hc

theorem ascii_of_isIndent (h : isIndent c = true) : isWide c = false := by
  simp only [isIndent, Bool.or_eq_true, beq_iff_eq] at h
  rcases h with rfl | rfl <;> rfl

/-- **The verdicts on the bytes of a heredoc** are those on its characters. -/
theorem heredoc_spread (rest : List Char) :
    heredoc (spread rest) = (heredoc rest).map (spreadVerdicts · rest) := by
  obtain ⟨ws, hws⟩ : ∃ ws, ws = rest.takeWhile isIndent := ⟨_, rfl⟩
  obtain ⟨opener, hopener⟩ : ∃ opener, opener = rest.dropWhile isIndent := ⟨_, rfl⟩
  have hsplit : rest = ws ++ opener := by rw [hws, hopener, List.takeWhile_append_dropWhile]
  have hascii : ∀ c ∈ ws, isWide c = false := by
    intro c hc
    rw [hws] at hc
    exact ascii_of_isIndent (List.mem_takeWhile_imp hc)
  obtain ⟨q, hq⟩ : ∃ q, q = opener.take (quoteLength opener) := ⟨_, rfl⟩
  obtain ⟨label, hlabel⟩ : ∃ label, label =
      (opener.drop (quoteLength opener)).takeWhile isIdentChar := ⟨_, rfl⟩
  obtain ⟨tail, htail⟩ : ∃ tail, tail = (opener.drop (quoteLength opener)).dropWhile isIdentChar :=
    ⟨_, rfl⟩
  have hquoteAscii : ∀ c ∈ q, isWide c = false := hq ▸ ascii_of_quoteLength
  have hqlen : q.length = quoteLength opener := by
    rw [hq, List.length_take]
    unfold quoteLength
    split
    · rename_i hsome
      cases opener with
      | nil => simp at hsome
      | cons c cs => simp
    · simp
  have htext : rest = (ws ++ q) ++ (label ++ tail) := by
    rw [hlabel, htail, List.takeWhile_append_dropWhile, hq, List.append_assoc,
      List.take_append_drop, hsplit]
  -- behind the identifier stands no character outside ASCII, for it would belong to the identifier
  have htailAscii : ∀ c ∈ tail.take (quoteLength opener), isWide c = false := by
    intro c hc
    have hc' : c ∈ tail.take 1 := (List.take_subset_take_left tail (quoteLength_le opener)) hc
    cases htl : tail with
    | nil => rw [htl] at hc'; simp at hc'
    | cons d t =>
      rw [htl, List.take_succ_cons, List.take_zero, List.mem_singleton] at hc'
      subst hc'
      cases hwide : isWide c with
      | false => rfl
      | true =>
        have hident : isIdentChar c = true := by
          have : 0x80 ≤ c.toNat := by simpa [isWide] using hwide
          simp [isIdentChar, this]
        have hnot : ∀ d ∈ ((opener.drop (quoteLength opener)).dropWhile isIdentChar).head?,
            isIdentChar d = false := by
          intro d hd
          have := List.head?_dropWhile_not isIdentChar (opener.drop (quoteLength opener))
          rw [Option.mem_def.mp hd] at this
          simpa using this
        have := hnot c (by rw [← htail, htl]; rfl)
        rw [hident] at this
        cases this
  have hdropQuote : (spread opener).drop (quoteLength opener) =
      spread (opener.drop (quoteLength opener)) := by
    have := @drop_spread _ opener hquoteAscii (by rw [hqlen, hq])
    rwa [hqlen] at this
  rw [heredoc_eq, heredoc_eq, dropWhile_spread asciiTest_isIndent, ← hopener,
    length_spread, length_spread]
  have hlead : byteLength rest - byteLength opener = rest.length - opener.length := by
    rw [hsplit, byteLength_append, List.length_append, byteLength_of_ascii hascii]
    omega
  rw [hlead, heredocOpened, heredocOpened, quoteLength_spread]
  rw [hdropQuote, drop_length_takeWhile, drop_length_takeWhile,
    takeWhile_spread asciiTest_isIdentChar, dropWhile_spread asciiTest_isIdentChar, ← hlabel,
    ← htail, htext]
  refine heredocLabelled_spread (fun c hc => ?_) ?_ (quoteLength_le opener) htailAscii
  · rcases List.mem_append.mp hc with h | h
    · exact hascii c h
    · exact hquoteAscii c h
  · rw [List.length_append, hqlen, ← htext, hsplit, List.length_append]
    omega

/-! ## Steps -/

theorem isWide_toLower (h : isWide c = true) : isWide c.toLower = true := by
  have hge : 0x80 ≤ c.toNat := by simpa [isWide] using h
  have hsame : c.toLower = c := by
    refine dif_neg fun hupper => ?_
    have := UInt32.le_iff_toNat_le.mp hupper.2
    exact absurd (Nat.le_trans hge this) (by decide)
  rwa [hsame]

theorem tagRest_spread (rest : List Char) : tagRest (spread rest) = tagRest rest := by
  have hlong : eqIgnoreCase ((spread rest).take 4) "?php".toList =
      eqIgnoreCase (rest.take 4) "?php".toList := by
    rw [Bool.eq_iff_iff, eqIgnoreCase, eqIgnoreCase, beq_iff_eq, beq_iff_eq]
    exact map_take_spread (w := "?php".toList) (fun _ => isWide_toLower) (by decide) rest
  have hshort : (spread rest).take 2 = "?=".toList ↔ rest.take 2 = "?=".toList :=
    take_spread (w := "?=".toList) (by decide) rest
  simp only [tagRest, hlong, hshort]

/-- A tag is ASCII. -/
theorem ascii_of_mem_take_tagRest {rest : List Char} (h : rest.head? = some '?') :
    ∀ c ∈ rest.take (tagRest rest), isWide c = false := by
  intro c hc
  by_contra hwide
  have hlower := isWide_toLower (Bool.not_eq_false _ ▸ hwide)
  unfold tagRest at hc
  split at hc
  · rename_i hlong
    rw [eqIgnoreCase, beq_iff_eq] at hlong
    have hmem : c.toLower ∈ "?php".toList.map Char.toLower := hlong ▸ List.mem_map_of_mem hc
    have hascii : ∀ x ∈ "?php".toList.map Char.toLower, isWide x = false := by decide
    rw [hascii _ hmem] at hlower
    cases hlower
  split at hc
  · rename_i hshort
    rw [hshort] at hc
    have hascii : ∀ x ∈ "?=".toList, isWide x = false := by decide
    exact hwide (hascii c hc)
  · obtain ⟨t, rfl⟩ : ∃ t, rest = '?' :: t := ⟨rest.tail, (List.cons_head?_tail h).symm⟩
    obtain rfl : c = '?' := by simpa using hc
    exact hwide rfl

/-- The decision on a byte, given that on its character. -/
def Decision.spread (cs : List Char) (d : Decision) : Decision :=
  ⟨d.verdict, spreadVerdicts d.further cs, d.mode⟩

theorem Decision.spread_alone : Decision.spread cs ⟨v, [], m⟩ = ⟨v, [], m⟩ := by
  rw [Decision.spread, spreadVerdicts_nil]

theorem Decision.spread_run (h : ∀ c ∈ cs.take n, isWide c = false) :
    Decision.spread cs ⟨v, List.replicate n v, m⟩ = ⟨v, List.replicate n v, m⟩ := by
  rw [Decision.spread, spreadVerdicts_ascii h]

theorem Decision.spread_next (hy : isWide y = false) (h : cs.head? = some y) :
    Decision.spread cs ⟨v, [v], m⟩ = ⟨v, [v], m⟩ := by
  refine Decision.spread_run (n := 1) fun c hc => ?_
  obtain ⟨t, rfl⟩ : ∃ t, cs = y :: t := ⟨cs.tail, (List.cons_head?_tail h).symm⟩
  obtain rfl : c = y := by simpa using hc
  exact hy

theorem stepCode_spread (c : Char) (cs : List Char) :
    stepCode c (spread cs) = (stepCode c cs).map (Decision.spread cs) := by
  have htake : (spread cs).take 2 = ['<', '<'] ↔ cs.take 2 = ['<', '<'] :=
    take_spread (w := ['<', '<']) (by decide) cs
  simp only [stepCode_eq, head?_spread (y := '>') rfl, head?_spread (y := '/') rfl,
    head?_spread (y := '*') rfl, ne_eq, head?_spread (y := '[') rfl, htake]
  split
  · rename_i h
    rw [Except.map, Decision.spread_next rfl h.2]
  split
  · rename_i h
    rw [Except.map, Decision.spread_next rfl h.2]
  split
  · rename_i h
    rw [Except.map, Decision.spread_next rfl h.2]
  split
  · rename_i h
    obtain ⟨rest, rfl⟩ : ∃ rest, cs = '<' :: '<' :: rest :=
      ⟨cs.drop 2, (List.take_append_drop 2 cs).symm.trans (by rw [h.2]; rfl)⟩
    have hdrop : (spread ('<' :: '<' :: rest)).drop 2 = spread rest := rfl
    rw [hdrop, heredoc_spread]
    simp only [List.drop_succ_cons, List.drop_zero]
    cases heredoc rest <;> rfl
  split
  · rw [Except.map, Decision.spread_alone]
  split <;> rw [Except.map, Decision.spread_alone]

/-- **What is decided on a character** does not depend on whether characters or bytes follow it. -/
theorem Mode.step_spread (m : Mode) (c : Char) (cs : List Char) :
    m.step c (spread cs) = (m.step c cs).map (Decision.spread cs) := by
  cases m with
  | html =>
    simp only [Mode.step, head?_spread (y := '?') rfl, tagRest_spread]
    split
    · rename_i h
      rw [Except.map, Decision.spread_run (ascii_of_mem_take_tagRest h.2)]
    · rw [Except.map, Decision.spread_alone]
  | code => exact stepCode_spread c cs
  | lineComment =>
    simp only [Mode.step, head?_spread (y := '>') rfl]
    split
    · rw [Except.map, Decision.spread_alone]
    split
    · rename_i h
      rw [Except.map, Decision.spread_next rfl h.2]
    · rw [Except.map, Decision.spread_alone]
  | blockComment =>
    simp only [Mode.step, head?_spread (y := '/') rfl]
    split
    · rename_i h
      rw [Except.map, Decision.spread_next rfl h.2]
    · rw [Except.map, Decision.spread_alone]
  | quoted q =>
    have htest : AsciiTest fun d => d.toNat < 0x80 := by
      intro x y hx hy
      simp only [isWide, decide_eq_true_eq] at hx hy
      exact (decide_eq_false (Nat.not_lt.mpr hx)).trans (decide_eq_false (Nat.not_lt.mpr hy)).symm
    simp only [Mode.step, any_head?_spread htest]
    split
    · split
      · rename_i h
        cases hhead : cs.head? with
        | none =>
          rw [hhead] at h
          cases h
        | some y =>
          rw [hhead] at h
          rw [Except.map, Decision.spread_next (by simpa [isWide] using h) hhead]
      · rw [Except.map, Decision.spread_alone]
    split <;> rw [Except.map, Decision.spread_alone]

/-- The decision on a character outside ASCII, or on one of its bytes. -/
theorem Mode.step_wide (hm : m.Proper) (hx : isWide x = true) (rest : List Char) :
    m.step x rest = .ok ⟨if m = .code then .keep else .blank, [], m⟩ := by
  have hne : ∀ y, isWide y = false → x ≠ y := fun y hy => ne_of_isWide hx hy
  cases m with
  | html => simp [Mode.step, hne '<' rfl]
  | code =>
    have hplain : isPlain x = true := by
      have hascii : ∀ y ∈ ['?', '/', '<', '#', '\x27', '\x22', '\x60'], isWide y = false := by
        decide
      rw [isPlain, decide_eq_true_eq]
      exact fun hmem => hne x (hascii x hmem) rfl
    rw [Mode.step, stepCode_of_isPlain hplain, if_pos rfl]
  | lineComment => simp [Mode.step, hne '\n' rfl, hne '?' rfl]
  | blockComment => simp [Mode.step, hne '*' rfl]
  | quoted q =>
    have hq : x ≠ q := by
      have := hm q rfl
      simp only [quotes, List.mem_cons, List.not_mem_nil, or_false] at this
      rcases this with rfl | rfl | rfl <;> exact hne _ rfl
    simp [Mode.step, hne '\\' rfl, hq]

/-! ## Walks -/

/-- Known verdicts are given to the characters that they are known for. -/
theorem verdictsFrom_known_append {known : List Verdict} (xs ys : List Char) :
    verdictsFrom (List.replicate xs.length v ++ known) m (xs ++ ys) =
      (verdictsFrom known m ys).map (List.replicate xs.length v ++ ·) := by
  induction xs with
  | nil => cases h : verdictsFrom known m ys <;> simp [h, Except.map]
  | cons x xs ih =>
    rw [List.length_cons, List.replicate_succ, List.cons_append, List.cons_append, verdictsFrom, ih]
    cases verdictsFrom known m ys <;> rfl

/-- Characters outside ASCII are all decided alike. -/
theorem verdictsFrom_wide (hm : m.Proper) (hx : ∀ x ∈ xs, isWide x = true) (ys : List Char) :
    verdictsFrom [] m (xs ++ ys) =
      (verdictsFrom [] m ys).map
      (List.replicate xs.length (if m = .code then .keep else .blank) ++ ·) := by
  induction xs with
  | nil => cases h : verdictsFrom [] m ys <;> simp [h, Except.map]
  | cons x xs ih =>
    rw [List.cons_append, verdictsFrom, Mode.step_wide hm (hx x List.mem_cons_self),
      List.length_cons, List.replicate_succ]
    simp only [bind, Except.bind, ih fun y hy => hx y (List.mem_cons_of_mem x hy)]
    cases verdictsFrom [] m ys <;> rfl

/-- **Every byte has the verdict of its character**, from any mode on. -/
theorem verdictsFrom_spread (hm : m.Proper) (known : List Verdict) (cs : List Char) :
    verdictsFrom (spreadVerdicts known cs) m (spread cs) =
      (verdictsFrom known m cs).map (spreadVerdicts · cs) := by
  induction cs generalizing known m with
  | nil => cases known <;> rfl
  | cons c cs ih =>
    rw [spread_cons]
    cases known with
    | cons v known =>
      rw [spreadVerdicts_cons, ← length_spreadChar, verdictsFrom_known_append, ih hm, verdictsFrom]
      cases verdictsFrom known m cs <;> simp [Except.map, spreadVerdicts_cons]
    | nil =>
      rw [spreadVerdicts_nil]
      cases hc : isWide c with
      | true =>
        rw [verdictsFrom_wide hm (fun x hx => isWide_of_mem_spreadChar hc hx), verdictsFrom,
          Mode.step_wide hm hc]
        have hrest := ih hm []
        rw [spreadVerdicts_nil] at hrest
        rw [hrest]
        cases h : verdictsFrom [] m cs <;>
          simp [bind, pure, Except.bind, Except.pure, Except.map, spreadVerdicts_cons, h]
      | false =>
        rw [spreadChar_of_ascii hc, List.singleton_append, verdictsFrom, verdictsFrom,
          Mode.step_spread]
        cases hstep : m.step c cs with
        | error e => rfl
        | ok d =>
          have hrest := ih (Mode.proper_step hm hstep) d.further
          simp only [bind, pure, Except.bind, Except.pure, Except.map, Decision.spread, hrest]
          cases verdictsFrom d.further d.mode cs <;>
            simp [spreadVerdicts_cons, utf8Size_of_ascii hc]

theorem hasOpenTag_wide (hx : ∀ x ∈ xs, isWide x = true) : hasOpenTag xs = false := by
  induction xs with
  | nil => rfl
  | cons x xs ih =>
    have hne := ne_of_isWide (hx x List.mem_cons_self) (x := '<') rfl
    rw [← List.singleton_append, hasOpenTag_append, ih fun y hy => hx y (List.mem_cons_of_mem x hy)]
    simp [hasOpenTag, hne]

theorem hasOpenTag_spread (cs : List Char) : hasOpenTag (spread cs) = hasOpenTag cs := by
  induction cs with
  | nil => rfl
  | cons c cs ih =>
    have hhead : ((spread cs).head? == some '?') = (cs.head? == some '?') := by
      rw [Bool.eq_iff_iff, beq_iff_eq, beq_iff_eq, head?_spread rfl]
    rw [spread_cons, ← List.singleton_append, hasOpenTag_append, hasOpenTag_append, ih, hhead]
    cases hc : isWide c with
    | false => rw [spreadChar_of_ascii hc]
    | true =>
      have hlast : (spreadChar c).getLast? ≠ some '<' := fun h =>
        ne_of_isWide (isWide_of_mem_spreadChar hc (List.mem_of_getLast? h)) rfl rfl
      rw [hasOpenTag_wide fun x hx => isWide_of_mem_spreadChar hc hx, beq_eq_false_iff_ne.mpr hlast]
      simp [hasOpenTag, ne_of_isWide hc (x := '<') rfl]

/-- **Every byte has the verdict of its character.** -/
theorem verdicts_spread (cs : List Char) :
    verdicts (spread cs) = (verdicts cs).map (spreadVerdicts · cs) := by
  have hstart : startMode (spread cs) = startMode cs := by
    rw [startMode, startMode, hasOpenTag_spread]
  have h := verdictsFrom_spread (Mode.proper_startMode cs) [] cs
  rw [spreadVerdicts_nil] at h
  rwa [verdicts, verdicts, hstart]

/-! ## Views of bytes -/

theorem renderByte_blank (h : b ≠ 0x0a ∧ b ≠ 0x0d) : Verdict.blank.renderByte b = 0x20 :=
  if_neg (not_or.mpr h)

/-- The bytes of a character are neither line feeds nor carriage returns, unless the character is
one. -/
theorem ne_break_of_mem_utf8EncodeChar (hc : ¬ (c = '\n' ∨ c = '\r'))
    (hb : b ∈ String.utf8EncodeChar c) : b ≠ 0x0a ∧ b ≠ 0x0d := by
  have hmem : byteChar b ∈ spreadChar c := List.mem_map_of_mem hb
  cases hwide : isWide c with
  | true =>
    have hne : ∀ y, isWide y = false → byteChar b ≠ y := fun y hy =>
      ne_of_isWide (isWide_of_mem_spreadChar hwide hmem) hy
    exact ⟨fun h => hne '\n' rfl (h ▸ rfl), fun h => hne '\r' rfl (h ▸ rfl)⟩
  | false =>
    rw [spreadChar_of_ascii hwide, List.mem_singleton] at hmem
    exact ⟨fun h => hc (.inl (hmem ▸ h ▸ rfl)), fun h => hc (.inr (hmem ▸ h ▸ rfl))⟩

/-- **An ASCII character stands in a text as often as its byte among the bytes.** -/
theorem count_utf8Bytes (hb : isWide (byteChar b) = false) (cs : List Char) :
    (utf8Bytes cs).count b = cs.count (byteChar b) := by
  rw [← List.count_map_of_injective _ _ byteChar_injective, map_byteChar_utf8Bytes]
  induction cs with
  | nil => rfl
  | cons c cs ih =>
    rw [spread_cons, List.count_append, ih, List.count_cons, Nat.add_comm]
    congr 1
    cases hwide : isWide c with
    | true =>
      have hnot : byteChar b ∉ spreadChar c := fun hmem =>
        ne_of_isWide (isWide_of_mem_spreadChar hwide hmem) hb rfl
      rw [List.count_eq_zero.mpr hnot, if_neg (by simpa using ne_of_isWide hwide hb)]
    | false => rw [spreadChar_of_ascii hwide, List.count_singleton]

theorem utf8Bytes_replicate_space (n : Nat) :
    utf8Bytes (List.replicate n ' ') = List.replicate n 0x20 := by
  induction n with
  | zero => rfl
  | succ n ih =>
    rw [List.replicate_succ, utf8Bytes_cons, ih, List.replicate_succ]
    rfl

/-- The bytes of a character with their verdict carried out. -/
theorem zipWith_renderByte (c : Char) (v : Verdict) :
    List.zipWith (fun b v =>
      Verdict.renderByte b v) (String.utf8EncodeChar c) (List.replicate c.utf8Size v) =
      utf8Bytes (v.render c) := by
  rw [← String.length_utf8EncodeChar, ← List.map_const', List.zipWith_map_right, List.zipWith_self]
  cases v with
  | keep => simp [Verdict.renderByte, Verdict.render, utf8Bytes]
  | blank =>
    by_cases hc : c = '\n' ∨ c = '\r'
    · rcases hc with rfl | rfl <;> decide
    · rw [Verdict.render, if_neg hc, utf8Bytes_replicate_space, ← String.length_utf8EncodeChar,
        ← List.map_const']
      exact List.map_congr_left fun b hb => renderByte_blank (ne_break_of_mem_utf8EncodeChar hc hb)

theorem zipWith_spreadVerdicts (cs : List Char) (vs : List Verdict) :
    List.zipWith (fun b v => Verdict.renderByte b v) (utf8Bytes cs) (spreadVerdicts vs cs) =
      utf8Bytes (rendered cs vs) := by
  induction cs generalizing vs with
  | nil => rfl
  | cons c cs ih =>
    cases vs with
    | nil => simp [rendered, utf8Bytes]
    | cons v vs =>
      rw [spreadVerdicts_cons, utf8Bytes_cons, List.zipWith_append, ih, zipWith_renderByte,
        ← utf8Bytes_append]
      · rfl
      · rw [String.length_utf8EncodeChar, List.length_replicate]

/-- **The code view of the bytes of a text** are the bytes of its code view. -/
theorem maskBytes_utf8Bytes (cs : List Char) :
    maskBytes (utf8Bytes cs) = (codeView cs).map utf8Bytes := by
  rw [maskBytes, map_byteChar_utf8Bytes, verdicts_spread, codeView]
  cases verdicts cs with
  | error e => rfl
  | ok vs => exact congrArg Except.ok (zipWith_spreadVerdicts cs vs)

end UseImports
