import UseImports.Text.Bytes
import Mathlib.Tactic

/-!
# Texts and their bytes

The bytes of a text are read back as the text. Each character is read by the branch that its size
selects, and what stands behind it is left.

* `decodeFirst_encode`: **the bytes of a character are read as the character**, whatever follows.
* `utf8Bytes_prefix_iff`: a text begins with another one where its bytes do.
* `decodeUtf8?_utf8Bytes`: **the bytes of a text are UTF-8, and they are read as the text.**
* `utf8Bytes_of_decodeUtf8?`: bytes that are read as a text are the bytes of it, and
  `decodeLossy_of_decodeUtf8?`: no reading gives another one.
-/

namespace UseImports

variable {n : Nat} {b high low : UInt8} {c : Char} {bs : List UInt8} {cs : List Char}

/-! ## Bytes of a text -/

@[simp] theorem utf8Bytes_nil : utf8Bytes [] = [] := rfl

theorem utf8Bytes_cons (c : Char) (cs : List Char) :
    utf8Bytes (c :: cs) = String.utf8EncodeChar c ++ utf8Bytes cs := rfl

theorem utf8Bytes_append (as bs : List Char) :
    utf8Bytes (as ++ bs) = utf8Bytes as ++ utf8Bytes bs :=
  List.flatMap_append

theorem length_utf8Bytes (cs : List Char) : (utf8Bytes cs).length = byteLength cs := by
  induction cs with
  | nil => rfl
  | cons c cs ih =>
    rw [utf8Bytes_cons, List.length_append, String.length_utf8EncodeChar, ih, byteLength_cons]

/-! ## Reading a character -/

theorem toNat_ofNat_of_lt (h : n < 256) : (UInt8.ofNat n).toNat = n := by
  rw [UInt8.toNat_ofNat']
  exact Nat.mod_eq_of_lt h

/-- Every character has a code below the surrogates or above them. -/
theorem Char.toNat_valid (c : Char) :
    c.val.toNat < 0xd800 ∨ 0xdfff < c.val.toNat ∧ c.val.toNat < 0x110000 :=
  c.valid

theorem charOfNat_toNat (c : Char) (h : n = c.val.toNat) : Char.ofNat n = c := by
  rw [h]
  exact Char.ofNat_toNat c

/-- The byte lies in a range. -/
def ByteBetween (low high b : UInt8) : Prop :=
  low.toNat ≤ b.toNat ∧ b.toNat ≤ high.toNat

theorem byteBetween_iff : (low ≤ b && b ≤ high) = true ↔ ByteBetween low high b := by
  simp [ByteBetween, UInt8.le_iff_toNat_le]

theorem isContinuation_iff : isContinuation b = true ↔ ByteBetween 0x80 0xbf b :=
  byteBetween_iff

/-- What the first byte of a character of two, three or four bytes says about the second one. -/
theorem leadByte?_cases (b : UInt8) (h : ByteBetween 0xc2 0xf4 b) :
    ∃ size low high, leadByte? b = some (size, low, high) ∧
      size = (if b.toNat < 0xe0 then 2 else if b.toNat < 0xf0 then 3 else 4) ∧
      low = (if b.toNat = 0xe0 then 0xa0 else if b.toNat = 0xf0 then 0x90 else 0x80) ∧
      high = (if b.toNat = 0xed then 0x9f else if b.toNat = 0xf4 then 0x8f else 0xbf) := by
  obtain ⟨hlow, hhigh⟩ := h
  rw [show (0xc2 : UInt8).toNat = 0xc2 from rfl] at hlow
  rw [show (0xf4 : UInt8).toNat = 0xf4 from rfl] at hhigh
  have hbyte : ∀ n : Fin 256, 0xc2 ≤ n.val → n.val ≤ 0xf4 →
      leadByte? (UInt8.ofNat n.val) =
        some (if n.val < 0xe0 then 2 else if n.val < 0xf0 then 3 else 4,
        if n.val = 0xe0 then 0xa0 else if n.val = 0xf0 then 0x90 else 0x80,
        if n.val = 0xed then 0x9f else if n.val = 0xf4 then 0x8f else 0xbf) := by
    decide +kernel
  have := hbyte ⟨b.toNat, b.toNat_lt⟩ hlow hhigh
  rw [UInt8.ofNat_toNat] at this
  exact ⟨_, _, _, this, rfl, rfl, rfl⟩

section Branches

variable {b₁ b₂ b₃ : UInt8} (bs : List UInt8)

theorem decodeFirst_one (h : b.toNat < 0x80) :
    decodeFirst b bs = .char (Char.ofNat b.toNat) bs := by
  unfold decodeFirst
  rw [if_pos (UInt8.lt_iff_toNat_lt.mpr h)]

variable (hb : 0x80 ≤ b.toNat) (h₁ : ByteBetween low high b₁)
include hb h₁

theorem decodeFirst_two (hlead : leadByte? b = some (2, low, high)) :
    decodeFirst b (b₁ :: bs) =
      .char (Char.ofNat ((b.toNat % 32) * 64 + continuationBits b₁)) bs := by
  unfold decodeFirst
  rw [if_neg fun h => Nat.not_lt.mpr hb (UInt8.lt_iff_toNat_lt.mp h), hlead]
  simp [byteBetween_iff.mpr h₁]

variable (h₂ : ByteBetween 0x80 0xbf b₂)
include h₂

theorem decodeFirst_three (hlead : leadByte? b = some (3, low, high)) :
    decodeFirst b (b₁ :: b₂ :: bs) =
      .char (Char.ofNat (((b.toNat % 16) * 64 + continuationBits b₁) * 64 + continuationBits b₂))
        bs := by
  unfold decodeFirst
  rw [if_neg fun h => Nat.not_lt.mpr hb (UInt8.lt_iff_toNat_lt.mp h), hlead]
  simp [byteBetween_iff.mpr h₁, isContinuation_iff.mpr h₂]

variable (h₃ : ByteBetween 0x80 0xbf b₃)
include h₃

theorem decodeFirst_four (hlead : leadByte? b = some (4, low, high)) :
    decodeFirst b (b₁ :: b₂ :: b₃ :: bs) = .char (Char.ofNat
      ((((b.toNat % 8) * 64 + continuationBits b₁) * 64 + continuationBits b₂) * 64 +
        continuationBits b₃)) bs := by
  unfold decodeFirst
  rw [if_neg fun h => Nat.not_lt.mpr hb (UInt8.lt_iff_toNat_lt.mp h), hlead]
  simp [byteBetween_iff.mpr h₁, isContinuation_iff.mpr h₂, isContinuation_iff.mpr h₃]

end Branches

/-- A byte in the middle of a character that carries the six bits `n`. -/
theorem byteBetween_continuation (h : n < 64) : ByteBetween 0x80 0xbf (UInt8.ofNat (n + 128)) := by
  rw [ByteBetween, toNat_ofNat_of_lt (by omega)]
  exact ⟨by show 128 ≤ _; omega, by show _ ≤ 191; omega⟩

theorem continuationBits_ofNat (h : n < 64) : continuationBits (UInt8.ofNat (n + 128)) = n := by
  rw [continuationBits, toNat_ofNat_of_lt (by omega)]
  omega

/-- **The bytes of a character are read as the character**, whatever follows. -/
theorem decodeFirst_encode (c : Char) (rest : List UInt8) :
    ∃ b bs, String.utf8EncodeChar c ++ rest = b :: bs ∧ decodeFirst b bs = .char c rest := by
  have hvalid := Char.toNat_valid c
  obtain ⟨v, hv⟩ : ∃ v, v = c.val.toNat := ⟨_, rfl⟩
  rw [← hv] at hvalid
  unfold String.utf8EncodeChar
  rw [← hv]
  dsimp only
  split
  · -- one byte
    refine ⟨_, rest, rfl, ?_⟩
    have hb : (UInt8.ofNat v).toNat = v := toNat_ofNat_of_lt (by omega)
    rw [decodeFirst_one rest (by omega), hb, charOfNat_toNat c hv]
  split
  · -- two bytes
    have hb : (UInt8.ofNat (v / 64 % 32 + 192)).toNat = v / 64 % 32 + 192 :=
      toNat_ofNat_of_lt (by omega)
    obtain ⟨size, low, high, hlead, hsize, hlow, hhigh⟩ :=
      leadByte?_cases (UInt8.ofNat (v / 64 % 32 + 192)) (by
        rw [ByteBetween, hb]
        exact ⟨by show 194 ≤ _; omega, by show _ ≤ 244; omega⟩)
    rw [hb] at hsize hlow hhigh
    rw [if_pos (by omega)] at hsize
    rw [if_neg (by omega), if_neg (by omega)] at hlow hhigh
    subst hsize hlow hhigh
    refine ⟨_, _ :: rest, rfl, ?_⟩
    rw [decodeFirst_two rest (by omega) (byteBetween_continuation (by omega)) hlead, hb,
      continuationBits_ofNat (by omega), charOfNat_toNat c (by omega)]
  split
  · -- three bytes: the second one is narrower behind the least first byte and in front of the
    -- surrogates
    have hb : (UInt8.ofNat (v / 4096 % 16 + 224)).toNat = v / 4096 % 16 + 224 :=
      toNat_ofNat_of_lt (by omega)
    obtain ⟨size, low, high, hlead, hsize, hlow, hhigh⟩ :=
      leadByte?_cases (UInt8.ofNat (v / 4096 % 16 + 224)) (by
        rw [ByteBetween, hb]
        exact ⟨by show 194 ≤ _; omega, by show _ ≤ 244; omega⟩)
    rw [hb] at hsize hlow hhigh
    rw [if_neg (by omega), if_pos (by omega)] at hsize
    subst hsize
    have hsecond : ByteBetween low high (UInt8.ofNat (v / 64 % 64 + 128)) := by
      rw [ByteBetween, toNat_ofNat_of_lt (by omega), hlow, hhigh]
      constructor
      · split
        · show 160 ≤ _; omega
        · rw [if_neg (by omega)]; show 128 ≤ _; omega
      · split
        · show _ ≤ 159; omega
        · rw [if_neg (by omega)]; show _ ≤ 191; omega
    refine ⟨_, _ :: _ :: rest, rfl, ?_⟩
    rw [decodeFirst_three rest (by omega) hsecond (byteBetween_continuation (by omega)) hlead, hb,
      continuationBits_ofNat (by omega), continuationBits_ofNat (by omega),
      charOfNat_toNat c (by omega)]
  · -- four bytes: the second one is narrower behind the least and the greatest first byte
    have hb : (UInt8.ofNat (v / 262144 % 8 + 240)).toNat = v / 262144 % 8 + 240 :=
      toNat_ofNat_of_lt (by omega)
    obtain ⟨size, low, high, hlead, hsize, hlow, hhigh⟩ :=
      leadByte?_cases (UInt8.ofNat (v / 262144 % 8 + 240)) (by
        rw [ByteBetween, hb]
        exact ⟨by show 194 ≤ _; omega, by show _ ≤ 244; omega⟩)
    rw [hb] at hsize hlow hhigh
    rw [if_neg (by omega), if_neg (by omega)] at hsize
    subst hsize
    have hsecond : ByteBetween low high (UInt8.ofNat (v / 4096 % 64 + 128)) := by
      rw [ByteBetween, toNat_ofNat_of_lt (by omega), hlow, hhigh]
      constructor
      · rw [if_neg (by omega)]
        split
        · show 144 ≤ _; omega
        · show 128 ≤ _; omega
      · rw [if_neg (by omega)]
        split
        · show _ ≤ 143; omega
        · show _ ≤ 191; omega
    refine ⟨_, _ :: _ :: _ :: rest, rfl, ?_⟩
    rw [decodeFirst_four rest (by omega) hsecond (byteBetween_continuation (by omega))
        (byteBetween_continuation (by omega)) hlead, hb,
      continuationBits_ofNat (by omega), continuationBits_ofNat (by omega),
      continuationBits_ofNat (by omega),
      charOfNat_toNat c (by omega)]

/-- The bytes of different characters differ, whatever follows them. -/
theorem utf8EncodeChar_append_inj {d : Char} {es : List UInt8}
    (h : String.utf8EncodeChar c ++ bs = String.utf8EncodeChar d ++ es) : c = d ∧ bs = es := by
  obtain ⟨b, rest, hc, hread⟩ := decodeFirst_encode c bs
  obtain ⟨b', rest', hd, hread'⟩ := decodeFirst_encode d es
  rw [hc, hd] at h
  obtain ⟨rfl, rfl⟩ := List.cons.inj h
  rw [hread] at hread'
  cases hread'
  exact ⟨rfl, rfl⟩

/-- The bytes of one text begin with those of another where the texts do. -/
theorem utf8Bytes_prefix_iff {as : List Char} : utf8Bytes as <+: utf8Bytes cs ↔ as <+: cs := by
  constructor
  · rintro ⟨t, ht⟩
    induction as generalizing cs with
    | nil => exact List.nil_prefix
    | cons a as ih =>
      rw [utf8Bytes_cons, List.append_assoc] at ht
      cases cs with
      | nil => exact absurd (List.append_eq_nil_iff.mp ht).1 String.utf8EncodeChar_ne_nil
      | cons c cs =>
        obtain ⟨rfl, hrest⟩ := utf8EncodeChar_append_inj ht
        exact List.cons_prefix_cons.mpr ⟨rfl, ih hrest⟩
  · rintro ⟨t, rfl⟩
    exact ⟨utf8Bytes t, (utf8Bytes_append as t).symm⟩

/-- **The bytes of a text are UTF-8, and they are read as the text.** -/
theorem decodeUtf8?_utf8Bytes (cs : List Char) : decodeUtf8? (utf8Bytes cs) = some cs := by
  induction cs with
  | nil =>
    rw [utf8Bytes_nil, decodeUtf8?]
  | cons c cs ih =>
    obtain ⟨b, bs, hbytes, hread⟩ := decodeFirst_encode c (utf8Bytes cs)
    rw [utf8Bytes_cons, hbytes, decodeUtf8?]
    split
    · rename_i c' rest h
      rw [hread] at h
      cases h
      rw [ih]
      rfl
    · rename_i rest h
      rw [hread] at h
      cases h

/-! ## Reading and writing again -/

/-- What the first byte of a character of several bytes says about their number and about the second
one. -/
theorem leadByte?_eq_some {size : Nat} (h : leadByte? b = some (size, low, high)) :
    size = (if b.toNat < 0xe0 then 2 else if b.toNat < 0xf0 then 3 else 4) ∧ 0xc2 ≤ b.toNat ∧
    b.toNat ≤ 0xf4 ∧
      0x80 ≤ low.toNat ∧ high.toNat ≤ 0xbf ∧ (b.toNat = 0xe0 → 0xa0 ≤ low.toNat) ∧
      (b.toNat = 0xed → high.toNat ≤ 0x9f) ∧ (b.toNat = 0xf0 → 0x90 ≤ low.toNat) ∧
      (b.toNat = 0xf4 → high.toNat ≤ 0x8f) := by
  have hbyte : ∀ n : Fin 256, ∀ x ∈ leadByte? (UInt8.ofNat n.val),
      x.1 = (if n.val < 0xe0 then 2 else if n.val < 0xf0 then 3 else 4) ∧
      0xc2 ≤ n.val ∧ n.val ≤ 0xf4 ∧
        0x80 ≤ x.2.1.toNat ∧ x.2.2.toNat ≤ 0xbf ∧ (n.val = 0xe0 → 0xa0 ≤ x.2.1.toNat) ∧
        (n.val = 0xed → x.2.2.toNat ≤ 0x9f) ∧ (n.val = 0xf0 → 0x90 ≤ x.2.1.toNat) ∧
        (n.val = 0xf4 → x.2.2.toNat ≤ 0x8f) := by
    decide +kernel
  have hb := hbyte ⟨b.toNat, b.toNat_lt⟩ (size, low, high)
  rw [UInt8.ofNat_toNat] at hb
  exact hb h

theorem toNat_val_ofNat (h : n < 0xd800 ∨ 0xdfff < n ∧ n < 0x110000) :
    (Char.ofNat n).val.toNat = n := by
  have hvalid : n.isValidChar := h
  rw [Char.ofNat, dif_pos hvalid]
  rfl

theorem ofNat_eq_byte (h : n = b.toNat) : UInt8.ofNat n = b := by
  rw [h, UInt8.ofNat_toNat]

/-- **What is read as a character are the bytes of the character.** -/
theorem encode_of_decodeFirst {rest : List UInt8} (h : decodeFirst b bs = .char c rest) :
    String.utf8EncodeChar c ++ rest = b :: bs := by
  unfold decodeFirst at h
  split at h
  · -- one byte
    rename_i hb
    have hb : b.toNat < 0x80 := UInt8.lt_iff_toNat_lt.mp hb
    cases h
    unfold String.utf8EncodeChar
    rw [toNat_val_ofNat (by omega)]
    dsimp only
    rw [if_pos (by omega), ofNat_eq_byte rfl]
    rfl
  split at h
  · cases h
  · cases h
  rename_i size low high b₁ bs₁ hlead
  split at h
  · cases h
  rename_i hb₁
  obtain ⟨hlow, hhigh⟩ : ByteBetween low high b₁ := byteBetween_iff.mp (by simpa using hb₁)
  obtain ⟨hsize, hb⟩ := leadByte?_eq_some hlead
  split at h
  · -- two bytes
    rename_i htwo
    have htwo : size = 2 := by simpa using htwo
    have hlt : b.toNat < 0xe0 := by
      by_contra hge
      rw [if_neg hge] at hsize
      split at hsize <;> omega
    cases h
    unfold String.utf8EncodeChar continuationBits
    rw [toNat_val_ofNat (by omega)]
    dsimp only
    rw [if_neg (by omega), if_pos (by omega), ofNat_eq_byte (by omega : _ = b.toNat),
      ofNat_eq_byte (by omega : _ = b₁.toNat)]
    rfl
  rename_i htwo
  split at h
  · cases h
  rename_i b₂ bs₂
  split at h
  · cases h
  rename_i hb₂
  have hb₂ : 0x80 ≤ b₂.toNat ∧ b₂.toNat ≤ 0xbf := isContinuation_iff.mp (by simpa using hb₂)
  have htwo : ¬ b.toNat < 0xe0 := fun hlt => htwo (by rw [hsize, if_pos hlt]; rfl)
  rw [if_neg htwo] at hsize
  split at h
  · -- three bytes
    rename_i hthree
    have hthree : size = 3 := by simpa using hthree
    have hlt : b.toNat < 0xf0 := by
      by_contra hge
      rw [if_neg hge] at hsize
      omega
    cases h
    unfold String.utf8EncodeChar continuationBits
    rw [toNat_val_ofNat (by omega)]
    dsimp only
    rw [if_neg (by omega), if_neg (by omega), if_pos (by omega),
      ofNat_eq_byte (by omega : _ = b.toNat), ofNat_eq_byte (by omega : _ = b₁.toNat),
      ofNat_eq_byte (by omega : _ = b₂.toNat)]
    rfl
  rename_i hthree
  split at h
  · cases h
  rename_i b₃ bs₃
  split at h
  · cases h
  -- four bytes
  rename_i hb₃
  have hb₃ : 0x80 ≤ b₃.toNat ∧ b₃.toNat ≤ 0xbf := isContinuation_iff.mp (by simpa using hb₃)
  have hthree : ¬ b.toNat < 0xf0 := fun hlt => hthree (by rw [hsize, if_pos hlt]; rfl)
  cases h
  unfold String.utf8EncodeChar continuationBits
  rw [toNat_val_ofNat (by omega)]
  dsimp only
  rw [if_neg (by omega), if_neg (by omega), if_neg (by omega),
    ofNat_eq_byte (by omega : _ = b.toNat), ofNat_eq_byte (by omega : _ = b₁.toNat),
    ofNat_eq_byte (by omega : _ = b₂.toNat), ofNat_eq_byte (by omega : _ = b₃.toNat)]
  rfl

/-- **Bytes that are read as a text are the bytes of the text.** -/
theorem utf8Bytes_of_decodeUtf8? (h : decodeUtf8? bs = some cs) : utf8Bytes cs = bs := by
  fun_induction decodeUtf8? bs generalizing cs with
  | case1 =>
    obtain rfl := Option.some.inj h
    rfl
  | case2 b bs c rest hread ih =>
    obtain ⟨ds, hds, rfl⟩ := Option.map_eq_some_iff.mp h
    rw [utf8Bytes_cons, ih hds, encode_of_decodeFirst hread]
  | case3 => cases h

/-- What is UTF-8 is read without a replacement. -/
theorem decodeLossy_of_decodeUtf8? (h : decodeUtf8? bs = some cs) : decodeLossy bs = cs := by
  fun_induction decodeUtf8? bs generalizing cs with
  | case1 =>
    obtain rfl := Option.some.inj h
    rw [decodeLossy]
  | case2 b bs c rest hread ih =>
    obtain ⟨ds, hds, rfl⟩ := Option.map_eq_some_iff.mp h
    rw [decodeLossy]
    split
    · rename_i c' rest' hread'
      rw [hread] at hread'
      cases hread'
      rw [ih hds]
    · rename_i rest' hread'
      rw [hread] at hread'
      cases hread'
  | case3 => cases h

end UseImports
