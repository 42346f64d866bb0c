import UseImports.Document
import Mathlib.Data.List.Basic
import Mathlib.Data.List.TakeWhile
import Mathlib.Tactic

/-!
# Places in a longer text

A reader that stops at semicolons and braces cannot tell whether the text it reads goes on behind
one of them, and it cannot tell what stands in front of a place where a statement begins. So it
finds the same in a piece of text as it finds in the whole text around that piece.

* `Cursor.within`: the place in a longer text, with something in front of the whole piece and
  something behind it.
* `Fits`: what is put behind cannot be seen, since the piece ends in a semicolon or a brace.
* `Opens`: what is put in front cannot be seen, since a statement begins behind it.
* `Confined`: the reader commutes with `within`. Every token reader is local, and sequences, choices
  and lists of local readers are local.
* `Confined.not_isStop`: such a reader reads no semicolon and no brace.
-/

namespace UseImports

variable {a as B b before cs s X : List Char} {c d : Cursor} {n : Nat} {p : Char → Bool}
    {r : Cursor → Option Cursor} {w : String} {words : List String}

/-- Whether all characters of a text have a property is decided by going through the text, not
through all characters that there are. -/
instance (priority := high) decidableForallMemText {p : Char → Prop} [DecidablePred p]
    (cs : List Char) :
    Decidable (∀ c ∈ cs, p c) :=
  List.decidableBAll p cs

/-! ## Cutting a text in two ways -/

theorem byteLength_eq_zero : byteLength cs = 0 ↔ cs = [] := by
  cases cs with
  | nil => simp
  | cons c cs =>
    have := c.utf8Size_pos
    simp
    omega

/-- Of two cuts of a text, the earlier one cuts the first part of the later one. -/
theorem append_eq_append_of_le {c d : List Char} (h : a ++ b = c ++ d)
    (hle : byteLength a ≤ byteLength c) : ∃ t, c = a ++ t ∧ b = t ++ d := by
  rcases List.append_eq_append_iff.mp h with ⟨t, hc, hb⟩ | ⟨t, ha, hd⟩
  · exact ⟨t, hc, hb⟩
  · have ht : t = [] := by
      rw [← byteLength_eq_zero]
      rw [ha, byteLength_append] at hle
      omega
    subst ht
    exact ⟨[], by simpa using ha.symm, by simpa using hd.symm⟩

/-- Two cuts of a text at the same offset are the same. -/
theorem append_eq_append_of_eq {c d : List Char} (h : a ++ b = c ++ d)
    (heq : byteLength a = byteLength c) : a = c ∧ b = d := by
  obtain ⟨t, hc, hb⟩ := append_eq_append_of_le h heq.le
  have ht : t = [] := by
    rw [← byteLength_eq_zero]
    rw [hc, byteLength_append] at heq
    omega
  subst ht
  exact ⟨by simpa using hc.symm, by simpa using hb⟩

/-! ## Where statements meet -/

/-- The characters at which statements meet. -/
def isStop (c : Char) : Bool :=
  c == ';' || c == '{' || c == '}'

/-- The text ends in such a character. -/
def Stopped (cs : List Char) : Prop :=
  cs.getLast?.any isStop = true

/-- A statement may begin behind this text, which is given backwards. -/
def Opens (before : List Char) : Prop :=
  (Cursor.mk before []).startsStatement = true

theorem stopped_iff : Stopped cs ↔ ∃ as c, cs = as ++ [c] ∧ isStop c = true := by
  unfold Stopped
  constructor
  · intro h
    obtain ⟨c, hc, hs⟩ := Option.any_eq_true _ _ |>.mp h
    obtain ⟨as, rfl⟩ := List.getLast?_eq_some_iff.mp hc
    exact ⟨as, c, rfl, hs⟩
  · rintro ⟨as, c, rfl, hs⟩
    simp [hs]

theorem not_stopped_nil : ¬ Stopped [] := by simp [Stopped]

theorem Stopped.ne_nil (h : Stopped cs) : cs ≠ [] := by
  rintro rfl
  exact not_stopped_nil h

theorem Stopped.exists_mem (h : Stopped cs) : ∃ c ∈ cs, isStop c = true := by
  obtain ⟨as, c, rfl, hc⟩ := stopped_iff.mp h
  exact ⟨c, by simp, hc⟩

theorem Stopped.drop (h : Stopped cs) (hn : n < cs.length) : Stopped (cs.drop n) := by
  unfold Stopped
  rw [List.getLast?_drop, if_neg (by omega)]
  exact h

theorem Stopped.of_suffix {bs : List Char} (h : Stopped bs) (hs : as <:+ bs) (hne : as ≠ []) :
    Stopped as := by
  obtain ⟨cs, rfl⟩ := hs
  unfold Stopped at h ⊢
  rw [List.getLast?_append] at h
  cases ha : as.getLast? with
  | none => exact absurd (List.getLast?_eq_none_iff.mp ha) hne
  | some c => rw [ha] at h; simpa using h

/-- A test that fails on the characters at which statements meet. -/
def Halts (p : Char → Bool) : Prop :=
  ∀ c, isStop c = true → p c = false

theorem isStop_cases {c : Char} (h : isStop c = true) : c = ';' ∨ c = '{' ∨ c = '}' := by
  simpa [isStop, or_assoc] using h

theorem halts_isBlank : Halts isBlank := by
  intro c hc
  rcases isStop_cases hc with rfl | rfl | rfl <;> decide

theorem halts_isWordChar : Halts isWordChar := by
  intro c hc
  rcases isStop_cases hc with rfl | rfl | rfl <;> decide

/-- The codes of the white space characters. -/
def blankCodes : List Nat :=
  blankRanges.flatMap fun r => (List.range (r.2 - r.1 + 1)).map (r.1 + ·)

/-- What holds of every code of white space holds of white space. -/
theorem of_isBlank {p : Char → Prop} (h : ∀ n ∈ blankCodes, p (Char.ofNat n)) {c : Char}
    (hc : isBlank c = true) : p c := by
  obtain ⟨r, hr, hlow, hhigh⟩ := inRanges_iff.mp hc
  have := h c.toNat (List.mem_flatMap.mpr ⟨r, hr, List.mem_map.mpr
    ⟨c.toNat - r.1, List.mem_range.mpr (by omega), by omega⟩⟩)
  rwa [Char.ofNat_toNat] at this

/-- White space is no part of a word. -/
theorem isWordChar_of_isBlank {c : Char} (h : isBlank c = true) : isWordChar c = false := by
  refine of_isBlank (p := fun c => isWordChar c = false) ?_ h
  decide +kernel

theorem byteLength_pos (h : cs ≠ []) : 0 < byteLength cs :=
  Nat.pos_of_ne_zero fun h0 => h (byteLength_eq_zero.mp h0)

theorem drop_length_takeWhile (p : Char → Bool) (cs : List Char) :
    cs.drop (cs.takeWhile p).length = cs.dropWhile p := by
  have h := congrArg (List.drop (cs.takeWhile p).length)
    (List.takeWhile_append_dropWhile (p := p) (l := cs))
  rw [List.drop_left] at h
  exact h.symm

theorem takeWhile_of_head (h : cs.head?.any p = false) : cs.takeWhile p = [] := by
  cases cs with
  | nil => rfl
  | cons c cs => exact List.takeWhile_cons_of_neg (by simpa using h)

theorem takeWhile_append_of_mem (h : ∃ c ∈ as, p c = false) (bs : List Char) :
    (as ++ bs).takeWhile p = as.takeWhile p := by
  induction as with
  | nil => simp at h
  | cons c as ih =>
    by_cases hc : p c = true
    · obtain ⟨d, hd, hpd⟩ := h
      rcases List.mem_cons.mp hd with rfl | hd
      · rw [hc] at hpd; exact absurd hpd (by simp)
      · simp [hc, ih ⟨d, hd, hpd⟩]
    · simp [hc]

theorem dropWhile_append_of_mem (h : ∃ c ∈ as, p c = false) (bs : List Char) :
    (as ++ bs).dropWhile p = as.dropWhile p ++ bs := by
  induction as with
  | nil => simp at h
  | cons c as ih =>
    by_cases hc : p c = true
    · obtain ⟨d, hd, hpd⟩ := h
      rcases List.mem_cons.mp hd with rfl | hd
      · rw [hc] at hpd; exact absurd hpd (by simp)
      · simp [hc, ih ⟨d, hd, hpd⟩]
    · simp [hc]

/-- A run of characters with a property is known from where it ends. -/
theorem eq_of_runs {c d : List Char} (h : a ++ b = c ++ d) (ha : ∀ x ∈ a, p x = true)
    (hc : ∀ x ∈ c, p x = true) (hb : b.head?.any p = false) (hd : d.head?.any p = false) :
    a = c ∧ b = d := by
  have htake : ∀ {x y : List Char}, (∀ z ∈ x, p z = true) → y.head?.any p = false →
      (x ++ y).takeWhile p = x := by
    intro x y hx hy
    rw [List.takeWhile_append_of_pos hx]
    cases y with
    | nil => simp
    | cons z y =>
      have hz : p z = false := hy
      simp [hz]
  have hac : a = c := by rw [← htake ha hb, h, htake hc hd]
  subst hac
  exact ⟨rfl, List.append_cancel_left h⟩

theorem any_getLast?_append (h : (a ++ b).getLast?.any p = false) : b.getLast?.any p = false := by
  rw [List.getLast?_append] at h
  cases hb : b.getLast? with
  | none => rfl
  | some c =>
    rw [hb] at h
    exact h

theorem any_head?_append (h : (a ++ b).head?.any p = false) : a.head?.any p = false := by
  cases a with
  | nil => rfl
  | cons c a => exact h

theorem Stopped.dropWhile (hp : Halts p) (h : Stopped cs) : Stopped (cs.dropWhile p) := by
  obtain ⟨as, c, rfl, hc⟩ := stopped_iff.mp h
  rw [List.dropWhile_append]
  split
  · rw [List.dropWhile_cons, if_neg (by simp [hp c hc])]
    exact stopped_iff.mpr ⟨[], c, rfl, hc⟩
  · exact stopped_iff.mpr ⟨_, c, rfl, hc⟩

theorem Opens.head_cases (h : Opens before) {c : Char} (hb : before = c :: cs) :
    isSpace c = true ∨ isStop c = true := by
  subst hb
  by_cases hc : isSpace c = true
  · exact .inl hc
  · refine .inr ?_
    unfold Opens Cursor.startsStatement at h
    rw [List.dropWhile_cons, if_neg hc] at h
    exact h

theorem opens_nil : Opens [] := rfl

theorem Stopped.opens (h : Stopped cs) : Opens cs.reverse := by
  obtain ⟨as, c, rfl, hc⟩ := stopped_iff.mp h
  have hs : isSpace c = false := by rcases isStop_cases hc with rfl | rfl | rfl <;> decide
  unfold Opens Cursor.startsStatement
  rw [List.reverse_append, List.reverse_singleton, List.singleton_append, List.dropWhile_cons,
    if_neg (by simp [hs])]
  exact hc

theorem Opens.cons_space (h : Opens before) {c : Char} (hc : isSpace c = true) :
    Opens (c :: before) := by
  unfold Opens Cursor.startsStatement
  rw [List.dropWhile_cons, if_pos hc]
  exact h

theorem Opens.append_space {ws : List Char} (h : Opens before) (hw : ∀ c ∈ ws, isSpace c = true) :
    Opens (ws ++ before) := by
  induction ws with
  | nil => exact h
  | cons c ws ih =>
    exact (ih fun d hd => hw d (List.mem_cons_of_mem c hd)).cons_space (hw c List.mem_cons_self)

theorem Opens.of_append (h : Opens (a ++ b)) : Opens a := by
  unfold Opens Cursor.startsStatement at h ⊢
  dsimp only at h ⊢
  rw [List.dropWhile_append] at h
  cases hd : a.dropWhile isSpace with
  | nil => rfl
  | cons x xs => rw [hd] at h; exact h

/-- The last character in front of a place where a statement may begin is a stop, if it is not white
space. -/
theorem Opens.exists_stop {S x : List Char} (h : Opens (S ++ x).reverse)
    (hx : ∃ c ∈ x, isSpace c = false) :
    ∃ y c ws, x = y ++ c :: ws ∧ isStop c = true ∧ ∀ d ∈ ws, isSpace d = true := by
  obtain ⟨c, hc, hspace⟩ := hx
  have hmem : ∃ c ∈ x.reverse, isSpace c = false := ⟨c, List.mem_reverse.mpr hc, hspace⟩
  unfold Opens Cursor.startsStatement at h
  rw [List.reverse_append, dropWhile_append_of_mem hmem] at h
  cases hdrop : x.reverse.dropWhile isSpace with
  | nil =>
    rw [List.dropWhile_eq_nil_iff] at hdrop
    rw [hdrop c (List.mem_reverse.mpr hc)] at hspace
    cases hspace
  | cons d y =>
    rw [hdrop] at h
    refine ⟨y.reverse, d, (x.reverse.takeWhile isSpace).reverse, ?_, h, fun e he =>
      List.mem_takeWhile_imp (List.mem_reverse.mp he)⟩
    have hsplit := List.takeWhile_append_dropWhile (p := isSpace) (l := x.reverse)
    rw [hdrop] at hsplit
    have hwhole := congrArg List.reverse hsplit
    rw [List.reverse_append, List.reverse_cons, List.reverse_reverse, List.append_assoc] at hwhole
    exact hwhole.symm

/-! ## Places -/

namespace Cursor

/-- The place in a longer text: `front` stands before the whole piece, nearest first, and `back`
behind it. -/
def within (front back : List Char) (c : Cursor) : Cursor :=
  ⟨c.before ++ front, c.after ++ back⟩

@[simp] theorem within_before (B X : List Char) (c : Cursor) :
    (c.within B X).before = c.before ++ B := rfl

@[simp] theorem within_after (B X : List Char) (c : Cursor) :
    (c.within B X).after = c.after ++ X := rfl

/-- A later place of the same text. -/
def Reaches (c d : Cursor) : Prop :=
  ∃ u, c.after = u ++ d.after ∧ d.before = u.reverse ++ c.before

theorem Reaches.refl (c : Cursor) : c.Reaches c := ⟨[], rfl, rfl⟩

theorem Reaches.trans {e : Cursor} (h : c.Reaches d) (h' : d.Reaches e) : c.Reaches e := by
  obtain ⟨u, hu, hu'⟩ := h
  obtain ⟨v, hv, hv'⟩ := h'
  exact ⟨u ++ v, by rw [hu, hv, List.append_assoc], by rw [hv', hu']; simp⟩

theorem Reaches.suffix (h : c.Reaches d) : d.after <:+ c.after := by
  obtain ⟨u, hu, -⟩ := h
  exact ⟨u, hu.symm⟩

theorem Reaches.length_le (h : c.Reaches d) : d.after.length ≤ c.after.length :=
  h.suffix.length_le

theorem reaches_advance (c : Cursor) (n : Nat) : c.Reaches (c.advance n) :=
  ⟨c.after.take n, (List.take_append_drop n c.after).symm, rfl⟩

theorem reaches_skipWhile (c : Cursor) (p : Char → Bool) : c.Reaches (c.skipWhile p) :=
  ⟨c.after.takeWhile p, List.takeWhile_append_dropWhile.symm, rfl⟩

end Cursor

/-- What stands behind the piece cannot be seen from the place. -/
def Fits (back : List Char) (c : Cursor) : Prop :=
  back = [] ∨ Stopped c.after

theorem fits_nil (c : Cursor) : Fits [] c := .inl rfl

/-- A reader that reads a piece as it reads a longer text, and that leaves the character at which a
piece ends. -/
structure Confined (r : Cursor → Option Cursor) : Prop where
  forward : ∀ {c d}, r c = some d → c.Reaches d
  stopped : ∀ {c d}, r c = some d → Stopped c.after → Stopped d.after
  within : ∀ {B X c}, Opens B → Fits X c → r (c.within B X) = (r c).map (Cursor.within B X)

theorem Confined.fits (hr : Confined r) (h : r c = some d) (hX : Fits X c) : Fits X d :=
  hX.imp_right (hr.stopped h)

/-- **A confined reader reads no character at which statements meet.** -/
theorem Confined.not_isStop (hr : Confined r) (h : r c = some d) {u : List Char}
    (hu : c.after = u ++ d.after) : ∀ x ∈ u, isStop x = false := by
  intro x hx
  by_contra hstop
  obtain ⟨v, t, rfl⟩ := List.append_of_mem hx
  -- the text up to this character is a piece, at the end of which the reader would have to leave
  -- the character
  have hpiece : Stopped (v ++ [x]) := stopped_iff.mpr ⟨v, x, rfl, by simpa using hstop⟩
  have hc : c = (Cursor.mk c.before (v ++ [x])).within [] (t ++ d.after) := by
    obtain ⟨before, after⟩ := c
    simpa [Cursor.within] using hu
  rw [hc, hr.within opens_nil (.inr hpiece)] at h
  obtain ⟨e, he, hd⟩ := Option.map_eq_some_iff.mp h
  have hpos := List.length_pos_iff.mpr (hr.stopped he hpiece).ne_nil
  have hlen := congrArg (fun c => c.after.length) hd
  simp only [Cursor.within_after, List.length_append] at hlen
  omega

/-! ## Moving on -/

namespace Cursor

theorem within_advance (h : X = [] ∨ n ≤ c.after.length) :
    (c.within B X).advance n = (c.advance n).within B X := by
  unfold advance within
  rcases h with rfl | h
  · simp
  · simp [List.take_append_of_le_length h, List.drop_append_of_le_length h]

theorem within_skipWhile (hp : Halts p) (h : Fits X c) :
    (c.within B X).skipWhile p = (c.skipWhile p).within B X := by
  unfold skipWhile within
  rcases h with rfl | h
  · simp
  · obtain ⟨d, hd, hs⟩ := h.exists_mem
    have hm : ∃ d ∈ c.after, p d = false := ⟨d, hd, hp d hs⟩
    simp [takeWhile_append_of_mem hm, dropWhile_append_of_mem hm]

theorem fits_skipWhile (hp : Halts p) (h : Fits X c) : Fits X (c.skipWhile p) :=
  h.imp_right fun hs => hs.dropWhile hp

theorem within_skipBlanks (h : Fits X c) : (c.within B X).skipBlanks = c.skipBlanks.within B X :=
  within_skipWhile halts_isBlank h

theorem fits_skipBlanks (h : Fits X c) : Fits X c.skipBlanks :=
  fits_skipWhile halts_isBlank h

theorem reaches_skipBlanks (c : Cursor) : c.Reaches c.skipBlanks :=
  c.reaches_skipWhile isBlank

/-- The next character is seen in the piece. -/
theorem head?_within (h : Fits X c) : (c.after ++ X).head? = c.after.head? := by
  rcases h with rfl | h
  · simp
  · rw [List.head?_append_of_ne_nil _ h.ne_nil]

theorem length_pos_of_fits (h : Fits X c) : X = [] ∨ 0 < c.after.length :=
  h.imp_right fun hs => List.length_pos_iff.mpr hs.ne_nil

/-! ## Tokens -/

theorem confined_blanks : Confined blanks? where
  forward {c d} h := by
    unfold blanks? at h
    split at h
    · cases h; exact c.reaches_skipBlanks
    · cases h
  stopped {c d} h hs := by
    unfold blanks? at h
    split at h
    · cases h; exact hs.dropWhile halts_isBlank
    · cases h
  within {B X c} _ hX := by
    unfold blanks?
    rw [within_after, head?_within hX, within_skipBlanks hX]
    split <;> rfl

theorem isPrefixOf_append_of_stopped (hs : ∀ x ∈ s, isStop x = false) (h : Stopped as)
    (bs : List Char) : s.isPrefixOf (as ++ bs) = s.isPrefixOf as := by
  rw [Bool.eq_iff_iff, List.isPrefixOf_iff_prefix, List.isPrefixOf_iff_prefix]
  refine ⟨fun hp => ?_, fun hp => hp.trans (List.prefix_append as bs)⟩
  rcases Nat.le_total s.length as.length with hl | hl
  · exact List.prefix_of_prefix_length_le hp (List.prefix_append as bs) hl
  · have ha : as <+: s := List.prefix_of_prefix_length_le (List.prefix_append as bs) hp hl
    obtain ⟨c, hc, hstop⟩ := h.exists_mem
    have := hs c (ha.subset hc)
    rw [hstop] at this
    exact absurd this (by simp)

/-- A proper initial part without a stop leaves the stop. -/
theorem length_lt_of_initial (hs : ∀ x ∈ s, isStop x = false) (h : Stopped as) (hp : s <+: as) :
    s.length < as.length := by
  obtain ⟨t, rfl⟩ := hp
  have ht : t ≠ [] := by
    rintro rfl
    rw [List.append_nil] at h
    obtain ⟨c, hc, hstop⟩ := h.exists_mem
    have := hs c hc
    rw [hstop] at this
    exact absurd this (by simp)
  have := List.length_pos_iff.mpr ht
  simp
  omega

theorem confined_literal {s : String} (hs : ∀ x ∈ s.toList, isStop x = false) :
    Confined (literal? s) where
  forward {c d} h := by
    unfold literal? at h
    split at h
    · cases h; exact c.reaches_advance _
    · cases h
  stopped {c d} h hstop := by
    unfold literal? at h
    split at h
    · rename_i hp
      cases h
      exact hstop.drop (length_lt_of_initial hs hstop (List.isPrefixOf_iff_prefix.mp hp))
    · cases h
  within {B X c} _ hX := by
    have hp : s.toList.isPrefixOf (c.after ++ X) = s.toList.isPrefixOf c.after := by
      rcases hX with rfl | hX
      · rw [List.append_nil]
      · exact isPrefixOf_append_of_stopped hs hX X
    unfold literal?
    rw [within_after, hp]
    split
    · rename_i h
      rw [within_advance (.inr (List.isPrefixOf_iff_prefix.mp h).length_le)]
      rfl
    · rfl

theorem char?_eq_some (h : c.char? p = some d) :
    ∃ x xs, c.after = x :: xs ∧ p x = true ∧ d = ⟨x :: c.before, xs⟩ := by
  unfold char? at h
  split at h
  · rename_i hp
    cases h
    cases ha : c.after with
    | nil => simp [ha] at hp
    | cons x xs =>
      rw [ha] at hp
      exact ⟨x, xs, rfl, by simpa using hp, by simp [advance, ha]⟩
  · cases h

theorem reaches_of_char? (h : c.char? p = some d) : c.Reaches d := by
  obtain ⟨x, xs, ha, -, rfl⟩ := char?_eq_some h
  exact ⟨[x], by simp [ha], rfl⟩

theorem within_char? (hX : Fits X c) : (c.within B X).char? p = (c.char? p).map (within B X) := by
  unfold char?
  rw [within_after, head?_within hX, within_advance (length_pos_of_fits hX)]
  split <;> rfl

theorem confined_char (hp : Halts p) : Confined (char? p) where
  forward h := reaches_of_char? h
  stopped {c d} h hs := by
    obtain ⟨x, xs, ha, hx, rfl⟩ := char?_eq_some h
    have hne : xs ≠ [] := by
      rintro rfl
      rw [ha] at hs
      have : isStop x = true := by simpa [Stopped] using hs
      rw [hp x this] at hx
      exact absurd hx (by simp)
    exact hs.of_suffix ⟨[x], by simp [ha]⟩ hne
  within _ hX := within_char? hX

theorem foldLetter_of_isStop {c : Char} (h : isStop c = true) : foldLetter c = c := by
  rcases isStop_cases h with rfl | rfl | rfl <;> decide

/-- A word without stops is not read across the end of a piece. -/
theorem map_take_append_iff {word : List Char} (hw : ∀ x ∈ word, isStop x = false) (h : Stopped as)
    (bs : List Char) :
    ((as ++ bs).take word.length).map foldLetter = word ↔
      (as.take word.length).map foldLetter = word := by
  rcases Nat.le_total word.length as.length with hl | hl
  · rw [List.take_append_of_le_length hl]
  · have hno : ∀ cs, (as ++ cs).map foldLetter ≠ word := by
      intro cs heq
      obtain ⟨c, hc, hs⟩ := h.exists_mem
      have hm : c ∈ word := by
        rw [← heq, List.mem_map]
        exact ⟨c, List.mem_append_left _ hc, foldLetter_of_isStop hs⟩
      rw [hw c hm] at hs
      exact absurd hs (by simp)
    rw [List.take_append, List.take_of_length_le hl]
    exact ⟨fun heq => absurd heq (hno _), fun heq => absurd (by simpa using heq) (hno [])⟩

theorem folded?_pos (h : (c.after.take w.toList.length).map foldLetter = w.toList) :
    c.folded? w = some (c.advance w.toList.length) := if_pos h

theorem folded?_neg (h : ¬ (c.after.take w.toList.length).map foldLetter = w.toList) :
    c.folded? w = none := if_neg h

/-- What a word reader has read. -/
theorem folded?_eq_some (h : c.folded? w = some d) :
    ∃ u, c.after = u ++ d.after ∧ u.map foldLetter = w.toList ∧
      d.before = u.reverse ++ c.before := by
  dsimp only [folded?] at h
  split at h
  · rename_i hw
    cases h
    exact ⟨c.after.take w.toList.length, (List.take_append_drop _ _).symm, hw, rfl⟩
  · cases h

theorem confined_folded (hw : ∀ x ∈ w.toList, isStop x = false) :
    Confined (folded? w) where
  forward {c d} h := by
    obtain ⟨u, hu, -, hb⟩ := folded?_eq_some h
    exact ⟨u, hu, hb⟩
  stopped {c d} h hs := by
    obtain ⟨u, hu, hm, -⟩ := folded?_eq_some h
    refine hs.of_suffix ⟨u, hu.symm⟩ ?_
    intro hnil
    rw [hnil, List.append_nil] at hu
    obtain ⟨x, hx, hstop⟩ := hs.exists_mem
    have : x ∈ w.toList := by
      rw [← hm, List.mem_map]
      exact ⟨x, hu ▸ hx, foldLetter_of_isStop hstop⟩
    rw [hw x this] at hstop
    exact absurd hstop (by simp)
  within {B X c} _ hX := by
    have hiff : ((c.after ++ X).take w.toList.length).map foldLetter = w.toList ↔
        (c.after.take w.toList.length).map foldLetter = w.toList := by
      rcases hX with rfl | hX
      · rw [List.append_nil]
      · exact map_take_append_iff hw hX X
    by_cases h : (c.after.take w.toList.length).map foldLetter = w.toList
    · have hle : w.toList.length ≤ c.after.length := by
        have := congrArg List.length h
        simp only [List.length_map, List.length_take] at this
        omega
      rw [folded?_pos h, folded?_pos (c := c.within B X) (hiff.mpr h), within_advance (.inr hle)]
      rfl
    · rw [folded?_neg h, folded?_neg (c := c.within B X) (fun h' => h (hiff.mp h'))]
      rfl

theorem confined_oneOf (hw : ∀ w ∈ words, ∀ x ∈ w.toList, isStop x = false) :
    Confined (oneOf? words) := by
  induction words with
  | nil =>
    exact ⟨fun h => by simp [oneOf?] at h, fun h => by simp [oneOf?] at h, fun _ _ => rfl⟩
  | cons w words ih =>
    have hc := confined_folded (hw w List.mem_cons_self)
    have ih := ih fun v hv => hw v (List.mem_cons_of_mem w hv)
    have hcons : ∀ c : Cursor, c.oneOf? (w :: words) = (c.folded? w).or (c.oneOf? words) := by
      intro c
      unfold oneOf?
      rw [List.findSome?_cons]
      cases c.folded? w <;> rfl
    refine ⟨fun {c d} h => ?_, fun {c d} h => ?_, fun {B X c} hB hX => ?_⟩
    · rw [hcons] at h
      rcases Option.or_eq_some_iff.mp h with h | ⟨-, h⟩
      · exact hc.forward h
      · exact ih.forward h
    · rw [hcons] at h
      rcases Option.or_eq_some_iff.mp h with h | ⟨-, h⟩
      · exact hc.stopped h
      · exact ih.stopped h
    · rw [hcons, hcons, hc.within hB hX, ih.within hB hX]
      cases c.folded? w <;> rfl

theorem atWordStart_within (hB : Opens B) (c : Cursor) :
    (c.within B X).atWordStart = c.atWordStart := by
  unfold atWordStart
  cases hb : c.before with
  | cons x xs => simp [hb]
  | nil =>
    cases hB' : B with
    | nil => simp [hb]
    | cons x xs =>
      have hx : isWordChar x = false := by
        rcases hB.head_cases hB' with h | h
        · rcases isSpace_cases h with rfl | rfl | rfl | rfl | rfl <;> decide
        · exact halts_isWordChar x h
      simp [hb, hx]

theorem confined_keyword (hw : ∀ w ∈ words, ∀ x ∈ w.toList, isStop x = false) :
    Confined (keyword? words) where
  forward {c d} h := by
    unfold keyword? at h
    split at h
    · exact (confined_oneOf hw).forward h
    · cases h
  stopped {c d} h := by
    unfold keyword? at h
    split at h
    · exact (confined_oneOf hw).stopped h
    · cases h
  within {B X c} hB hX := by
    unfold keyword?
    rw [atWordStart_within hB, (confined_oneOf hw).within hB hX]
    split <;> rfl

/-! ## Names -/

theorem beginsIdent_within (hX : Fits X c) : beginsIdent (c.after ++ X) = beginsIdent c.after := by
  unfold beginsIdent
  rw [head?_within hX]

theorem confined_ident : Confined ident? where
  forward {c d} h := by
    unfold ident? at h
    split at h
    · cases h; exact c.reaches_skipWhile _
    · cases h
  stopped {c d} h hs := by
    unfold ident? at h
    split at h
    · cases h; exact hs.dropWhile halts_isWordChar
    · cases h
  within {B X c} _ hX := by
    unfold ident?
    rw [within_after, beginsIdent_within hX, within_skipWhile halts_isWordChar hX]
    split <;> rfl

theorem nameRest_le (cs : List Char) : nameRest cs ≤ cs.length := by
  induction cs with
  | nil => simp [nameRest]
  | cons c cs ih =>
    unfold nameRest
    split
    · simpa using ih
    · simp

theorem nameRest_stop {c : Char} (hc : isStop c = true) (cs : List Char) :
    nameRest (c :: cs) = 0 := by
  have hne : (c == '\\') = false := by rcases isStop_cases hc with rfl | rfl | rfl <;> decide
  unfold nameRest
  rw [if_neg]
  simp [halts_isWordChar c hc, hne]

theorem nameRest_append (h : Stopped as) (bs : List Char) : nameRest (as ++ bs) = nameRest as := by
  induction as with
  | nil => exact absurd h not_stopped_nil
  | cons c as ih =>
    by_cases ha : as = []
    · subst ha
      have hc : isStop c = true := by simpa [Stopped] using h
      rw [List.cons_append, nameRest_stop hc, nameRest_stop hc]
    · have hs : Stopped as := h.of_suffix ⟨[c], rfl⟩ ha
      have hb : beginsIdent (as ++ bs) = beginsIdent as :=
        beginsIdent_within (c := ⟨[], as⟩) (.inr hs)
      rw [List.cons_append]
      unfold nameRest
      rw [ih hs, hb]

theorem nameRest_lt (h : Stopped as) : nameRest as < as.length := by
  induction as with
  | nil => exact absurd h not_stopped_nil
  | cons c as ih =>
    by_cases ha : as = []
    · subst ha
      have hc : isStop c = true := by simpa [Stopped] using h
      rw [nameRest_stop hc]
      simp
    · have := ih (h.of_suffix ⟨[c], rfl⟩ ha)
      unfold nameRest
      split
      · simpa using this
      · simp

/-! ## Sequences, choices and lists -/

theorem confined_skipWhile (hp : Halts p) :
    Confined fun c => some (c.skipWhile p) where
  forward {c d} h := by cases h; exact c.reaches_skipWhile p
  stopped h hs := by cases h; exact hs.dropWhile hp
  within _ hX := by rw [within_skipWhile hp hX]; rfl

theorem confined_skipBlanks : Confined fun c => some c.skipBlanks :=
  confined_skipWhile halts_isBlank

theorem confined_optional (hr : Confined r) :
    Confined fun c => some (c.optional r) where
  forward {c d} h := by
    cases h
    unfold optional
    cases hc : r c with
    | none => exact .refl c
    | some d => exact hr.forward hc
  stopped {c d} h hs := by
    cases h
    unfold optional
    cases hc : r c with
    | none => exact hs
    | some d => exact hr.stopped hc hs
  within {B X c} hB hX := by
    unfold optional
    rw [hr.within hB hX]
    cases r c <;> rfl

theorem confined_bind {s : Cursor → Option Cursor} (hr : Confined r) (hs : Confined s) :
    Confined fun c => (r c).bind s where
  forward {c e} h := by
    obtain ⟨d, hd, he⟩ := Option.bind_eq_some_iff.mp h
    exact (hr.forward hd).trans (hs.forward he)
  stopped {c e} h hstop := by
    obtain ⟨d, hd, he⟩ := Option.bind_eq_some_iff.mp h
    exact hs.stopped he (hr.stopped hd hstop)
  within {B X c} hB hX := by
    rw [hr.within hB hX]
    cases hc : r c with
    | none => rfl
    | some d => exact hs.within hB (hr.fits hc hX)

theorem confined_or {s : Cursor → Option Cursor} (hr : Confined r) (hs : Confined s) :
    Confined fun c => (r c).or (s c) where
  forward {c d} h := by
    rcases Option.or_eq_some_iff.mp h with h | ⟨-, h⟩
    · exact hr.forward h
    · exact hs.forward h
  stopped {c d} h := by
    rcases Option.or_eq_some_iff.mp h with h | ⟨-, h⟩
    · exact hr.stopped h
    · exact hs.stopped h
  within {B X c} hB hX := by
    rw [hr.within hB hX, hs.within hB hX]
    cases r c <;> rfl

/-- The name behind an optional leading backslash. -/
def nameBody? (c : Cursor) : Option Cursor :=
  if beginsIdent c.after then some (c.advance (nameRest c.after)) else none

theorem qualifiedName?_eq (c : Cursor) :
    c.qualifiedName? = (c.optional (literal? "\\")).nameBody? := rfl

theorem confined_nameBody : Confined nameBody? where
  forward {c d} h := by
    unfold nameBody? at h
    split at h
    · cases h; exact c.reaches_advance _
    · cases h
  stopped {c d} h hs := by
    unfold nameBody? at h
    split at h
    · cases h; exact hs.drop (nameRest_lt hs)
    · cases h
  within {B X c} _ hX := by
    have hn : nameRest (c.after ++ X) = nameRest c.after := by
      rcases hX with rfl | hX
      · rw [List.append_nil]
      · exact nameRest_append hX X
    unfold nameBody?
    rw [within_after, beginsIdent_within hX, hn, within_advance (.inr (nameRest_le c.after))]
    split <;> rfl

theorem confined_qualifiedName : Confined qualifiedName? :=
  confined_bind (confined_optional (confined_literal (by decide))) confined_nameBody

/-- One more item of a list. -/
def nextItem? (separator : Char → Bool) (item : Cursor → Option Cursor) (c : Cursor) :
    Option Cursor :=
  (c.skipBlanks.char? separator).bind fun s => item s.skipBlanks

theorem moreItems_succ (separator : Char → Bool) (item : Cursor → Option Cursor) (n : Nat)
    (c : Cursor) : moreItems separator item (n + 1) c =
      match nextItem? separator item c with
      | some next => moreItems separator item n next
      | none => c := rfl

section Lists

variable {separator : Char → Bool} {item : Cursor → Option Cursor}

theorem confined_nextItem (hsep : Halts separator) (hi : Confined item) :
    Confined (nextItem? separator item) :=
  confined_bind (confined_bind confined_skipBlanks (confined_char hsep))
    (confined_bind confined_skipBlanks hi)

theorem length_nextItem? (hi : Confined item) (h : nextItem? separator item c = some d) :
    d.after.length < c.after.length := by
  obtain ⟨s, hs, hd⟩ := Option.bind_eq_some_iff.mp h
  obtain ⟨x, xs, ha, -, rfl⟩ := char?_eq_some hs
  have h₁ := c.reaches_skipBlanks.length_le
  have h₂ := (hi.forward hd).length_le
  have h₃ := (Cursor.mk (x :: c.skipBlanks.before) xs).reaches_skipBlanks.length_le
  rw [ha] at h₁
  simp only [List.length_cons] at h₁ h₃
  omega

/-- The bound on the number of items does not matter where it is large enough. -/
theorem moreItems_of_le (hi : Confined item) {m : Nat} (hn : c.after.length ≤ n)
    (hm : c.after.length ≤ m) : moreItems separator item n c = moreItems separator item m c := by
  induction n generalizing m c with
  | zero =>
    cases m with
    | zero => rfl
    | succ m =>
      rw [moreItems_succ]
      cases h : nextItem? separator item c with
      | none => rfl
      | some d =>
        have := length_nextItem? hi h
        omega
  | succ n ih =>
    cases m with
    | zero =>
      rw [moreItems_succ]
      cases h : nextItem? separator item c with
      | none => rfl
      | some d =>
        have := length_nextItem? hi h
        omega
    | succ m =>
      rw [moreItems_succ, moreItems_succ]
      cases h : nextItem? separator item c with
      | none => rfl
      | some d =>
        have := length_nextItem? hi h
        exact ih (by omega) (by omega)

theorem confined_moreItems (hsep : Halts separator) (hi : Confined item) (n : Nat) :
    Confined fun c => some (moreItems separator item n c) := by
  induction n with
  | zero =>
    exact ⟨fun h => by cases h; exact .refl _, fun h hs => by cases h; exact hs, fun _ _ => rfl⟩
  | succ n ih =>
    have hnext := confined_nextItem hsep hi
    refine ⟨fun {c d} h => ?_, fun {c d} h hs => ?_, fun {B X c} hB hX => ?_⟩
    · rw [moreItems_succ] at h
      cases hc : nextItem? separator item c with
      | none => rw [hc] at h; cases h; exact .refl _
      | some e => rw [hc] at h; exact (hnext.forward hc).trans (ih.forward h)
    · rw [moreItems_succ] at h
      cases hc : nextItem? separator item c with
      | none => rw [hc] at h; cases h; exact hs
      | some e => rw [hc] at h; exact ih.stopped h (hnext.stopped hc hs)
    · rw [moreItems_succ, moreItems_succ, hnext.within hB hX]
      cases hc : nextItem? separator item c with
      | none => rfl
      | some e => exact ih.within hB (hnext.fits hc hX)

theorem confined_listOf (hsep : Halts separator) (hi : Confined item) :
    Confined (listOf? separator item) where
  forward {c d} h := by
    obtain ⟨e, he, rfl⟩ := Option.map_eq_some_iff.mp h
    exact (hi.forward he).trans ((confined_moreItems hsep hi _).forward rfl)
  stopped {c d} h hs := by
    obtain ⟨e, he, rfl⟩ := Option.map_eq_some_iff.mp h
    exact (confined_moreItems hsep hi _).stopped rfl (hi.stopped he hs)
  within {B X c} hB hX := by
    unfold listOf?
    rw [hi.within hB hX]
    cases hc : item c with
    | none => rfl
    | some e =>
      have hm := (confined_moreItems hsep hi (e.after ++ X).length).within hB (hi.fits hc hX)
      simp only [Option.map_some, Option.some.injEq] at hm ⊢
      rw [within_after, hm, moreItems_of_le hi (by simp) (Nat.le_refl _)]

end Lists

end Cursor

end UseImports
