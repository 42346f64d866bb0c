import UseImports.Proofs.Code.Bytes
import UseImports.Proofs.Editor.Denotation

/-!
# Offsets and positions, there and back

An offset becomes a position (`position`), and a position an offset again (`offset`). The first way
is exact at every place between two characters: the line is the number of line feeds in front, the
column counts the UTF-16 code units behind the last of them. The second way is defined for every
line and every column, and what it gives is always such a place. The one place that does not come
back is that between a carriage return and its line feed, since the text of the line ends before
both.

* `PartsLineEnd`: the place inside a line end.
* `offsetAt_position_of_parts`: **the place inside a line end comes back in front of it.**
* `position_mono`, `offsetAt_mono`: **both ways keep the order.**
* `positions_convert`: the two ways together.
-/

namespace UseImports

variable {cs L : List Char} {n o : Nat} {p q : Position}

/-! ## Places of a text -/

/-- The offset lies between a carriage return and its line feed. -/
def PartsLineEnd (cs : List Char) (o : Nat) : Prop :=
  ∃ A B, cs = A ++ '\r' :: '\n' :: B ∧ o = byteLength A + 1

/-- All other places are anchors. -/
theorem isAnchor_of_isBoundary (h : isBoundary cs o = true) (hparts : ¬ PartsLineEnd cs o) :
    IsAnchor cs o := by
  obtain ⟨A, B, rfl, rfl⟩ := isBoundary_iff.mp h
  refine ⟨A, B, rfl, rfl, fun hlast hhead => hparts ?_⟩
  obtain ⟨A', rfl⟩ := List.getLast?_eq_some_iff.mp hlast
  obtain ⟨B', rfl⟩ := List.head?_eq_some_iff.mp hhead
  have hreturn : byteLength ['\r'] = 1 := by decide
  exact ⟨A', B', by simp, by rw [byteLength_append, hreturn]⟩

/-- Of two places of a text, the initial part of the first one is one of that of the second. -/
theorem prefix_of_byteLength_le {A B A' B' : List Char} (htext : A ++ B = A' ++ B')
    (hle : byteLength A ≤ byteLength A') :
    A <+: A' := by
  rcases List.prefix_or_prefix_of_prefix ⟨B, htext⟩ ⟨B', rfl⟩ with h | ⟨G, rfl⟩
  · exact h
  · cases G with
    | nil => rw [List.append_nil]
    | cons c G =>
      have := c.utf8Size_pos
      rw [byteLength_append, byteLength_cons] at hle
      omega

/-- The line feeds among the bytes in front of a place are those among the characters. -/
theorem count_take_utf8Bytes (A B : List Char) :
    ((utf8Bytes (A ++ B)).take (byteLength A)).count 0x0a = breaks A := by
  rw [utf8Bytes_append, ← length_utf8Bytes, List.take_left, count_utf8Bytes (by decide)]
  rfl

/-! ## The order of positions -/

/-- Positions are in the order of their lines, and on one line in that of their columns. -/
instance : LE Position where
  le p q := p.line < q.line ∨ (p.line = q.line ∧ p.character ≤ q.character)

theorem Position.le_iff : p ≤ q ↔ p.line < q.line ∨ (p.line = q.line ∧ p.character ≤ q.character) :=
  Iff.rfl

theorem utf16Length_append (A B : List Char) :
    utf16Length (A ++ B) = utf16Length A + utf16Length B := by
  induction A with
  | nil => exact (Nat.zero_add _).symm
  | cons c A ih => rw [List.cons_append, utf16Length, utf16Length, ih, Nat.add_assoc]

/-- **A later place has a later position.** -/
theorem position_mono {o' : Nat} (h : isBoundary cs o = true) (h' : isBoundary cs o' = true)
    (hle : o ≤ o') : position cs o ≤ position cs o' := by
  obtain ⟨A, B, rfl, rfl⟩ := isBoundary_iff.mp h
  obtain ⟨A', B', htext, rfl⟩ := isBoundary_iff.mp h'
  obtain ⟨G, rfl⟩ := prefix_of_byteLength_le htext hle
  rw [position_append, htext, position_append, Position.le_iff, breaks_append]
  dsimp only
  by_cases hG : '\n' ∈ G
  · -- a line feed lies between the two
    have : 0 < breaks G := List.count_pos_iff.mpr hG
    left
    omega
  · rw [breaks_eq_zero hG, (lead_append_of_not_mem hG A).1, utf16Length_append]
    right
    omega

/-! ## Columns -/

/-- A column leads to the end of an initial part of the line. -/
theorem exists_bytesToColumn (L : List Char) (n : Nat) :
    ∃ K R, L = K ++ R ∧ bytesToColumn L n = byteLength K := by
  induction L generalizing n with
  | nil => exact ⟨[], [], rfl, by cases n <;> rfl⟩
  | cons c L ih =>
    cases n with
    | zero => exact ⟨[], c :: L, rfl, rfl⟩
    | succ n =>
      obtain ⟨K, R, hL, hbytes⟩ := ih (n + 1 - utf16Size c)
      exact ⟨c :: K,
        R, by rw [List.cons_append, ← hL], by rw [bytesToColumn, hbytes, byteLength_cons]⟩

theorem bytesToColumn_le (L : List Char) (n : Nat) : bytesToColumn L n ≤ byteLength L := by
  obtain ⟨K, R, rfl, hbytes⟩ := exists_bytesToColumn L n
  rw [hbytes, byteLength_append]
  exact Nat.le_add_right _ _

/-- A column behind the end of a line means its end. -/
theorem bytesToColumn_of_le (h : utf16Length L ≤ n) : bytesToColumn L n = byteLength L := by
  induction L generalizing n with
  | nil => cases n <;> rfl
  | cons c L ih =>
    have := utf16Size_pos c
    rw [utf16Length] at h
    obtain ⟨n, rfl⟩ : ∃ m, n = m + 1 := ⟨n - 1, by omega⟩
    rw [bytesToColumn, ih (by omega), byteLength_cons]

theorem bytesToColumn_mono (L : List Char) {m : Nat} (h : m ≤ n) :
    bytesToColumn L m ≤ bytesToColumn L n := by
  induction L generalizing m n with
  | nil => cases m <;> exact Nat.zero_le _
  | cons c L ih =>
    cases m with
    | zero => exact Nat.zero_le _
    | succ m =>
      obtain ⟨n, rfl⟩ : ∃ k, n = k + 1 := ⟨n - 1, by omega⟩
      rw [bytesToColumn, bytesToColumn]
      exact Nat.add_le_add_left (ih (by omega)) _

/-! ## Lines -/

/-- The text of a line is read up to its end at most. -/
theorem firstLine_isPrefix_throughBreak (Y : List Char) : firstLine Y <+: throughBreak Y := by
  have hline : Y.takeWhile (· ≠ '\n') <+: throughBreak Y := ⟨_, rfl⟩
  unfold firstLine
  dsimp only
  split
  · exact (List.dropLast_prefix _).trans hline
  · exact hline

/-- A carriage return in front of the line feed belongs to the line's end. -/
theorem firstLine_return (h : '\n' ∉ L) (B : List Char) :
    firstLine (L ++ '\r' :: '\n' :: B) = L := by
  have htake : (L ++ '\r' :: '\n' :: B).takeWhile (· ≠ '\n') = L ++ ['\r'] := by
    have hline : ∀ c ∈ L, decide (c ≠ '\n') = true := fun c hc =>
      decide_eq_true fun heq => h (heq ▸ hc)
    rw [List.takeWhile_append_of_pos hline]
    rfl
  unfold firstLine
  rw [htake]
  simp

/-- The text of a line ends before the next line starts. -/
theorem lineEnd_le_nextLineStart (cs : List Char) (l : Nat) :
    lineEnd cs l ≤ nextLineStart cs l := by
  unfold lineEnd lineText
  induction cs generalizing l with
  | nil => cases l <;> exact Nat.le_refl _
  | cons c cs ih =>
    cases l with
    | zero =>
      have hnext := nextLineStart_append [] (c :: cs)
      rw [List.nil_append, breaks_nil, byteLength_nil, Nat.zero_add] at hnext
      obtain ⟨R, hR⟩ := firstLine_isPrefix_throughBreak (c :: cs)
      rw [hnext, lineStart, fromLine, ← hR, byteLength_append]
      omega
    | succ l =>
      -- one line further in what follows, or as many lines further if this character ends none
      have hrest := ih (if c = '\n' then l else l + 1)
      unfold nextLineStart at hrest ⊢
      rw [lineStart, lineStart, fromLine, Nat.add_assoc]
      by_cases hc : c = '\n'
      · rw [if_pos hc] at hrest
        rw [if_pos hc, if_pos hc]
        omega
      · rw [if_neg hc] at hrest
        rw [if_neg hc, if_neg hc]
        omega

theorem lineStart_mono (cs : List Char) : Monotone (lineStart cs) :=
  monotone_nat_of_le_succ fun l => (Nat.le_add_right _ _).trans (lineEnd_le_nextLineStart cs l)

/-! ## The way back -/

/-- **Every position leads to a place of the text.** -/
theorem isBoundary_offsetAt (cs : List Char) (p : Position) :
    isBoundary cs (offsetAt cs p) = true := by
  refine isBoundary_iff.mpr ?_
  unfold offsetAt
  split
  · obtain ⟨P, hP, -⟩ := exists_fromLine cs p.line
    obtain ⟨Q, hQ⟩ := firstLine_isPrefix (fromLine cs p.line)
    obtain ⟨K, R, hline, hbytes⟩ := exists_bytesToColumn (lineText cs p.line) p.character
    have hstart := lineStart_add cs p.line
    have hlen := congrArg byteLength hP
    rw [byteLength_append] at hlen
    refine ⟨P ++ K, R ++ Q, ?_, ?_⟩
    · calc cs = P ++ fromLine cs p.line := hP
        _ = P ++ (lineText cs p.line ++ Q) := by rw [lineText, hQ]
        _ = P ++ K ++ (R ++ Q) := by rw [hline]; simp
    · rw [byteLength_append, hbytes]
      omega
  · exact ⟨cs, [], (List.append_nil cs).symm, rfl⟩

theorem offsetAt_le (cs : List Char) (p : Position) : offsetAt cs p ≤ byteLength cs := by
  obtain ⟨A, B, hcs, hA⟩ := isBoundary_iff.mp (isBoundary_offsetAt cs p)
  have hlen := congrArg byteLength hcs
  rw [byteLength_append] at hlen
  omega

/-- **A later position leads to a later place.** -/
theorem offsetAt_mono (cs : List Char) (h : p ≤ q) : offsetAt cs p ≤ offsetAt cs q := by
  by_cases hq : q.line < lineCount cs
  · have hp : p.line < lineCount cs := by
      rcases h with h | ⟨h, -⟩ <;> omega
    unfold offsetAt
    rw [if_pos hp, if_pos hq]
    rcases h with hline | ⟨hline, hcolumn⟩
    · -- the text of the first line ends before the second line starts
      have hend := lineEnd_le_nextLineStart cs p.line
      have hnext : nextLineStart cs p.line ≤ lineStart cs q.line := lineStart_mono cs hline
      have hwithin := bytesToColumn_le (lineText cs p.line) p.character
      unfold lineEnd at hend
      omega
    · rw [hline]
      exact Nat.add_le_add_left (bytesToColumn_mono _ hcolumn) _
  · have hend : offsetAt cs q = byteLength cs := if_neg hq
    rw [hend]
    exact offsetAt_le cs p

/-- **The place inside a line end comes back in front of it.** -/
theorem offsetAt_position_of_parts (h : PartsLineEnd cs o) :
    offsetAt cs (position cs o) = o - 1 := by
  obtain ⟨A, B, rfl, rfl⟩ := h
  have hplace : byteLength A + 1 = byteLength (A ++ ['\r']) := by
    rw [byteLength_append]
    rfl
  have htext : A ++ '\r' :: '\n' :: B = (A ++ ['\r']) ++ '\n' :: B := by simp
  have hlead : lead (A ++ ['\r']) = lead A ++ ['\r'] ∧ upToLead (A ++ ['\r']) = upToLead A :=
    lead_append_of_not_mem (by decide) A
  have hbreaks : breaks (A ++ ['\r']) = breaks A := by
    rw [← breaks_upToLead, hlead.2, breaks_upToLead]
  have hline : lineText (A ++ '\r' :: '\n' :: B) (breaks A) = lead A := by
    rw [lineText, append_eq_lead, ← breaks_upToLead, fromLine_append (atLineStart_upToLead A)]
    exact firstLine_return (not_mem_lead A) B
  have hstart : lineStart (A ++ '\r' :: '\n' :: B) (breaks A) = byteLength (upToLead A) :=
    lineStart_lead (S := []) A _
  have hcount : breaks A < lineCount (A ++ '\r' :: '\n' :: B) := by
    rw [lineCount_eq, breaks_append]
    omega
  have hlen := byteLength_upToLead A
  have hposition : position (A ++ '\r' :: '\n' :: B) (byteLength A + 1) =
      ⟨breaks A, utf16Length (lead A) + 1⟩ := by
    rw [hplace, htext, position_append, hbreaks, hlead.1, utf16Length_append]
    rfl
  rw [hposition, offsetAt, if_pos hcount]
  dsimp only
  rw [hstart, hline, bytesToColumn_of_le (Nat.le_add_right _ _), hlen, Nat.add_sub_cancel]

/-- Lines and columns of a text of fewer than 2 ^ 32 bytes have 32 bits, at every place of it. -/
theorem isShort_position (h : isBoundary cs o = true) (hsize : byteLength cs < 2 ^ 32) :
    (position cs o).IsShort := by
  obtain ⟨A, B, rfl, rfl⟩ := isBoundary_iff.mp h
  have hlen := byteLength_upToLead A
  have hbreaks := breaks_le A
  have hunits := utf16Length_le (lead A)
  rw [byteLength_append] at hsize
  rw [position_append]
  exact ⟨by dsimp only; omega, by dsimp only; omega⟩

/-- The position of a place: the line feeds among the bytes in front of it, and the UTF-16 code
units of what stands behind the last of them. -/
theorem exists_position (h : isBoundary cs o = true) :
    ∃ P L R, cs = P ++ (L ++ R) ∧ AtLineStart P ∧ '\n' ∉ L ∧ byteLength (P ++ L) = o ∧
      position cs o = ⟨((utf8Bytes cs).take o).count 0x0a, utf16Length L⟩ := by
  obtain ⟨A, B, rfl, rfl⟩ := isBoundary_iff.mp h
  refine ⟨upToLead A, lead A, B, append_eq_lead A B, atLineStart_upToLead A, not_mem_lead A, ?_, ?_⟩
  · rw [upToLead_append_lead]
  · rw [position_append, count_take_utf8Bytes]

/-- **Offsets and positions are told from each other**, and in the same order. -/
theorem positions_convert {cs : List Char} (hsize : byteLength cs < 2 ^ 32) :
    (∀ o, isBoundary cs o = true →
      (∃ P L R, cs = P ++ (L ++ R) ∧ AtLineStart P ∧ '\n' ∉ L ∧ byteLength (P ++ L) = o ∧
        position cs o = ⟨((utf8Bytes cs).take o).count 0x0a, utf16Length L⟩) ∧
      (position cs o).IsShort ∧
      (¬ PartsLineEnd cs o → offsetAt cs (position cs o) = o) ∧
      (PartsLineEnd cs o → offsetAt cs (position cs o) = o - 1)) ∧
    (∀ p, isBoundary cs (offsetAt cs p) = true) ∧
    (∀ o o', isBoundary cs o = true → isBoundary cs o' = true → o ≤ o' →
      position cs o ≤ position cs o') ∧
    ∀ p q : Position, p ≤ q → offsetAt cs p ≤ offsetAt cs q := by
  refine ⟨fun o ho => ⟨exists_position ho, isShort_position ho hsize, fun hparts => ?_,
    offsetAt_position_of_parts⟩, isBoundary_offsetAt cs, fun o o' => position_mono,
    fun p q => offsetAt_mono cs⟩
  exact offsetAt_position (isAnchor_of_isBoundary ho hparts)

/-- A line end of two characters, and a character of two UTF-16 code units on the next line. The
place inside the line end comes back in front of it, the end of the text comes back, and a column
inside the character leads behind it. -/
theorem positions_convert_astral :
    byteLength "a\r\n😀b".toList < 2 ^ 32 ∧
      (isBoundary "a\r\n😀b".toList 2 = true ∧ PartsLineEnd "a\r\n😀b".toList 2 ∧
        offsetAt "a\r\n😀b".toList (position "a\r\n😀b".toList 2) = 1) ∧
      (isBoundary "a\r\n😀b".toList 8 = true ∧ position "a\r\n😀b".toList 8 = ⟨1, 3⟩ ∧
        position "a\r\n😀b".toList 2 ≤ position "a\r\n😀b".toList 8) ∧
      offsetAt "a\r\n😀b".toList ⟨1, 1⟩ = 7 ∧
      isBoundary "a\r\n😀b".toList (offsetAt "a\r\n😀b".toList ⟨1, 1⟩) = true := by
  have hsize : byteLength "a\r\n😀b".toList < 2 ^ 32 := by decide
  have hparts : PartsLineEnd "a\r\n😀b".toList 2 := ⟨['a'], ['😀', 'b'], by decide, by decide⟩
  obtain ⟨hplaces, hback, hmono, -⟩ := positions_convert hsize
  refine ⟨hsize, ⟨by decide, hparts, ?_⟩, ⟨by decide, by decide, ?_⟩, by decide, hback _⟩
  · exact (hplaces 2 (by decide)).2.2.2 hparts
  · exact hmono 2 8 (by decide) (by decide) (by decide)

end UseImports
