import UseImports.Edit.Basic
import UseImports.Proofs.Text.Window
import Mathlib.Data.List.TakeWhile

/-!
# Lines of a text in pieces

A text is cut at the start of a line, or inside one. What the line functions say about the whole
text is read off the pieces: how many line ends stand in front, what stands on the line in front of
the cut, and what is left of the line behind it.

* `AtLineStart`: a piece behind which a line starts.
* `lead`, `throughBreak`: what stands on the line in front of a cut, and the rest of the line behind
  it.
* `lineOf_append`, `lineStart_append`, `nextLineStart_append`, `lineEnd_append`: offsets of lines.
* `isAlone_append`, `wholeLines_append`: **the lines of a statement between two pieces.**
-/

namespace UseImports

variable {A cs G L P S : List Char} {c : Char} {l n : Nat}

/-- The number of line ends. -/
def breaks (A : List Char) : Nat :=
  A.count '\n'

@[simp] theorem breaks_nil : breaks [] = 0 := rfl

@[simp] theorem breaks_append (A B : List Char) : breaks (A ++ B) = breaks A + breaks B :=
  List.count_append

theorem breaks_cons (c : Char) (A : List Char) :
    breaks (c :: A) = (if c = '\n' then 1 else 0) + breaks A := by
  unfold breaks
  rw [List.count_cons, Nat.add_comm]
  congr 1
  by_cases h : c = '\n' <;> simp [h]

theorem breaks_eq_zero (h : '\n' ∉ A) : breaks A = 0 :=
  List.count_eq_zero.mpr h

/-- A line starts behind the text. -/
def AtLineStart (P : List Char) : Prop :=
  P = [] ∨ P.getLast? = some '\n'

theorem AtLineStart.tail (h : AtLineStart (c :: P)) :
    P = [] ∧ c = '\n' ∨ P.getLast? = some '\n' := by
  rcases h with h | h
  · cases h
  · cases P with
    | nil => exact .inl ⟨rfl, by simpa using h⟩
    | cons d P => exact .inr (by rwa [List.getLast?_cons_cons] at h)

theorem breaks_pos (h : P.getLast? = some '\n') : 0 < breaks P :=
  List.count_pos_iff.mpr (List.mem_of_getLast? h)

/-! ## Offsets of lines -/

theorem lineOf_append (A B : List Char) : lineOf (A ++ B) (byteLength A) = breaks A := by
  induction A with
  | nil =>
    have h : ∀ cs, lineOf cs 0 = 0 := by
      intro cs
      cases cs with
      | nil => rfl
      | cons c cs =>
        rw [lineOf, if_neg]
        have := c.utf8Size_pos
        omega
    exact h B
  | cons c A ih =>
    rw [List.cons_append, lineOf, byteLength_cons, if_pos (Nat.le_add_right _ _),
      Nat.add_sub_cancel_left, ih, breaks_cons]

/-- A line that comes behind that of an offset starts behind the offset. -/
theorem lt_lineStart (hn : n < byteLength cs) (hl : lineOf cs n < l) : n < lineStart cs l := by
  induction cs generalizing n l with
  | nil => exact absurd hn (Nat.not_lt_zero n)
  | cons c cs ih =>
    obtain ⟨l, rfl⟩ : ∃ k, l = k + 1 := ⟨l - 1, by omega⟩
    rw [byteLength_cons] at hn
    rw [lineOf] at hl
    rw [lineStart]
    split at hl
    · have hbehind : n - c.utf8Size < lineStart cs (if c = '\n' then l else l + 1) :=
        ih (by omega)
          (by by_cases hc : c = '\n' <;> simp only [hc, if_true, if_false] at hl ⊢ <;> omega)
      omega
    · omega

/-- A line starts in front of the offsets that are not in front of it. -/
theorem lineStart_le (hl : l ≤ lineOf cs n) : lineStart cs l ≤ n := by
  induction cs generalizing n l with
  | nil => cases l <;> exact Nat.zero_le n
  | cons c cs ih =>
    cases l with
    | zero => exact Nat.zero_le n
    | succ l =>
      rw [lineOf] at hl
      rw [lineStart]
      split at hl
      · rename_i hle
        have hbehind : lineStart cs (if c = '\n' then l else l + 1) ≤ n - c.utf8Size :=
          ih (by by_cases hc : c = '\n' <;> simp only [hc, if_true, if_false] at hl ⊢ <;> omega)
        omega
      · omega

/-- Offsets that come later are on later lines. -/
theorem lineOf_le {k : Nat} (h : n ≤ k) (hk : k < byteLength cs) : lineOf cs n ≤ lineOf cs k := by
  by_contra hlt
  have hbehind := lt_lineStart hk (Nat.not_le.mp hlt)
  have hfront := lineStart_le (Nat.le_refl (lineOf cs n))
  omega

theorem fromLine_append (h : AtLineStart P) (X : List Char) : fromLine (P ++ X) (breaks P) = X := by
  induction P with
  | nil => cases X <;> rfl
  | cons c P ih =>
    rcases h.tail with ⟨rfl, rfl⟩ | hlast
    · cases X <;> rfl
    · obtain ⟨n, hn⟩ : ∃ n, breaks P = n + 1 := ⟨breaks P - 1, by have := breaks_pos hlast; omega⟩
      have hbreaks : breaks (c :: P) = (if c = '\n' then n + 1 else n) + 1 := by
        rw [breaks_cons, hn]
        split <;> omega
      have hline : (if c = '\n' then if c = '\n' then n + 1 else n
          else (if c = '\n' then n + 1 else n) + 1) = breaks P := by
        rw [hn]
        split <;> simp_all
      rw [List.cons_append, hbreaks, fromLine, hline, ih (.inr hlast)]

/-- What stands in front of a line and what stands from there on make up the text. -/
theorem lineStart_add (cs : List Char) (l : Nat) :
    lineStart cs l + byteLength (fromLine cs l) = byteLength cs := by
  induction cs generalizing l with
  | nil => cases l <;> rfl
  | cons c cs ih =>
    cases l with
    | zero =>
      rw [lineStart, fromLine]
      exact Nat.zero_add _
    | succ l => rw [lineStart, fromLine, Nat.add_assoc, ih, byteLength_cons]

/-- A line starts where the text in front of it ends. -/
theorem lineStart_append (h : AtLineStart P) (X : List Char) :
    lineStart (P ++ X) (breaks P) = byteLength P := by
  have := lineStart_add (P ++ X) (breaks P)
  rw [fromLine_append h, byteLength_append] at this
  omega

/-- There is nothing behind the last line. -/
theorem fromLine_of_lt (h : breaks cs < l) : fromLine cs l = [] := by
  induction cs generalizing l with
  | nil => cases l <;> rfl
  | cons c cs ih =>
    cases l with
    | zero => exact absurd h (Nat.not_lt_zero _)
    | succ l =>
      rw [fromLine]
      refine ih ?_
      rw [breaks_cons] at h
      split at h <;> simp_all
      omega

/-! ## The line around a cut -/

/-- What is left behind the characters of a line begins with its end. -/
theorem eq_break_of_dropWhile {Y : List Char} (h : Y.dropWhile (· ≠ '\n') = c :: cs) :
    c = '\n' := by
  induction Y with
  | nil => cases h
  | cons y Y ih =>
    rw [List.dropWhile_cons] at h
    split at h
    · exact ih h
    · rename_i hy
      cases h
      simpa using hy

/-- What stands on the line in front of the end of the text. -/
def lead (A : List Char) : List Char :=
  (A.reverse.takeWhile (· ≠ '\n')).reverse

/-- The text up to the start of its last line. -/
def upToLead (A : List Char) : List Char :=
  (A.reverse.dropWhile (· ≠ '\n')).reverse

theorem upToLead_append_lead (A : List Char) : upToLead A ++ lead A = A := by
  unfold upToLead lead
  rw [← List.reverse_append, List.takeWhile_append_dropWhile, List.reverse_reverse]

theorem byteLength_upToLead (A : List Char) :
    byteLength (upToLead A) + byteLength (lead A) = byteLength A := by
  rw [← byteLength_append, upToLead_append_lead]

theorem append_eq_lead (A X : List Char) : A ++ X = upToLead A ++ (lead A ++ X) := by
  rw [← List.append_assoc, upToLead_append_lead]

theorem atLineStart_upToLead (A : List Char) : AtLineStart (upToLead A) := by
  unfold upToLead AtLineStart
  cases h : A.reverse.dropWhile (· ≠ '\n') with
  | nil => exact .inl rfl
  | cons c cs =>
    exact .inr (by simp [eq_break_of_dropWhile h])

theorem not_mem_lead (A : List Char) : '\n' ∉ lead A := by
  unfold lead
  intro h
  rw [List.mem_reverse] at h
  exact absurd (List.mem_takeWhile_imp h) (by simp)

/-- The last line is what stands behind the last line end. -/
theorem lead_of_split (hP : AtLineStart P) (hL : '\n' ∉ L) :
    lead (P ++ L) = L ∧ upToLead (P ++ L) = P := by
  have hall : ∀ c ∈ L.reverse, decide (c ≠ '\n') = true := fun c hc =>
    decide_eq_true fun heq => hL (heq ▸ List.mem_reverse.mp hc)
  have hstop : P.reverse.takeWhile (· ≠ '\n') = [] ∧ P.reverse.dropWhile (· ≠ '\n') =
      P.reverse := by
    rcases hP with rfl | hlast
    · exact ⟨rfl, rfl⟩
    · obtain ⟨P', rfl⟩ := List.getLast?_eq_some_iff.mp hlast
      simp
  unfold lead upToLead
  rw [List.reverse_append, List.takeWhile_append_of_pos hall, List.dropWhile_append_of_pos hall,
    hstop.1, hstop.2]
  simp

/-- What is put behind a text on its last line. -/
theorem lead_append_of_not_mem (h : '\n' ∉ G) (A : List Char) :
    lead (A ++ G) = lead A ++ G ∧ upToLead (A ++ G) = upToLead A := by
  have hnot : '\n' ∉ lead A ++ G := by
    rw [List.mem_append, not_or]
    exact ⟨not_mem_lead A, h⟩
  rw [append_eq_lead]
  exact lead_of_split (atLineStart_upToLead A) hnot

/-- What is put behind a text with line ends in it. -/
theorem lead_append_of_mem (h : '\n' ∈ G) (A : List Char) :
    lead (A ++ G) = lead G ∧ upToLead (A ++ G) = A ++ upToLead G := by
  have hbreak : (upToLead G).getLast? = some '\n' := by
    rcases atLineStart_upToLead G with hnil | hlast
    · rw [← upToLead_append_lead G, hnil, List.nil_append] at h
      exact absurd h (not_mem_lead G)
    · exact hlast
  have hstart : AtLineStart (A ++ upToLead G) := .inr (by rw [List.getLast?_append, hbreak]; rfl)
  have := lead_of_split hstart (not_mem_lead G)
  rwa [List.append_assoc, upToLead_append_lead] at this

theorem breaks_upToLead (A : List Char) : breaks (upToLead A) = breaks A := by
  conv_rhs => rw [← upToLead_append_lead A]
  rw [breaks_append, breaks_eq_zero (not_mem_lead A), Nat.add_zero]

/-- The text through its first line end, or all of it if it has none. -/
def throughBreak (Y : List Char) : List Char :=
  Y.takeWhile (· ≠ '\n') ++ (Y.dropWhile (· ≠ '\n')).take 1

/-- The text behind its first line end. -/
def behindBreak (Y : List Char) : List Char :=
  (Y.dropWhile (· ≠ '\n')).drop 1

theorem throughBreak_append_behindBreak (Y : List Char) : throughBreak Y ++ behindBreak Y = Y := by
  unfold throughBreak behindBreak
  rw [List.append_assoc, List.take_append_drop, List.takeWhile_append_dropWhile]

theorem throughBreak_cases (Y : List Char) :
    (throughBreak Y = Y ∧ '\n' ∉ Y) ∨
      ∃ x, '\n' ∉ x ∧ throughBreak Y = x ++ ['\n'] ∧ Y = x ++ '\n' :: behindBreak Y := by
  have hx : '\n' ∉ Y.takeWhile (· ≠ '\n') := fun h => absurd (List.mem_takeWhile_imp h) (by simp)
  have hsplit := throughBreak_append_behindBreak Y
  unfold throughBreak at hsplit ⊢
  cases h : Y.dropWhile (· ≠ '\n') with
  | nil =>
    have hY : Y.takeWhile (· ≠ '\n') = Y := by
      conv_rhs => rw [← Y.takeWhile_append_dropWhile (p := (· ≠ '\n')), h, List.append_nil]
    refine .inl ⟨by simpa using hY, ?_⟩
    rwa [hY] at hx
  | cons c cs =>
    obtain rfl := eq_break_of_dropWhile h
    rw [h] at hsplit
    refine .inr ⟨_, hx, rfl, ?_⟩
    conv_lhs => rw [← hsplit]
    simp

/-- **The line behind a text starts behind the rest of its last line.** -/
theorem nextLineStart_append (A Y : List Char) :
    nextLineStart (A ++ Y) (breaks A) = byteLength A + byteLength (throughBreak Y) := by
  unfold nextLineStart
  rcases throughBreak_cases Y with ⟨hall, hno⟩ | ⟨x, hx, hthrough, hY⟩
  · have := lineStart_add (A ++ Y) (breaks A + 1)
    rw [fromLine_of_lt (by rw [breaks_append, breaks_eq_zero hno]; omega), byteLength_nil,
      byteLength_append] at this
    rw [hall]
    omega
  · have hbreaks : breaks A + 1 = breaks (A ++ (x ++ ['\n'])) := by
      rw [breaks_append, breaks_append, breaks_eq_zero hx]
      rfl
    have hstart : AtLineStart (A ++ (x ++ ['\n'])) := .inr (by simp)
    have htext : A ++ Y = (A ++ (x ++ ['\n'])) ++ behindBreak Y := by
      conv_lhs => rw [hY]
      simp
    rw [hbreaks, htext, lineStart_append hstart, byteLength_append, hthrough]

theorem firstLine_append (hbreak : '\n' ∉ L) (hlast : L.getLast? ≠ some '\r') (Z : List Char) :
    firstLine (L ++ Z) = L ++ firstLine Z := by
  have htake : (L ++ Z).takeWhile (· ≠ '\n') = L ++ Z.takeWhile (· ≠ '\n') :=
    List.takeWhile_append_of_pos fun c hc => by
      have : c ≠ '\n' := fun h => hbreak (h ▸ hc)
      simpa using this
  unfold firstLine
  dsimp only
  rw [htake]
  cases hz : Z.takeWhile (· ≠ '\n') with
  | nil =>
    rw [List.append_nil, if_neg, if_neg]
    · exact (List.append_nil L).symm
    · simp
    · simp [hlast]
  | cons z zs =>
    have hlast' : (L ++ z :: zs).getLast? = (z :: zs).getLast? := by
      rw [List.getLast?_append, List.getLast?_eq_some_getLast (List.cons_ne_nil z zs)]
      rfl
    rw [hlast', List.length_append, List.length_append]
    by_cases h : ((z :: zs).length < Z.length ∧ (z :: zs).getLast? = some '\r')
    · rw [if_pos, if_pos, List.dropLast_append_of_ne_nil (List.cons_ne_nil z zs)]
      · simpa using h
      · simpa using h
    · rw [if_neg, if_neg]
      · simpa using h
      · simpa using h

theorem firstLine_isPrefix (Y : List Char) : firstLine Y <+: Y := by
  have h : Y.takeWhile (· ≠ '\n') <+: Y := List.takeWhile_prefix _
  unfold firstLine
  dsimp only
  split
  · exact (List.dropLast_prefix _).trans h
  · exact h

theorem lead_append (hlast : S.getLast? = some ';') : (lead (A ++ S)).getLast? = some ';' := by
  have htext := congrArg List.getLast? (upToLead_append_lead (A ++ S))
  rw [List.getLast?_append, List.getLast?_append, hlast] at htext
  cases h : (lead (A ++ S)).getLast? with
  | some c =>
    rw [h] at htext
    exact htext
  | none =>
    rw [h] at htext
    rcases atLineStart_upToLead (A ++ S) with hnil | hbreak
    · rw [hnil] at htext
      cases htext
    · rw [hbreak] at htext
      exact absurd (Option.some.inj htext) (by decide)

section Statement

variable (hlast : S.getLast? = some ';') (A Y : List Char)

include hlast

/-- The line on which a statement ends goes on with what stands behind the statement. -/
theorem lineEnd_append : lineEnd (A ++ (S ++ Y)) (breaks (A ++ S)) =
    byteLength A + byteLength S + byteLength (firstLine Y) := by
  have htext : A ++ (S ++ Y) = upToLead (A ++ S) ++ (lead (A ++ S) ++ Y) := by
    rw [← List.append_assoc, append_eq_lead]
  have hlead := lead_append (A := A) hlast
  have hlen := byteLength_upToLead (A ++ S)
  rw [byteLength_append A S] at hlen
  unfold lineEnd lineText
  rw [htext, ← breaks_upToLead (A ++ S), lineStart_append (atLineStart_upToLead _),
    fromLine_append (atLineStart_upToLead _),
    firstLine_append (not_mem_lead _) (by rw [hlead]; decide), byteLength_append]
  omega

theorem lineExtent_append :
    lineExtent (A ++ (S ++ Y)) ⟨byteLength A, byteLength A + byteLength S⟩ =
      (breaks A, breaks (A ++ S)) := by
  obtain ⟨S', rfl⟩ : ∃ S', S = S' ++ [';'] := by
    obtain ⟨h, hS⟩ := List.getLast?_eq_some_iff.mp hlast
    exact ⟨_, hS⟩
  have hoffset : byteLength A + byteLength (S' ++ [';']) - 1 = byteLength (A ++ S') := by
    have : (';' : Char).utf8Size = 1 := by decide
    simp [this]
  have htext : A ++ (S' ++ [';'] ++ Y) = (A ++ S') ++ (';' :: Y) := by simp
  unfold lineExtent
  dsimp only
  rw [lineOf_append, hoffset, htext, lineOf_append, ← List.append_assoc A, breaks_append (A ++ S')]
  rfl

omit hlast in
theorem lineStart_lead : lineStart (A ++ (S ++ Y)) (breaks A) = byteLength (upToLead A) := by
  rw [append_eq_lead A, ← breaks_upToLead A, lineStart_append (atLineStart_upToLead A)]

omit hlast in
theorem slice_firstLine : (Span.mk (byteLength A + byteLength S)
    (byteLength A + byteLength S + byteLength (firstLine Y))).slice (A ++ (S ++ Y)) =
      firstLine Y := by
  obtain ⟨rest, hrest⟩ := firstLine_isPrefix Y
  have htext : A ++ (S ++ Y) = (A ++ S) ++ (firstLine Y ++ rest) := by rw [hrest, List.append_assoc]
  rw [← byteLength_append, htext]
  exact Span.slice_append _ _ _

/-- A statement has its lines to itself if only white space is left of them. -/
theorem isAlone_append :
    isAlone (A ++ (S ++ Y)) ⟨byteLength A, byteLength A + byteLength S⟩ =
      (isBlankText (lead A) && isBlankText (firstLine Y)) := by
  have hbefore : (Span.mk (byteLength (upToLead A)) (byteLength A)).slice (A ++ (S ++ Y)) =
      lead A := by
    have hlen := byteLength_upToLead A
    rw [← hlen, append_eq_lead A]
    exact Span.slice_append _ _ _
  unfold isAlone
  rw [lineExtent_append hlast]
  dsimp only
  rw [lineStart_lead A Y, hbefore, lineEnd_append hlast, slice_firstLine A Y]

/-- **What is taken out with a statement.** -/
theorem wholeLines_append :
    wholeLines (A ++ (S ++ Y)) ⟨byteLength A, byteLength A + byteLength S⟩ =
      if isBlankText (lead A) && isBlankText (firstLine Y) then
        ⟨byteLength (upToLead A), byteLength A + byteLength S + byteLength (throughBreak Y)⟩
      else
        ⟨byteLength A,
          byteLength A + byteLength S + byteLength ((firstLine Y).takeWhile isIndent)⟩ := by
  have hnext : nextLineStart (A ++ (S ++ Y)) (breaks (A ++ S)) =
      byteLength A + byteLength S + byteLength (throughBreak Y) := by
    rw [← List.append_assoc, nextLineStart_append, byteLength_append]
  unfold wholeLines
  rw [lineExtent_append hlast, isAlone_append hlast]
  dsimp only
  rw [lineStart_lead A Y, hnext, lineEnd_append hlast, slice_firstLine A Y]

end Statement

end UseImports
