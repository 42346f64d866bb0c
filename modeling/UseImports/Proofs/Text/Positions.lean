import UseImports.Proofs.Text.LineSplit

/-!
# Offsets and their positions

A position tells a line and a column, and a column behind the end of a line means its end. So the
way from an offset to its position and back loses what lies inside a character, behind the text, or
between a carriage return and its line feed. All other offsets come back.

* `IsAnchor`: a place of the text that parts no line end.
* `offsetAt_position`: **an anchor is told from its position.**
* `position_le`: no line and no column is greater than the number of bytes.
* `isAnchor_of_word`: words that can be seen start and end at anchors.
* `isAnchor_lineStart`, `isAnchor_firstLine`: lines start and end at anchors.
-/

namespace UseImports

variable {A B cs : List Char} {n : Nat}

/-- The offset is a place of the text, and not one between a carriage return and its line feed. -/
def IsAnchor (cs : List Char) (n : Nat) : Prop :=
  ∃ A B, cs = A ++ B ∧ byteLength A = n ∧ (A.getLast? = some '\r' → B.head? ≠ some '\n')

/-- In front of something else than a line feed there is an anchor. -/
theorem isAnchor_of_head (h : B.head? ≠ some '\n') : IsAnchor (A ++ B) (byteLength A) :=
  ⟨A, B, rfl, rfl, fun _ => h⟩

/-- Behind something else than a carriage return there is an anchor. -/
theorem isAnchor_of_getLast (h : A.getLast? ≠ some '\r') : IsAnchor (A ++ B) (byteLength A) :=
  ⟨A, B, rfl, rfl, fun hlast => absurd hlast h⟩

/-- A word that can be seen has its ends at anchors. -/
theorem isAnchor_of_word {A w B : List Char} (hne : w ≠ []) (hw : ∀ c ∈ w, isBlank c = false) :
    IsAnchor (A ++ (w ++ B)) (byteLength A) ∧
      IsAnchor (A ++ (w ++ B)) (byteLength A + byteLength w) := by
  have hvisible : ∀ c ∈ w, c ≠ '\n' ∧ c ≠ '\r' := fun c hc =>
    ⟨fun h => absurd (hw c hc) (by rw [h]; decide), fun h => absurd (hw c hc) (by rw [h]; decide)⟩
  constructor
  · refine isAnchor_of_head ?_
    rw [List.head?_append_of_ne_nil _ hne]
    exact fun hhead => (hvisible _ (List.mem_of_mem_head? hhead)).1 rfl
  · rw [← byteLength_append, ← List.append_assoc]
    refine isAnchor_of_getLast ?_
    rw [List.getLast?_append, List.getLast?_eq_some_getLast hne]
    exact fun hlast => (hvisible _ (List.getLast_mem hne)).2 (Option.some.inj hlast)

/-! ## Lines -/

/-- A line behind the first one starts behind a line feed, or at the end of the text. -/
theorem exists_fromLine (cs : List Char) (l : Nat) :
    ∃ P, cs = P ++ fromLine cs l ∧
      ((l = 0 ∧ P = []) ∨ P.getLast? = some '\n' ∨ fromLine cs l = []) := by
  induction cs generalizing l with
  | nil => exact ⟨[], by cases l <;> rfl, .inr (.inr (by cases l <;> rfl))⟩
  | cons c cs ih =>
    cases l with
    | zero => exact ⟨[], by rw [fromLine, List.nil_append], .inl ⟨rfl, rfl⟩⟩
    | succ l =>
      rw [fromLine]
      obtain ⟨P, hP, hstart⟩ := ih (if c = '\n' then l else l + 1)
      refine ⟨c :: P, by rw [List.cons_append, ← hP], .inr ?_⟩
      rcases hstart with ⟨hzero, rfl⟩ | hlast | hnil
      · split at hzero
        next hc => exact .inl (by rw [hc]; rfl)
        next => cases hzero
      · exact .inl (by rw [List.getLast?_cons, hlast]; rfl)
      · exact .inr hnil

/-- **Every line starts at an anchor.** -/
theorem isAnchor_lineStart (cs : List Char) (l : Nat) : IsAnchor cs (lineStart cs l) := by
  obtain ⟨P, hP, hstart⟩ := exists_fromLine cs l
  have hlen := lineStart_add cs l
  have hbytes := congrArg byteLength hP
  rw [byteLength_append] at hbytes
  refine ⟨P, fromLine cs l, hP, by omega, fun hreturn => ?_⟩
  rcases hstart with ⟨-, rfl⟩ | hlast | hnil
  · cases hreturn
  · rw [hlast] at hreturn
    exact absurd (Option.some.inj hreturn) (by decide)
  · rw [hnil]
    simp

/-- Behind the text of a line stands nothing, or a line feed with or without a carriage return. -/
theorem exists_firstLine (Y : List Char) :
    ∃ Q, Y = firstLine Y ++ Q ∧ (Q = [] ∨ (∃ R, Q = '\r' :: '\n' :: R) ∨
      ∃ R, Q = '\n' :: R ∧ (firstLine Y).getLast? ≠ some '\r') := by
  have hsplit := Y.takeWhile_append_dropWhile (p := (· ≠ '\n'))
  unfold firstLine
  generalize Y.takeWhile (· ≠ '\n') = L at hsplit ⊢
  cases hrest : Y.dropWhile (· ≠ '\n') with
  | nil =>
    rw [hrest, List.append_nil] at hsplit
    refine ⟨[], ?_, .inl rfl⟩
    rw [hsplit, if_neg (by simp), List.append_nil]
  | cons c R =>
    obtain rfl := eq_break_of_dropWhile hrest
    rw [hrest] at hsplit
    by_cases hlast : L.getLast? = some '\r'
    · obtain ⟨L', rfl⟩ := List.getLast?_eq_some_iff.mp hlast
      refine ⟨'\r' :: '\n' :: R, ?_, .inr (.inl ⟨R, rfl⟩)⟩
      rw [← hsplit, if_pos (by simp), List.dropLast_concat, List.append_assoc,
        List.singleton_append]
    · refine ⟨'\n' :: R, ?_, .inr (.inr ⟨R, rfl, ?_⟩)⟩
      · rw [if_neg (by simp [hlast]), hsplit]
      · rw [if_neg (by simp [hlast])]
        exact hlast

/-- **A line ends at an anchor**, if the part in front of the piece does not end inside a line end.
-/
theorem isAnchor_firstLine (hA : A.getLast? ≠ some '\r') (Y : List Char) :
    IsAnchor (A ++ Y) (byteLength A + byteLength (firstLine Y)) := by
  obtain ⟨Q, hY, hQ⟩ := exists_firstLine Y
  refine ⟨A ++ firstLine Y,
    Q, by rw [List.append_assoc, ← hY], byteLength_append _ _, fun hlast => ?_⟩
  rcases hQ with rfl | ⟨R, rfl⟩ | ⟨R, rfl, hne⟩
  · simp
  · simp
  · -- a line feed alone: neither the line nor, where it is empty, what stands in front ends in a
    -- carriage return
    rw [List.getLast?_append] at hlast
    cases hline : (firstLine Y).getLast? with
    | none =>
      rw [hline] at hlast
      exact absurd hlast hA
    | some c =>
      rw [hline] at hlast hne
      exact absurd hlast hne

/-! ## The way back -/

/-- What stands on the line in front of an anchor belongs to the text of the line. -/
theorem lead_isPrefix_firstLine (h : A.getLast? = some '\r' → B.head? ≠ some '\n') :
    lead A <+: firstLine (lead A ++ B) := by
  obtain ⟨Q, hline, hQ⟩ := exists_firstLine (lead A ++ B)
  generalize firstLine (lead A ++ B) = L at hline hQ ⊢
  obtain ⟨K, hlead, hB⟩ | ⟨K, hlead, hB⟩ := List.append_eq_append_iff.mp hline
  · exact ⟨K, hlead.symm⟩
  -- else the line ends in front of the cut, so that the carriage return or the line feed stands in
  -- front of it
  have hnot := not_mem_lead A
  rw [hlead] at hnot
  cases K with
  | nil => exact ⟨[], by rw [hlead, List.append_nil, List.append_nil]⟩
  | cons k K =>
    rw [List.cons_append] at hB
    rcases hQ with rfl | ⟨R, rfl⟩ | ⟨R, rfl, -⟩
    · cases hB
    · obtain ⟨rfl, hrest⟩ := List.cons.inj hB
      cases K with
      | nil =>
        have hA : A.getLast? = some '\r' := by
          rw [← upToLead_append_lead A, hlead]
          simp
        exact absurd (congrArg List.head? hrest.symm) (h hA)
      | cons k K =>
        obtain ⟨rfl, -⟩ := List.cons.inj hrest
        simp at hnot
    · obtain ⟨rfl, -⟩ := List.cons.inj hB
      simp at hnot

@[simp] theorem utf16Length_nil : utf16Length [] = 0 := rfl

theorem utf16Size_pos (c : Char) : 0 < utf16Size c := by
  unfold utf16Size
  split <;> decide

/-- No character has more UTF-16 code units than bytes. -/
theorem utf16Size_le (c : Char) : utf16Size c ≤ c.utf8Size := by
  unfold utf16Size
  split
  next => exact c.utf8Size_pos
  next h =>
    have hsize : c.utf8Size ≠ 1 := fun hone => by
      have := UInt32.le_iff_toNat_le.mp (Char.utf8Size_eq_one_iff.mp hone)
      exact h (Nat.lt_of_le_of_lt this (by decide))
    have := c.utf8Size_pos
    omega

theorem utf16Length_le (cs : List Char) : utf16Length cs ≤ byteLength cs := by
  induction cs with
  | nil => exact Nat.le_refl 0
  | cons c cs ih => exact Nat.add_le_add (utf16Size_le c) ih

/-- The columns of an initial part of a line are told from its UTF-16 code units. -/
theorem bytesToColumn_append (L R : List Char) :
    bytesToColumn (L ++ R) (utf16Length L) = byteLength L := by
  induction L with
  | nil => cases R <;> rfl
  | cons c L ih =>
    obtain ⟨n, hn⟩ : ∃ n, utf16Size c + utf16Length L = n + 1 :=
      ⟨utf16Size c + utf16Length L - 1, by have := utf16Size_pos c; omega⟩
    rw [List.cons_append, utf16Length, hn, bytesToColumn, ← hn, Nat.add_sub_cancel_left, ih,
      byteLength_cons]

/-- The position of a place: the line ends in front of it, and what stands on its line. -/
theorem position_append (A B : List Char) :
    position (A ++ B) (byteLength A) = ⟨breaks A, utf16Length (lead A)⟩ := by
  have hlen := byteLength_upToLead A
  have hslice : (Span.mk (byteLength (upToLead A)) (byteLength A)).slice (A ++ B) = lead A := by
    rw [append_eq_lead A B, ← hlen]
    exact Span.slice_append _ _ _
  have hstart := lineStart_lead (S := []) A B
  rw [List.nil_append] at hstart
  unfold position
  dsimp only
  rw [Nat.min_eq_left (by rw [byteLength_append]; omega), lineOf_append, hstart, hslice]

theorem breaks_le (A : List Char) : breaks A ≤ byteLength A := by
  induction A with
  | nil => exact Nat.le_refl 0
  | cons c A ih =>
    have := c.utf8Size_pos
    rw [breaks_cons, byteLength_cons]
    split <;> omega

theorem lineCount_eq (cs : List Char) : lineCount cs = breaks cs + 1 := by
  induction cs with
  | nil => rfl
  | cons c cs ih =>
    rw [lineCount, ih, breaks_cons]
    omega

/-- **An anchor is told from its position.** -/
theorem offsetAt_position (h : IsAnchor cs n) : offsetAt cs (position cs n) = n := by
  obtain ⟨A, B, rfl, rfl, hparts⟩ := h
  have hlen := byteLength_upToLead A
  obtain ⟨R, hR⟩ := lead_isPrefix_firstLine hparts
  have hline : lineText (A ++ B) (breaks A) = lead A ++ R := by
    rw [lineText, append_eq_lead, ← breaks_upToLead, fromLine_append (atLineStart_upToLead A), hR]
  have hstart := lineStart_lead (S := []) A B
  rw [List.nil_append] at hstart
  rw [position_append, offsetAt]
  dsimp only
  rw [if_pos (by rw [lineCount_eq, breaks_append]; omega), hline, hstart,
    bytesToColumn_append, hlen]

/-- **No line and no column is greater than the number of bytes.** -/
theorem position_le (h : IsAnchor cs n) :
    (position cs n).line ≤ byteLength cs ∧ (position cs n).character ≤ byteLength cs := by
  obtain ⟨A, B, rfl, rfl, -⟩ := h
  have hlen := byteLength_upToLead A
  rw [position_append, byteLength_append]
  dsimp only
  have hbreaks := breaks_le A
  have hunits := utf16Length_le (lead A)
  omega

end UseImports
