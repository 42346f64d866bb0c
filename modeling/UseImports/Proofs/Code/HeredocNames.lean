import UseImports.Proofs.Code.Heredoc

/-!
# The identifiers of heredocs

A heredoc is opened and closed by an identifier. A word behind its three angle brackets is the one
or the other, it goes on with one of them, it is blanked with the lines between, or it stands in the
first line or behind the heredoc. In the last two cases another word may take its place: the heredoc
is read as before, but for the length of the word.

* `Opener.cases_of_word`: where a word stands that follows the brackets.
* `labelPlaces`, `labelsFrom`, `heredocNames`: the places of the identifiers of one heredoc, and of
  all of a text.
* `Refit`: how the verdicts that are known ahead change when a word is replaced.
* `heredoc_reword`: **a word in a heredoc is replaced.**
-/

namespace UseImports

variable {n : Nat} {f : List Verdict} {A B r s : List Char}

/-! ## The identifiers of heredocs -/

/-- The places of the identifiers of a heredoc behind its three angle brackets: of the one that
opens it, with `lead` characters and a quote in front of it and `tail` behind it, and of the one
that closes it. -/
def labelledPlaces (lead quote : Nat) (label tail : List Char) : List Nat :=
  if label.isEmpty then []
  else
    let line := (tail.drop quote).takeWhile (· ≠ '\n')
    let body := ((tail.drop quote).drop line.length).drop 1
    let head := lead + quote + label.length + quote + line.length + 1
    (lead + quote) :: ((closingLine label true body).map (head + ·)).toList

/-- The places of the identifiers of the heredoc that the text begins with behind three angle
brackets. -/
def labelPlaces (rest : List Char) : List Nat :=
  let o := Opener.read rest
  labelledPlaces o.lead o.quote o.label o.tail

/-- The identifiers of the heredoc that a step opens. -/
def openedLabels (m : Mode) (c : Char) (rest : List Char) : List Nat :=
  if m = .code ∧ c = '<' ∧
  rest.take 2 = ['<', '<'] then (labelPlaces (rest.drop 2)).map (· + 3) else []

/-- The places of the identifiers of all heredocs of a text that is read from a mode on, with some
verdicts already known. -/
def labelsFrom : List Verdict → Mode → List Char → List Nat
  | _, _, [] => []
  | _ :: known, m, _ :: cs => (labelsFrom known m cs).map (· + 1)
  | [], m, c :: cs =>
    openedLabels m c cs ++
      match m.step c cs with
      | .ok d => (labelsFrom d.further d.mode cs).map (· + 1)
      | .error _ => []

/-- The identifiers of the heredocs of a text, by their offsets. -/
def heredocNames (T : List Char) : List Nat :=
  (labelsFrom [] (startMode T) T).map fun n => byteLength (T.take n)

/-! ## Known verdicts -/

/-- The verdicts that are known ahead of a place and of the place reworded: they are the same
and end in front of it, or those on the word are replaced by those on the other word. The place is
`n` characters ahead, and the words are `k` and `l` characters long. -/
inductive Refit (n k l : Nat) : List Verdict → List Verdict → Prop
  | ended {known : List Verdict} : known.length ≤ n → Refit n k l known known
  | across {f g : List Verdict} : f.length = n →
      Refit n k l (f ++ (List.replicate k .keep ++ g)) (f ++ (List.replicate l .keep ++ g))

/-- The verdicts on the lines of a heredoc behind the first one. -/
def bodyVerdicts (label body : List Char) : List Verdict :=
  match closingLine label true body with
  | some n => List.replicate n .blank ++ List.replicate label.length .keep
  | none => List.replicate body.length .blank

section Heredoc

variable {lead quote : Nat} {label tail line Y : List Char}

theorem takeWhile_line (hline : '\n' ∉ line) (hY : ∀ c ∈ Y.head?, c = '\n') :
    (line ++ Y).takeWhile (· ≠ '\n') = line := by
  rw [List.takeWhile_append_of_pos fun c hc => decide_eq_true (ne_of_mem_of_not_mem hc hline)]
  cases Y with
  | nil => rw [List.takeWhile_nil, List.append_nil]
  | cons c Y => rw [hY c rfl, List.takeWhile_cons_of_neg (by simp), List.append_nil]

theorem heredocLabelled_eq (hlabel : label ≠ []) (htail : tail ≠ [])
    (hsplit : tail.drop quote = line ++ Y) (hline : '\n' ∉ line) (hY : ∀ c ∈ Y.head?, c = '\n') :
    heredocLabelled lead quote label tail =
      .ok (List.replicate (lead + quote + label.length + quote + line.length + 1) .keep ++
        bodyVerdicts label (Y.drop 1)) := by
  unfold heredocLabelled bodyVerdicts
  rw [if_neg (by simpa using hlabel), if_neg (by simp [htail]), hsplit, takeWhile_line hline hY]
  dsimp only
  rw [List.drop_left]
  cases closingLine label true (Y.drop 1) with
  | none => rfl
  | some n => simp

theorem labelledPlaces_eq (hlabel : label ≠ []) (hsplit : tail.drop quote = line ++ Y)
    (hline : '\n' ∉ line) (hY : ∀ c ∈ Y.head?, c = '\n') : labelledPlaces lead quote label tail =
      (lead + quote) :: ((closingLine label true (Y.drop 1)).map
        (lead + quote + label.length + quote + line.length + 1 + ·)).toList := by
  unfold labelledPlaces
  rw [if_neg (by simpa using hlabel), hsplit, takeWhile_line hline hY]
  dsimp only
  rw [List.drop_left]

/-- A word that can be seen behind the first line of a heredoc stands behind the heredoc, unless it
is the identifier that closes it or goes on with that identifier. -/
theorem closed_of_visible {V : List Char} (hident : ∀ c ∈ label, isIdentChar c = true)
    (hsne : s ≠ []) (hseen : (bodyVerdicts label (V ++ (s ++ B)))[V.length]? ≠ some .blank)
    (hlast : ∀ x ∈ V.getLast?, (bodyVerdicts label (V ++ (s ++ B)))[V.length - 1]? = some .keep →
      isIdentChar x = false)
    (hplace : closingLine label true (V ++ (s ++ B)) ≠ some V.length) :
    ∃ i, closingLine label true (V ++ (s ++ B)) = some i ∧ i + label.length < V.length := by
  unfold bodyVerdicts at hseen hlast
  cases hclosing : closingLine label true (V ++ (s ++ B)) with
  | none =>
    -- all lines are blanked
    rw [hclosing] at hseen
    refine absurd (List.getElem?_replicate_of_lt ?_) hseen
    have := List.length_pos_iff.mpr hsne
    simp only [List.length_append]
    omega
  | some i =>
    simp only [hclosing] at hseen hlast hplace
    refine ⟨i, rfl, ?_⟩
    have hle : i ≤ V.length := by
      by_contra hlt
      refine hseen ?_
      rw [List.getElem?_append_left (by simp; omega), List.getElem?_replicate_of_lt (by omega)]
    have hne : V.length ≠ i := fun heq => hplace (congrArg some heq.symm)
    by_contra hinside
    -- the identifier ends with the character in front of the word
    obtain ⟨X, t, hbody, rfl⟩ := closingLine_split hclosing
    have hfront : (V ++ (s ++ B))[V.length - 1]? = V[V.length - 1]? :=
      List.getElem?_append_left (by omega)
    have hend : V.getLast? = label[V.length - 1 - X.length]? := by
      rw [List.getLast?_eq_getElem?, ← hfront, hbody, List.getElem?_append_right (by omega),
        List.getElem?_append_left (by omega)]
    obtain ⟨x, hx⟩ : ∃ x, label[V.length - 1 - X.length]? = some x :=
      ⟨_, List.getElem?_eq_getElem (by omega)⟩
    have hkeep := hlast x (hend.trans hx) (by
      rw [List.getElem?_append_right (by simp; omega)]
      exact List.getElem?_replicate_of_lt (by simp; omega))
    rw [hident x (List.mem_of_getElem? hx)] at hkeep
    cases hkeep

/-- A word behind the first line of a heredoc is replaced: the heredoc ends in front of it. -/
theorem heredocLabelled_reword_behind (hident : ∀ c ∈ label, isIdentChar c = true)
    (hlabel : label ≠ []) (hquote : quote ≤ A.length) (hbreak : '\n' ∈ A.drop quote) (hsne : s ≠ [])
    (hn : lead + quote + label.length + A.length = n)
    (h : heredocLabelled lead quote label (A ++ (s ++ B)) = .ok f) (hseen : f[n]? ≠ some .blank)
    (hlast : ∀ x ∈ A.getLast?, f[n - 1]? = some .keep → isIdentChar x = false)
    (hplace : n ∉ labelledPlaces lead quote label (A ++ (s ++ B))) :
    heredocLabelled lead quote label (A ++ (r ++ B)) = .ok f ∧ f.length ≤ n ∧
      labelledPlaces lead quote label (A ++ (r ++ B)) =
        labelledPlaces lead quote label (A ++ (s ++ B)) := by
  obtain ⟨line, V, hA, hline⟩ := List.eq_append_cons_of_mem hbreak
  have hlen := congrArg List.length hA
  rw [List.length_drop, List.length_append, List.length_cons] at hlen
  have htail : ∀ X, A ++ X ≠ [] := fun X =>
    List.append_ne_nil_of_left_ne_nil (List.ne_nil_of_mem (List.mem_of_mem_drop hbreak)) X
  have hsplit : ∀ X, (A ++ X).drop quote = line ++ '\n' :: (V ++ X) := fun X => by
    rw [List.drop_append_of_le_length hquote, hA, List.append_assoc, List.cons_append]
  have hY : ∀ X, ∀ c ∈ ('\n' :: (V ++ X)).head?, c = '\n' := fun X c hc => (Option.some.inj hc).symm
  generalize hhead : lead + quote + label.length + quote + line.length + 1 = head
  have hverdicts : ∀ X, heredocLabelled lead quote label (A ++ X) =
      .ok (List.replicate head .keep ++ bodyVerdicts label (V ++ X)) := fun X => by
    rw [heredocLabelled_eq hlabel (htail X) (hsplit X) hline (hY X), hhead]
    rfl
  have hplaces : ∀ X, labelledPlaces lead quote label (A ++ X) =
      (lead + quote) :: ((closingLine label true (V ++ X)).map (head + ·)).toList := fun X => by
    rw [labelledPlaces_eq hlabel (hsplit X) hline (hY X), hhead]
    rfl
  have hnV : head + V.length = n := by omega
  rw [hplaces] at hplace
  rw [hverdicts] at h
  rw [hverdicts, hplaces, hplaces]
  obtain rfl := Except.ok.inj h
  have hat : ∀ k,
      (List.replicate head Verdict.keep ++ bodyVerdicts label (V ++ (s ++ B)))[head + k]? =
      (bodyVerdicts label (V ++ (s ++ B)))[k]? := fun k => by
    rw [List.getElem?_append_right (by simp), List.length_replicate, Nat.add_sub_cancel_left]
  obtain ⟨i, hclosing, hlt⟩ : ∃ i, closingLine label true (V ++ (s ++ B)) = some i ∧
      i + label.length < V.length := by
    refine closed_of_visible hident hsne ?_ (fun x hx hkeep => hlast x ?_ ?_) fun hclosing =>
      hplace ?_
    · rwa [← hnV, hat] at hseen
    · have hA' : A = (A.take quote ++ (line ++ ['\n'])) ++ V := by
        rw [List.append_assoc, List.append_assoc, List.singleton_append, ← hA,
          List.take_append_drop]
      rw [hA', List.getLast?_append, Option.mem_def.mp hx]
      rfl
    · have hpos := List.length_pos_of_mem (List.mem_of_getLast? hx)
      rwa [show n - 1 = head + (V.length - 1) by omega, hat]
    · rw [hclosing, ← hnV]
      simp
  have hsame := closingLine_append hclosing hlt (r ++ B)
  rw [bodyVerdicts, bodyVerdicts, hclosing, hsame]
  refine ⟨rfl, ?_, rfl⟩
  simp only [List.length_append, List.length_replicate]
  omega

/-- A word in the first line of a heredoc is replaced: only the verdicts on it change, and the
heredoc is closed behind it. -/
theorem heredocLabelled_reword_line (hlabel : label ≠ []) (hquote : quote ≤ A.length) (hne : A ≠ [])
    (hbreak : '\n' ∉ A.drop quote) (hs : '\n' ∉ s) (hr : '\n' ∉ r)
    (hn : lead + quote + label.length + A.length = n)
    (h : heredocLabelled lead quote label (A ++ (s ++ B)) = .ok f) :
    ∃ f', heredocLabelled lead quote label (A ++ (r ++ B)) = .ok f' ∧
      Refit n s.length r.length f f' ∧
      ∀ k < n, k ∈ labelledPlaces lead quote label (A ++ (r ++ B)) →
        k ∈ labelledPlaces lead quote label (A ++ (s ++ B)) := by
  have hline : ∀ w : List Char, '\n' ∉ w →
      '\n' ∉ A.drop quote ++ (w ++ B.takeWhile (· ≠ '\n')) := by
    intro w hw hmem
    simp only [List.mem_append] at hmem
    rcases hmem with hmem | hmem | hmem
    · exact hbreak hmem
    · exact hw hmem
    · simpa using List.mem_takeWhile_imp hmem
  have hY : ∀ c ∈ (B.dropWhile (· ≠ '\n')).head?, c = '\n' := fun c hc => by
    have hnot := List.head?_dropWhile_not (· ≠ '\n') B
    rw [Option.mem_def.mp hc] at hnot
    simpa using hnot
  have hsplit : ∀ w : List Char, (A ++ (w ++ B)).drop quote =
      (A.drop quote ++ (w ++ B.takeWhile (· ≠ '\n'))) ++ B.dropWhile (· ≠ '\n') := fun w => by
    rw [List.drop_append_of_le_length hquote, List.append_assoc, List.append_assoc,
      List.takeWhile_append_dropWhile]
  have hhead : ∀ w : List Char, lead + quote + label.length + quote +
      (A.drop quote ++ (w ++ B.takeWhile (· ≠ '\n'))).length + 1 =
        n + (w.length + ((B.takeWhile (· ≠ '\n')).length + 1)) := fun w => by
    simp only [List.length_append, List.length_drop]
    omega
  have hverdicts : ∀ w : List Char, '\n' ∉ w → heredocLabelled lead quote label (A ++ (w ++ B)) =
      .ok (List.replicate n .keep ++ (List.replicate w.length .keep ++
        (List.replicate ((B.takeWhile (· ≠ '\n')).length + 1) .keep ++
          bodyVerdicts label ((B.dropWhile (· ≠ '\n')).drop 1)))) := fun w hw => by
    rw [heredocLabelled_eq hlabel (List.append_ne_nil_of_left_ne_nil hne _) (hsplit w)
      (hline w hw) hY, hhead, List.replicate_add, List.replicate_add, List.append_assoc,
      List.append_assoc]
  rw [hverdicts s hs] at h
  obtain rfl := Except.ok.inj h
  refine ⟨_, hverdicts r hr, .across List.length_replicate, fun k hk hmem => ?_⟩
  rw [labelledPlaces_eq hlabel (hsplit r) (hline r hr) hY, hhead] at hmem
  rw [labelledPlaces_eq hlabel (hsplit s) (hline s hs) hY]
  rcases List.mem_cons.mp hmem with rfl | hmem
  · exact List.mem_cons_self
  · rw [Option.mem_toList, Option.map_eq_some_iff] at hmem
    obtain ⟨i, -, rfl⟩ := hmem
    omega

/-- A word behind the identifier that opens a heredoc is replaced, if it can be seen, nothing that
belongs to an identifier stands in front of it, and it is not the identifier that closes the
heredoc. -/
theorem heredocLabelled_reword (hident : ∀ c ∈ label, isIdentChar c = true)
    (hquote : quote ≤ A.length) (hne : A ≠ []) (hsne : s ≠ []) (hs : '\n' ∉ s) (hr : '\n' ∉ r)
    (hn : lead + quote + label.length + A.length = n)
    (h : heredocLabelled lead quote label (A ++ (s ++ B)) = .ok f) (hseen : f[n]? ≠ some .blank)
    (hlast : ∀ x ∈ A.getLast?, f[n - 1]? = some .keep → isIdentChar x = false)
    (hplace : n ∉ labelledPlaces lead quote label (A ++ (s ++ B))) :
    ∃ f', heredocLabelled lead quote label (A ++ (r ++ B)) = .ok f' ∧
      Refit n s.length r.length f f' ∧
      ∀ k < n, k ∈ labelledPlaces lead quote label (A ++ (r ++ B)) →
        k ∈ labelledPlaces lead quote label (A ++ (s ++ B)) := by
  by_cases hlabel : label = []
  · subst hlabel
    cases h
    exact ⟨[], rfl, .ended (Nat.zero_le n), fun k _ hk => hk⟩
  by_cases hbreak : '\n' ∈ A.drop quote
  · obtain ⟨hsame, hended, hplaces⟩ :=
      heredocLabelled_reword_behind (r := r) hident hlabel hquote hbreak hsne hn h hseen hlast
        hplace
    exact ⟨f, hsame, .ended hended, fun k _ hk => hplaces ▸ hk⟩
  · exact heredocLabelled_reword_line hlabel hquote hne hbreak hs hr hn h

/-- The first line of a heredoc is kept. -/
theorem exists_keep_of_heredocLabelled (h : heredocLabelled lead quote label tail = .ok f)
    (hlabel : label ≠ []) (hn : n ≤ lead + quote + label.length + quote +
      ((tail.drop quote).takeWhile (· ≠ '\n')).length + 1) :
    ∃ g, f = List.replicate n .keep ++ g := by
  obtain ⟨k, hk⟩ := Nat.exists_eq_add_of_le hn
  unfold heredocLabelled at h
  rw [if_neg (by simpa using hlabel)] at h
  split at h
  · cases h
  dsimp only at h
  rw [hk, List.replicate_add] at h
  simp only [List.append_assoc] at h
  split at h <;> (cases h; exact ⟨_, rfl⟩)

end Heredoc

/-- **Where a word stands that follows three angle brackets**: it is the identifier of a heredoc, it
goes on with that identifier, or it stands behind it. -/
theorem Opener.cases_of_word {x : Char} (hx : isIdentChar x = true) (A R : List Char) :
    ((read (A ++ x :: R)).label ≠ [] ∧
      (read (A ++ x :: R)).lead + (read (A ++ x :: R)).quote = A.length) ∨
    ((read (A ++ x :: R)).label ≠ [] ∧ (∃ y ∈ A.getLast?, isIdentChar y = true) ∧
      A.length ≤ (read (A ++ x :: R)).lead +
      (read (A ++ x :: R)).quote + (read (A ++ x :: R)).label.length) ∨
    ∃ lead quote label tail, lead + quote + label.length + tail.length = A.length ∧ quote ≤ 1 ∧
      (∀ c ∈ label, isIdentChar c = true) ∧ tail ≠ [] ∧ tail <:+ A ∧
      ∀ X, read (A ++ X) = ⟨lead, quote, label, tail ++ X⟩ := by
  have hindent : isIndent x = false := by
    by_contra h
    simp only [Bool.not_eq_false, isIndent, Bool.or_eq_true, beq_iff_eq] at h
    rcases h with rfl | rfl <;> (revert hx; decide)
  have hmark : quoteLength (x :: R) = 0 := by
    refine if_neg fun h => ?_
    simp only [List.head?_cons, Bool.or_eq_true, beq_iff_eq, Option.some.injEq] at h
    rcases h with rfl | rfl <;> (revert hx; decide)
  have htake : ∀ Y, (x :: Y).takeWhile isIdentChar ≠ [] := fun Y => by
    rw [List.takeWhile_cons_of_pos hx]
    exact List.cons_ne_nil _ _
  by_cases hblank : ∀ c ∈ A, isIndent c = true
  · -- only white space stands in front of the word
    left
    have hopener : (A ++ x :: R).dropWhile isIndent = x :: R := by
      rw [List.dropWhile_append_of_pos hblank, List.dropWhile_cons_of_neg (by simp [hindent])]
    simp only [read, hopener, hmark, List.drop_zero]
    refine ⟨htake R, ?_⟩
    simp
  push Not at hblank
  simp only [Bool.not_eq_true] at hblank
  by_cases hword : ∀ c ∈ (A.dropWhile isIndent).drop (quoteLength (A.dropWhile isIndent)),
    isIdentChar c = true
  · have hread := read_append hblank (x :: R)
    rw [List.takeWhile_append_of_pos hword] at hread
    have hsuffix : A.dropWhile isIndent <:+ A := List.dropWhile_suffix _
    have hquote := quoteLength_le (A.dropWhile isIndent)
    have hne : A.dropWhile isIndent ≠ [] := fun hnil => by
      obtain ⟨c, hc, hfalse⟩ := hblank
      rw [List.dropWhile_eq_nil_iff.mp hnil c hc] at hfalse
      cases hfalse
    generalize A.dropWhile isIndent = O at *
    generalize quoteLength O = quote at *
    have hpos := List.length_pos_iff.mpr hne
    have hle := hsuffix.length_le
    have hlength : (O.drop quote).length = O.length - quote := List.length_drop
    have hlabel : (read (A ++ x :: R)).label ≠ [] := by simp [hread, htake R]
    cases hW : (O.drop quote).getLast? with
    | none =>
      rw [List.getLast?_eq_none_iff] at hW
      refine .inl ⟨hlabel, ?_⟩
      rw [hread]
      dsimp only
      rw [hW, List.length_nil] at hlength
      omega
    | some y =>
      refine .inr (.inl ⟨hlabel, ⟨y, ?_, hword y (List.mem_of_getLast? hW)⟩, ?_⟩)
      · obtain ⟨V, hV⟩ := (List.drop_suffix quote O).trans hsuffix
        rw [← hV, List.getLast?_append, hW]
        rfl
      · rw [hread, List.length_append]
        dsimp only
        omega
  · push Not at hword
    simp only [Bool.not_eq_true] at hword
    exact .inr (.inr (exists_read_append hblank hword))

/-- **A word in a heredoc is replaced**, if it can be seen, nothing that belongs to an identifier
stands in front of it, and it is none of the heredoc's identifiers. -/
theorem heredoc_reword (hsne : s ≠ []) (hs : ∀ c ∈ s, isIdentChar c = true) (hr : '\n' ∉ r)
    (h : heredoc (A ++ (s ++ B)) = .ok f) (hseen : f[A.length]? ≠ some .blank)
    (hlast : ∀ y ∈ A.getLast?, f[A.length - 1]? = some .keep → isIdentChar y = false)
    (hplace : A.length ∉ labelPlaces (A ++ (s ++ B))) :
    ∃ f', heredoc (A ++ (r ++ B)) = .ok f' ∧ Refit A.length s.length r.length f f' ∧
      ∀ k < A.length, k ∈ labelPlaces (A ++ (r ++ B)) → k ∈ labelPlaces (A ++ (s ++ B)) := by
  obtain ⟨x, s, rfl⟩ := List.exists_cons_of_ne_nil hsne
  rw [heredoc_eq_labelled] at h
  rw [List.cons_append] at h hplace
  rcases Opener.cases_of_word (hs x List.mem_cons_self) A (s ++ B) with ⟨hlabel, hlength⟩ |
    ⟨hlabel, ⟨y, hy, hident⟩, hle⟩ | ⟨lead, quote, label, tail, hlength, hquote, hident, hne,
      hsuffix, hread⟩
  · refine absurd ?_ hplace
    rw [labelPlaces, labelledPlaces, if_neg (by simpa using hlabel), ← hlength]
    exact List.mem_cons_self
  · obtain ⟨g, rfl⟩ := exists_keep_of_heredocLabelled h hlabel (by omega : A.length ≤ _)
    have hpos := List.length_pos_of_mem (List.mem_of_getLast? hy)
    have := hlast y hy (by
      rw [List.getElem?_append_left (by simp; omega)]
      exact List.getElem?_replicate_of_lt (by omega))
    rw [hident] at this
    cases this
  · have hlast' : ∀ y ∈ tail.getLast?, y ∈ A.getLast? := fun y hy => by
      obtain ⟨V, rfl⟩ := hsuffix
      rw [List.getLast?_append, Option.mem_def.mp hy]
      rfl
    rw [← List.cons_append] at h hplace
    simp only [labelPlaces, heredoc_eq_labelled, hread] at h hplace ⊢
    exact heredocLabelled_reword hident (hquote.trans (List.length_pos_iff.mpr hne)) hne hsne
      (fun hmem => absurd (hs _ hmem) (by decide)) hr hlength h hseen
      (fun y hy => hlast y (hlast' y hy)) hplace

end UseImports
