import UseImports.Proofs.Edit.InOrder

/-!
# Sorting again

Sorted imports need no more sorting (`plan_sort`), in any text in which no heredoc reaches into
the import block. The lines of the block are read as before wherever they stand, and they are found
again up to one of them at most: white space that is not ASCII stands behind the last statement of a
block only, and no statement begins behind it. So when sorting moves that line up, the block ends
there, and what is found of it is still in order.

A heredoc may be closed by the word `use` of the block's first line. Then other lines of the block
become its body when they come first, and what is left can be out of order:
`sorted_twice_in_heredoc`.

* `Stacked.exists_cut`: lines are cut behind the statement of one of them.
* `blockFrom_eq_nil_of_odd`: no block goes on behind white space that is not ASCII.
* `FairBlockAt.exists_keys`: **a beginning of the sorted lines is found again.**
* `sorting_idempotent`: **sorted imports are in order.**
-/

namespace UseImports

variable {l : Line} {front ls ls' : List Line} {I P p Q q S X x X' x' : List Char} {doc : Document}

/-! ## Lines cut behind a statement -/

/-- The line without the white space behind its statement. -/
def Line.bare (l : Line) : Line :=
  { l with tail := [] }

theorem Line.Fair.bare (h : l.Fair) : l.bare.Sound :=
  have hnil : IsIndent l.bare.tail := fun _ hc => (List.not_mem_nil hc).elim
  ⟨⟨h.indent, hnil.isWhite, h.settles, h.isStatement, h.first, h.last⟩, hnil⟩

theorem Line.text_bare (l : Line) : l.bare.text ++ l.tail = l.text := by
  simp [Line.text, Line.bare]

theorem Line.code_bare (l : Line) : l.bare.code ++ l.tail = l.code := by
  simp [Line.code, Line.bare]

/-- **Lines are cut behind the statement of one of them.** What follows it on its line is its white
space; there are no lines behind it, or they follow. -/
theorem Stacked.exists_cut {back : List Line} (h : Stacked (front ++ l :: back) X x) :
    ∃ X₁ x₁ Z z, Stacked (front ++ [l.bare]) X₁ x₁ ∧ X = X₁ ++ (l.tail ++ Z) ∧
      x = x₁ ++ (l.tail ++ z) ∧
      (back = [] ∧ Z = [] ∧ z = [] ∨
        ∃ nl X₂ x₂, IsBreak nl ∧ Stacked back X₂ x₂ ∧ Z = nl ++ X₂ ∧ z = nl ++ x₂) := by
  induction front generalizing X x with
  | nil =>
    rw [List.nil_append] at h
    cases h with
    | single =>
      exact ⟨l.bare.text, l.bare.code, [], [],
        .single _, by simp [l.text_bare], by simp [l.code_bare],
        .inl ⟨rfl, rfl, rfl⟩⟩
    | @cons _ nl _ X₂ x₂ hnl hback =>
      refine ⟨l.bare.text, l.bare.code, nl ++ X₂, nl ++ x₂, .single _, ?_, ?_,
        .inr ⟨nl, X₂, x₂, hnl, hback, rfl, rfl⟩⟩
      · rw [← l.text_bare, List.append_assoc]
      · rw [← l.code_bare, List.append_assoc]
  | cons k front ih =>
    rw [List.cons_append] at h
    cases hls : front ++ l :: back with
    | nil => simp at hls
    | cons k' ls =>
      rw [hls] at h ih
      cases h with
      | @cons _ nl _ X' x' hnl hrest =>
        obtain ⟨X₁, x₁, Z, z, hstacked, rfl, rfl, hback⟩ := ih hrest
        refine ⟨_, _, Z, z, .cons k hnl hstacked, ?_, ?_, hback⟩ <;> simp only [List.append_assoc]

/-- The first line begins with white space and a statement, in the text and in its view. -/
theorem Stacked.exists_first (h : Stacked ls X x) :
    ∃ l ∈ ls, ∃ Z z, X = l.indent ++ (l.statement ++ Z) ∧ x = l.indent ++ z := by
  cases h with
  | single l => exact ⟨l, List.mem_cons_self, l.tail, l.view ++ l.tail, rfl, rfl⟩
  | @cons l nl _ X x _ _ =>
    refine ⟨l, List.mem_cons_self, l.tail ++ (nl ++ X), l.view ++ l.tail ++ (nl ++ x), ?_, ?_⟩
    · rw [Line.text, List.append_assoc, List.append_assoc]
    · rw [Line.code, List.append_assoc]

/-! ## Behind other white space -/

/-- The white space in front of a statement. -/
theorem takeWhile_blank (hI : IsWhite I) (hS : ∃ x S', S = x :: S' ∧ isBlank x = false)
    (Z : List Char) : (I ++ (S ++ Z)).takeWhile isBlank = I := by
  obtain ⟨x, S', rfl, hx⟩ := hS
  rw [List.takeWhile_append_of_pos fun c hc => (hI c hc).1, List.cons_append,
    List.takeWhile_cons, hx]
  simp

/-- The place of the first statement of the next line is known, if nothing but white space stands in
front of it. -/
theorem eq_of_next_line {W nl Z M S' Z' : List Char} (hW : '\n' ∉ W) (hnl : IsBreak nl)
    (hI : IsWhite I) (hS : ∃ x S₀, S = x :: S₀ ∧ isBlank x = false)
    (hS' : ∃ x S₀, S' = x :: S₀ ∧ isBlank x = false)
    (h : W ++ (nl ++ (I ++ (S ++ Z))) = M ++ (S' ++ Z')) (hone : breaks M = 1)
    (hlead : isBlankText (lead M) = true) : M = W ++ (nl ++ I) := by
  rw [← List.append_assoc] at h
  -- the line end is the only one in `M`, so `M` goes on behind it
  obtain ⟨L, rfl, hL⟩ : ∃ L, M = (W ++ nl) ++ L ∧ I ++ (S ++ Z) = L ++ (S' ++ Z') := by
    rcases List.append_eq_append_iff.mp h with ⟨L, hM, hL⟩ | ⟨L, hsplit, hL⟩
    · exact ⟨L, hM, hL⟩
    · obtain rfl : L = [] := by
        by_contra hne
        have hlast : L.getLast? = some '\n' := by
          have := congrArg List.getLast? hsplit
          rwa [List.getLast?_append_of_ne_nil _ hne, List.getLast?_append, hnl.getLast?_eq,
            Option.some_or, eq_comm] at this
        have hbreaks := congrArg breaks hsplit
        rw [breaks_append, breaks_append, breaks_eq_zero hW, hnl.breaks_eq, hone] at hbreaks
        have := breaks_pos hlast
        omega
      exact ⟨[], by simpa using hsplit.symm, by simpa using hL.symm⟩
  have hmem : '\n' ∉ L := by
    rw [breaks_append, breaks_append, hnl.breaks_eq] at hone
    exact fun hmem => absurd (List.count_pos_iff.mpr hmem) (by rw [← breaks]; omega)
  rw [(lead_of_split (hnl.atLineStart W) hmem).1] at hlead
  have hwhite : IsWhite L := fun c hc => ⟨isBlankText_iff.mp hlead c hc, fun heq => hmem (heq ▸ hc)⟩
  have hsame := congrArg (List.takeWhile isBlank) hL
  rw [takeWhile_blank hI hS, takeWhile_blank hwhite hS'] at hsame
  rw [hsame, List.append_assoc]

/-- A statement of the code is the first declaration of a statement of the document. -/
theorem exists_first_of_mem_heads {d : Declaration} (h : d ∈ heads doc.code) :
    ∃ e ∈ firstDeclarations doc.declarations, e.statement = d.statement := by
  have hfirst : firstDeclarations (doc.declarations.map Declaration.unlined) =
      (firstDeclarations doc.declarations).map Declaration.unlined :=
    firstDeclarations_map (fun _ => rfl) Function.injective_id _
  rw [heads, ← declarations_unlined, hfirst] at h
  obtain ⟨e, he, rfl⟩ := List.mem_map.mp h
  exact ⟨e, he, rfl⟩

/-- **No block goes on behind white space that is not ASCII.** -/
theorem blockFrom_eq_nil_of_odd {m : Mode} {doc : Document}
    (hview : viewFrom [] m doc.text = .ok doc.code) {B W nl I S Z b z : List Char}
    (htext : doc.text = B ++ (W ++ (nl ++ (I ++ (S ++ Z)))))
    (hcode : doc.code = b ++ (W ++ (nl ++ (I ++ z)))) (hlength : byteLength b = byteLength B)
    (hW : IsWhite W) (hodd : ¬ IsIndent W) (hnl : IsBreak nl) (hI : IsIndent I)
    (hS : ∃ x S', S = x :: S' ∧ isBlank x = false) {ds : List Declaration}
    (hds : ∀ d ∈ ds, d ∈ heads doc.code ∧ byteLength B ≤ d.statement.start) :
    blockFrom doc.text (some (breaks B)) ds = [] := by
  cases ds with
  | nil => rfl
  | cons d ds =>
    obtain ⟨hd, hle⟩ := hds d List.mem_cons_self
    obtain ⟨A, S', Y, hstretch⟩ := (importRow_imports hview).stretch d (mem_imports_of_mem_heads hd)
    rw [blockFrom, hstretch.isAlone_eq, hstretch.lineExtent_eq]
    dsimp only
    refine if_neg fun hnext => ?_
    simp only [Bool.and_eq_true_iff, beq_iff_eq] at hnext
    obtain ⟨⟨hlead, -⟩, hline⟩ := hnext
    -- the statement would begin with the next line, right behind the white space
    rw [hstretch.span] at hle
    obtain ⟨M, rfl, hrest⟩ := append_eq_append_of_le (htext.symm.trans hstretch.text) hle
    have hone : breaks M = 1 := by
      rw [breaks_append] at hline
      omega
    have hmem : '\n' ∈ M := List.count_pos_iff.mp (by rw [← breaks, hone]; exact Nat.one_pos)
    rw [(lead_append_of_mem hmem B).1] at hlead
    obtain rfl := eq_of_next_line hW.not_mem hnl hI.isWhite hS hstretch.first hrest hone hlead
    obtain ⟨e, he, hsame⟩ := exists_first_of_mem_heads hd
    have hsplit : doc.code = (b ++ (W ++ (nl ++ I))) ++ z := by
      rw [hcode]
      simp only [List.append_assoc]
    have hstart : byteLength (b ++ (W ++ (nl ++ I))) = e.statement.start := by
      rw [hsame, hstretch.span, byteLength_append, hlength, ← byteLength_append]
    obtain ⟨s, y, -, -, -, -, hopens, -⟩ := exists_statement_of_first hview he hsplit hstart
    have hblank : ∀ c ∈ W ++ (nl ++ I), isBlank c = true := by
      intro c hc
      rcases List.mem_append.mp hc with hc | hc
      · exact (hW c hc).1
      · exact (List.mem_append.mp hc).elim (fun hc =>
          isBlank_of_isSpace (hnl.isSpace c hc)) fun hc =>
          (hI.isWhite c hc).1
    exact hodd fun c hc =>
      ⟨hopens.isSpace_of_blank hblank c (List.mem_append_left _ hc), (hW c hc).2⟩

/-! ## The block after sorting -/

namespace FairBlockAt

variable {m : Mode}
    (h : FairBlockAt m doc (importBlock doc.text doc.declarations) (front ++ [l]) P X Q p x q)
include h

theorem sound_front : ∀ k ∈ front, k.Sound := fun k hk =>
  ⟨h.fair k (List.mem_append_left _ hk), h.indented k (by rwa [List.dropLast_concat])⟩

/-- Without its white space, the last line is as sound as the others. -/
theorem sound_bare (hls : ls ⊆ front) : ∀ k ∈ ls ++ [l.bare], k.Sound := fun k hk => by
  rcases List.mem_append.mp hk with hk | hk
  · exact h.sound_front k (hls hk)
  · rw [List.mem_singleton.mp hk]
    exact (h.fair l (by simp)).bare

/-- The block is found up to its last semicolon, and the rest of the line stands behind it. -/
theorem exists_foundAt :
    ∃ X₁ x₁, FoundAt m doc (front ++ [l.bare]) P X₁ (l.tail ++ Q) p x₁ (l.tail ++ q) := by
  have hl := h.fair l (by simp)
  obtain ⟨X₁, x₁, Z, z, hstacked, hX, hx, ⟨-, rfl, rfl⟩ | ⟨nl, X₂, x₂, -, hnil, -⟩⟩ :=
    h.stacked.exists_cut
  · refine ⟨X₁, x₁, ?_, ?_, h.settles, hl.blank.blank_firstLine h.breakFirst, h.atLineStart,
      h.opens, h.level, hstacked, h.sound_bare (List.Subset.refl front), h.start, ?_⟩
    · rw [h.text, hX]
      simp only [List.append_assoc, List.append_nil]
    · rw [h.code, hx]
      simp only [List.append_assoc, List.append_nil]
    · rw [h.length, List.length_append, List.length_append]
      rfl
  · exact absurd rfl hnil.ne_nil

/-- **A beginning of the lines is found again** in another order, if white space that is not ASCII
stands at the end of the block: the lines up to the one with it. -/
theorem exists_keys (hview : viewFrom [] m doc.text = .ok doc.code) (hodd : ¬ IsIndent l.tail)
    (hperm : ls'.Perm (front ++ [l])) (h' : Stacked ls' X' x')
    (hview' : viewFrom [] m (P ++ (X' ++ Q)) = .ok (p ++ (x' ++ q))) :
    ∃ found rest, ls' = found ++ rest ∧
      (importBlock (P ++ (X' ++ Q))
        (Document.mk (P ++ (X' ++ Q)) (p ++ (x' ++ q))).declarations).map (·.key) =
        found.map (viewKey ·.view) := by
  obtain ⟨fore, back, rfl⟩ :=
    List.append_of_mem (hperm.symm.subset (List.mem_append_right front List.mem_cons_self))
  have hothers : (fore ++ back).Perm front :=
    (List.perm_cons l).mp
    ((List.perm_middle.symm.trans hperm).trans (List.perm_append_singleton l front))
  have hl := h.fair l (by simp)
  have hsound := h.sound_bare fun k hk => hothers.subset (List.mem_append_left back hk)
  obtain ⟨X₀, x₀, hfound⟩ := h.exists_foundAt
  obtain ⟨X₁, x₁, Z, z, hstacked, rfl, rfl, hback⟩ := h'.exists_cut
  have hsettles := hstacked.settles (Line.fair_of_sound hsound)
  refine ⟨fore ++ [l], back, by simp, ?_⟩
  have hkeys : (fore ++ [l]).map (viewKey ·.view) = (fore ++ [l.bare]).map (viewKey ·.view) := by
    rw [List.map_append, List.map_append]
    rfl
  rw [hkeys]
  simp only [List.append_assoc] at hview' ⊢
  rcases hback with ⟨rfl, rfl, rfl⟩ | ⟨nl, X₂, x₂, hnl, hrest, rfl, rfl⟩
  · -- the line is the last one, as it was before
    rw [List.nil_append, List.nil_append]
    have hends := hfound.ends_behind hview (P ++ X₁)
    rw [List.append_assoc] at hends
    exact hfound.importBlock_keys hview hsound hstacked
      (hl.blank.blank_firstLine h.breakFirst) hends
  · -- the next line is not found
    obtain ⟨k, hk, Z, z, hZ, hz⟩ := hrest.exists_first
    have hk := h.sound_front k (hothers.subset (List.mem_append_right _ hk))
    simp only [List.append_assoc] at hview' ⊢
    refine hfound.importBlock_keys hview hsound hstacked
      (hl.blank.blank_firstLine (.inr ⟨nl, _, hnl, rfl⟩)) ?_
    refine @blockFrom_eq_nil_of_odd m ⟨_, _⟩ hview' (P ++ X₁) l.tail nl k.indent k.statement
      (Z ++ Q) (p ++ x₁) (z ++ q)
      ?_ ?_ ?_ hl.blank hodd hnl hk.indent hk.first _ ?_
    · rw [hZ]
      simp only [List.append_assoc]
    · rw [hz]
      simp only [List.append_assoc]
    · rw [byteLength_append, byteLength_append, h.settles.byteLength_eq, hsettles.byteLength_eq]
    · intro d hd
      refine ⟨?_, ?_⟩
      · rw [hfound.heads_eq hsound hstacked]
        exact List.mem_append_right _ (List.mem_append_right _ hd)
      · obtain ⟨e, -, rfl⟩ := List.mem_map.mp hd
        exact Nat.le_add_right _ _

end FairBlockAt

/-! ## Sorting twice -/

/-- **The sorted block is in order**: what is found of it is a beginning of the sorted lines. -/
theorem FairBlockAt.planSort_eq_none
    (h : FairBlockAt (startMode doc.text) doc (importBlock doc.text doc.declarations)
      ls P X Q p x q) (hview : codeView doc.text = .ok doc.code) (mode : SortMode)
    (hperm : ls'.Perm ls) (h' : Stacked ls' X' x')
    (hkeys : (sortEntries mode (importBlock doc.text doc.declarations)).map (·.key) =
      ls'.map (viewKey ·.view)) :
    planSort (P ++ (X' ++ Q)) (Document.mk (P ++ (X' ++ Q)) (p ++ (x' ++ q))).analyze mode =
      none := by
  have hsorted := pairwise_sortEntries mode (importBlock doc.text doc.declarations)
  rw [hkeys] at hsorted
  refine planSort_eq_none_of_pairwise ?_
  obtain ⟨front, l, rfl⟩ := (List.eq_nil_or_concat' ls).resolve_left h.stacked.ne_nil
  by_cases htail : IsIndent l.tail
  · -- all white space is ASCII, and all lines are found
    have hsound : ∀ k ∈ front ++ [l], k.Sound := fun k hk => by
      rcases List.mem_append.mp hk with hfront | hlast
      · exact h.sound_front k hfront
      · obtain rfl := List.mem_singleton.mp hlast
        exact ⟨h.fair k hk, htail⟩
    exact (BlockAt.importBlock_keys ⟨h, hsound⟩ hview hperm h').symm ▸ hsorted
  · have hview' := h.codeView_eq rfl hperm h'
    rw [UseImports.codeView_eq, startMode, h.hasOpenTag_eq hperm h'] at hview'
    obtain ⟨found, rest, rfl, hfound⟩ := h.exists_keys hview htail hperm h' hview'
    rw [List.map_append] at hsorted
    exact hfound.symm ▸ (List.pairwise_append.mp hsorted).1

/-- **Sorted imports are in order**: where no heredoc reaches into the import block, the text after
sorting can be analysed, and sorting it again changes nothing. -/
theorem sorting_idempotent {text : String} {a : Analysis} (hanalyzed : analyze text = .ok a)
    (hfree : ∀ e ∈ (importBlock text.toList a.declarations).head?,
      ¬ InHeredoc (startMode text.toList) text.toList e.span.start) {mode : SortMode} {edit : Edit}
    (hplan : planSort text.toList a mode = some edit) :
    ∃ text' a', applyEdits text [edit] = .ok text' ∧ analyze text' = .ok a' ∧
      planSort text'.toList a' mode = none := by
  obtain ⟨doc, hdoc, rfl⟩ := map_ok_iff.mp hanalyzed
  obtain ⟨code, hcode, rfl⟩ := map_ok_iff.mp hdoc
  rcases @exists_fairBlockAt ⟨text.toList, code⟩ _ hcode (Mode.proper_startMode _) hfree with
    hnil | ⟨ls, P, X, Q, p, x, q, h⟩
  · -- there is nothing to sort
    have hempty : importBlock text.toList (Document.mk text.toList code).analyze.declarations =
        [] := hnil
    rw [planSort_eq_none_of_pairwise (by rw [hempty]; exact .nil)] at hplan
    cases hplan
  obtain ⟨ls', X', x', hperm, hstacked, hkeys, htext⟩ :=
    h.exists_sorted mode (isBreak_lineBreak text.toList)
  have happlied := h.applyEdits_replace (String.intercalate (lineBreak text.toList)
    ((sortEntries mode (importBlock text.toList (Document.mk text.toList code).declarations)).map
      fun e =>
      String.ofList e.lines))
  rw [htext, String.ofList_toList] at happlied
  have hview := h.codeView_eq rfl hperm hstacked
  refine ⟨String.ofList (P ++ (X' ++ Q)), (Document.mk (P ++ (X' ++ Q)) (p ++ (x' ++ q))).analyze,
    ?_, @analyze_ofList ⟨_, _⟩ hview, ?_⟩
  · unfold planSort at hplan
    dsimp only at hplan
    split at hplan
    · cases hplan
    · obtain ⟨span, hspan, rfl⟩ := Option.map_eq_some_iff.mp hplan
      obtain rfl := Option.some.inj (h.span.symm.trans hspan)
      exact happlied
  · rw [String.toList_ofList]
    exact h.planSort_eq_none hcode mode hperm hstacked hkeys

/-- A block that is not in order is sorted. -/
theorem exists_planSort {cs : List Char} {a : Analysis} {mode : SortMode}
    (h : ¬ ((importBlock cs a.declarations).map (·.key)).Pairwise fun a b => mode.le a b = true) :
    ∃ edit, planSort cs a mode = some edit := by
  have hsorted : sortEntries mode (importBlock cs a.declarations) ≠ importBlock cs a.declarations :=
    fun heq =>
    h (heq ▸ pairwise_sortEntries mode (importBlock cs a.declarations))
  have hne : importBlock cs a.declarations ≠ [] := fun hnil => h (by rw [hnil]; exact .nil)
  unfold planSort
  dsimp only
  rw [if_neg hsorted, blockSpan?, List.head?_eq_some_head hne, List.getLast?_eq_some_getLast hne]
  exact ⟨_, rfl⟩

/-- A text with a heredoc, and with a no-break space behind the last of its imports. -/
def raggedText : String :=
  "<?php\necho <<<X\nuse Y;\nX;\nuse B;\nuse A;\u00a0\nnew A;\n"

/-- The code view of that text. -/
def raggedCode : String :=
  "     \necho <<<X\n      \nX;\nuse B;\nuse A;\u00a0\nnew A;\n"

theorem sorting_idempotent_ragged : ∃ a edit text' a', analyze raggedText = .ok a ∧
    (∀ e ∈ (importBlock raggedText.toList a.declarations).head?,
      ¬ InHeredoc (startMode raggedText.toList) raggedText.toList e.span.start) ∧
    planSort raggedText.toList a .natural = some edit ∧ applyEdits raggedText [edit] = .ok text' ∧
      analyze text' = .ok a' ∧ planSort text'.toList a' .natural = none := by
  have hcode : codeView raggedText.toList = .ok raggedCode.toList := by decide +kernel
  have hstart : ((importBlock raggedText.toList
      (Document.mk raggedText.toList raggedCode.toList).analyze.declarations).head?.map
        (·.span.start)) =
      some (byteLength "<?php\necho <<<X\nuse Y;\nX;\n".toList) := by decide +kernel
  have hfree : ∀ e ∈ (importBlock raggedText.toList
      (Document.mk raggedText.toList raggedCode.toList).analyze.declarations).head?,
      ¬ InHeredoc (startMode raggedText.toList) raggedText.toList e.span.start := fun e he => by
    rw [Option.mem_def.mp he, Option.map_some] at hstart
    rw [Option.some.inj hstart]
    exact not_inHeredoc_of_knownAt (by decide +kernel)
  obtain ⟨edit, hplan⟩ := @exists_planSort raggedText.toList
    (Document.mk raggedText.toList raggedCode.toList).analyze .natural (by decide +kernel)
  obtain ⟨text', a', happlied, hanalyzed, hnone⟩ :=
    sorting_idempotent (analyze_eq hcode) hfree hplan
  exact ⟨_, edit, text', a', analyze_eq hcode, hfree, hplan, happlied, hanalyzed, hnone⟩

/-! ## Blocks that close a heredoc -/

/-- The text is sorted, and what comes of it is sorted again. -/
def SortedTwice (mode : SortMode) (text : String) : Prop :=
  ∃ a edit text' a', analyze text = .ok a ∧ planSort text.toList a mode = some edit ∧
    applyEdits text [edit] = .ok text' ∧ analyze text' = .ok a' ∧
    planSort text'.toList a' mode ≠ none

theorem sortEntries_pair {mode : SortMode} {d e : BlockEntry} (h : mode.le d.key e.key = false) :
    sortEntries mode [d, e] = [e, d] := by
  simp [sortEntries, List.mergeSort, h]

/-- The word `use` of the first import closes a heredoc. -/
def closingText : String :=
  "<?php\necho <<<use ;\nbody\nuse C;\nUSE A,\nuse\\X;\n"

/-- Its code view. -/
def closingCode : String :=
  "     \necho <<<use ;\n    \nuse C;\nUSE A,\nuse\\X;\n"

/-- The text after sorting: the second line of an import closes the heredoc. -/
def closedText : String :=
  "<?php\necho <<<use ;\nbody\nUSE A,\nuse\\X;\nuse C;\n"

/-- Its code view. -/
def closedCode : String :=
  "     \necho <<<use ;\n    \n      \nuse\\X;\nuse C;\n"

/-- The heredoc takes away the first line of the import that comes first, and its second line is
an import that stands out of order. -/
theorem sorted_twice_in_heredoc : SortedTwice .alphabetical closingText := by
  have hcode : codeView closingText.toList = .ok closingCode.toList := by decide +kernel
  have hcode' : codeView closedText.toList = .ok closedCode.toList := by decide +kernel
  have hentries : importBlock closingText.toList
      (Document.mk closingText.toList closingCode.toList).analyze.declarations =
      [⟨"C", ⟨25, 31⟩, "use C;".toList⟩,
        ⟨"A", ⟨32, 45⟩, "USE A,\nuse\\X;".toList⟩] := by decide +kernel
  have hplan :
      planSort closingText.toList (Document.mk closingText.toList closingCode.toList).analyze
      .alphabetical =
      some ⟨⟨25, 45⟩, "USE A,\nuse\\X;\nuse C;"⟩ := by
    unfold planSort
    dsimp only
    rw [hentries, sortEntries_pair (by decide +kernel)]
    decide +kernel
  obtain ⟨again, hagain⟩ := @exists_planSort closedText.toList
    (Document.mk closedText.toList closedCode.toList).analyze .alphabetical (by decide +kernel)
  refine ⟨_, _, closedText, _, analyze_eq hcode, hplan, by decide +kernel, analyze_eq hcode', ?_⟩
  rw [hagain]
  exact Option.some_ne_none again

end UseImports
