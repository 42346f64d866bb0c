import UseImports.Proofs.Code.Shape
import UseImports.Proofs.Declaration.Plain
import UseImports.Proofs.Edit.Occurrences

/-!
# Expanding and collapsing names

Expanding (`expand_references`) replaces a short name by the full one where it stands alone in the
code, and collapsing (`collapse_references`) does the reverse. Both search the code view. A
reference is no part of a comment or of a string literal, then, and writing it out leaves the rest
of the text what it was. The one exception is the identifier of a heredoc: it can be seen and is
taken for a reference, but written out it opens or closes no heredoc any more.
`expansion_uncovers_heredoc` is an example of it.

Collapsing finds the full names that stand alone. None of them overlaps another one, for in front of
each backslash inside of a name stands an identifier. So after expanding it finds what has been put
in, and whatever stood alone before.

* `Alone`: what a reference that is expanded or collapsed has beside it.
* `Expandable`: what one that is expanded has around it.
* `Expanded`: the text and the code in pieces between the references that are expanded.
* `expansion_keeps_view`: **expanding changes the code view as it changes the text.**
* `mem_collapsible_iff`: **a full name is collapsed wherever it stands alone.**
* `collapse_undoes_expansion`: **collapsing undoes expanding.**
-/

namespace UseImports

open Cursor

variable {q s : String} {a b P P₀ w X x : List Char} {doc : Document} {cs gs : List (List Char)}

/-- An identifier and the full name that takes its place. -/
theorem rewording_fullyQualified (hs : IsIdent s.toList) (hq : IsName (stripLeading q).toList) :
    Rewording s.toList (fullyQualified q).toList where
  ne_nil := hs.ne_nil
  ident c hc := isIdentChar_of_isWordChar (hs.word c hc)
  absolute := ⟨_, toList_fullyQualified q⟩
  parts c hc := by
    rw [toList_fullyQualified] at hc
    rcases List.mem_cons.mp hc with rfl | hc
    · exact .inr rfl
    · exact (hq.mem c hc).imp_left isIdentChar_of_isWordChar

/-! ## Words that stand alone -/

/-- Neither an identifier nor a name goes on beside the word between the two pieces of code. -/
structure Alone (a b : List Char) : Prop where
  before : ∀ y ∈ a.getLast?, isIdentChar y = false
  after : ∀ y ∈ b.head?, isIdentChar y = false ∧ y ≠ '\\'

theorem isStandalone_iff :
    isStandalone (occurrenceAt a w b).1 (occurrenceAt a w b).2 = true ↔
    (∀ y ∈ a.getLast?, isIdentChar y = false) ∧ ∀ y ∈ b.head?, isIdentChar y = false := by
  simp [isStandalone, occurrenceAt, Option.any_eq_false]

/-- The word between the two pieces of code is a reference that can be expanded. -/
structure Expandable (doc : Document) (skipped : List Nat) (a b : List Char) :
    Prop extends Alone a b where
  line : doc.lineOf (byteLength a) ∉ skipped
  first : ∀ y ∈ a.getLast?, y ≠ '\\' ∧ y ≠ '$'
  arrow : (a.reverse.take 2 == ['>', '-']) = false
  colons : (a.reverse.take 2 == [':', ':']) = false
  undeclared : endsInKeyword a.reverse ["function", "const", "case"] = false

theorem isExpandable_iff {skipped : List Nat} :
    isExpandable doc skipped (occurrenceAt a w b).1 (occurrenceAt a w b).2 = true ↔
      Expandable doc skipped a b := by
  have hoffset : (occurrenceAt a w b).1.offset = byteLength a := byteLength_reverse a
  have hhead : (occurrenceAt a w b).1.before.head? = a.getLast? := List.head?_reverse
  simp only [isExpandable, isPartOfName, Bool.and_eq_true, Bool.not_eq_true', Bool.or_eq_false_iff,
    isStandalone_iff, hoffset, hhead, List.contains_eq_mem, decide_eq_false_iff_not]
  constructor
  · rintro ⟨⟨⟨⟨hbefore, hafter⟩, hline⟩, ⟨⟨⟨hslash, hdollar⟩, hslash'⟩, harrow⟩, hcolons⟩, hkeyword⟩
    rw [beq_eq_false_iff_ne] at hslash hdollar hslash'
    refine ⟨⟨hbefore, fun y hy => ⟨hafter y hy, ?_⟩⟩, hline,
      fun y hy => ⟨?_, ?_⟩, harrow, hcolons, hkeyword⟩
    · rintro rfl
      exact hslash' hy
    · rintro rfl
      exact hslash hy
    · rintro rfl
      exact hdollar hy
  · intro h
    refine ⟨⟨⟨⟨h.before, fun y hy => (h.after y hy).1⟩, h.line⟩, ⟨⟨⟨?_, ?_⟩, ?_⟩, h.arrow⟩,
      h.colons⟩, h.undeclared⟩ <;>
      rw [beq_eq_false_iff_ne]
    · exact fun hslash => (h.first _ hslash).1 rfl
    · exact fun hdollar => (h.first _ hdollar).2 rfl
    · exact fun hslash => (h.after _ hslash).2 rfl

/-- What is collapsed is what stands alone. -/
theorem isCollapsible_iff :
    (isStandalone (occurrenceAt a w b).1 (occurrenceAt a w b).2 &&
    (occurrenceAt a w b).2.after.head? != some '\\') = true ↔ Alone a b := by
  rw [Bool.and_eq_true, isStandalone_iff, bne_iff_ne]
  constructor
  · rintro ⟨⟨hbefore, hafter⟩, hslash⟩
    refine ⟨hbefore, fun y hy => ⟨hafter y hy, ?_⟩⟩
    rintro rfl
    exact hslash hy
  · intro h
    exact ⟨⟨h.before, fun y hy => (h.after y hy).1⟩, fun hslash => (h.after _ hslash).2 rfl⟩

/-! ## Expanding -/

/-- What stands in front of the references that are expanded. -/
def expandable (doc : Document) (s : String) : List (List Char) :=
  chosenFronts doc.code s fun y => isExpandable doc (declarationLines doc) y.1 y.2

theorem expandReferences_eq (doc : Document) (hne : s.toList ≠ []) (q : String) :
    expandReferences doc s q =
      (wordEdits s.toList (fullyQualified q) (expandable doc s)).reverse := by
  have hempty : s.isEmpty = false := by
    rw [String.isEmpty_eq_false_iff]
    rintro rfl
    exact hne rfl
  rw [expandable, ← wordEdits_chosenFronts, expandReferences, hempty]
  rfl

theorem exists_of_mem_expandable (ha : a ∈ expandable doc s) :
    ∃ b, doc.code = a ++ (s.toList ++ b) ∧ Expandable doc (declarationLines doc) a b := by
  obtain ⟨b, hb, hexpandable⟩ := exists_of_mem_chosenFronts ha
  exact ⟨b, hb, isExpandable_iff.mp hexpandable⟩

/-- **A reference is expanded wherever it can be.** -/
theorem mem_expandable (hs : IsIdent s.toList) (hcode : doc.code = a ++ (s.toList ++ b))
    (h : Expandable doc (declarationLines doc) a b) : a ∈ expandable doc s := by
  rcases @mem_occurrences_or a b s hs.ne_nil with hmem | ⟨a', b', -, hcode', hlt, hlt'⟩
  · rw [← hcode] at hmem
    exact List.mem_map.mpr ⟨_, List.mem_filter.mpr ⟨hmem, isExpandable_iff.mpr h⟩,
      List.reverse_reverse a⟩
  · -- in front of an occurrence that overlaps another one stands an identifier
    obtain ⟨u, rfl⟩ := List.prefix_of_prefix_length_le ⟨_, rfl⟩ ⟨_, hcode'⟩ hlt.le
    rw [List.append_assoc] at hcode'
    simp only [List.length_append] at hlt hlt'
    obtain ⟨v, hv⟩ :=
      List.prefix_of_prefix_length_le ⟨_, List.append_cancel_left hcode'⟩ ⟨b', rfl⟩ (by omega)
    have hu : u ≠ [] := List.ne_nil_of_length_pos (by omega)
    have hident := h.before _ (by
      rw [List.getLast?_append_of_ne_nil _ hu]
      exact List.getLast?_eq_some_getLast hu)
    rw [isIdentChar_of_isWordChar
      (hs.word _ (hv ▸ List.mem_append_left v (List.getLast_mem hu)))] at hident
    cases hident

/-- The text and the code in pieces between the references that are expanded. -/
structure Expanded (doc : Document) (s q : String) (gs cs : List (List Char)) (X x : List Char) :
    Prop where
  text : doc.text = weave s.toList gs X
  code : doc.code = weave s.toList cs x
  aligned : Aligned gs cs
  edits : expandReferences doc s q =
    (wordEdits s.toList (fullyQualified q) (fronts s.toList [] gs)).reverse
  places : fronts s.toList [] cs = expandable doc s

theorem exists_expanded (hview : codeView doc.text = .ok doc.code)
    (hs : IsIdent s.toList) (q : String) :
    ∃ gs cs X x, Expanded doc s q gs cs X x := by
  obtain ⟨cs, x, hcode, hfronts⟩ :=
    exists_weave_chosenFronts doc.code s fun y => isExpandable doc (declarationLines doc) y.1 y.2
  have hvisible : ∀ c ∈ s.toList, isSpace c = false := fun c hc =>
    (of_isIdentChar (isIdentChar_of_isWordChar (hs.word c hc))).2.1
  obtain ⟨gs, X, htext, haligned⟩ :=
    exists_weave_of_visible hs.ne_nil hvisible (hcode ▸ codeView_eq doc.text ▸ hview)
  refine ⟨gs, cs, X, x, htext, hcode, haligned, ?_, hfronts⟩
  rw [expandReferences_eq doc hs.ne_nil, wordEdits_of_aligned haligned rfl, hfronts, expandable]

theorem Expanded.alone (h : Expanded doc s q gs cs X x) (ha : a ∈ fronts s.toList [] cs) :
    ∃ b, doc.code = a ++ (s.toList ++ b) ∧ Alone a b := by
  obtain ⟨b, hb, hexpandable⟩ := exists_of_mem_expandable (h.places ▸ ha)
  exact ⟨b, hb, hexpandable.toAlone⟩

/-- **References are expanded in the view as they are in the text**, if none of them is an
identifier of a heredoc. -/
theorem Expanded.codeView_eq (h : Expanded doc s q gs cs X x)
    (hview : codeView doc.text = .ok doc.code) (hs : IsIdent s.toList)
    (hq : IsName (stripLeading q).toList)
    (hplace : ∀ e ∈ expandReferences doc s q, e.span.start ∉ heredocNames doc.text) :
    codeView (weave (fullyQualified q).toList gs X) =
      .ok (weave (fullyQualified q).toList cs x) := by
  refine codeView_weave (rewording_fullyQualified hs hq) h.aligned ?_ (fun a ha => ?_) fun Q hQ =>
    ?_
  · rw [← h.text, ← h.code]
    exact hview
  · obtain ⟨b, -, halone⟩ := h.alone ha
    exact halone.before
  · rw [← h.text]
    refine hplace ⟨⟨byteLength Q, byteLength Q + byteLength s.toList⟩, fullyQualified q⟩ ?_
    rw [h.edits, List.mem_reverse]
    exact List.mem_map_of_mem hQ

theorem Expanded.applyEdits_text (h : Expanded doc s q gs cs X x) (hs : IsIdent s.toList) :
    applyEdits (String.ofList doc.text) (expandReferences doc s q) =
      .ok (String.ofList (weave (fullyQualified q).toList gs X)) := by
  rw [h.edits, h.text]
  exact applyEdits_weave hs.ne_nil _ gs X

theorem Expanded.applyEdits_code (h : Expanded doc s q gs cs X x) (hs : IsIdent s.toList) :
    applyEdits (String.ofList doc.code) (expandReferences doc s q) =
      .ok (String.ofList (weave (fullyQualified q).toList cs x)) := by
  rw [h.edits, h.code, wordEdits_of_aligned h.aligned rfl]
  exact applyEdits_weave hs.ne_nil _ cs x

/-- **Expanding references changes the code view as it changes the text**: what was comment, string
literal, heredoc, HTML or code stays so, if no identifier of a heredoc is expanded. -/
theorem expansion_keeps_view {text : String} {doc : Document}
    (hdoc : Document.ofString text = .ok doc) {s q : String} (hs : IsIdent s.toList)
    (hq : IsName (stripLeading q).toList)
    (hplace : ∀ e ∈ expandReferences doc s q, e.span.start ∉ heredocNames text.toList) :
    ∃ text' code', applyEdits text (expandReferences doc s q) = .ok text' ∧
      applyEdits (String.ofList doc.code) (expandReferences doc s q) = .ok code' ∧
      codeView text'.toList = .ok code'.toList := by
  obtain ⟨code, hview, rfl⟩ := map_ok_iff.mp hdoc
  obtain ⟨gs, cs, X, x, h⟩ := @exists_expanded s ⟨text.toList, code⟩ hview hs q
  have htext := h.applyEdits_text hs
  rw [String.ofList_toList] at htext
  refine ⟨_, _, htext, h.applyEdits_code hs, ?_⟩
  rw [String.toList_ofList, String.toList_ofList]
  exact h.codeView_eq hview hs hq hplace

/-- A text with HTML, comments, a string literal and a heredoc, in all of which the name stands. -/
def mixedText : String :=
  "<b>Foo</b><?php // Foo\n$a = 'Foo' . <<<X . Foo::Y\nnew Foo;\nX . new Foo; /* Foo */\n"

/-- Its code view. -/
def mixedCode : String :=
  "                      \n$a = '   ' . <<<X . Foo::Y\n        \nX . new Foo;          \n"

theorem expansion_keeps_view_mixed : ∃ doc text' code', Document.ofString mixedText = .ok doc ∧
    heredocNames mixedText.toList = [39, 59] ∧
    (expandReferences doc "Foo" "Lib\\Foo").map (·.span.start) = [67, 43] ∧
    applyEdits mixedText (expandReferences doc "Foo" "Lib\\Foo") = .ok text' ∧
    applyEdits (String.ofList doc.code) (expandReferences doc "Foo" "Lib\\Foo") = .ok code' ∧
    codeView text'.toList = .ok code'.toList := by
  have hdoc : Document.ofString mixedText = .ok ⟨mixedText.toList, mixedCode.toList⟩ := by
    decide +kernel
  have hnames : heredocNames mixedText.toList = [39, 59] := by decide +kernel
  have hedits :
      (expandReferences ⟨mixedText.toList, mixedCode.toList⟩ "Foo" "Lib\\Foo").map (·.span.start) =
      [67, 43] := by decide +kernel
  obtain ⟨text', code', htext, hcode,
      hview⟩ := @expansion_keeps_view mixedText _ hdoc "Foo" "Lib\\Foo"
    ⟨by decide, by decide⟩ ⟨by decide +kernel, by decide +kernel⟩ (by rw [hnames]; decide +kernel)
  exact ⟨_, text', code', hdoc, hnames, hedits, htext, hcode, hview⟩

/-! ## Expanding the identifier of a heredoc -/

/-- A heredoc whose identifier is the name. -/
def namedText : String :=
  "<?php\necho <<<Foo\nnew Hidden;\nFoo;\n"

/-- Its code view. -/
def namedCode : String :=
  "     \necho <<<Foo\n           \nFoo;\n"

/-- The heredoc is gone when its identifiers are expanded, and what was its body can be seen. -/
theorem expansion_uncovers_heredoc : ∃ doc text' code' view, Document.ofString namedText = .ok doc ∧
    IsIdent "Foo".toList ∧ IsName (stripLeading "Lib\\Foo").toList ∧
    applyEdits namedText (expandReferences doc "Foo" "Lib\\Foo") = .ok text' ∧
    applyEdits (String.ofList doc.code) (expandReferences doc "Foo" "Lib\\Foo") = .ok code' ∧
    codeView text'.toList = .ok view ∧ view ≠ code'.toList := by
  have hdoc : Document.ofString namedText = .ok ⟨namedText.toList, namedCode.toList⟩ := by
    decide +kernel
  have hs : IsIdent "Foo".toList := ⟨by decide, by decide⟩
  have hq : IsName (stripLeading "Lib\\Foo").toList := ⟨by decide +kernel, by decide +kernel⟩
  -- the text and the code in pieces between the identifiers
  have htext : namedText =
      String.ofList (weave "Foo".toList ["<?php\necho <<<".toList, "\nnew Hidden;\n".toList]
      ";\n".toList) := by decide +kernel
  have hcode : namedCode.toList =
      weave "Foo".toList ["     \necho <<<".toList, "\n           \n".toList]
      ";\n".toList := by decide +kernel
  have hedits : expandReferences ⟨namedText.toList, namedCode.toList⟩ "Foo" "Lib\\Foo" =
      (wordEdits "Foo".toList "\\Lib\\Foo"
        (fronts "Foo".toList [] ["<?php\necho <<<".toList,
          "\nnew Hidden;\n".toList])).reverse := by decide +kernel
  have hedits' : expandReferences ⟨namedText.toList, namedCode.toList⟩ "Foo" "Lib\\Foo" =
      (wordEdits "Foo".toList "\\Lib\\Foo"
        (fronts "Foo".toList [] ["     \necho <<<".toList,
          "\n           \n".toList])).reverse := by decide +kernel
  have happlied := applyEdits_weave hs.ne_nil "\\Lib\\Foo"
    ["<?php\necho <<<".toList, "\nnew Hidden;\n".toList] ";\n".toList
  have happlied' := applyEdits_weave hs.ne_nil "\\Lib\\Foo"
    ["     \necho <<<".toList, "\n           \n".toList] ";\n".toList
  rw [← hedits, ← htext] at happlied
  rw [← hedits', ← hcode] at happlied'
  exact ⟨_, _, _, "     \necho <<<\\Lib\\Foo\nnew Hidden;\n\\Lib\\Foo;\n".toList, hdoc, hs, hq,
    happlied, happlied', by decide +kernel, by decide +kernel⟩

/-! ## Collapsing -/

/-- What a full name is for the search that collapses it: it begins with a backslash, and in front
of each further backslash and at its end stands an identifier. -/
structure FullName (w : List Char) : Prop where
  absolute : ∃ r, w = '\\' :: r
  inside : ∀ {u v : List Char}, w = u ++ '\\' :: v → u ≠ [] → ∃ y ∈ u.getLast?, isIdentChar y = true
  ends : ∃ y ∈ w.getLast?, isIdentChar y = true

namespace FullName

variable (h : FullName w)
include h

theorem ne_nil : w ≠ [] := by
  obtain ⟨r, rfl⟩ := h.absolute
  exact List.cons_ne_nil _ _

/-- In front of a place that overlaps another one stands an identifier. -/
theorem ident_before_of_overlap {a' b' : List Char} (hcode : a ++ (w ++ b) = a' ++ (w ++ b'))
    (hlt : a.length < a'.length) (hlt' : a'.length < (a ++ w).length) :
    ∃ y ∈ a'.getLast?, isIdentChar y = true := by
  obtain ⟨u, rfl⟩ := List.prefix_of_prefix_length_le ⟨_, rfl⟩ ⟨_, hcode.symm⟩ hlt.le
  rw [List.append_assoc] at hcode
  have hrest := List.append_cancel_left hcode
  simp only [List.length_append] at hlt hlt'
  obtain ⟨v, hw⟩ := List.prefix_of_prefix_length_le ⟨_, hrest.symm⟩ ⟨b, rfl⟩ (by omega)
  have hu : u ≠ [] := List.ne_nil_of_length_pos (by omega)
  obtain ⟨c, v, rfl⟩ : ∃ c v', v = c :: v' := List.exists_cons_of_ne_nil fun hnil => by
    rw [hnil, List.append_nil] at hw
    rw [hw] at hlt'
    omega
  obtain ⟨r, hr⟩ := h.absolute
  have hc : c = '\\' := by
    rw [← hw, List.append_assoc] at hrest
    have hhead := List.append_cancel_left hrest
    rw [hw, hr] at hhead
    exact (List.cons.inj hhead).1
  subst hc
  obtain ⟨y, hy, hident⟩ := h.inside hw.symm hu
  refine ⟨y, ?_, hident⟩
  rw [List.getLast?_append_of_ne_nil _ hu]
  exact hy

end FullName

theorem fullName_fullyQualified (hq : IsName (stripLeading q).toList) :
    FullName (fullyQualified q).toList where
  absolute := ⟨_, toList_fullyQualified q⟩
  inside {u v} h hne := by
    rw [toList_fullyQualified] at h
    obtain ⟨c, u, rfl⟩ := List.exists_cons_of_ne_nil hne
    obtain ⟨rfl, hsplit⟩ := List.cons.inj h
    obtain ⟨y, hy, hword⟩ := hq.word_before hsplit
    refine ⟨y, ?_, isIdentChar_of_isWordChar hword⟩
    rw [List.getLast?_cons, Option.mem_def.mp hy]
    rfl
  ends := by
    have hy := List.getLast?_eq_some_getLast hq.ne_nil
    refine ⟨_, ?_,
      isIdentChar_of_isWordChar ((hq.mem _ (List.mem_of_getLast? hy)).resolve_right fun heq => ?_)⟩
    · rw [toList_fullyQualified, List.getLast?_cons, hy]
      rfl
    · exact hq.getLast?_ne (heq ▸ hy)

/-- What stands in front of the full names that are collapsed. -/
def collapsible (code : List Char) (q : String) : List (List Char) :=
  chosenFronts code (fullyQualified q) fun x => isStandalone x.1 x.2 && x.2.after.head? != some '\\'

theorem collapseReferences_eq (doc : Document) (q s : String) :
    collapseReferences doc q s =
      (wordEdits (fullyQualified q).toList s (collapsible doc.code q)).reverse := by
  rw [collapsible, ← wordEdits_chosenFronts]
  rfl

/-- **A full name is collapsed wherever it stands alone.** -/
theorem mem_collapsible_iff {code : List Char} (hq : IsName (stripLeading q).toList) :
    a ∈ collapsible code q ↔ ∃ b, code = a ++ ((fullyQualified q).toList ++ b) ∧ Alone a b := by
  have hfull := fullName_fullyQualified hq
  constructor
  · intro h
    obtain ⟨b, hb, hp⟩ := exists_of_mem_chosenFronts h
    exact ⟨b, hb, isCollapsible_iff.mp hp⟩
  · rintro ⟨b, rfl, halone⟩
    rcases @mem_occurrences_or a b (fullyQualified q) hfull.ne_nil with hmem |
        ⟨a', b', -, hcode, hlt, hlt'⟩
    · refine List.mem_map.mpr ⟨_, List.mem_filter.mpr ⟨hmem, isCollapsible_iff.mpr halone⟩, ?_⟩
      exact List.reverse_reverse a
    · -- an occurrence that overlaps another one does not stand alone
      obtain ⟨y, hy, hident⟩ := hfull.ident_before_of_overlap hcode.symm hlt hlt'
      rw [halone.before y hy] at hident
      cases hident

/-! ## Collapsing what has been expanded -/

/-- Both pieces of code are empty, or both end with an identifier. -/
def EndAlike (P P₀ : List Char) : Prop :=
  P = [] ∧ P₀ = [] ∨ (∃ y ∈ P.getLast?, isIdentChar y = true) ∧ ∃ y ∈ P₀.getLast?,
  isIdentChar y = true

namespace EndAlike

theorem symm (h : EndAlike P P₀) : EndAlike P₀ P :=
  h.imp And.symm And.symm

/-- No identifier goes on behind the one if none goes on behind the other. -/
theorem transfer (h : EndAlike P P₀) {u : List Char}
    (hlast : ∀ y ∈ (P ++ u).getLast?, isIdentChar y = false) :
    ∀ y ∈ (P₀ ++ u).getLast?, isIdentChar y = false := by
  by_cases hu : u = []
  · subst hu
    rw [List.append_nil] at hlast ⊢
    rcases h with ⟨-, rfl⟩ | ⟨⟨y, hy, hident⟩, -⟩
    · simp
    · rw [hlast y hy] at hident
      cases hident
  · rwa [List.getLast?_append_of_ne_nil _ hu] at hlast ⊢

theorem append {s : List Char} (hw : ∃ y ∈ w.getLast?, isIdentChar y = true)
    (hs : ∃ y ∈ s.getLast?, isIdentChar y = true) (Q Q₀ : List Char) :
    EndAlike (Q ++ w) (Q₀ ++ s) := by
  have hend : ∀ {v : List Char}, (∃ y ∈ v.getLast?, isIdentChar y = true) → ∀ V : List Char,
      ∃ y ∈ (V ++ v).getLast?, isIdentChar y = true := by
    rintro v ⟨y, hy, hident⟩ V
    exact ⟨y, by rw [List.getLast?_append, Option.mem_def.mp hy]; rfl, hident⟩
  exact .inr ⟨hend hw Q, hend hs Q₀⟩

end EndAlike

section Undo

variable {s : List Char}

theorem Rewording.ends (h : Rewording s w) : ∃ y ∈ s.getLast?, isIdentChar y = true :=
  ⟨_, List.getLast?_eq_some_getLast h.ne_nil, h.ident _ (List.getLast_mem h.ne_nil)⟩

theorem EndAlike.behind (h : Rewording s w) (hw : FullName w) (P P₀ c : List Char) :
    EndAlike (P ++ (c ++ w)) (P₀ ++ (c ++ s)) := by
  rw [← List.append_assoc, ← List.append_assoc]
  exact .append hw.ends h.ends _ _

/-- A word that stands alone does so when the words behind it are replaced. -/
theorem Alone.weave (h : Rewording s w) (halone : Alone a (weave s cs x)) :
    Alone a (UseImports.weave w cs x) := by
  refine ⟨halone.before, ?_⟩
  rcases cs with - | ⟨- | ⟨z, c⟩, cs⟩
  · exact halone.after
  · -- the next word would go on with this one
    obtain ⟨z, s, rfl⟩ := List.exists_cons_of_ne_nil h.ne_nil
    have hident := (halone.after z rfl).1
    rw [h.ident z List.mem_cons_self] at hident
    cases hident
  · exact halone.after

/-- A word that stands alone does so when all the words around it are replaced. -/
theorem alone_of_mem_fronts (h : Rewording s w) (hw : FullName w) (hP : EndAlike P P₀)
    (halone : ∀ a ∈ fronts s P₀ cs, ∃ b, P₀ ++ weave s cs x = a ++ (s ++ b) ∧ Alone a b) :
    ∀ a ∈ fronts w P cs, ∃ b, P ++ weave w cs x = a ++ (w ++ b) ∧ Alone a b := by
  induction cs generalizing P P₀ with
  | nil => simp [fronts]
  | cons c cs ih =>
    intro a ha
    rcases List.mem_cons.mp ha with rfl | ha
    · obtain ⟨b, hb, hfirst⟩ := halone (P₀ ++ c) List.mem_cons_self
      rw [weave, ← List.append_assoc] at hb
      obtain rfl := List.append_cancel_left (List.append_cancel_left hb)
      exact ⟨weave w cs
        x, by rw [weave, List.append_assoc], hP.symm.transfer hfirst.before, (hfirst.weave h).after⟩
    · have hrest := ih (.behind h hw P P₀ c) (fun a ha => by
        simpa only [weave, List.append_assoc] using halone a (List.mem_cons_of_mem _ ha)) a ha
      simpa only [weave, List.append_assoc] using hrest

/-- **What stands alone after the words have been replaced is what they have been replaced by**, if
nothing did before them. -/
theorem mem_fronts_of_alone (h : Rewording s w) (hw : FullName w) (hP : EndAlike P P₀)
    (hfree : ∀ a b, P₀ ++ weave s cs x = a ++ (w ++ b) → ¬ Alone a b)
    (hlast : ∀ a ∈ fronts w P cs, ∀ y ∈ a.getLast?, isIdentChar y = false)
    (hcode : P ++ weave w cs x = a ++ (w ++ b)) (hle : P.length ≤ a.length) (halone : Alone a b) :
    a ∈ fronts w P cs := by
  induction cs generalizing P P₀ with
  | nil =>
    obtain ⟨u, rfl⟩ := List.prefix_of_prefix_length_le ⟨_, rfl⟩ ⟨_, hcode.symm⟩ hle
    rw [List.append_assoc] at hcode
    have hx : x = u ++ (w ++ b) := List.append_cancel_left hcode
    refine absurd ⟨hP.transfer halone.before, halone.after⟩ (hfree (P₀ ++ u) b ?_)
    rw [weave, hx, List.append_assoc]
  | cons c cs ih =>
    have hsplit : (P ++ c) ++ (w ++ weave w cs x) = a ++ (w ++ b) := by
      rw [← hcode, weave, List.append_assoc]
    rcases Nat.lt_trichotomy a.length (P ++ c).length with hlt | heq | hgt
    · by_cases hover : (P ++ c).length < (a ++ w).length
      · -- the word that has been put in behind `c` would go on with an identifier
        obtain ⟨y, hy, hident⟩ := hw.ident_before_of_overlap hsplit.symm hlt hover
        rw [hlast _ List.mem_cons_self y hy] at hident
        cases hident
      · -- the name has stood alone in `c` before
        obtain ⟨v, hv⟩ : a ++ w <+: P ++ c :=
          List.prefix_of_prefix_length_le ⟨b, by rw [hsplit, List.append_assoc]⟩ ⟨_,
            rfl⟩ (Nat.le_of_not_lt hover)
        obtain ⟨u, rfl⟩ := List.prefix_of_prefix_length_le ⟨_, rfl⟩ ⟨_, hcode.symm⟩ hle
        have hc : c = u ++ (w ++ v) := by
          rw [List.append_assoc, List.append_assoc] at hv
          exact (List.append_cancel_left hv).symm
        have hb : b = v ++ (w ++ weave w cs x) := by
          rw [← hv, List.append_assoc, List.append_assoc] at hsplit
          exact (List.append_cancel_left (List.append_cancel_left hsplit)).symm
        obtain ⟨r, hr⟩ := hw.absolute
        have hne : v ≠ [] := by
          rintro rfl
          rw [List.nil_append, hr] at hb
          exact (halone.after '\\' (by rw [hb]; rfl)).2 rfl
        refine absurd ⟨hP.transfer halone.before,
          ?_⟩ (hfree (P₀ ++ u) (v ++ (s ++ weave s cs x)) ?_)
        · rw [weave, hc]
          simp only [List.append_assoc]
        · rw [List.head?_append_of_ne_nil _ hne]
          have hafter := halone.after
          rwa [hb, List.head?_append_of_ne_nil _ hne] at hafter
    · obtain ⟨rfl, -⟩ := List.append_inj hsplit heq.symm
      exact List.mem_cons_self
    · by_cases hover : a.length < (P ++ c ++ w).length
      · obtain ⟨y, hy, hident⟩ := hw.ident_before_of_overlap hsplit hgt hover
        rw [halone.before y hy] at hident
        cases hident
      · refine List.mem_cons_of_mem _ (ih (.behind h hw P P₀ c) (fun a b hab => hfree a b ?_)
          (fun a ha => hlast a (List.mem_cons_of_mem _ ha)) ?_ ?_)
        · rw [← hab]
          simp only [weave, List.append_assoc]
        · rw [← hcode]
          simp only [weave, List.append_assoc]
        · rw [← List.append_assoc]
          omega

end Undo

/-- After expanding, the full names that are collapsed are those that have been put in. -/
theorem Expanded.collapsible_eq (h : Expanded doc s q gs cs X x) (hs : IsIdent s.toList)
    (hq : IsName (stripLeading q).toList) (hnone : collapseReferences doc q s = []) :
    collapsible (weave (fullyQualified q).toList cs x) q =
      fronts (fullyQualified q).toList [] cs := by
  have hword := rewording_fullyQualified hs hq
  have hfull := fullName_fullyQualified hq
  have hfree : ∀ a b, doc.code = a ++ ((fullyQualified q).toList ++ b) → ¬ Alone a b :=
    fun a b hab halone => by
    have hmem := (mem_collapsible_iff hq).mpr ⟨b, hab, halone⟩
    rw [collapseReferences_eq, List.reverse_eq_nil_iff, wordEdits, List.map_eq_nil_iff] at hnone
    rw [hnone] at hmem
    cases hmem
  have halone : ∀ a ∈ fronts (fullyQualified q).toList [] cs,
      ∃ b, weave (fullyQualified q).toList cs x =
        a ++ ((fullyQualified q).toList ++ b) ∧ Alone a b :=
    alone_of_mem_fronts hword hfull (P := []) (.inl ⟨rfl, rfl⟩) (h.code ▸ fun _ => h.alone)
  refine Spaced.eq (List.length_pos_iff.mpr hfull.ne_nil) spaced_chosenFronts
    (spaced_fronts _ [] cs).2 fun a => ?_
  rw [mem_collapsible_iff hq]
  constructor
  · rintro ⟨b, hcode, hab⟩
    have hfree' : ∀ a b, [] ++ weave s.toList cs x = a ++ ((fullyQualified q).toList ++ b) →
        ¬ Alone a b := by
      rw [List.nil_append, ← h.code]
      exact hfree
    refine mem_fronts_of_alone hword hfull (.inl ⟨rfl, rfl⟩) hfree' (fun a ha =>
      ?_) hcode (Nat.zero_le _) hab
    obtain ⟨b, -, hab⟩ := halone a ha
    exact hab.before
  · exact halone a

theorem NoHeredoc.heredocNames_eq {T : List Char} (h : NoHeredoc T) : heredocNames T = [] := by
  have hopened : ∀ {m c cs}, NoHeredoc (c :: cs) → openedLabels m c cs = [] :=
    fun {m c cs} hno => by
    rw [openedLabels, if_neg]
    rintro ⟨-, rfl, htake⟩
    refine hno ⟨[], cs.drop 2, ?_⟩
    rw [List.nil_append, ← List.take_append_drop 2 cs, htake]
    rfl
  have hlabels : ∀ {known m}, labelsFrom known m T = [] := by
    intro known m
    induction T generalizing known m with
    | nil => cases known <;> rfl
    | cons c cs ih =>
      have htail := h.of_suffix (List.suffix_cons c cs)
      cases known with
      | cons v known => rw [labelsFrom, ih htail, List.map_nil]
      | nil =>
        rw [labelsFrom, hopened h, List.nil_append]
        cases m.step c cs with
        | error e => rfl
        | ok d =>
          dsimp only
          rw [ih htail, List.map_nil]
  rw [heredocNames, hlabels, List.map_nil]

/-- **Collapsing undoes expanding** in a text without heredocs, if there is nothing to collapse in
it. -/
theorem collapse_undoes_expansion {text s q : String} (hs : IsIdent s.toList)
    (hq : IsName (stripLeading q).toList) (hno : NoHeredoc text.toList) :
    ∃ doc, Document.ofString text = .ok doc ∧ (collapseReferences doc q s = [] →
      ∃ text' doc', applyEdits text (expandReferences doc s q) = .ok text' ∧
        Document.ofString text' = .ok doc' ∧
        applyEdits text' (collapseReferences doc' q s) = .ok text) := by
  obtain ⟨code, hview⟩ := exists_codeView hno
  refine ⟨⟨text.toList, code⟩, map_ok_iff.mpr ⟨code, hview, rfl⟩, fun hnone => ?_⟩
  obtain ⟨gs, cs, X, x, h⟩ := @exists_expanded s ⟨text.toList, code⟩ hview hs q
  have htext := h.applyEdits_text hs
  rw [String.ofList_toList] at htext
  have hview' := h.codeView_eq hview hs hq fun e _ => by simp [hno.heredocNames_eq]
  refine ⟨_, ⟨_, _⟩, htext, map_ok_iff.mpr ⟨_, by rw [String.toList_ofList]; exact hview', rfl⟩, ?_⟩
  rw [collapseReferences_eq, h.collapsible_eq hs hq hnone, ← wordEdits_of_aligned h.aligned rfl,
    applyEdits_weave (fullName_fullyQualified hq).ne_nil, ← h.text, String.ofList_toList]

/-- A text with references, a longer name, a comment and a string literal. -/
def referringText : String :=
  "<?php\nnew Foo; // Foo\nFoo::make('Foo', \\Lib\\FooBar::X);\n"

/-- Its code view. -/
def referringCode : String :=
  "     \nnew Foo;       \nFoo::make('   ', \\Lib\\FooBar::X);\n"

theorem collapse_undoes_expansion_referring :
    ∃ doc text' doc', Document.ofString referringText = .ok doc ∧
    collapseReferences doc "Lib\\Foo" "Foo" = [] ∧
    (expandReferences doc "Foo" "Lib\\Foo").length = 2 ∧
    applyEdits referringText (expandReferences doc "Foo" "Lib\\Foo") = .ok text' ∧
    Document.ofString text' = .ok doc' ∧
    applyEdits text' (collapseReferences doc' "Lib\\Foo" "Foo") = .ok referringText := by
  have hdoc : Document.ofString referringText =
      .ok ⟨referringText.toList, referringCode.toList⟩ := by
    decide +kernel
  have hno : NoHeredoc referringText.toList := by
    unfold NoHeredoc
    decide +kernel
  obtain ⟨doc, hdoc', hundo⟩ := @collapse_undoes_expansion referringText "Foo" "Lib\\Foo"
    ⟨by decide, by decide⟩ ⟨by decide +kernel, by decide +kernel⟩ hno
  obtain rfl := Except.ok.inj (hdoc.symm.trans hdoc')
  obtain ⟨text', doc', htext, hdoc'', hback⟩ := hundo (by decide +kernel)
  exact ⟨_, text', doc', hdoc, by decide +kernel, by decide +kernel, htext, hdoc'', hback⟩

end UseImports
