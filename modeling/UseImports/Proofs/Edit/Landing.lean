import UseImports.Proofs.Declaration.Rendering
import UseImports.Proofs.Edit.Block
import UseImports.Proofs.Edit.Insertion

/-!
# Where a new import lands

`plan_import` puts a new statement in front of a line: behind the line of the last import, of
the namespace declaration or of the open tag. What it goes behind is code there, and an import may
begin. Whether the next line still is depends on the rest of the line alone: a comment, a string or
a heredoc may be left open on it, a statement, a brace, or the closing tag of the code.

The namespace declaration is an exception. Behind an import the line of its end is taken, behind the
declaration that of its start. Where the declaration goes over a line end, as with a brace on a line
of its own, the new statement is put inside of it.

* `Closes`: the rest of a line leaves nothing open.
* `CodeOnLine`: behind a place of a line the text is code.
* `ClearPlace`: the line that a new import goes behind leaves nothing open.
* `lands_of_clearPlace`: **a new import lands in code**, if its place is clear.
* `inside_namespace`: **a declaration that goes over a line end gets the new import inside.**
* `import_is_found`: **importing a class imports it**, if the place is clear.
-/

namespace UseImports

open Placed Cursor

variable {A a B code g g' k name Q s t v W x y : List Char} {e : Char} {I : String}
    {n : NamespaceDeclaration} {doc : Document} {d : Declaration} {tag : Span}

/-! ## The rest of a line -/

/-- The rest `x` of a line leaves nothing open: it is read with the view `v`, the line behind it is
code again whatever stands there, and a statement may begin, inside of no more braces than before.
-/
structure Closes (x v : List Char) : Prop where
  view : viewFrom [] .code x = .ok v
  settles : Settles .code (x ++ ['\n']) (v ++ ['\n']) .code
  opens : Opens v.reverse
  level : importLevel v v = true

/-- Whether a line leaves nothing open is seen from the walk over its end. -/
theorem closes_of_walkOver (hview : viewFrom [] .code x = .ok v)
    (hwalk : walkOver [] .code (x ++ ['\n']) ['\n'] = .ok (v ++ ['\n'], [], .code))
    (hopens : Opens v.reverse) (hlevel : importLevel v v = true) : Closes x v where
  view := hview
  settles := (walk_of_walkOver hwalk).settles_of_break (by simp) (.inr (by simp))
  opens := hopens
  level := hlevel

/-- The rest of the line behind the offset leaves nothing open. -/
def ClosedBehind (cs : List Char) (n : Nat) : Prop :=
  ∀ cut ∈ splitAtByte n cs, ∃ v, Closes (cut.2.takeWhile (· ≠ '\n')) v

/-! ## Behind a line -/

/-- The text `A` of the document is read with the view `a`, whatever follows. Behind it the text is
code, and an import may begin. -/
structure CodeBehind (doc : Document) (A Y a y : List Char) : Prop where
  text : doc.text = A ++ Y
  code : doc.code = a ++ y
  settles : Settles (startMode doc.text) A a .code
  rest : viewFrom [] .code Y = .ok y
  opens : Opens a.reverse
  level : importLevel a a = true

namespace CodeBehind

variable {Y : List Char} (h : CodeBehind doc A Y a y)

include h

/-- What leaves nothing open may be passed over. -/
theorem append {w : List Char} (hY : Y = W ++ Q) (hW : Settles .code W w .code)
    (hopens : Opens w.reverse) (hlevel : importLevel w w = true) :
    ∃ q, CodeBehind doc (A ++ W) Q (a ++ w) q := by
  have hrest := h.rest
  rw [hY, hW, map_ok_iff] at hrest
  obtain ⟨q, hq, hy⟩ := hrest
  refine ⟨q, ?_, ?_, h.settles.append hW, hq, ?_, ?_⟩
  · rw [h.text, hY, List.append_assoc]
  · rw [h.code, ← hy, List.append_assoc]
  · rw [List.reverse_append]
    exact hopens.append h.opens
  · rw [importLevel_back h.opens h.level]
    exact hlevel

/-- White space may be passed over. -/
theorem append_space (hY : Y = W ++ Q) (hW : ∀ c ∈ W, isSpace c = true) :
    ∃ q, CodeBehind doc (A ++ W) Q (a ++ W) q := by
  have hplace := (Run.of_space hW).importPlace
  exact h.append hY (settles_of_isPlain fun c hc =>
    isPlain_of_isSpace (hW c hc)) hplace.opens hplace.level

/-- The rest of a line may be passed over, if it leaves nothing open. -/
theorem append_line (hY : Y = (x ++ ['\n']) ++ Q) (hx : Closes x v) :
    ∃ q, CodeBehind doc (A ++ (x ++ ['\n'])) Q (a ++ (v ++ ['\n'])) q := by
  have hspace : ∀ c ∈ ['\n'], isSpace c = true := by decide
  refine h.append hY hx.settles ?_ ?_
  · rw [List.reverse_append]
    exact hx.opens.append_space hspace
  · rw [importLevel_back hx.opens hx.level]
    exact (Run.of_space hspace).importPlace.level

/-- A statement that is put there lands in code. -/
theorem lands_at {e : Edit} (hspan : e.span = ⟨byteLength A, byteLength A⟩)
    (hfront : ∃ R, e.replacement.toList = W ++ 'u' :: R) (hW : ∀ c ∈ W, isSpace c = true) :
    Lands doc e :=
  ⟨A, W, Y, a, y, h.text, h.code, hspan, hfront, hW,
    h.settles.append (settles_of_isPlain fun c hc => isPlain_of_isSpace (hW c hc)), h.rest,
    h.opens, h.level⟩

/-- A statement that is put behind the line lands in code, if code goes on behind it. -/
theorem lands_behind {a' q : List Char}
    (hline : CodeBehind doc (A ++ throughBreak Y) (behindBreak Y) a' q) (d : Declaration)
    (hI : ∀ c ∈ I.toList, isSpace c = true) (Z : String) :
    Lands doc (insertAfterLine doc.text (breaks A) (I ++ d.plainStatement ++ Z)) := by
  obtain ⟨V, hedit, hV, -⟩ := insertAfterLine_cases doc.text (breaks A) (I ++ d.plainStatement ++ Z)
  refine hline.lands_at (W := V.toList ++ I.toList) ?_ ?_ fun c hc =>
    (List.mem_append.mp hc).elim (hV c) (hI c)
  · rw [hedit, h.text, nextLineStart_append, byteLength_append]
    rfl
  · refine ⟨'s' :: 'e' :: (plainBody d ++ [';']) ++ Z.toList, ?_⟩
    rw [hedit]
    simp [Edit.insert, toList_plainStatement]

/-- A statement that is put behind a line lands in code, if the line goes on with white space only.
-/
theorem lands (hspace : ∀ c ∈ throughBreak Y, isSpace c = true) (d : Declaration)
    (hI : ∀ c ∈ I.toList, isSpace c = true) (Z : String) :
    Lands doc (insertAfterLine doc.text (breaks A) (I ++ d.plainStatement ++ Z)) := by
  obtain ⟨q, hline⟩ := h.append_space (throughBreak_append_behindBreak Y).symm hspace
  exact h.lands_behind hline d hI Z

/-- Behind the last line, which has no end, the statement brings one along. -/
theorem lands_at_end (hY : '\n' ∉ Y) (hclosed : Closes Y v) (hlast : ∃ c ∈ A.getLast?, c ≠ '\n')
    (d : Declaration) (hI : ∀ c ∈ I.toList, isSpace c = true) (Z : String) :
    Lands doc (insertAfterLine doc.text (breaks A) (I ++ d.plainStatement ++ Z)) := by
  obtain rfl : y = v := Except.ok.inj (h.rest.symm.trans hclosed.view)
  have hthrough : throughBreak Y = Y :=
    ((throughBreak_cases Y).resolve_right fun ⟨x, _, _, hsplit⟩ => hY (by rw [hsplit]; simp)).1
  have hnext : nextLineStart doc.text (breaks A) = byteLength doc.text := by
    rw [h.text, nextLineStart_append, hthrough, byteLength_append]
  have hend : ∃ z ∈ doc.text.getLast?, z ≠ '\n' := by
    obtain ⟨c, hc, hbreak⟩ := hlast
    rw [h.text, List.getLast?_append, Option.mem_def.mp hc]
    cases hz : Y.getLast? with
    | none => exact ⟨c, rfl, hbreak⟩
    | some z => exact ⟨z, rfl, fun heq => hY (heq ▸ List.mem_of_getLast? hz)⟩
  obtain ⟨V, hedit, -, hV⟩ := insertAfterLine_cases doc.text (breaks A) (I ++ d.plainStatement ++ Z)
  obtain rfl := hV hnext hend
  have hspace : ∀ c ∈ '\n' :: I.toList, isSpace c = true := fun c hc =>
    (List.mem_cons.mp hc).elim (fun heq => heq ▸ rfl) (hI c)
  have hsettles : Settles (startMode doc.text) (A ++ Y ++ '\n' :: I.toList)
      (a ++ y ++ '\n' :: I.toList) .code := by
    have := (h.settles.append hclosed.settles).append
      (settles_of_isPlain fun c hc => isPlain_of_isSpace (hI c hc))
    simpa using this
  refine ⟨A ++ Y, '\n' :: I.toList, [], a ++ y, [], by rw [h.text, List.append_nil],
    by rw [h.code, List.append_nil], ?_, ?_, hspace, hsettles, rfl, ?_, ?_⟩
  · rw [hedit, hnext, h.text]
    rfl
  · refine ⟨'s' :: 'e' :: (plainBody d ++ [';']) ++ Z.toList, ?_⟩
    rw [hedit]
    simp [Edit.insert, toList_plainStatement]
  · rw [List.reverse_append]
    exact hclosed.opens.append h.opens
  · rw [importLevel_back h.opens h.level]
    exact hclosed.level

end CodeBehind

/-- Behind the offset, which is on the line, the text is code and an import may begin. -/
def CodeOnLine (doc : Document) (stop line : Nat) : Prop :=
  ∃ A Y a y, CodeBehind doc A Y a y ∧ byteLength A = stop ∧ breaks A = line ∧
    ∃ c ∈ A.getLast?, c ≠ '\n'

section OnLine

variable {stop line : Nat} (h : CodeOnLine doc stop line) (hclosed : ClosedBehind doc.text stop)

include h hclosed

/-- Where the line comes to an end, code goes on behind it. -/
theorem CodeOnLine.next (hline : line < breaks doc.text) :
    ∃ P Q p q, CodeBehind doc P Q p q ∧ AtLineStart P ∧ breaks P = line + 1 := by
  obtain ⟨A, Y, a, y, hbehind, rfl, rfl, -⟩ := h
  obtain ⟨v, hv⟩ := hclosed (A, Y) (hbehind.text ▸ splitAtByte_append A Y)
  rw [hbehind.text, breaks_append] at hline
  obtain ⟨x, hx, -, hY⟩ := (throughBreak_cases Y).resolve_left fun hall => by
    have := breaks_eq_zero hall.2
    omega
  rw [hY, takeWhile_line hx (by simp)] at hv
  obtain ⟨q, hnext⟩ := hbehind.append_line (by rw [List.append_assoc]; exact hY) hv
  refine ⟨_, _, _, q, hnext, .inr (by simp), ?_⟩
  rw [breaks_append, breaks_append, breaks_eq_zero hx]
  rfl

/-- **A statement that is put behind a line lands in code**, if the rest of the line leaves nothing
open. -/
theorem CodeOnLine.lands (d : Declaration) (hI : ∀ c ∈ I.toList, isSpace c = true) (Z : String) :
    Lands doc (insertAfterLine doc.text line (I ++ d.plainStatement ++ Z)) := by
  obtain ⟨A, Y, a, y, hbehind, rfl, rfl, hlast⟩ := h
  obtain ⟨v, hv⟩ := hclosed (A, Y) (hbehind.text ▸ splitAtByte_append A Y)
  rcases throughBreak_cases Y with ⟨-, hno⟩ | ⟨x, hx, hthrough, hY⟩
  · have hall := takeWhile_line (Y := []) hno (by simp)
    rw [List.append_nil] at hall
    rw [hall] at hv
    exact hbehind.lands_at_end hno hv hlast d hI Z
  · rw [hY, takeWhile_line hx (by simp)] at hv
    obtain ⟨q, hnext⟩ := hbehind.append_line (by rw [List.append_assoc]; exact hY) hv
    rw [← hthrough] at hnext
    exact hbehind.lands_behind hnext d hI Z

end OnLine

/-- A brace of a namespace declaration is one of the braces that open namespaces. -/
theorem NamespaceText.mem_namespaceBraces {n : NamespaceClause}
    (h : NamespaceText code n k g name g' '{') (hn : n ∈ (atStart code).findAll namespaceClause?) :
    n.delimiter.offset ∈ namespaceBraces code := by
  refine List.mem_map.mpr ⟨n, List.mem_filter.mpr ⟨hn, ?_⟩, rfl⟩
  have htext : code = n.delimiter.before.reverse ++ n.delimiter.after :=
    (delimiter_of_mem hn).1.text_eq
  have hafter : n.delimiter.after = '{' :: n.stop.after := by
    refine List.append_cancel_left (htext.symm.trans ?_)
    rw [h.delimiter, List.append_assoc]
    exact h.text
  rw [NamespaceClause.braced, hafter]
  rfl

/-- A namespace declaration at import level leaves the import level as it is. -/
theorem NamespaceText.importLevel_eq {n : NamespaceClause} (h : NamespaceText code n k g name g' e)
    (hn : n ∈ (atStart code).findAll namespaceClause?)
    (hlevel : importLevel code n.start.before.reverse = true) :
    importLevel code (n.delimiter.before.reverse ++ [e]) = true := by
  have hplain : ∀ c ∈ k ++ (g ++ (name ++ g')), c ≠ '{' ∧ c ≠ '}' := fun c hc => by
    have := h.not_isStop c hc
    constructor <;> (rintro rfl; revert this; decide)
  have hfront : bracesAt code n.delimiter.before.reverse =
      bracesAt code n.start.before.reverse := by
    rw [h.delimiter, bracesAt, openBraces_append, openBraces_of_plain hplain]
    rfl
  rw [importLevel, bracesAt, openBraces_append, openBraces_cons, openBraces_nil]
  change (braceStep _ (bracesAt code n.delimiter.before.reverse) e).all id = true
  rw [hfront]
  rcases h.ends with rfl | rfl
  · exact hlevel
  · have hbrace : (namespaceBraces code).contains (0 + byteLength n.delimiter.before.reverse) =
        true := by
      rw [Nat.zero_add, byteLength_reverse, List.contains_iff_mem]
      exact h.mem_namespaceBraces hn
    rw [hbrace]
    exact hlevel

/-! ## Behind an import -/

/-- The statement of an import stands in the code. -/
theorem exists_statement_of_import (hd : d ∈ doc.declarations) :
    ∃ a s y, doc.code = a ++ (s ++ y) ∧ IsStatement s ∧
      d.statement = ⟨byteLength a, byteLength a + byteLength s⟩ ∧
      Opens a.reverse ∧ importLevel a a = true := by
  obtain ⟨site, body, hsite, hread, -⟩ := exists_site hd
  obtain ⟨s, y, hcode, hs, hspan, -, hopens, hlevel⟩ :=
    hsite.exists_statement (readBody_ne_nil hread)
  have hstatement :=
    (readOff_readBody doc (siteSpan site body) site.2.offset body).statement d hread
  rw [hspan, ← byteLength_reverse] at hstatement
  exact ⟨_, s, y, hcode, hs, hstatement, by rwa [List.reverse_reverse], hlevel⟩

theorem IsStatement.exists_semicolon (h : IsStatement s) : ∃ s', s = s' ++ [';'] := by
  obtain ⟨body, stop, hst⟩ := h
  obtain ⟨w, -, -, rfl, -⟩ := hst.split
  exact ⟨w ++ body, by simp⟩

section Stops

variable (hview : codeView doc.text = .ok doc.code)

include hview

/-- Behind a stop that can be seen the text is code, if no heredoc reaches over the stop. -/
theorem codeOnLine_stop {b : List Char} (hcode : doc.code = a ++ e :: b) (he : isStop e = true)
    (hlevel : importLevel (a ++ [e]) (a ++ [e]) = true)
    (hno : ¬ InHeredoc (startMode doc.text) doc.text (byteLength a)) :
    CodeOnLine doc (byteLength a + 1) (lineOf doc.text (byteLength a)) := by
  have hstop : byteLength [e] = 1 ∧ breaks [e] = 0 ∧ e ≠ '\n' := by
    rcases isStop_cases he with rfl | rfl | rfl <;> decide
  obtain ⟨hsize, hbreaks, hne⟩ := hstop
  rw [codeView_eq, hcode] at hview
  obtain ⟨A, B, htext, hwalk, hrest⟩ :=
    exists_walk_of_stop (Mode.proper_startMode doc.text) (.inr hno) hview he
  have hsettles : Settles (startMode doc.text) (A ++ [e]) (a ++ [e]) .code := fun R =>
    (hwalk R).viewFrom_eq
  have hlength := hsettles.byteLength_eq
  rw [byteLength_append, byteLength_append, Nat.add_right_cancel_iff] at hlength
  refine ⟨A ++ [e], B, a ++ [e], b,
    ⟨by rw [htext]; simp, by rw [hcode]; simp, hsettles, hrest, ?_, hlevel⟩, ?_, ?_, e, by simp,
    hne⟩
  · exact Stopped.opens (stopped_iff.mpr ⟨a, e, rfl, he⟩)
  · rw [byteLength_append, hsize, hlength]
  · rw [breaks_append, hbreaks, hlength, htext, lineOf_append]
    rfl

/-- Behind an import the text is code. -/
theorem codeOnLine_import (hd : d ∈ doc.declarations)
    (hno : ¬ InHeredoc (startMode doc.text) doc.text (d.statement.stop - 1)) :
    CodeOnLine doc d.statement.stop (lineExtent doc.text d.statement).2 := by
  obtain ⟨a, s, y, hcode, hs, hspan, hopens, hlevel⟩ := exists_statement_of_import hd
  have hlevel' : importLevel (a ++ s) (a ++ s) = true := by
    rw [importLevel_back hopens hlevel]
    exact hs.importPlace.level
  obtain ⟨s', rfl⟩ := hs.exists_semicolon
  rw [← List.append_assoc] at hlevel'
  have hsemicolon : byteLength [';'] = 1 := by decide
  have hstop : d.statement.stop = byteLength (a ++ s') + 1 := by
    rw [hspan]
    simp only [byteLength_append, hsemicolon]
    omega
  rw [hstop, Nat.add_sub_cancel] at hno
  rw [lineExtent, hstop, Nat.add_sub_cancel]
  exact codeOnLine_stop hview (b := y) (by rw [hcode]; simp) (by decide) hlevel' hno

/-! ## Behind a namespace declaration -/

/-- Behind a namespace declaration at import level the text is code. -/
theorem codeOnLine_namespace (hn : doc.ownNamespace? = some n)
    (hlevel : doc.importRegions.any (·.contains n.statement.start) = true)
    (hno : ¬ InHeredoc (startMode doc.text) doc.text (n.statement.stop - 1)) :
    CodeOnLine doc n.statement.stop (lineOf doc.text (n.statement.stop - 1)) := by
  obtain ⟨n, hfound, rfl⟩ := Option.map_eq_some_iff.mp hn
  have hmem := List.mem_of_find?_eq_some hfound
  obtain ⟨k, g, name, g', e, hclause⟩ := exists_namespaceText hmem
  have hcode : doc.code = n.delimiter.before.reverse ++ e :: n.stop.after := by
    rw [hclause.delimiter, List.append_assoc]
    exact hclause.text
  have hstop : isStop e = true := by rcases hclause.ends with rfl | rfl <;> rfl
  have hlevel' : importLevel (n.delimiter.before.reverse ++ [e])
      (n.delimiter.before.reverse ++ [e]) = true := by
    have hopens : Opens (n.delimiter.before.reverse ++ [e]).reverse :=
      Stopped.opens (stopped_iff.mpr ⟨_, e, rfl, hstop⟩)
    have hfront : importLevel doc.code n.start.before.reverse = true := by
      obtain ⟨y, v, hcons, -, -⟩ := hclause.exists_cons
      have hy := hclause.not_isStop y (by rw [hcons]; exact List.mem_cons_self)
      have hcode' := hclause.text
      rw [hcons, List.cons_append] at hcode'
      have hcontains := @importRegions_contains doc.text n.start.before.reverse y
        (by rintro rfl; cases hy) (v ++ e :: n.stop.after)
      rw [← hcode', byteLength_reverse] at hcontains
      rw [← hcontains]
      exact hlevel
    have hbehind := hclause.importLevel_eq hmem hfront
    rw [hcode, ← List.singleton_append, ← List.append_assoc,
      importLevel_front hopens _ (List.prefix_refl _)] at hbehind
    exact hbehind
  have hsize : byteLength [e] = 1 := by rcases hclause.ends with rfl | rfl <;> rfl
  have hend : n.stop.offset = byteLength n.delimiter.before.reverse + 1 := by
    rw [offset, hclause.stop, ← List.singleton_append, byteLength_append, hsize, byteLength_reverse]
    omega
  change ¬ InHeredoc _ _ (n.stop.offset - 1) at hno
  change CodeOnLine doc n.stop.offset (lineOf doc.text (n.stop.offset - 1))
  rw [hend, Nat.add_sub_cancel] at hno ⊢
  exact codeOnLine_stop hview hcode hstop hlevel' hno

end Stops

/-! ## Behind the open tag -/

/-- The text of an open tag. -/
def IsOpenTag (t : List Char) : Prop :=
  t.map foldLetter = "<?php".toList ∨ t = "<?=".toList

/-- The first open tag stands in the text. -/
theorem exists_openTag (h : doc.openTag? = some tag) :
    ∃ A t Y, doc.text = A ++ (t ++ Y) ∧ IsOpenTag t ∧
      tag = ⟨byteLength A, byteLength A + byteLength t⟩ := by
  obtain ⟨c, d, hread, hreach, -⟩ := mem_findAll (List.mem_of_head? h)
  have htext : doc.text = c.before.reverse ++ c.after := hreach.text_eq
  obtain ⟨t, htag, hafter, hbefore, rfl⟩ : ∃ t, IsOpenTag t ∧ c.after = t ++ d.after ∧
      d.before = t.reverse ++ c.before ∧ tag = c.spanTo d := by
    unfold Cursor.openTag? at hread
    split at hread
    · rename_i stop hstop
      obtain ⟨rfl, rfl⟩ := Prod.mk.inj (Option.some.inj hread)
      rw [Option.orElse_eq_some] at hstop
      rcases hstop with hphp | ⟨-, hecho⟩
      · obtain ⟨hphp, -⟩ := Option.filter_eq_some_iff.mp hphp
        obtain ⟨u, hafter, hfold, hbefore⟩ := folded?_eq_some hphp
        exact ⟨u, .inl hfold, hafter, hbefore, rfl⟩
      · obtain ⟨b, hafter, rfl⟩ := literal?_eq_some hecho
        exact ⟨_, .inr rfl, hafter, rfl, rfl⟩
    · cases hread
  refine ⟨c.before.reverse, t, d.after, by rw [htext, hafter], htag, ?_⟩
  rw [spanTo, offset, offset, hbefore, byteLength_append, byteLength_reverse,
    byteLength_reverse, Nat.add_comm]

/-- A character that is no letter in lower case is none at all. -/
theorem eq_of_toLower {c x : Char} (h : c.toLower = x) (hx : x.toNat < 'a'.toNat) : c = x := by
  by_cases hupper : 'A'.val ≤ c.val ∧ c.val ≤ 'Z'.val
  · have hlow := UInt32.le_iff_toNat_le.mp hupper.1
    have hhigh := UInt32.le_iff_toNat_le.mp hupper.2
    have hlower : c.toLower = _ := dif_pos hupper
    have hval : x.val = c.val + ('a'.val - 'A'.val) := by rw [← h, hlower]
    have hnat : x.toNat = (c.val + ('a'.val - 'A'.val)).toNat := congrArg UInt32.toNat hval
    rw [UInt32.toNat_add] at hnat
    change 65 ≤ _ at hlow
    change _ ≤ 90 at hhigh
    change _ < 97 at hx
    change _ = (_ + 32) % _ at hnat
    omega
  · exact (dif_neg hupper).symm.trans h

/-- The characters of an open tag. -/
theorem IsOpenTag.cases (h : IsOpenTag t) :
    t = ['<', '?', '='] ∨ ∃ c₁ c₂ c₃, t = ['<', '?', c₁, c₂, c₃] ∧
      [c₁, c₂, c₃].map Char.toLower = ['p', 'h', 'p'] := by
  rcases h with h | rfl
  · have hlower : t.map Char.toLower = ['<', '?', 'p', 'h', 'p'] :=
      map_toLower_of_folded h (.inr (by decide)) (by decide)
    obtain ⟨c, _, rfl, hc, hrest⟩ := List.map_eq_cons_iff.mp hlower
    obtain ⟨c', _, rfl, hc', hphp⟩ := List.map_eq_cons_iff.mp hrest
    obtain ⟨c₁, _, rfl, -, hhp⟩ := List.map_eq_cons_iff.mp hphp
    obtain ⟨c₂, _, rfl, -, hp⟩ := List.map_eq_cons_iff.mp hhp
    obtain ⟨c₃, _, rfl, -, hnil⟩ := List.map_eq_cons_iff.mp hp
    obtain rfl := List.map_eq_nil_iff.mp hnil
    obtain rfl := eq_of_toLower hc (by decide)
    obtain rfl := eq_of_toLower hc' (by decide)
    exact .inr ⟨c₁, c₂, c₃, rfl, hphp⟩
  · exact .inl rfl

theorem IsOpenTag.head? (h : IsOpenTag t) : t.head? = some '<' := by
  rcases h.cases with rfl | ⟨_, _, _, rfl, -⟩ <;> rfl

/-- An open tag is blanked, and code follows it. -/
theorem IsOpenTag.settles (h : IsOpenTag t) :
    Settles .html t (t.flatMap (Verdict.render · .blank)) .code := by
  intro R
  have hwalk : Walk R [] .html t (t.flatMap (Verdict.render · .blank)) [] .code := by
    rcases h.cases with rfl | ⟨c₁, c₂, c₃, rfl, hphp⟩
    · have hlength : tagRest (['?', '='] ++ R) = 2 := by
        have hphp : ¬ eqIgnoreCase ('?' :: '=' :: R.take 2) "?php".toList = true := fun hphp =>
          absurd (List.cons.inj (List.cons.inj (eq_of_beq hphp)).2).1 (by decide)
        exact (if_neg hphp).trans (if_pos rfl)
      have hstep : Mode.step '<' (['?', '='] ++ R) .html =
          .ok ⟨.blank, [.blank, .blank], .code⟩ := by
        rw [Mode.step, if_pos ⟨rfl, rfl⟩, hlength]
        rfl
      exact .step hstep (.known (.known (.done _ _)))
    · have hlength : tagRest (['?', c₁, c₂, c₃] ++ R) = 4 := by
        have hphp : eqIgnoreCase ['?', c₁, c₂, c₃] "?php".toList = true := by
          rw [eqIgnoreCase, List.map_cons, hphp]
          decide
        exact if_pos hphp
      have hstep : Mode.step '<' (['?', c₁, c₂, c₃] ++ R) .html =
          .ok ⟨.blank, [.blank, .blank, .blank, .blank], .code⟩ := by
        rw [Mode.step, if_pos ⟨rfl, rfl⟩, hlength]
        rfl
      exact .step hstep (.known (.known (.known (.known (.done _ _)))))
  exact hwalk.viewFrom_eq

/-- Text without a tag in front of an open tag is blanked, and code follows the tag. -/
theorem IsOpenTag.settles_upTo (ht : IsOpenTag t) (h : hasOpenTag A = false) :
    Settles .html (A ++ t) ((A ++ t).flatMap (Verdict.render · .blank)) .code := by
  induction A with
  | nil => exact ht.settles
  | cons c A ih =>
    intro R
    have htag : ¬ (c = '<' ∧ (A ++ t ++ R).head? = some '?') := by
      rintro ⟨rfl, hhead⟩
      cases A with
      | nil =>
        rw [List.nil_append, List.head?_append, ht.head?] at hhead
        exact absurd (Option.some.inj hhead) (by decide)
      | cons d A =>
        rw [hasOpenTag_cons_cons, Bool.or_eq_false_iff] at h
        obtain rfl : d = '?' := Option.some.inj hhead
        exact absurd h.1 (by decide)
    have hrest : hasOpenTag A = false := by
      cases A with
      | nil => rfl
      | cons d A =>
        rw [hasOpenTag_cons_cons, Bool.or_eq_false_iff] at h
        exact h.2
    rw [List.cons_append, List.cons_append, viewFrom_step, Mode.step, if_neg htag]
    dsimp only
    rw [ih hrest R]
    cases viewFrom [] .code R <;> simp [Except.map]

theorem isSpace_of_mem_blanked {x : Char} (h : x ∈ A.flatMap (Verdict.render · .blank)) :
    isSpace x = true := by
  obtain ⟨c, -, hx⟩ := List.mem_flatMap.mp h
  by_contra hspace
  have := (keep_of_mem_render hx (by simpa using hspace)).1
  cases this

/-- Behind the first tag of a text the text is code. -/
theorem codeOnLine_tag (hview : codeView doc.text = .ok doc.code) (htag : doc.openTag? = some tag)
    (hfirst : ∀ cut ∈ splitAtByte tag.start doc.text, hasOpenTag cut.1 = false) :
    CodeOnLine doc tag.stop (lineOf doc.text tag.start) := by
  obtain ⟨A, t, Y, htext, ht, rfl⟩ := exists_openTag htag
  have hA : hasOpenTag A = false := hfirst (A, t ++ Y) (htext ▸ splitAtByte_append A (t ++ Y))
  have hsettles := ht.settles_upTo hA
  have hmode : startMode doc.text = .html := by
    have htags : hasOpenTag (A ++ t) = true := hsettles.hasOpenTag
    rw [startMode, htext, ← List.append_assoc, hasOpenTag_append, htags]
    rfl
  rw [codeView_eq, hmode, htext, ← List.append_assoc, hsettles Y, map_ok_iff] at hview
  obtain ⟨y, hy, hcode⟩ := hview
  have hplace := (Run.of_space fun _ => isSpace_of_mem_blanked (A := A ++ t)).importPlace
  have hbreaks : '\n' ∉ t := fun hmem => by
    rcases ht with ht | rfl
    · have : foldLetter '\n' ∈ "<?php".toList := ht ▸ List.mem_map_of_mem hmem
      exact absurd this (by decide)
    · exact absurd hmem (by decide)
  have hne : t ≠ [] := fun hnil => by
    have := ht.head?
    rw [hnil] at this
    cases this
  refine ⟨A ++ t, Y, _, y,
    ⟨by rw [htext, List.append_assoc], hcode.symm, hmode ▸ hsettles, hy, hplace.opens,
    hplace.level⟩, byteLength_append A t, ?_, t.getLast hne, ?_, ?_⟩
  · rw [htext, lineOf_append, breaks_append, breaks_eq_zero hbreaks]
    rfl
  · rw [List.getLast?_append, List.getLast?_eq_some_getLast hne]
    rfl
  · exact fun heq => hbreaks (heq ▸ List.getLast_mem hne)

/-! ## Clear places -/

/-- What a new import goes behind is on one line, the rest of that line leaves nothing open, and the
white space that the import is indented with is ASCII. -/
structure ClearPlace (doc : Document) : Prop where
  behindImport : ∀ last ∈ lastImport? doc.declarations doc.namespaceStop,
    ¬ InHeredoc (startMode doc.text) doc.text (last.statement.stop - 1) ∧
    ClosedBehind doc.text last.statement.stop ∧
    ∀ c ∈ indentation (lineText doc.text (lineOf doc.text last.statement.start)), isSpace c = true
  behindNamespace : ∀ n ∈ doc.ownNamespace?,
    (∀ d ∈ doc.declarations, d.statement.start < n.statement.stop) →
    lineOf doc.text n.statement.start = lineOf doc.text (n.statement.stop - 1) ∧
    doc.importRegions.any (·.contains n.statement.start) = true ∧
    ¬ InHeredoc (startMode doc.text) doc.text (n.statement.stop - 1) ∧
    ClosedBehind doc.text n.statement.stop ∧
    (isBlankText (lineText doc.text (lineOf doc.text n.statement.start + 1)) = true →
      ∀ c ∈ lineText doc.text (lineOf doc.text n.statement.start + 1), isSpace c = true) ∧
    (n.braced = true → ∀ c ∈ nextIndent doc.text (lineOf doc.text n.statement.start + 1),
      isSpace c = true)
  behindTag : doc.declarations = [] → doc.ownNamespace? = none → ∀ tag ∈ doc.openTag?,
    (∀ cut ∈ splitAtByte tag.start doc.text, hasOpenTag cut.1 = false) ∧
    ClosedBehind doc.text tag.stop
  inFront : doc.declarations = [] → doc.ownNamespace? = none → doc.openTag? = none →
    hasOpenTag doc.text = false

/-- A statement lands behind a namespace declaration, if its line leaves nothing open. -/
theorem CodeOnLine.lands_behind_namespace
    (h : CodeOnLine doc n.statement.stop (lineOf doc.text n.statement.start))
    (hclosed : ClosedBehind doc.text n.statement.stop)
    (hblank : isBlankText (lineText doc.text (lineOf doc.text n.statement.start + 1)) = true →
      ∀ c ∈ lineText doc.text (lineOf doc.text n.statement.start + 1), isSpace c = true)
    (hindent : n.braced = true → ∀ c ∈ nextIndent doc.text (lineOf doc.text n.statement.start + 1),
      isSpace c = true) (d : Declaration) :
    Lands doc (insertAfterNamespace doc.text n d.plainStatement) := by
  have hbreak := isSpace_lineBreak doc.text
  unfold insertAfterNamespace
  dsimp only
  generalize lineOf doc.text n.statement.start = line at h hblank hindent ⊢
  have hI : ∀ c ∈ (if n.braced then String.ofList (nextIndent doc.text (line + 1)) else "").toList,
      isSpace c = true := fun c hc => by
    split at hc
    · rename_i hbraced
      rw [String.toList_ofList] at hc
      exact hindent hbraced c hc
    · cases hc
  split
  · rename_i hnext
    rw [Bool.and_eq_true, decide_eq_true_eq, lineCount_eq] at hnext
    -- the blank line in front of the statement is there already
    obtain ⟨P, Q, p, q, hbehind, hstart, hbreaks⟩ := h.next hclosed (by omega)
    have hspace : ∀ c ∈ throughBreak Q, isSpace c = true := by
      have hline := hblank hnext.2
      rw [hbehind.text, lineText, ← hbreaks, fromLine_append hstart] at hline
      exact isSpace_of_mem_throughBreak hline
    rw [← hbreaks] at hI ⊢
    have hlands : ∀ gap, _ := fun gap => hbehind.lands hspace d hI (lineBreak doc.text ++ gap)
    simp only [← String.append_assoc] at hlands
    exact hlands _
  · have hW : ∀ c ∈ (lineBreak doc.text ++
        if n.braced then String.ofList (nextIndent doc.text (line + 1)) else "").toList,
          isSpace c = true :=
      fun c hc => by
        rw [String.toList_append] at hc
        exact (List.mem_append.mp hc).elim (hbreak c) (hI c)
    have hlands : ∀ gap, _ := fun gap => h.lands hclosed d hW (lineBreak doc.text ++ gap)
    simp only [← String.append_assoc] at hlands ⊢
    exact hlands _

/-- **A new import lands in code**, if its place is clear. -/
theorem lands_of_clearPlace (hview : codeView doc.text = .ok doc.code) (h : ClearPlace doc)
    (d : Declaration) : Lands doc (insertionEdit doc doc.analyze d.plainStatement) := by
  have hplaced := placedAt_insertionEdit doc d.plainStatement
  generalize insertionEdit doc doc.analyze d.plainStatement = e at hplaced ⊢
  cases hplaced with
  | @behindImport last hlast =>
    have hmem : last ∈ doc.declarations := by
      rcases lastImport?_cases doc.declarations doc.namespaceStop with ⟨hnone, -⟩ | ⟨l, hl, hmem, -⟩
      · rw [hnone] at hlast
        cases hlast
      · obtain rfl := Option.some.inj (hl.symm.trans hlast)
        exact hmem
    obtain ⟨hno, hclosed, hindent⟩ := h.behindImport last hlast
    refine (codeOnLine_import hview hmem hno).lands hclosed d (fun c hc => ?_) _
    rw [String.toList_ofList] at hc
    exact hindent c hc
  | @behindNamespace n hn hbefore =>
    obtain ⟨hline, hlevel, hno, hclosed, hblank, hindent⟩ := h.behindNamespace n hn hbefore
    have hcode := codeOnLine_namespace hview hn hlevel hno
    rw [← hline] at hcode
    exact hcode.lands_behind_namespace hclosed hblank hindent d
  | @behindTag tag hnil hn htag =>
    obtain ⟨hfirst, hclosed⟩ := h.behindTag hnil hn tag htag
    have hlands := (codeOnLine_tag hview htag hfirst).lands hclosed d (I := "") (by simp)
      (lineBreak doc.text)
    rwa [String.empty_append] at hlands
  | inFront hnil hn htag =>
    have hmode : startMode doc.text = .code := by
      rw [startMode, h.inFront hnil hn htag]
      rfl
    have hstart : CodeBehind doc [] doc.text [] doc.code :=
      ⟨rfl, rfl, hmode ▸ Settles.nil _, hmode ▸ hview, opens_nil, rfl⟩
    refine hstart.lands_at (W := []) rfl
      ⟨'s' :: 'e' :: (plainBody d ++ [';']) ++ (lineBreak doc.text).toList, ?_⟩ (by simp)
    simp [Edit.insert, toList_plainStatement]

/-! ## Declarations over a line end -/

/-- What stands in front of a line and a character on it that is not blank make a line with text. -/
theorem not_isBlankText_lineText (he : isStop e = true) :
    isBlankText (lineText (A ++ e :: B) (breaks A)) = false := by
  have hvisible : isBlank e = false ∧ e ≠ '\n' ∧ e ≠ '\r' := by
    rcases isStop_cases he with rfl | rfl | rfl <;> decide
  obtain ⟨hblank, hbreak, hreturn⟩ := hvisible
  have hline : '\n' ∉ lead A ++ [e] := by
    rw [List.mem_append, List.mem_singleton, not_or]
    exact ⟨not_mem_lead A, fun heq => hbreak heq.symm⟩
  have hsplit : lead A ++ e :: B = (lead A ++ [e]) ++ B := by simp
  rw [append_eq_lead, lineText, ← breaks_upToLead, fromLine_append (atLineStart_upToLead A), hsplit,
    firstLine_append hline (by simpa using hreturn), Bool.eq_false_iff]
  intro hall
  rw [isBlankText_iff.mp hall e (by simp)] at hblank
  cases hblank

/-- **A namespace declaration that goes over a line end gets the new import inside**, if no import
comes behind it. -/
theorem inside_namespace (hview : codeView doc.text = .ok doc.code)
    (hn : doc.ownNamespace? = some n)
    (hbefore : ∀ d ∈ doc.declarations, d.statement.start < n.statement.stop)
    (hlines : lineOf doc.text n.statement.start ≠ lineOf doc.text (n.statement.stop - 1))
    (statement : String) :
    n.statement.start < (insertionEdit doc doc.analyze statement).span.start ∧
      (insertionEdit doc doc.analyze statement).span.start < n.statement.stop := by
  obtain ⟨A, e, B, htext, he, hstop, hlt⟩ := exists_namespaceStop hview hn
  have hend : byteLength A < byteLength doc.text := by
    rw [htext, byteLength_append, byteLength_cons]
    have := e.utf8Size_pos
    omega
  have hlineA : lineOf doc.text (byteLength A) = breaks A := by rw [htext, lineOf_append]
  rw [hstop, Nat.add_sub_cancel] at hlines
  have hlater : lineOf doc.text n.statement.start < lineOf doc.text (byteLength A) :=
    Nat.lt_of_le_of_ne (lineOf_le (Nat.le_of_lt hlt) hend) hlines
  -- every line start behind the first line of the declaration and up to its last one is inside of
  -- it
  have hinside : ∀ line content, lineOf doc.text n.statement.start ≤ line →
      line < lineOf doc.text (byteLength A) →
      n.statement.start < (insertAfterLine doc.text line content).span.start ∧
        (insertAfterLine doc.text line content).span.start < n.statement.stop :=
          fun line content hle hline => by
    rw [insertAfterLine_span, hstop]
    exact ⟨lt_lineStart (Nat.lt_trans hlt hend) (by omega), Nat.lt_succ_of_le (lineStart_le hline)⟩
  have hplaced := placedAt_insertionEdit doc statement
  generalize insertionEdit doc doc.analyze statement = edit at hplaced ⊢
  cases hplaced with
  | @behindImport last hlast =>
    have hnone : lastImport? doc.declarations doc.namespaceStop = none := by
      rcases lastImport?_cases doc.declarations doc.namespaceStop with ⟨hnone, -⟩ |
          ⟨l, -, hmem, hle, -⟩
      · exact hnone
      · rw [Document.namespaceStop, hn] at hle
        exact absurd hle (Nat.not_le.mpr (hbefore l hmem))
    rw [hnone] at hlast
    cases hlast
  | behindNamespace hn' =>
    obtain rfl := Option.some.inj (hn.symm.trans hn')
    dsimp only [insertAfterNamespace]
    split
    · rename_i hnext
      rw [Bool.and_eq_true] at hnext
      refine hinside _ _ (Nat.le_succ _) (Nat.lt_of_le_of_ne hlater fun heq => ?_)
      have hblank := hnext.2
      change lineOf doc.text n.statement.start + 1 = _ at heq
      rw [heq, hlineA, htext, not_isBlankText_lineText he] at hblank
      cases hblank
    · exact hinside _ _ (Nat.le_refl _) hlater
  | behindTag _ hn' => cases hn.symm.trans hn'
  | inFront _ hn' => cases hn.symm.trans hn'

/-! ## New imports are found -/

/-- **Importing a class imports it**: where the place of the new statement is clear, the class is
found to be imported under the planned name, and all that was imported still is. Where the namespace
declaration goes over a line end and no import comes behind it, the statement is put inside the
declaration. -/
theorem import_is_found {text : String} {doc : Document}
    (h : Document.ofString text = .ok doc) {f : String} (hf : IsName f.toList) {e : Edit}
    {aliasName : Option String} {n : String}
    (hplan : planImport doc doc.analyze f = .insert e aliasName n) :
    ((isKindWord f.toList = true → aliasName = none) → ClearPlace doc →
      FoundAgain text doc e f aliasName n) ∧
      ∀ ns ∈ doc.ownNamespace?, (∀ d ∈ doc.declarations, d.statement.start < ns.statement.stop) →
        lineOf doc.text ns.statement.start ≠ lineOf doc.text (ns.statement.stop - 1) →
          ns.statement.start < e.span.start ∧ e.span.start < ns.statement.stop := by
  obtain ⟨-, he, -⟩ := planImport_eq_insert hf hplan
  obtain ⟨code, hview, rfl⟩ := map_ok_iff.mp h
  refine ⟨fun hword hclear => ?_, fun ns hns hbefore hlines => ?_⟩
  · have hlands : Lands _ e := he ▸ lands_of_clearPlace hview hclear _
    exact hlands.foundAgain h hf hplan hword
  · rw [he]
    exact inside_namespace hview hns hbefore hlines _

/-- A text with a namespace in braces, in which the short name `Foo` is taken. -/
def bracedText : String :=
  "<?php\nnamespace N \x7b\n  use A\\Foo; // the first\n\n  new Foo;\n  echo <<<T\nx\nT;\n\x7d\n"

/-- The document of the text. -/
def bracedDocument : Document :=
  ⟨bracedText.toList,
    "     \nnamespace N \x7b\n  use A\\Foo;             \n\n  new Foo;\n  echo <<<T\n \nT;\n\x7d\n".toList⟩

/-- The import goes behind a comment, and no heredoc has begun there. -/
theorem clearPlace_braced : ClearPlace bracedDocument where
  behindImport := by
    intro last hlast
    have hfound : lastImport? bracedDocument.declarations bracedDocument.namespaceStop =
        some ⟨"A\\Foo", none, .cls, ⟨22, 32⟩, ⟨22, 32⟩, 2, none, false⟩ := by decide +kernel
    obtain rfl := Option.some.inj (hfound.symm.trans hlast)
    refine ⟨not_inHeredoc_of_knownAt (by decide +kernel), fun cut hcut => ?_, by decide +kernel⟩
    have hline : ∀ cut ∈ splitAtByte 32 bracedText.toList,
        cut.2.takeWhile (· ≠ '\n') = " // the first".toList := by decide +kernel
    have hspace := (Run.of_space (w := "             ".toList) (by decide)).importPlace
    rw [hline cut hcut]
    exact ⟨_, closes_of_walkOver (by decide +kernel) (by decide +kernel) hspace.opens hspace.level⟩
  behindNamespace := by
    intro n hn hbefore
    have hnone : ¬ ∀ n ∈ bracedDocument.ownNamespace?,
        ∀ d ∈ bracedDocument.declarations, d.statement.start < n.statement.stop := by decide +kernel
    refine (hnone fun n' hn' => ?_).elim
    obtain rfl := Option.some.inj (hn.symm.trans hn')
    exact hbefore
  behindTag hnil := absurd hnil (by decide +kernel)
  inFront hnil := absurd hnil (by decide +kernel)

/-- The import of a second `Foo` lands behind the first one, indented like that one, and is found
under its alias. -/
theorem import_is_found_aliased : ClearPlace bracedDocument ∧
    planImport bracedDocument bracedDocument.analyze "Lib\\Foo" =
      .insert (Edit.insert 46 "  use Lib\\Foo as LibFoo;\n") (some "LibFoo") "LibFoo" ∧
    FoundAgain bracedText bracedDocument (Edit.insert 46 "  use Lib\\Foo as LibFoo;\n") "Lib\\Foo"
      (some "LibFoo") "LibFoo" := by
  have hplan : planImport bracedDocument bracedDocument.analyze "Lib\\Foo" =
      .insert (Edit.insert 46 "  use Lib\\Foo as LibFoo;\n")
        (some "LibFoo") "LibFoo" := by decide +kernel
  obtain ⟨hfound, -⟩ := @import_is_found bracedText bracedDocument (by decide +kernel) "Lib\\Foo"
    ⟨by decide +kernel, by decide +kernel⟩ _ _ _ hplan
  exact ⟨clearPlace_braced, hplan, hfound (by decide +kernel) clearPlace_braced⟩

/-- A text in which the brace of the namespace stands on a line of its own. -/
def hangingText : String :=
  "<?php\nnamespace A\n\x7b\n\x7d\n"

/-- The document of the text. -/
def hangingDocument : Document :=
  ⟨hangingText.toList, "     \nnamespace A\n\x7b\n\x7d\n".toList⟩

/-- The statement lands between the name of the namespace and its brace, and what is planned next is
to import the class again. -/
theorem import_is_lost : Document.ofString hangingText = .ok hangingDocument ∧
    planImport hangingDocument hangingDocument.analyze "Lib\\Foo" =
      .insert (Edit.insert 18 "\nuse Lib\\Foo;\n\n") none "Foo" ∧
    ¬ FoundAgain hangingText hangingDocument (Edit.insert 18 "\nuse Lib\\Foo;\n\n") "Lib\\Foo"
      none "Foo" := by
  refine ⟨by decide +kernel, by decide +kernel, ?_⟩
  rintro ⟨text, doc, happlied, hdoc, hplan, -⟩
  have happlied' : applyEdits hangingText [Edit.insert 18 "\nuse Lib\\Foo;\n\n"] =
      .ok "<?php\nnamespace A\n\nuse Lib\\Foo;\n\n\x7b\n\x7d\n" := by decide +kernel
  obtain rfl := Except.ok.inj (happlied.symm.trans happlied')
  have hdoc' : Document.ofString "<?php\nnamespace A\n\nuse Lib\\Foo;\n\n\x7b\n\x7d\n" =
      .ok ⟨"<?php\nnamespace A\n\nuse Lib\\Foo;\n\n\x7b\n\x7d\n".toList,
        "     \nnamespace A\n\nuse Lib\\Foo;\n\n\x7b\n\x7d\n".toList⟩ := by decide +kernel
  obtain rfl := Except.ok.inj (hdoc.symm.trans hdoc')
  exact absurd hplan (by decide +kernel)

end UseImports
