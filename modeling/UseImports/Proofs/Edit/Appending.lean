import UseImports.Proofs.Code.Visible
import UseImports.Proofs.Edit.Landing

/-!
# Appending to the imports

A new import goes behind the last one (`plan_import`). If that one begins its line and nothing but
ASCII white space stands behind it, the text is read as code behind it, whatever heredocs stand in
front: its semicolon can be seen, and it does not stand in the first line of a heredoc, since a
statement may begin where the import does. So the new statement is read as one, the new text imports
what the old one did and the new name behind it, and it refers to the same names.

* `OwnLines`: a statement that has its lines to itself.
* `exists_codeBehind_ownLine`: **behind such an import the text is code.**
* `exists_receives_behind_last`: a new import goes behind the last one, where it is read as one.
* `Receives.references`: a new statement leaves the references as they are.
* `appending_keeps_imports`: **a new import is appended to the others.**
-/

namespace UseImports

open Placed Cursor

variable {d last : Declaration} {A P p Q q S W Y : List Char} {doc : Document}

/-! ## Behind an import on its own lines -/

/-- The statement has its lines to itself, and the white space behind it is ASCII. -/
def OwnLines (cs : List Char) (s : Span) : Prop :=
  isAlone cs s = true ∧ ∀ cut ∈ splitAtByte s.stop cs, ∀ c ∈ firstLine cut.2, isSpace c = true

instance (cs : List Char) (s : Span) : Decidable (OwnLines cs s) :=
  inferInstanceAs (Decidable (isAlone cs s = true ∧
    ∀ cut ∈ splitAtByte s.stop cs, ∀ c ∈ firstLine cut.2, isSpace c = true))

section OwnLines

variable {m : Mode} {a s y : List Char}

/-- An import that begins its line does not end in the first line of a heredoc: an identifier would
stand in front of it. -/
theorem not_in_first_line {A₁ a₁ V : List Char} (hA : A ++ S = A₁ ++ '<' :: '<' :: '<' :: V)
    (ha : a ++ s = a₁ ++ '<' :: '<' :: '<' :: V) (hlength : byteLength a = byteLength A)
    (hsize : byteLength s = byteLength S) (hs : '<' ∉ s) (hopens : Opens a.reverse)
    (hlead : isBlankText (lead A) = true)
    (hV : ∀ P Q, V = P ++ '\n' :: Q → ∃ x ∈ P.getLast?, isIdentChar x = true) : False := by
  have hbrackets : ∀ X Z : List Char, X ++ '<' :: '<' :: '<' :: Z = (X ++ ['<', '<']) ++ '<' :: Z :=
    fun X Z => by simp
  rw [hbrackets] at hA ha
  -- the brackets stand in front of the import, in the view and in the text
  obtain ⟨v, rfl, rfl⟩ := exists_front_of_not_mem ha.symm hs
  have hfront : A ++ S = (A₁ ++ ['<', '<'] ++ '<' :: v) ++ s := by rw [hA]; simp
  have htotal := congrArg byteLength hfront
  rw [byteLength_append, byteLength_append] at htotal
  obtain ⟨rfl, rfl⟩ := append_eq_append_of_eq hfront (by omega)
  -- and in front of its line
  have hblank := isWhite_lead hlead
  have hsplit := upToLead_append_lead (A₁ ++ ['<', '<'] ++ '<' :: v)
  have hstart := atLineStart_upToLead (A₁ ++ ['<', '<'] ++ '<' :: v)
  generalize upToLead (A₁ ++ ['<', '<'] ++ '<' :: v) = P,
    lead (A₁ ++ ['<', '<'] ++ '<' :: v) = L at *
  obtain ⟨v, rfl, rfl⟩ := exists_front_of_not_mem hsplit.symm fun hmem =>
    absurd (hblank _ hmem).1 (by decide +kernel)
  have hlast := hstart.resolve_left (by simp)
  rw [List.getLast?_append_of_ne_nil _ (List.cons_ne_nil _ _), List.getLast?_eq_some_iff] at hlast
  obtain ⟨v₁, hv₁⟩ := hlast
  obtain ⟨v, rfl, rfl⟩ : ∃ v₂, v₁ = '<' :: v₂ ∧ v = v₂ ++ ['\n'] := by
    cases v₁ with
    | nil => cases hv₁
    | cons x v₂ =>
      obtain ⟨rfl, hv⟩ := List.cons.inj hv₁
      exact ⟨v₂, rfl, hv⟩
  obtain ⟨x, hx, hident⟩ := hV v (L ++ S) (by simp)
  -- what stands in front of the import is no white space and no stop
  have hview : a₁ ++ ['<', '<'] ++ '<' :: (v ++ ['\n'] ++ L) =
      (a₁ ++ ['<', '<', '<'] ++ v) ++ '\n' :: L := by
    simp
  rw [hview] at hopens
  have hspace := hopens.isSpace_of_blank fun c hc =>
    (List.mem_cons.mp hc).elim (fun heq => by rw [heq]; rfl)
    fun hc => (hblank c hc).1
  rcases (hopens.of_space hspace).endsPlain x
      (by rw [List.getLast?_append, Option.mem_def.mp hx]; rfl) with h | h
  · rw [(of_isIdentChar hident).2.1] at h
    cases h
  · rw [(not_opener_of_isStop h).2.2] at hident
    cases hident

variable (hview : viewFrom [] m (A ++ (S ++ Y)) = .ok (a ++ (s ++ y))) (hm : m.Proper)
  (hlength : byteLength a = byteLength A) (hs : IsStatement s) (hopens : Opens a.reverse)
  (hlead : isBlankText (lead A) = true)

include hview hm hlength hs hopens hlead

/-- The white space in front of an import that begins its line is ASCII. -/
theorem isSpace_of_mem_lead : ∀ c ∈ lead A, isSpace c = true := by
  -- the keyword can be seen
  obtain ⟨x, s', rfl, hx⟩ := hs.exists_letter
  obtain ⟨-, hspace, hquote, -⟩ := visible_of_foldLetter hx
  obtain ⟨A', B, known, m', htext, hwalk, hrest⟩ := exists_split_of_visible hview hspace
  obtain ⟨rfl, -⟩ := append_eq_append_of_eq htext (hlength.symm.trans hwalk.byteLength_eq)
  have hwhite := isWhite_lead hlead
  rw [← upToLead_append_lead A] at hwalk
  obtain ⟨I, K, b, hparts, hindent, rfl⟩ :=
    hwalk.exists_indent hm hrest hspace hquote (atLineStart_upToLead A) hwhite
  intro c hc
  rw [hparts] at hc
  rcases List.mem_append.mp hc with hc | hc
  · exact isSpace_of_isIndent (hindent c hc)
  · exact hopens.isSpace_of_blank (fun x hx =>
      (hwhite x (by rw [hparts]; exact List.mem_append_right I hx)).1) c hc

/-- **Behind an import that begins its line the text is code**, whatever heredocs stand in front of
it. -/
theorem settles_of_ownLine (hsize : byteLength s = byteLength S) (hlast : S.getLast? = some ';') :
    Settles m (A ++ S) (a ++ s) .code ∧ viewFrom [] .code Y = .ok y := by
  have hbracket : '<' ∉ s := hs.not_mem (by decide) (by decide) (by decide)
  obtain ⟨s, rfl⟩ := hs.exists_semicolon
  obtain ⟨S, rfl⟩ := List.getLast?_eq_some_iff.mp hlast
  have hsize' : byteLength s = byteLength S := by
    simp only [byteLength_append] at hsize
    omega
  have hview' : viewFrom [] m ((A ++ S) ++ (';' :: Y)) = .ok ((a ++ s) ++ ';' :: y) := by
    simpa using hview
  obtain ⟨known, m', hwalk, hrest⟩ :=
    exists_walk_to hview' (by simp only [byteLength_append]; omega)
  obtain ⟨rfl, rfl⟩ | ⟨A₁, a₁, V, hA, ha, hV⟩ := hwalk.cases_of_stop hm hrest (by decide)
  · have hstop : ∀ R, Mode.step ';' R .code = .ok ⟨.keep, [], .code⟩ := fun R => rfl
    constructor
    · intro R
      have hbreak : Walk R [] .code [';'] _ _ _ := .step (hstop R) (.done _ _)
      have hall := (hwalk.independent_of_stop (by decide) R).trans hbreak
      simpa [Verdict.render] using hall.viewFrom_eq
    · rw [viewFrom_step, hstop] at hrest
      obtain ⟨y', hy', heq⟩ := map_ok_iff.mp hrest
      obtain rfl : y' = y := (List.cons.inj heq).2
      exact hy'
  · refine (not_in_first_line hA ha hlength hsize' (fun hmem => hbracket ?_) hopens hlead hV).elim
    exact List.mem_append_left _ hmem

end OwnLines

section Behind

variable (hview : codeView doc.text = .ok doc.code)

include hview

/-- **Behind an import that begins its line the text is code.** -/
theorem exists_codeBehind_ownLine (hd : d ∈ doc.declarations)
    (hstretch : Stretch doc.text d.statement A S Y) (hlead : isBlankText (lead A) = true) :
    (∃ a y, CodeBehind doc (A ++ S) Y a y) ∧ ∀ c ∈ lead A, isSpace c = true := by
  obtain ⟨a, s, y, hcode, hs, hspan, hopens, hlevel⟩ := exists_statement_of_import hd
  have hspans := hstretch.span.symm.trans hspan
  have hlength : byteLength a = byteLength A := (congrArg Span.start hspans).symm
  have hsize : byteLength s = byteLength S := by
    have := congrArg Span.stop hspans
    dsimp only at this
    omega
  have hview' : viewFrom [] (startMode doc.text) (A ++ (S ++ Y)) = .ok (a ++ (s ++ y)) := by
    rw [← hstretch.text, ← hcode]
    exact hview
  have hm := Mode.proper_startMode doc.text
  obtain ⟨hsettles, hrest⟩ :=
    settles_of_ownLine hview' hm hlength hs hopens hlead hsize hstretch.last
  refine ⟨⟨a ++ s, y, ?_, ?_, hsettles, hrest, ?_, ?_⟩,
    isSpace_of_mem_lead hview' hm hlength hs hopens hlead⟩
  · rw [hstretch.text, List.append_assoc]
  · rw [hcode, List.append_assoc]
  · rw [List.reverse_append]
    exact hs.importPlace.opens.append hopens
  · rw [importLevel_back hopens hlevel]
    exact hs.importPlace.level

end Behind

/-! ## The last import -/

section Last

variable (hlast : doc.declarations.getLast? = some last)

include hlast

/-- No import ends behind the last one. -/
theorem apart_of_getLast? : ∀ d ∈ doc.declarations, d.statement = last.statement ∨
    d.statement.stop ≤ last.statement.start := by
  obtain ⟨front, hds⟩ := List.getLast?_eq_some_iff.mp hlast
  have hpairwise := declarations_pairwise doc
  rw [hds] at hpairwise
  intro d hd
  rw [hds] at hd
  rcases List.mem_append.mp hd with hd | hd
  · exact ((List.pairwise_append.mp hpairwise).2.2 d hd last List.mem_cons_self).1
  · exact .inl (by rw [List.mem_singleton.mp hd])

/-- A new import goes behind the last one, if that one comes behind the namespace declaration. -/
theorem exists_lastImport? {offset : Nat} (hle : offset ≤ last.statement.start) :
    ∃ d, lastImport? doc.declarations offset = some d ∧ d.statement = last.statement := by
  have hmem := List.mem_of_getLast? hlast
  rcases lastImport?_cases doc.declarations offset with ⟨-, hbefore⟩ | ⟨d, hd, hdmem, -, hmax⟩
  · exact absurd (hbefore last hmem) (Nat.not_lt.mpr hle)
  · refine ⟨d, hd, (apart_of_getLast? hlast d hdmem).resolve_right fun hstop => ?_⟩
    have := hmax last hmem hle
    have := span_inside hmem
    omega

end Last

/-- The indentation of the line on which an import begins is what stands in front of the import. -/
theorem mem_lead_of_mem_indentation {cs : List Char} {s : Span} (h : Stretch cs s A S Y) {c : Char}
    (hc : c ∈ indentation (lineText cs (breaks A))) : c ∈ lead A := by
  obtain ⟨x, S', rfl, hx⟩ := h.first
  have hline : fromLine cs (breaks A) = lead A ++ (x :: (S' ++ Y)) := by
    rw [h.text, append_eq_lead, ← breaks_upToLead, fromLine_append (atLineStart_upToLead A)]
    rfl
  rw [indentation, lineText, hline] at hc
  have hblank := List.mem_takeWhile_imp hc
  have hfront : (firstLine (lead A ++ (x :: (S' ++ Y)))).takeWhile isBlank <+: lead A ++
      (x :: (S' ++ Y)) :=
    (List.takeWhile_prefix _).trans (firstLine_isPrefix _)
  refine (List.prefix_of_prefix_length_le hfront (List.prefix_append _ _) ?_).subset hc
  -- the first character of the import is no white space
  by_contra hlong
  have hinside : lead A ++ [x] <+: (firstLine (lead A ++ (x :: (S' ++ Y)))).takeWhile isBlank :=
    List.prefix_of_prefix_length_le ⟨S' ++ Y, by simp⟩ hfront (by simp; omega)
  have := List.mem_takeWhile_imp (hinside.subset (List.mem_append_right _ List.mem_cons_self))
  rw [hx] at this
  cases this

/-- What is put in behind a line goes behind what stands on it. -/
theorem Receives.byteLength_le_of_insertAfterLine {content : String}
    (h : Receives doc (insertAfterLine doc.text (breaks A) content) P W Q p q)
    (htext : doc.text = A ++ Y) : byteLength A ≤ byteLength p := by
  have hstart := congrArg Span.start h.span
  have hlength := h.settles.byteLength_eq
  have hnext := nextLineStart_append A Y
  rw [← htext, nextLineStart] at hnext
  simp only [insertAfterLine_span, hnext, byteLength_append] at hstart hlength
  omega

/-- **A new import goes behind the last one**, where it is read as an import, if the last one comes
behind the namespace declaration and has its lines to itself. -/
theorem exists_receives_behind_last (hview : codeView doc.text = .ok doc.code)
    (hlast : doc.declarations.getLast? = some last)
    (hbehind : doc.namespaceStop ≤ last.statement.start) (hown : OwnLines doc.text last.statement)
    (d : Declaration) :
    ∃ P W Q p q, Receives doc (insertionEdit doc doc.analyze d.plainStatement) P W Q p q ∧
      ∀ x ∈ doc.declarations, x.statement.stop ≤ byteLength p := by
  have hmem := List.mem_of_getLast? hlast
  obtain ⟨A, S, Y, hstretch⟩ := (importRow_declarations hview).stretch last hmem
  obtain ⟨halone, hspaces⟩ := hown
  rw [hstretch.isAlone_eq, Bool.and_eq_true] at halone
  have hcut : splitAtByte last.statement.stop doc.text = some (A ++ S, Y) := by
    rw [hstretch.span, hstretch.text, ← List.append_assoc, ← byteLength_append]
    exact splitAtByte_append _ _
  obtain ⟨⟨a, y, hcode⟩, hlead⟩ := exists_codeBehind_ownLine hview hmem hstretch halone.1
  obtain ⟨l, hl, hsame⟩ := exists_lastImport? hlast hbehind
  have hlands := hcode.lands (isSpace_of_mem_throughBreak (hspaces _ hcut)) d
    (I := String.ofList (indentation (lineText doc.text (breaks A)))) (fun c hc => hlead c (by
      rw [String.toList_ofList] at hc
      exact mem_lead_of_mem_indentation hstretch hc)) (lineBreak doc.text)
  have hextent : lineExtent doc.text l.statement = (breaks A, breaks (A ++ S)) := by
    rw [hsame, hstretch.lineExtent_eq]
  have hplaced := placedAt_insertionEdit doc d.plainStatement
  generalize insertionEdit doc doc.analyze d.plainStatement = e at hplaced ⊢
  cases hplaced with
  | @behindImport l' hl' =>
    obtain rfl := Option.some.inj (hl.symm.trans hl')
    rw [hextent]
    obtain ⟨P, W, Q, p, q, hreceives⟩ := hlands
    refine ⟨P, W, Q, p, q, hreceives, fun x hx => ?_⟩
    have hplace := hreceives.byteLength_le_of_insertAfterLine hcode.text
    have hstop : last.statement.stop ≤ byteLength p := by
      rw [hstretch.span, ← byteLength_append]
      exact hplace
    have hinside := span_inside hmem
    rcases apart_of_getLast? hlast x hx with heq | hle
    · rwa [heq]
    · omega
  | @behindNamespace n hn hbefore =>
    have := hbefore last hmem
    rw [Document.namespaceStop, hn] at hbehind
    exact absurd this (Nat.not_lt.mpr hbehind)
  | behindTag hnil =>
    rw [hnil] at hmem
    cases hmem
  | inFront hnil =>
    rw [hnil] at hmem
    cases hmem

/-! ## The new text -/

section Appended

variable {e : Edit} (h : Receives doc e P W Q p q) (huncrossed : Uncrossed doc.code (byteLength p))

include h huncrossed

/-- What follows the place imports nothing, if all imports end in front of it. -/
theorem Receives.imports_eq_nil (hstops : ∀ d ∈ doc.declarations, d.statement.stop ≤ byteLength p) :
    imports q = [] := by
  have hdivides := divides_of_uncrossed h.opens h.level (h.code ▸ huncrossed)
  refine List.eq_nil_iff_forall_not_mem.mpr fun d hd => ?_
  have hmem : d.shift (byteLength p) ∈ imports doc.code := by
    rw [h.code, hdivides.apart]
    exact List.mem_append_right _ (List.mem_map_of_mem hd)
  obtain ⟨d', hd', hstatement⟩ := exists_import_eq hmem
  have hstop := hstops d' hd'
  have hinside := span_inside hd'
  rw [hstatement] at hstop hinside
  simp only [Declaration.shift, Span.shift] at hstop hinside
  omega

/-- **A new statement leaves the references as they are.** -/
theorem Receives.references (hd : d.WellNamed) (hkind : d.Legible) {Z : List Char}
    (hspace : ∀ c ∈ Z, isSpace c = true) {names : List String} (hne : "" ∉ names) :
    (allReferences (receivedDocument P W Q p q Z d).code names).map Reference.meaning =
      (allReferences doc.code names).map Reference.meaning := by
  have hstatement := hd.isStatement hkind
  have hbefore : RunBetween p [] q :=
    ⟨.nil, divides_of_uncrossed h.opens h.level (h.code ▸ huncrossed)⟩
  have hafter : RunBetween p (W ++ (d.plainStatement.toList ++ Z)) q := by
    refine ⟨(Run.of_space h.spaces).append (.statement hstatement (Run.of_space hspace)), ?_⟩
    simpa only [List.append_assoc] using divides_of_statement h.opens h.level h.spaces
      hstatement (Z ++ q)
  have hexchange := allReferences_exchange hne hbefore hafter
  rw [List.nil_append, ← h.code] at hexchange
  simpa only [receivedDocument, List.append_assoc] using hexchange

end Appended

/-- The names of the imported functions, told by the meanings of the declarations. -/
theorem mem_functionNames_iff {name : String} : name ∈ Retains.functionNames doc ↔
    ∃ m ∈ doc.declarations.map Declaration.meaning, m.2.2 = .function ∧
      m.2.1.getD (shortName m.1) = name := by
  rw [mem_names_iff]
  simp only [List.mem_map, exists_exists_and_eq_and]
  rfl

/-- **Appending to the imports**: if the last import comes behind the namespace declaration and has
its lines to itself, a new import is appended to the others, under its alias, and the text refers to
the same names as before. -/
theorem appending_keeps_imports {text : String} {doc : Document}
    (h : Document.ofString text = .ok doc) {last : Declaration}
    (hlast : doc.declarations.getLast? = some last)
    (hbehind : doc.namespaceStop ≤ last.statement.start)
    (hown : OwnLines doc.text last.statement) {f : String} (hf : IsName f.toList) {e : Edit}
    {aliasName : Option String} {n : String}
    (hplan : planImport doc doc.analyze f = .insert e aliasName n)
    (hword : isKindWord f.toList = true → aliasName = none) :
    ∃ text' doc', applyEdits text [e] = .ok text' ∧ Document.ofString text' = .ok doc' ∧
      doc'.declarations.map Declaration.meaning =
        doc.declarations.map Declaration.meaning ++ [(f, aliasName, .cls)] ∧
      doc'.analyze.references.map Reference.meaning =
        doc.analyze.references.map Reference.meaning := by
  obtain ⟨code, hcode, rfl⟩ := map_ok_iff.mp h
  obtain ⟨-, he, -, hnamed⟩ := planImport_eq_insert hf hplan
  have hlegible : (newImport f aliasName).Legible := fun _ => hword
  obtain ⟨P, W, Q, p, q, hplace, hstops⟩ :=
    exists_receives_behind_last hcode hlast hbehind hown (newImport f aliasName)
  rw [← he] at hplace
  obtain ⟨Z, hZ, hspace⟩ := hplace.exists_behind he
  have happlied := hplace.applied hZ
  rw [String.ofList_toList] at happlied
  have huncrossed := hplace.uncrossed hcode he
  -- nothing is imported behind the place
  obtain ⟨hbefore, hafter⟩ := hplace.meanings huncrossed hnamed hlegible hspace
  rw [hplace.imports_eq_nil huncrossed hstops] at hbefore hafter
  rw [List.map_nil, List.append_nil] at hbefore
  rw [← hbefore] at hafter
  refine ⟨_, receivedDocument P W Q p q Z (newImport f aliasName), happlied, ?_, hafter, ?_⟩
  · rw [Document.ofString, Document.ofText, String.toList_ofList, hplace.view hnamed hspace he]
    rfl
  · -- the new import is no function
    have hne := empty_not_mem_functionNames ⟨text.toList, code⟩
    have hnames : ∀ name,
        name ∈ Retains.functionNames (receivedDocument P W Q p q Z (newImport f aliasName)) ↔
        name ∈ Retains.functionNames ⟨text.toList, code⟩ := fun name => by
      rw [mem_functionNames_iff, mem_functionNames_iff, hafter]
      simp [newImport, Declaration.meaning]
    have hreferences : ∀ d : Document, d.analyze.references =
        allReferences d.code (Retains.functionNames d) :=
      fun d => references_eq_allReferences d _
    rw [hreferences, hreferences, allReferences_congr hne hnames]
    exact hplace.references huncrossed hnamed hlegible hspace hne

/-- A text whose last import begins with the identifier that closes a heredoc, and ends the text. -/
def closedByImportText : String :=
  "<?php\necho <<<use ;\nbody\n  use A\\Foo,\n    B;"

/-- The document of the text. -/
def closedByImportDocument : Document :=
  ⟨closedByImportText.toList, "     \necho <<<use ;\n    \n  use A\\Foo,\n    B;".toList⟩

/-- The last import of the text. -/
def closingImport : Declaration where
  fqn := "B"
  aliasName := none
  kind := .cls
  span := ⟨42, 43⟩
  statement := ⟨27, 44⟩
  line := 4
  groupPrefix := none
  sharesStatement := true

/-- The import of a second `Foo` is appended on a line of its own, indented like the last import. -/
theorem appending_keeps_imports_closing :
    closedByImportDocument.declarations.getLast? = some closingImport ∧
    OwnLines closedByImportDocument.text closingImport.statement ∧
    planImport closedByImportDocument closedByImportDocument.analyze "Lib\\Foo" =
      .insert (Edit.insert 44 "\n  use Lib\\Foo as LibFoo;\n") (some "LibFoo") "LibFoo" ∧
    ∃ text' doc', applyEdits closedByImportText [Edit.insert 44 "\n  use Lib\\Foo as LibFoo;\n"] =
      .ok text' ∧
      Document.ofString text' = .ok doc' ∧
      doc'.declarations.map Declaration.meaning =
        closedByImportDocument.declarations.map Declaration.meaning ++
          [("Lib\\Foo", some "LibFoo", .cls)] ∧
      doc'.analyze.references.map Reference.meaning =
        closedByImportDocument.analyze.references.map Reference.meaning := by
  have hlast : closedByImportDocument.declarations.getLast? = some closingImport := by
    decide +kernel
  have hown : OwnLines closedByImportDocument.text closingImport.statement := by decide +kernel
  have hplan : planImport closedByImportDocument closedByImportDocument.analyze "Lib\\Foo" =
      .insert (Edit.insert 44 "\n  use Lib\\Foo as LibFoo;\n")
        (some "LibFoo") "LibFoo" := by decide +kernel
  refine ⟨hlast, hown, hplan, ?_⟩
  exact @appending_keeps_imports closedByImportText closedByImportDocument
    (by decide +kernel) _ hlast
    (by decide +kernel) hown "Lib\\Foo" ⟨by decide +kernel, by decide +kernel⟩ _ _ _ hplan
    (by decide +kernel)

end UseImports
