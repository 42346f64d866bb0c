import UseImports.Proofs.Declaration.Grammar

/-!
# Rendered statements

Every text that is written by the grammar of import statements is read (`parse_use_statements`):
each of its statements declares what it says, clause by clause and in order, and its place is known.

* `BodyText.length`: the scan of a statement goes to its semicolon.
* `UseText.declared`: **a written statement declares what it says.**
* `Rendered`, `renderedText`, `renderedMeanings`: statements one behind the other.
* `declarations_rendered`: **every text written by the grammar is read as what it says.**
-/

namespace UseImports

open Cursor

variable {a : Option Identifier} {s : List Char} {st : UseStatement} {d : Declaration}
    {name : QualifiedName}

/-! ## The extent of a written statement -/

/-- The scan moves over the characters of clauses and over commas, and takes notice of words. -/
theorem statementLength?_chars {a : List Char} (ha : ∀ c ∈ a, isClauseChar c = true ∨ c = ',')
    (inBraces sawName : Bool) (b : List Char) :
    statementLength? inBraces sawName (a ++ b) =
      (statementLength? inBraces (sawName || a.any isWordChar) b).map (· + a.length) := by
  induction a generalizing sawName with
  | nil => simp
  | cons c a ih =>
    have hstep : scanStep inBraces sawName c = some (inBraces, sawName || isWordChar c) := by
      rcases ha c List.mem_cons_self with hc | rfl
      · have hne : ∀ x ∈ [',', ';', '{', '}'], c ≠ x := by
          rintro x hx rfl
          rw [not_isClauseChar hx] at hc
          cases hc
        simp only [List.mem_cons, List.not_mem_nil, or_false, forall_eq_or_imp, forall_eq] at hne
        by_cases hword : isWordChar c = true
        · have hslash : c ≠ '\\' := by
            rintro rfl
            exact absurd hword (by decide)
          have hspace : isSpace c = false := isSpace_of_not_isBlank (isBlank_of_isWordChar hword)
          simp [scanStep, hne, hslash, hspace, isIdentChar_of_isWordChar hword, hword]
        · have hgap : c = '\\' ∨ isSpace c = true := by simpa [isClauseChar, hword] using hc
          simp [scanStep, hne, hgap, hword]
      · cases sawName <;> rfl
    rw [List.cons_append, statementLength?_cons, hstep]
    dsimp only
    rw [ih (fun x hx => ha x (List.mem_cons_of_mem c hx)), Option.map_map,
      List.any_cons, Bool.or_assoc]
    congr 1

theorem QualifiedName.any_isWordChar (n : QualifiedName) (rooted : Bool) :
    (n.written rooted).any isWordChar = true := by
  have hmem : ∃ c ∈ n.text, isWordChar c = true := by
    have hbegins := n.isName.begins
    cases htext : n.text with
    | nil => exact absurd htext n.isName.ne_nil
    | cons c cs =>
      rw [htext] at hbegins
      exact ⟨c, List.mem_cons_self, isWordChar_of_isIdentStart hbegins⟩
  obtain ⟨c, hc, hword⟩ := hmem
  refine List.any_eq_true.mpr ⟨c, ?_, hword⟩
  cases rooted with
  | false => exact hc
  | true => exact List.mem_cons_of_mem _ hc

theorem ClauseList.any_isWordChar {cs : List UseClause} {t : List Char} (h : ClauseList cs t) :
    t.any isWordChar = true := by
  cases h with
  | @last c _ _ _ _ hc _ =>
    cases hc
    simp [c.name.any_isWordChar]
  | @cons c _ _ _ _ _ _ hc _ _ =>
    cases hc
    simp [c.name.any_isWordChar]

/-- **The scan of a written statement goes to its semicolon.** -/
theorem BodyText.length {s : UseStatement} {body : List Char} (h : BodyText s body) :
    statementLength? false false (body ++ [';']) = some body.length := by
  cases h with
  | @clauses kind first others g k t hg hk ht =>
    have hchar : ∀ c ∈ g ++ (k ++ t), isClauseChar c = true ∨ c = ',' := by
      intro c hc
      simp only [List.mem_append] at hc
      rcases hc with hc | hc | hc
      · exact .inl (isClauseChar_of_gap hg c hc)
      · exact .inl (hk.isClauseChar c hc)
      · exact ht.mem c hc
    rw [statementLength?_chars hchar, List.any_append, List.any_append, ht.any_isWordChar]
    simp [statementLength?]
  | @group kind rooted front members g k g' t e g'' hg hk hg' ht he hg'' =>
    have hfront : ∀ c ∈ g ++ (k ++ (front.written rooted ++ '\\' :: g')), isClauseChar c =
        true ∨ c = ',' := by
      intro c hc
      simp only [List.mem_append, List.mem_cons] at hc
      rcases hc with hc | hc | hc | rfl | hc
      · exact .inl (isClauseChar_of_gap hg c hc)
      · exact .inl (hk.isClauseChar c hc)
      · exact .inl (front.isClauseChar_written rooted c hc)
      · exact .inl rfl
      · exact .inl (isClauseChar_of_gap hg' c hc)
    have hinner : ∀ c ∈ t ++ e, isClauseChar c = true ∨ c = ',' := fun c hc =>
      (List.mem_append.mp hc).elim (ht.mem c) (he.mem c)
    have htail : ∀ c ∈ g'', isClauseChar c = true ∨ c = ',' := fun c hc =>
      .inl (isClauseChar_of_gap hg'' c hc)
    have htext :
        g ++ (k ++ (front.written rooted ++ '\\' :: (g' ++ '{' :: (t ++ (e ++ '}' :: g''))))) ++
        [';'] =
        (g ++ (k ++ (front.written rooted ++ '\\' :: g'))) ++
        ('{' :: ((t ++ e) ++ ('}' :: (g'' ++ [';'])))) := by
      simp
    have hword : (g ++ (k ++ (front.written rooted ++ '\\' :: g'))).any isWordChar = true := by
      simp [front.any_isWordChar]
    have hopen : ∀ cs, statementLength? false true ('{' :: cs) =
        (statementLength? true true cs).map (· + 1) :=
      fun _ => rfl
    have hclose : ∀ cs, statementLength? true true ('}' :: cs) =
        (statementLength? false true cs).map (· + 1) :=
      fun _ => rfl
    have hsemi : statementLength? false true [';'] = some 0 := rfl
    rw [htext, statementLength?_chars hfront, hword, Bool.or_true, hopen,
      statementLength?_chars hinner, Bool.true_or, hclose, statementLength?_chars htail,
      Bool.true_or, hsemi]
    simp only [Option.map_some, List.length_append, List.length_cons, Option.some.injEq]
    omega

/-! ## Written statements -/

theorem UseStatement.meanings_ne_nil (s : UseStatement) : s.meanings ≠ [] := by
  obtain ⟨kind, form⟩ := s
  cases form with
  | clauses first others => exact List.cons_ne_nil _ _
  | group rooted front members => exact fun h => members.ne_nil (List.map_eq_nil_iff.mp h)

/-- The keyword, the body and the semicolon of a written statement. -/
theorem UseText.exists_statementText (h : UseText st s) :
    ∃ body stop, StatementText s body stop ∧ BodyText st body := by
  cases h with
  | @mk w body hw hbody hhead =>
    have hend : atWordEnd ⟨w.reverse ++ [], body ++ [';']⟩ = true := by
      cases body with
      | nil => rfl
      | cons c body => exact congrArg (!·) hhead
    have hword : oneOf? ["use"] (atStart (w ++ (body ++ [';']))) =
        some ⟨w.reverse ++ [], body ++ [';']⟩ := by
      have := folded?_append hw [] (body ++ [';'])
      simp [oneOf?, atStart, this]
    refine ⟨body, ⟨w.reverse ++ [], body ++ [';']⟩, ⟨?_, rfl, hbody.length⟩, hbody⟩
    have hstart : (atStart (w ++ (body ++ [';']))).atWordStart = true := rfl
    rw [useKeyword?, keyword?, if_pos hstart, hword, Option.filter_some, if_pos hend]
    rfl

/-- **A written statement declares what it says**, and it is the statement of all that. -/
theorem UseText.declared (h : UseText st s) :
    IsStatement s ∧ (imports s).map (fun d => (d.meaning, d.statement)) =
      st.meanings.map fun m => (m, (⟨0, byteLength s⟩ : Span)) := by
  obtain ⟨body, stop, htext, hbody⟩ := h.exists_statementText
  have hmeanings : (statementImports (atStart s) stop).map Declaration.meaning = st.meanings := by
    rw [statementImports_eq, htext.statementBody]
    exact hbody.meanings_readBody _ _ _
  have hat : StatementAt s body stop := htext.statementAt_of_ne_nil fun hnil => by
    rw [hnil] at hmeanings
    exact st.meanings_ne_nil hmeanings.symm
  refine ⟨⟨body, stop, hat⟩, ?_⟩
  rw [← hmeanings, ← hat.imports, List.map_map]
  exact List.map_congr_left fun d hd => by rw [Function.comp_apply, hat.statement_eq hd]

/-- A statement opens neither a comment nor a string. -/
theorem IsStatement.isPlain (h : IsStatement s) : ∀ c ∈ s, UseImports.isPlain c = true := by
  intro c hc
  by_contra hplain
  rw [UseImports.isPlain, decide_eq_true_eq, not_not] at hplain
  have hforeign : ∀ x ∈ ['?', '/', '<', '#', '\x27', '\x22', '\x60'],
      (∀ b n, scanStep b n x = none) ∧ foldLetter x ∉ ['u', 's', 'e'] ∧ x ≠ ';' := by decide
  obtain ⟨hscan, hfold, hsemi⟩ := hforeign c hplain
  exact h.not_mem hscan hfold hsemi hc

/-! ## Texts of statements -/

/-- A written statement with the white space behind it. -/
structure Rendered where
  statement : UseStatement
  text : List Char
  gap : List Char
  written : UseText statement text
  isGap : IsGap gap

/-- Statements one behind the other. -/
def renderedText (items : List Rendered) : List Char :=
  items.flatMap fun i => i.text ++ i.gap

/-- What statements one behind the other declare, and in which place, if the first begins at the
offset. -/
def renderedMeanings : Nat → List Rendered → List ((String × Option String × ImportKind) × Span)
  | _, [] => []
  | n, i :: items =>
    i.statement.meanings.map (fun m => (m, ⟨n, n + byteLength i.text⟩)) ++
      renderedMeanings (n + byteLength i.text + byteLength i.gap) items

theorem isPlain_renderedText (items : List Rendered) :
    ∀ c ∈ renderedText items, isPlain c = true := by
  intro c hc
  obtain ⟨i, -, hc⟩ := List.mem_flatMap.mp hc
  rcases List.mem_append.mp hc with hc | hc
  · exact i.written.declared.1.isPlain c hc
  · exact isPlain_of_isSpace (i.isGap c hc)

/-- Statements one behind the other declare what they say. -/
theorem imports_renderedText (n : Nat) (items : List Rendered) :
    ((imports (renderedText items)).map (Declaration.shift n)).map
    (fun d => (d.meaning, d.statement)) =
      renderedMeanings n items := by
  induction items generalizing n with
  | nil => rfl
  | cons i items ih =>
    obtain ⟨hstatement, hdeclared⟩ := i.written.declared
    have hfirst : ((imports i.text).map (Declaration.shift n)).map (fun d =>
        (d.meaning, d.statement)) =
        i.statement.meanings.map fun m => (m, ⟨n, n + byteLength i.text⟩) := by
      have := congrArg (List.map fun x => (x.1, Span.shift n x.2)) hdeclared
      simpa [Function.comp_def, Declaration.shift, Declaration.meaning, Span.shift] using this
    have htext : renderedText (i :: items) = i.text ++ (i.gap ++ renderedText items) := by
      simp [renderedText]
    rw [htext, imports_append hstatement.importPlace,
      imports_append (Run.of_space i.isGap).importPlace,
      imports_of_isSpace i.isGap, List.nil_append, List.map_append, List.map_append, hfirst,
      Declaration.map_shift_shift,
      Declaration.map_shift_shift, ih]
    simp [renderedMeanings, Nat.add_assoc]

/-- The open tag is blanked, and code follows it. -/
theorem settles_openTag : Settles .html "<?php".toList "     ".toList .code := by
  intro R
  have hwalk : Walk R [] .html "<?php".toList "     ".toList [] .code := by
    refine .step (d := ⟨.blank, [.blank, .blank, .blank, .blank], .code⟩) rfl ?_
    exact .known (.known (.known (.known (.done _ _))))
  exact hwalk.viewFrom_eq

/-- The code of a text of statements behind an open tag. -/
theorem codeView_rendered {g : List Char} (hg : IsGap g) (items : List Rendered) :
    codeView ("<?php".toList ++ (g ++ renderedText items)) =
      .ok ("     ".toList ++ (g ++ renderedText items)) := by
  have hplain : ∀ c ∈ g ++ renderedText items, isPlain c = true := fun c hc =>
    (List.mem_append.mp hc).elim (fun hc => isPlain_of_isSpace (hg c hc))
    (isPlain_renderedText items c)
  have hmode : startMode ("<?php".toList ++ (g ++ renderedText items)) = .html := rfl
  rw [codeView_eq, hmode]
  exact (settles_openTag.append (settles_of_isPlain hplain)).viewFrom_eq

/-- The statement that a plain statement is: a list of one name. -/
def plainUse (kind : ImportKind) (name : QualifiedName) (a : Option Identifier) : UseStatement :=
  ⟨kind.keyword?.map fun _ => kind, .clauses ⟨none, false, name, a⟩ []⟩

theorem kindText_kindText (kind : ImportKind) :
    KindText (kind.keyword?.map fun _ => kind) (kindText kind) := by
  cases kind with
  | cls => exact .none
  | function => exact .some (k := "function".toList) ⟨"function", rfl, rfl⟩ isGap_space (by simp)
  | const => exact .some (k := "const".toList) ⟨"const", rfl, rfl⟩ isGap_space (by simp)

/-- **A plain statement is written by the grammar.** -/
theorem useText_plainStatement (hname : d.fqn.toList = name.text)
    (ha : d.aliasName.map String.toList = a.map Identifier.text) :
    UseText (plainUse d.kind name a) d.plainStatement.toList := by
  obtain ⟨t, halias, hclause⟩ : ∃ t, AliasText a t ∧ clauseText name.text (a.map Identifier.text) =
      name.text ++ t := by
    cases a with
    | none => exact ⟨[], .none, (List.append_nil _).symm⟩
    | some b =>
      exact ⟨_, .some (k := "as".toList) isGap_space (by simp) rfl isGap_space (by simp), rfl⟩
  have hlist : ClauseList [⟨none, false, name, a⟩] ([] ++ (([] ++ (name.text ++ t)) ++ [])) :=
    .last isGap_nil (.mk .none halias) isGap_nil
  have htext : d.plainStatement.toList =
      "use".toList ++
        (([' '] ++ (kindText d.kind ++ ([] ++ (([] ++ (name.text ++ t)) ++ [])))) ++ [';']) := by
    rw [toList_plainStatement, plainBody, hname, ha, hclause]
    simp
  rw [htext]
  exact .mk rfl (.clauses isGap_space (kindText_kindText d.kind) hlist) rfl

theorem meanings_plainUse (hname : d.fqn.toList = name.text)
    (ha : d.aliasName.map String.toList = a.map Identifier.text) :
    (plainUse d.kind name a).meanings = [d.meaning] := by
  have hfqn : String.ofList name.text = d.fqn := by rw [← hname, String.ofList_toList]
  have halias : a.map (fun b => String.ofList b.text) = d.aliasName := by
    have := congrArg (Option.map String.ofList) ha
    rw [Option.map_map, Option.map_map] at this
    simpa [Function.comp_def] using this.symm
  simp only [plainUse, UseStatement.meanings, UseStatement.meaningsWith, UseStatement.sharedKind,
    UseClause.meaning, List.map_cons, List.map_nil, List.nil_append, hfqn, halias,
    Declaration.meaning]
  cases d.kind <;> rfl

/-- **Every text written by the grammar is read as what it says**: clause by clause and in order,
each with the place of its statement. And plain statements are written by the grammar. -/
theorem declarations_rendered {g : List Char} (hg : IsGap g) (items : List Rendered) :
    (∃ doc, Document.ofText ("<?php".toList ++ (g ++ renderedText items)) = .ok doc ∧
      doc.declarations.map (fun d => (d.meaning, d.statement)) =
        renderedMeanings (5 + byteLength g) items) ∧
    ∀ (d : Declaration) (name : QualifiedName) (a : Option Identifier), d.fqn.toList = name.text →
      d.aliasName.map String.toList = a.map Identifier.text →
      ∃ s, UseText s d.plainStatement.toList ∧ s.meanings = [d.meaning] := by
  refine ⟨⟨⟨"<?php".toList ++ (g ++ renderedText items),
    "     ".toList ++ (g ++ renderedText items)⟩, ?_, ?_⟩,
    fun d name a hname ha => ⟨_, useText_plainStatement hname ha, meanings_plainUse hname ha⟩⟩
  · rw [Document.ofText, codeView_rendered hg]
    rfl
  · have hlead : IsGap ("     ".toList ++ g) := by
      have hspaces : ∀ c ∈ "     ".toList, isSpace c = true := by decide
      exact fun c hc => (List.mem_append.mp hc).elim (hspaces c) (hg c)
    have hoffset : byteLength ("     ".toList ++ g) = 5 + byteLength g := byteLength_append _ _
    have hunlined := declarations_unlined
      ⟨"<?php".toList ++ (g ++ renderedText items), "     ".toList ++ (g ++ renderedText items)⟩
    dsimp only at hunlined
    rw [← List.append_assoc "     ".toList, imports_append (Run.of_space hlead).importPlace,
      imports_of_isSpace hlead, List.nil_append, hoffset] at hunlined
    have hmeanings := imports_renderedText (5 + byteLength g) items
    rw [← hunlined, List.map_map] at hmeanings
    rw [← List.append_assoc "     ".toList]
    exact hmeanings

/-- Two names of one letter, for examples of statements. -/
def nameA : QualifiedName :=
  ⟨⟨['A'], ⟨by decide, by decide⟩, by decide⟩, []⟩

@[inherit_doc nameA]
def nameB : QualifiedName :=
  ⟨⟨['B'], ⟨by decide, by decide⟩, by decide⟩, []⟩

/-- A group with one member, which has an alias. -/
def memberB : Members :=
  ⟨[⟨none, false, nameB, some nameA.first⟩], by simp, by simp⟩

@[inherit_doc memberB]
def groupOfB : UseStatement :=
  ⟨some .const, .group true nameA memberB⟩

theorem useText_groupOfB : UseText groupOfB "use\nConst \\A\\ \x7bB AS\tA,\x7d;".toList := by
  have hkind : KindText (some .const) "Const ".toList :=
    .some (k := "Const".toList) ⟨"const", rfl, rfl⟩ isGap_space (by simp)
  have htab : IsGap ['\t'] := by decide
  have halias : AliasText (some nameA.first) " AS\tA".toList :=
    @AliasText.some nameA.first [' '] "AS".toList ['\t'] isGap_space (by simp) rfl htab (by simp)
  have hclause : ClauseText ⟨none, false, nameB, some nameA.first⟩ "B AS\tA".toList :=
    .mk (k := []) (a := " AS\tA".toList) .none halias
  have hmembers : ClauseList memberB.clauses "B AS\tA".toList :=
    @ClauseList.last _ [] _ [] isGap_nil hclause isGap_nil
  have hbody : BodyText groupOfB "\nConst \\A\\ \x7bB AS\tA,\x7d".toList :=
    @BodyText.group _ true nameA memberB ['\n'] _ [' '] "B AS\tA".toList [','] []
      (by decide) hkind isGap_space
      hmembers (.comma isGap_nil) isGap_nil
  exact .mk (w := "use".toList) rfl hbody rfl

/-- A group behind an open tag, and a plain statement. -/
theorem declarations_rendered_group :
    (∃ doc, Document.ofText "<?php use\nConst \\A\\ \x7bB AS\tA,\x7d;\n".toList = .ok doc ∧
      doc.declarations.map (fun d => (d.meaning, d.statement)) =
        [(("A\\B", some "A", .const), ⟨6, 30⟩)]) ∧
    ∃ s, UseText s "use function A as B;".toList ∧ s.meanings = [("A", some "B", .function)] :=
  ⟨(declarations_rendered isGap_space [⟨groupOfB, _, ['\n'], useText_groupOfB, by decide⟩]).1,
    (declarations_rendered isGap_space []).2 ⟨"A", some "B", .function, ⟨0, 0⟩, ⟨0, 0⟩, 0,
      none, false⟩ nameA (some nameB.first) rfl rfl⟩

/-- What is written is not always what is meant: a kind in front of the first clause is that of the
whole list, a group whose front is cut off from its backslash declares nothing, and a keyword
directly in front of a backslash is a part of the name. -/
theorem not_declared_as_written :
    (∃ s doc, UseText s "use function A, B;".toList ∧ s.kind = none ∧
      Document.ofText "<?php use function A, B;".toList = .ok doc ∧
      s.meaningsWith (s.kind.getD .cls) = [("A", none, .function), ("B", none, .cls)] ∧
      doc.declarations.map Declaration.meaning = [("A", none, .function), ("B", none, .function)]) ∧
    (∃ doc, Document.ofText "<?php use A \\\x7bB\x7d;".toList = .ok doc ∧ doc.declarations = []) ∧
    ∃ doc, Document.ofText "<?php use function\\A;".toList = .ok doc ∧
      doc.declarations.map Declaration.meaning = [("function\\A", none, .cls)] := by
  refine ⟨⟨⟨none, .clauses ⟨some .function, false, nameA, none⟩ [⟨none, false, nameB, none⟩]⟩, _,
    ?_, rfl, rfl, rfl, by decide⟩, ⟨_, rfl, by decide⟩, _, rfl, by decide⟩
  have hfirst : ClauseText ⟨some .function, false, nameA, none⟩ "function A".toList :=
    .mk (k := "function ".toList) (.some (k := "function".toList) ⟨"function", rfl,
      rfl⟩ isGap_space (by simp)) .none
  have hsecond : ClauseText ⟨none, false, nameB, none⟩ "B".toList := .mk (k := []) .none .none
  have hlist : ClauseList [⟨some .function, false, nameA, none⟩,
      ⟨none, false, nameB, none⟩] "function A, B".toList :=
    @ClauseList.cons _ _ [] _ [] " B".toList isGap_nil hfirst isGap_nil
      (@ClauseList.last _ [' '] _ [] isGap_space hsecond isGap_nil)
  exact .mk (w := "use".toList) rfl (@BodyText.clauses _ _ _ [' '] [] _ isGap_space .none hlist) rfl

end UseImports
