import UseImports.Proofs.Declaration.Structure
import UseImports.Proofs.Edit.Removal
import UseImports.Proofs.Resolution

/-!
# Convergence of removal

When the imports that nothing uses are taken out of a document (`plan_removal`), the others stay,
and so does what the document refers to. So everything that is left is used, and removal has come to
its end after one step. Of the others only a class whose plain statement is not legible may be lost;
if its name is a reserved word, nothing depends on it.

* `mem_unused_iff`, `contains_unused`: the imports that nothing uses, told apart by their spans.
* `Orderly`: the documents for which this holds, and `Regular`: those that are so for simple
  reasons.
* `Removed`, `Orderly.exists_removed`: what removal makes of such a document.
* `Removed.references`, `Removed.unused`, `Removed.retains`: what stays.
* `removal_converges`: **afterwards everything is used.**
* `removal_preserves`: **nothing else changes.**
-/

namespace UseImports

variable {d e : Declaration} {doc doc' : Document} {m : Mode} {code T X Y y : List Char}
    {kind : ImportKind} {fqn name text : String}

/-! ## Unused declarations -/

theorem isUnused_of_meaning_eq (h : d.meaning = e.meaning) (classes functions : List String) :
    isUnused classes functions d = isUnused classes functions e := by
  simp only [Declaration.meaning, Prod.mk.injEq] at h
  obtain ⟨hfqn, -, hkind⟩ := h
  simp only [isUnused, hfqn, hkind]

theorem mem_unused_iff :
    d ∈ doc.analyze.unused ↔ d ∈ doc.declarations ∧ doc.analyze.isUsed d = false := by
  have hunused : doc.analyze.unused =
      findUnused doc.declarations doc.analyze.usedClasses doc.analyze.usedFunctions := rfl
  rw [hunused, findUnused, List.mem_mergeSort, List.mem_filter, Analysis.isUsed, Bool.not_eq_false']

theorem unused_eq_nil_iff :
    doc.analyze.unused = [] ↔ ∀ d ∈ doc.declarations, doc.analyze.isUsed d = true := by
  rw [List.eq_nil_iff_forall_not_mem]
  refine forall_congr' fun d => ?_
  rw [mem_unused_iff, not_and, Bool.not_eq_false]

/-- Declarations of a document are told apart by their spans. -/
theorem eq_of_span_eq (hd : d ∈ doc.declarations) (he : e ∈ doc.declarations) (h : d.span = e.span)
    : d = e := by
  by_contra hne
  have hapart : doc.declarations.Pairwise fun a b => a.span ≠ b.span :=
    (declarations_pairwise doc).imp_of_mem fun ha _ hab heq => by
      have hinside := span_inside ha
      have hbehind := hab.2
      rw [heq] at hinside hbehind
      omega
  have : Std.Symm fun a b : Declaration => a.span ≠ b.span := ⟨fun _ _ => Ne.symm⟩
  exact hapart.forall hd he hne h

theorem contains_unused (hd : d ∈ doc.declarations) :
    (!(doc.analyze.unused.map (·.span)).contains d.span) = doc.analyze.isUsed d := by
  have hiff : (doc.analyze.unused.map (·.span)).contains d.span = true ↔
      doc.analyze.isUsed d = false := by
    rw [List.contains_iff_mem, List.mem_map]
    constructor
    · rintro ⟨e, he, hspan⟩
      obtain ⟨he, hunused⟩ := mem_unused_iff.mp he
      rwa [eq_of_span_eq hd he hspan.symm]
    · exact fun hunused => ⟨d, mem_unused_iff.mpr ⟨hd, hunused⟩, rfl⟩
  cases hused : doc.analyze.isUsed d with
  | false => rw [hiff.mpr hused]; rfl
  | true =>
    rw [Bool.not_eq_true', Bool.eq_false_iff]
    intro hcontains
    rw [hiff.mp hcontains] at hused
    cases hused

/-! ## Orderly documents -/

/-- A document whose imports can be told apart whatever becomes of the others: every import stands
outside of heredocs and between ASCII white space, behind the end of the imports in front of it, and
not directly behind an open tag that may be longer. -/
structure Orderly (doc : Document) : Prop where
  outside : OutsideHeredocs (startMode doc.text) doc.text doc.code
  spaced : ∀ d ∈ imports doc.code, PlainlySpaced doc.text d.statement
  finished : importsFinished doc.code = true
  notBehindTag : NotBehindTag doc.text doc.code

instance (T : List Char) (statement : Span) : Decidable (PlainlySpaced T statement) :=
  decidable_of_iff ((∀ c ∈ indentation (lineText T (lineOf T statement.start)), isSpace c = true) ∧
      ∀ cut ∈ splitAtByte statement.stop T, ∀ c ∈ indentation (firstLine cut.2), isSpace c = true)
    ⟨fun h => ⟨h.1, h.2⟩, fun h => ⟨h.before, h.behind⟩⟩

/-- No heredoc reaches over an import in front of which nothing is known ahead. -/
theorem outsideHeredocs_of_knownAt
    (h : ∀ d ∈ imports y, ∃ cut ∈ splitAtByte d.statement.start Y, knownAt m cut.1 cut.2 = .ok []) :
    OutsideHeredocs m Y y :=
  fun d hd => not_inHeredoc_of_knownAt (h d hd)

/-- A document without heredocs and without white space but ASCII, with every import behind the end
of the imports in front of it and not directly behind an open tag that may be longer. -/
structure Regular (doc : Document) : Prop where
  clean : Clean doc.text
  finished : importsFinished doc.code = true
  notBehindTag : NotBehindTag doc.text doc.code

instance (X : List Char) : Decidable (Clean X) :=
  decidable_of_iff ((¬ ['<', '<', '<'] <:+: X) ∧ ∀ c ∈ X, isBlank c = true → isSpace c = true)
    ⟨fun h => ⟨h.1, h.2⟩, fun h => ⟨h.noHeredoc, h.spaces⟩⟩

theorem notBehindTag_iff : NotBehindTag Y y ↔
    ∀ d ∈ imports y, ∀ cut ∈ splitAtByte d.statement.start Y, ¬ ['<', '?'] <:+ cut.1 := by
  constructor
  · intro h d hd cut hcut
    obtain ⟨G, Z⟩ := cut
    exact h d hd G Z (append_of_splitAtByte hcut).symm (byteLength_of_splitAtByte hcut)
  · intro h d hd G Z hY hlen
    exact h d hd (G, Z) (by rw [← hlen, hY]; exact splitAtByte_append G Z)

instance (Y y : List Char) : Decidable (NotBehindTag Y y) :=
  decidable_of_iff _ notBehindTag_iff.symm

instance (doc : Document) : Decidable (Regular doc) :=
  decidable_of_iff (Clean doc.text ∧ importsFinished doc.code = true ∧
    NotBehindTag doc.text doc.code)
    ⟨fun h => ⟨h.1, h.2.1, h.2.2⟩, fun h => ⟨h.clean, h.finished, h.notBehindTag⟩⟩

/-- Indentation is taken from the text. -/
theorem Clean.isSpace_of_mem_indentation (h : Clean T) {l : Nat} {c : Char}
    (hc : c ∈ indentation (lineText T l)) : isSpace c = true := by
  obtain ⟨P, htext, -⟩ := exists_fromLine T l
  refine h.spaces c ?_ (List.mem_takeWhile_imp hc)
  rw [htext]
  exact List.mem_append_right _
    ((firstLine_isPrefix _).subset ((List.takeWhile_prefix _).subset hc))

theorem Clean.plainlySpaced (h : Clean T) (statement : Span) :
    PlainlySpaced T statement where
  before _ hc := h.isSpace_of_mem_indentation hc
  behind cut hcut c hc := by
    refine h.spaces c ?_ (List.mem_takeWhile_imp hc)
    rw [← append_of_splitAtByte hcut]
    exact List.mem_append_right _
      ((firstLine_isPrefix _).subset ((List.takeWhile_prefix _).subset hc))

theorem Regular.orderly (h : Regular doc) : Orderly doc where
  outside _ _ := h.clean.noHeredoc.not_inHeredoc _ _
  spaced d _ := h.clean.plainlySpaced d.statement
  finished := h.finished
  notBehindTag := h.notBehindTag

/-- The second document is the first one without the imports that nothing uses, and perhaps without
some that are not legible. -/
structure Removed (doc doc' : Document) : Prop where
  view : codeView doc'.text = .ok doc'.code
  applied : applyEdits (String.ofList doc.text) (planRemoval doc.text doc.analyze) =
    .ok (String.ofList doc'.text)
  clean : Clean doc.text → Clean doc'.text
  meanings : Thinned isLegible
    ((doc.declarations.filter doc.analyze.isUsed).map Declaration.meaning)
    (doc'.declarations.map Declaration.meaning)
  exchanged : Exchanged doc.code doc'.code
  classes : 'ſ' ∉ doc.text → doc'.declaredClasses = doc.declaredClasses

theorem startMode_eq_of_tags {X' : List Char}
    (huntagged : hasOpenTag X = false → hasOpenTag X' = false)
    (htagged : startMode X = .html → hasOpenTag X = true → hasOpenTag X' = true) :
    startMode X' = startMode X := by
  unfold startMode at htagged ⊢
  cases h : hasOpenTag X with
  | false => rw [huntagged h]
  | true =>
    rw [h] at htagged
    rw [htagged rfl rfl]

theorem Layout.map_meaning {x : List Char} {ps : List Piece} (h : Layout m X x ps)
    (text : List Char) :
    (Document.mk text x).declarations.map Declaration.meaning = pieceMeanings ps := by
  have hshift := congrArg (List.map Declaration.meaning) (h.imports_eq 0)
  rw [Declaration.map_shift_zero, map_meaning_declarationsAt] at hshift
  exact (map_meaning_declarations ⟨text, x⟩).trans hshift

theorem Orderly.exists_removed (h : Orderly doc) (hview : codeView doc.text = .ok doc.code) :
    ∃ doc', Removed doc doc' := by
  obtain ⟨ps, hlayout⟩ := exists_layout hview (Mode.proper_startMode _)
    (tidy_of_importsFinished h.finished) h.outside
    h.notBehindTag
  by_cases hnone : doc.analyze.unused = []
  · have hall := unused_eq_nil_iff.mp hnone
    have hkeep : doc.declarations.filter doc.analyze.isUsed = doc.declarations :=
      List.filter_eq_self.mpr hall
    refine ⟨doc, hview, ?_, id, by rw [hkeep]; exact .refl _, .refl _, fun _ => rfl⟩
    rw [planRemoval, hnone]
    exact (Patched.done 0 doc.text).applyEdits .nil
  · have himports : declarationsAt 0 ps = imports doc.code := by
      rw [← hlayout.imports_eq 0, Declaration.map_shift_zero]
    have hdeclared : declarationsAt 0 ps = doc.declarations.map Declaration.unlined := by
      rw [himports, declarations_unlined]
    have hfresh : AtFresh doc.text (startMode doc.text) [] doc.text doc.code ps := by
      refine ⟨Mode.proper_startMode _, rfl, .inr (.inl (.inl rfl)), hlayout, fun e he => ?_⟩
      rw [byteLength_nil, ← byStatement_declarationsAt hlayout, himports] at he
      obtain ⟨d, hd, hstatement⟩ := exists_of_mem_byStatement (List.mem_map_of_mem he)
      exact hstatement ▸ h.spaced d hd
    have hremoves : Removes doc.text (doc.analyze.unused.map (·.span)) none (byteLength []) ps
        (startMode doc.text)
        (byteLength []) doc.text doc.code := (removes_of_length ps.length).1 rfl hfresh
    obtain ⟨X', x', ps', hre⟩ := hremoves
    rw [byteLength_nil] at hre
    have hmode := startMode_eq_of_tags hre.untagged hre.tagged
    have hlayout' : Layout (startMode X') X' x' ps' := hmode ▸ hre.layout
    refine ⟨⟨X', x'⟩, hlayout'.viewFrom_eq, ?_, hre.clean, ?_, hre.exchanged,
      fun hs => hre.classes fun hmem => hs (mem_of_visible hview hmem (by decide))⟩
    · have hedits := removalFrom_unlined doc.text (doc.analyze.unused.map (·.span)) none
        (byStatement doc.declarations)
      rw [← byStatement_unlined, ← hdeclared, byStatement_declarationsAt hlayout] at hedits
      have hplan : planRemoval doc.text doc.analyze =
          (removalFrom doc.text (doc.analyze.unused.map (·.span)) none
          (entriesAt 0 ps)).reverse := by
        rw [hedits, planRemoval, if_neg (by simpa using hnone)]
        rfl
      rw [hplan]
      exact hre.patched.applyEdits (List.reverse_perm _)
    · have hkept : keptMeanings (doc.analyze.unused.map (·.span)) 0 ps =
          (doc.declarations.filter doc.analyze.isUsed).map Declaration.meaning := by
        rw [keptMeanings, hdeclared, List.filter_map, List.map_map]
        exact congrArg (List.map Declaration.meaning) (List.filter_congr fun d hd =>
          (contains_unused hd :))
      rw [hlayout'.map_meaning X', ← hkept]
      exact hre.meanings

/-! ## What stays -/

theorem empty_not_mem_functionNames (doc : Document) : "" ∉ Retains.functionNames doc := by
  intro hmem
  obtain ⟨d, hd, -, hname⟩ := mem_names_iff.mp hmem
  exact (wellNamed_of_mem_declarations hd).localName_ne hname

/-- The last import of a name is still the last one, if no import of what it stands for can be lost.
-/
theorem lookup_of_thinned {ds ds' : List Declaration}
    (h : Thinned isLegible (ds.map Declaration.meaning) (ds'.map Declaration.meaning))
    (hlookup : lookup ds kind name = some fqn)
    (hlegible : ∀ d ∈ ds, d.kind = kind → d.fqn = fqn → d.Legible) :
    lookup ds' kind name = some fqn := by
  rw [lookup_eq_find?] at hlookup ⊢
  obtain ⟨m, hfind, rfl⟩ := Option.map_eq_some_iff.mp hlookup
  obtain ⟨d, hd, rfl⟩ := List.mem_map.mp (List.mem_reverse.mp (List.mem_of_find?_eq_some hfind))
  have hkind : d.kind = kind := by
    have hbinds := List.find?_some hfind
    rw [Bool.and_eq_true, beq_iff_eq] at hbinds
    exact hbinds.1
  rw [h.reverse.find?_eq hfind (Declaration.legible_iff.mp (hlegible d hd hkind rfl))]
  rfl

namespace Removed

variable (h : Removed doc doc')
include h

/-- Every import was there before, and something used it. -/
theorem exists_used (hd : d ∈ doc'.declarations) :
    ∃ e ∈ doc.declarations, doc.analyze.isUsed e = true ∧ e.meaning = d.meaning := by
  obtain ⟨e, he, hmeaning⟩ := List.mem_map.mp (h.meanings.sublist.subset (List.mem_map_of_mem hd))
  obtain ⟨he, hused⟩ := List.mem_filter.mp he
  exact ⟨e, he, hused, hmeaning⟩

/-- A name that stands for something used stands for it afterwards, if no import of it can be lost.
-/
theorem lookup_eq (hlookup : lookup doc.declarations kind name = some fqn)
    (hused : ∀ d : Declaration, d.kind = kind → d.fqn = fqn → doc.analyze.isUsed d = true)
    (hlegible : ∀ d ∈ doc.declarations, d.kind = kind → d.fqn = fqn → d.Legible) :
    lookup doc'.declarations kind name = some fqn :=
  lookup_of_thinned h.meanings (lookup_filter_of_some hlookup hused) fun d hd =>
    hlegible d (List.mem_of_mem_filter hd)

theorem retainsCalls : RetainsCalls doc.analyze doc'.declarations where
  bound kind name hsome := by
    obtain ⟨d, hd, hbinds⟩ := lookup_isSome_iff.mp hsome
    obtain ⟨e, he, -, hmeaning⟩ := h.exists_used hd
    exact lookup_isSome_iff.mpr ⟨e, he, (binds_of_meaning_eq hmeaning kind name).trans hbinds⟩
  functions name fqn hlookup hused := by
    refine h.lookup_eq hlookup (fun d hkind hfqn => ?_) fun d _ hkind _ hcls => ?_
    · simp [Analysis.isUsed, isUnused, hkind, hfqn, hused]
    · rw [hkind] at hcls
      cases hcls

/-- **The document refers to the same names.** -/
theorem references :
    doc'.analyze.references.map Reference.meaning = doc.analyze.references.map Reference.meaning :=
  h.retainsCalls.references (empty_not_mem_functionNames doc)
    (h.exchanged.allReferences_eq (empty_not_mem_functionNames doc))

/-- A class that is used is used afterwards, if no import of it can be lost. -/
theorem mem_usedClasses (hused : fqn ∈ doc.analyze.usedClasses)
    (hlegible : ∀ d ∈ doc.declarations, d.fqn = fqn → d.Legible) :
    fqn ∈ doc'.analyze.usedClasses := by
  have hreached : ∀ name, reachedClass doc.declarations name = some fqn →
      reachedClass doc'.declarations name = some fqn := by
    intro name hname
    unfold reachedClass at hname ⊢
    split at hname
    · cases hname
    · rename_i hhead
      rw [if_neg hhead]
      refine h.lookup_eq hname (fun d hkind hfqn => ?_) fun d hd _ => hlegible d hd
      simp [Analysis.isUsed, isUnused, hkind, hfqn, hused]
  have hclasses : ∀ d : Document, d.analyze.usedClasses =
      usedClasses (AliasTable.build d.declarations) d.analyze.references := fun _ => rfl
  rw [hclasses, usedClasses_eq, List.mem_filterMap] at hused ⊢
  rw [h.references]
  obtain ⟨m, hm, hname⟩ := hused
  exact ⟨m, hm, hreached m.1 hname⟩

/-- **Everything that is left is used**, if only reserved words can be lost. -/
theorem unused (hnames : ∀ d ∈ doc.declarations, d.Legible ∨ isReserved d.fqn = true) :
    doc'.analyze.unused = [] := by
  refine unused_eq_nil_iff.mpr fun d hd => ?_
  obtain ⟨e, he, hused, hmeaning⟩ := h.exists_used hd
  rw [Analysis.isUsed, ← isUnused_of_meaning_eq hmeaning,
    h.retainsCalls.usedFunctions_eq h.references, Bool.not_eq_true']
  rw [Analysis.isUsed, Bool.not_eq_true'] at hused
  unfold isUnused at hused ⊢
  split
  · rename_i hkind
    rw [hkind] at hused
    cases hbuiltin : isBuiltin e.fqn with
    | true => rw [Bool.not_true, Bool.and_false]
    | false =>
      -- no import of the class has a reserved word for a name, so none can be lost
      have hlegible : ∀ x ∈ doc.declarations, x.fqn = e.fqn → x.Legible := fun x hx hfqn =>
        (hnames x hx).resolve_right fun hreserved => by
          rw [isBuiltin, ← hfqn, hreserved] at hbuiltin
          cases hbuiltin
      have hclass : e.fqn ∈ doc.analyze.usedClasses := by simpa [hbuiltin] using hused
      simp [h.mem_usedClasses hclass hlegible]
  · rename_i hkind
    rwa [hkind] at hused
  · rfl

section Legible

variable (hlegible : ∀ d ∈ doc.declarations, d.Legible)
include hlegible

/-- **The document declares what was used**, if nothing can be lost. -/
theorem meanings_eq : doc'.declarations.map Declaration.meaning =
    (doc.declarations.filter doc.analyze.isUsed).map Declaration.meaning := by
  refine h.meanings.eq_of_all fun m hm => ?_
  obtain ⟨d, hd, rfl⟩ := List.mem_map.mp hm
  exact Declaration.legible_iff.mp (hlegible d (List.mem_of_mem_filter hd))

theorem retains : Retains doc.analyze doc'.declarations where
  toRetainsCalls := h.retainsCalls
  classes name fqn hlookup hused := by
    refine h.lookup_eq hlookup (fun d hkind hfqn => ?_) fun d hd _ _ => hlegible d hd
    simp [Analysis.isUsed, isUnused, hkind, hfqn, hused]

end Legible

end Removed

theorem analyze_eq (h : codeView text.toList = .ok code) :
    analyze text = .ok (Document.mk text.toList code).analyze := by
  rw [analyze, Document.ofString, Document.ofText, h]
  rfl

theorem analyze_ofList {doc : Document} (hview : codeView doc.text = .ok doc.code) :
    analyze (String.ofList doc.text) = .ok doc.analyze := by
  rw [← @String.toList_ofList doc.text] at hview
  have hanalyzed := analyze_eq hview
  rwa [String.toList_ofList] at hanalyzed

/-- Taking out of the text what nothing uses gives `text'`; `a` and `a'` are the analyses of the
two. -/
structure RemovedFrom (text : String) (a : Analysis) (text' : String) (a' : Analysis) : Prop where
  analyzed : analyze text = .ok a
  applied : applyEdits text (planRemoval text.toList a) = .ok text'
  after : analyze text' = .ok a'

theorem removedFrom_of_views {text' : String} {code' : List Char}
    (hview : codeView text.toList = .ok code)
    (happlied : applyEdits text (planRemoval text.toList (Document.mk text.toList code).analyze) =
      .ok text') (hview' : codeView text'.toList = .ok code') :
    RemovedFrom text (Document.mk text.toList code).analyze text'
      (Document.mk text'.toList code').analyze :=
  ⟨analyze_eq hview, happlied, analyze_eq hview'⟩

theorem Removed.removedFrom (h : Removed ⟨text.toList, code⟩ doc')
    (hcode : codeView text.toList = .ok code) :
    RemovedFrom text (Document.mk text.toList code).analyze
      (String.ofList doc'.text) doc'.analyze := by
  have happlied := h.applied
  rw [String.ofList_toList] at happlied
  have hview : codeView (String.ofList doc'.text).toList = .ok doc'.code := by
    rw [String.toList_ofList]
    exact h.view
  have := removedFrom_of_views hcode happlied hview
  rwa [String.toList_ofList] at this

/-- **Removal converges**: afterwards everything is used, and nothing is left to remove. -/
theorem removal_converges {text : String} {code : List Char}
    (hcode : codeView text.toList = .ok code) (h : Orderly ⟨text.toList, code⟩)
    (hnames : ∀ d ∈ (Document.mk text.toList code).declarations, d.Legible ∨
      isReserved d.fqn = true) :
    ∃ a text' a', RemovedFrom text a text' a' ∧ a'.unused = [] ∧
      planRemoval text'.toList a' = [] := by
  obtain ⟨doc', hremoved⟩ := h.exists_removed hcode
  refine ⟨_, _, _, hremoved.removedFrom hcode, hremoved.unused hnames, ?_⟩
  rw [planRemoval, hremoved.unused hnames]
  rfl

/-- A heredoc, an import that nothing uses, a group of which one name is used, and a line with a
vertical tab. -/
def heredocText : String :=
  "<?php\necho <<<X\nuse F\\G;\nX;\nuse D\\E;\nuse A\\\x7bB, C\x7d;\nnew B;\n\x0b\n"

/-- The code view of that text. -/
def heredocCode : String :=
  "     \necho <<<X\n        \nX;\nuse D\\E;\nuse A\\\x7bB, C\x7d;\nnew B;\n\x0b\n"

theorem removal_converges_heredoc : Orderly ⟨heredocText.toList, heredocCode.toList⟩ ∧
    ∃ a text' a', RemovedFrom heredocText a text' a' ∧ a'.unused = [] ∧
      planRemoval text'.toList a' = [] := by
  have horderly : Orderly ⟨heredocText.toList, heredocCode.toList⟩ :=
    ⟨outsideHeredocs_of_knownAt
      (by decide +kernel), by decide +kernel, by decide +kernel, by decide +kernel⟩
  exact ⟨horderly, removal_converges (by decide +kernel) horderly (by decide +kernel)⟩

/-- What removal makes of a text, with the analyses of before and after. -/
def removal? (text : String) : Option (Analysis × String × Analysis) := do
  let a ← (analyze text).toOption
  let text' ← (applyEdits text (planRemoval text.toList a)).toOption
  let a' ← (analyze text').toOption
  return (a, text', a')

theorem exists_removedFrom {p : Analysis → Analysis → Prop}
    (h : ∃ r ∈ removal? text, p r.1 r.2.2) :
    ∃ a text' a', RemovedFrom text a text' a' ∧ p a a' := by
  obtain ⟨r, hr, hp⟩ := h
  unfold removal? at hr
  simp only [Option.mem_def, Option.bind_eq_bind, Option.bind_eq_some_iff, toOption_eq_some_iff,
    Option.pure_def, Option.some.injEq] at hr
  obtain ⟨a, ha, text', happlied, a', ha', rfl⟩ := hr
  exact ⟨a, text', a', ⟨ha, happlied, ha'⟩, hp⟩

/-- After removal something is unused. -/
def LeavesUnused (text : String) : Prop :=
  ∃ a text' a', RemovedFrom text a text' a' ∧ a'.unused ≠ []

/-- White space that is not ASCII, behind an import and in front of one. -/
theorem leavesUnused_of_spaces :
    LeavesUnused "<?php\nuse A\\X;\x0b\nuse B\\Y;\n" ∧
    LeavesUnused "\x0b<?php use A\\\x7bconst B, C, D\x7d;\nuse A\\C as X;\nnew C;\n" :=
  ⟨exists_removedFrom (by decide +kernel), exists_removedFrom (by decide +kernel)⟩

/-- An import in the identifier that closes a heredoc, and one in the first line of a heredoc. -/
theorem leavesUnused_of_heredocs :
    LeavesUnused "<?php\n<<<use;\nuse A\\X;\nnew D;\nuse C\\D;\n" ∧
    LeavesUnused "<?php\n<<<L; use A\\\x7bconst B, C, D\x7d;\nL;\nuse A\\C as X;\nnew C;\n" :=
  ⟨exists_removedFrom (by decide +kernel), exists_removedFrom (by decide +kernel)⟩

/-- None of the conditions can be left out: an import inside an unfinished statement, between white
space that is not ASCII, and inside a heredoc; a class with the name of a kind that is no reserved
word; an import behind an open tag. -/
theorem removal_leaves_unused :
    LeavesUnused "<?php\nuse A\\\x7bX\x7d\nuse B\\Y;\n;\n" ∧
    (LeavesUnused "<?php\nuse A\\X;\x0b\nuse B\\Y;\n" ∧
      LeavesUnused "\x0b<?php use A\\\x7bconst B, C, D\x7d;\nuse A\\C as X;\nnew C;\n") ∧
    (LeavesUnused "<?php\n<<<use;\nuse A\\X;\nnew D;\nuse C\\D;\n" ∧
      LeavesUnused "<?php\n<<<L; use A\\\x7bconst B, C, D\x7d;\nL;\nuse A\\C as X;\nnew C;\n") ∧
    LeavesUnused "<?php\nuse \\conſt;\nuse \\conſt as B, C\\D;\nnew B;\n" ∧
    LeavesUnused "<?use A\\X;php use B\\Y;" := by
  refine ⟨?_, leavesUnused_of_spaces, leavesUnused_of_heredocs, ?_, ?_⟩
  all_goals exact exists_removedFrom (by decide +kernel)

/-- **Removal keeps what is used**, what is referred to, and what lacks an import. -/
theorem removal_preserves {text : String} {code : List Char}
    (hcode : codeView text.toList = .ok code) (h : Regular ⟨text.toList, code⟩)
    (hlegible : ∀ d ∈ (Document.mk text.toList code).declarations, d.Legible)
    (hs : 'ſ' ∉ text.toList) :
    ∃ a text' a', RemovedFrom text a text' a' ∧
      a'.declarations.map Declaration.meaning =
        (a.declarations.filter (· ∉ a.unused)).map Declaration.meaning ∧
      a'.references.map Reference.meaning = a.references.map Reference.meaning ∧
      a'.unimported.map (·.name) = a.unimported.map (·.name) := by
  obtain ⟨doc', hremoved⟩ := h.orderly.exists_removed hcode
  refine ⟨_, _, _, hremoved.removedFrom hcode, ?_, hremoved.references,
    (hremoved.retains hlegible).unimported_eq hremoved.references (hremoved.classes hs)⟩
  refine (hremoved.meanings_eq hlegible).trans
    (congrArg (List.map Declaration.meaning) (List.filter_congr fun d hd => ?_))
  rw [Bool.eq_iff_iff, decide_eq_true_iff, mem_unused_iff, not_and, Bool.not_eq_false]
  exact ⟨fun hused _ => hused, fun hused => hused hd⟩

/-- A text with an import that nothing uses, and a group of which one name is used. -/
def groupedText : String :=
  "<?php\nuse D\\E;\nuse A\\\x7bB, C\x7d;\nnew B;\n"

/-- The code view of that text. -/
def groupedCode : String :=
  "     \nuse D\\E;\nuse A\\\x7bB, C\x7d;\nnew B;\n"

theorem removal_preserves_group : 'ſ' ∉ groupedText.toList ∧
    ∃ a text' a', RemovedFrom groupedText a text' a' ∧
      a'.declarations.map Declaration.meaning =
        (a.declarations.filter (· ∉ a.unused)).map Declaration.meaning ∧
      a'.references.map Reference.meaning = a.references.map Reference.meaning ∧
      a'.unimported.map (·.name) = a.unimported.map (·.name) := by
  have hs : 'ſ' ∉ groupedText.toList := by decide +kernel
  have hregular : Regular ⟨groupedText.toList, groupedCode.toList⟩ := by decide +kernel
  exact ⟨hs, removal_preserves (by decide +kernel) hregular (by decide +kernel) hs⟩

/-- After removal the text does not declare what is used. -/
def Disturbs (text : String) : Prop :=
  ∃ a text' a', RemovedFrom text a text' a' ∧
    a'.declarations.map Declaration.meaning ≠ (a.declarations.filter (· ∉ a.unused)).map
      Declaration.meaning

/-- An import inside an unfinished statement, and a class with an alias whose name is the keyword of
a kind. -/
theorem removal_disturbs :
    Disturbs "<?php\nuse A\\\x7bX\x7d\nuse B\\Y;\n;\n" ∧
    Disturbs "<?php\nuse \\CONST as B, C\\D;\nnew B;\n" :=
  ⟨exists_removedFrom (by decide +kernel), exists_removedFrom (by decide +kernel)⟩

end UseImports
