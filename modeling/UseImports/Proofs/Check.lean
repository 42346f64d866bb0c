import UseImports.Check
import UseImports.Proofs.Edit.InOrder

/-!
# Mending a text

Mending (`check_text`) takes out the imports that nothing uses and sorts the others. Sorting leaves
every import used, and removal finds nothing to do in a text in which everything is used, so a
mended text needs no more mending.

* `withoutUnused_eq`, `withSortedImports_eq`, `checkText_eq`: the steps, told from analyses and
  plans.
* `mended_is_final`: **a mended text stays as it is.**
-/

namespace UseImports

variable {text text' : String} {a : Analysis} {mode : SortMode} {doc doc' : Document}

/-! ## The steps -/

theorem analyzeForCheck_eq (h : analyze text = .ok a) : analyzeForCheck text = .ok a := by
  rw [analyzeForCheck, h]
  rfl

theorem withoutUnused_eq (h : analyze text = .ok a)
    (happlied : applyEdits text (planRemoval text.toList a) = .ok text') :
    withoutUnused text = .ok text' := by
  rw [withoutUnused, analyzeForCheck_eq h]
  change applyForCheck text (planRemoval text.toList a) = .ok text'
  rw [applyForCheck, happlied]
  rfl

theorem withSortedImports_eq (h : analyze text = .ok a)
    (happlied : applyEdits text (planSort text.toList a mode).toList = .ok text') :
    withSortedImports text mode = .ok text' := by
  rw [withSortedImports, analyzeForCheck_eq h]
  dsimp only [bind, Except.bind]
  cases hplan : planSort text.toList a mode with
  | none =>
    rw [hplan, Option.toList_none, applyEdits_nil] at happlied
    exact congrArg Except.ok (Except.ok.inj happlied)
  | some edit =>
    rw [hplan] at happlied
    exact congrArg (Except.mapError CheckFailure.edit) happlied

/-- All that can be mended. -/
def FixOptions.all : FixOptions :=
  ⟨true, true⟩

theorem fixText_eq {text₁ text₂ : String} (hremoved : withoutUnused text = .ok text₁)
    (hsorted : withSortedImports text₁ mode = .ok text₂) : fixText text mode .all = .ok text₂ := by
  change withoutUnused text >>= (fun text => withSortedImports text mode) = .ok text₂
  rw [hremoved]
  exact hsorted

theorem checkText_eq {path text fixed : String} {c : Config} {a : Analysis} {fix : FixOptions}
    (h : analyze text = .ok a) (hfixed : fixText text c.sortMode fix = .ok fixed) :
    checkText path text c fix =
      .ok ⟨(findings a c.diagnosticSeverity).map (findingLine path text.toList),
      if fixed = text then none else some fixed⟩ := by
  rw [checkText, analyzeForCheck_eq h]
  change (fixText text c.sortMode fix >>= fun fixed => _) = _
  rw [hfixed]
  rfl

/-- Where everything is used, only missing imports are found. -/
theorem kind_of_mem_findings (h : a.unused = []) {severity : Severity} {f : Finding}
    (hf : f ∈ findings a severity) : f.kind = .unimportedClass := by
  rw [findings, List.mem_mergeSort, h, List.map_nil, List.nil_append] at hf
  obtain ⟨u, -, rfl⟩ := List.mem_map.mp hf
  rfl

/-! ## Mended texts -/

/-- Leaving imports out makes no two of them bind the same name. -/
theorem Removed.distinctNames (h : Removed doc doc') (hdistinct : DistinctNames doc.declarations) :
    DistinctNames doc'.declarations := by
  have hfilter : DistinctNames (doc.declarations.filter doc.analyze.isUsed) :=
    List.Nodup.sublist (List.filter_sublist.map _) hdistinct
  exact hfilter.of_sublist h.meanings.sublist

theorem Reordered.unused_eq_nil (h : Reordered doc doc')
    (hdistinct : DistinctNames doc.declarations) (hunused : doc.analyze.unused = []) :
    doc'.analyze.unused = [] := by
  refine List.eq_nil_iff_forall_not_mem.mpr fun d hd => ?_
  have hmem := (h.unused hdistinct d.meaning).mp (List.mem_map_of_mem hd)
  rw [hunused] at hmem
  cases hmem

/-- In a text without U+017F only reserved words are taken for the keyword of a kind. -/
theorem legible_or_isReserved (hview : codeView doc.text = .ok doc.code) (hs : 'ſ' ∉ doc.text)
    {d : Declaration} (hd : d ∈ doc.declarations) : d.Legible ∨ isReserved d.fqn = true := by
  refine or_iff_not_imp_left.mpr fun hno => ?_
  obtain ⟨-, hword, -⟩ := Declaration.not_legible_iff.mp hno
  -- the name has no backslash, so it stands in the text as a whole
  obtain ⟨kind, hk⟩ := isKindWord_iff.mp hword
  obtain ⟨A, ⟨name, B, htext, -, hname, -⟩, -⟩ := exists_nameBehind hview hd
  have hin : ∀ c ∈ d.fqn.toList, c ∈ doc.text := by
    rcases hname with ⟨-, hfqn⟩ | ⟨group, -, hfqn⟩
    · intro c hc
      rw [hfqn] at hc
      rw [htext]
      simp [(List.dropWhile_suffix _).subset hc]
    · have := hk.isWordChar '\\' (by rw [hfqn]; simp)
      exact absurd this (by decide)
  rw [isKindWord, decide_eq_true_eq] at hword
  rcases hword with hword | hword
  · exact isReserved_of_folded hword (.inl fun hmem => hs (hin _ hmem)) (by decide) (by decide)
  · exact isReserved_of_folded hword (.inl fun hmem => hs (hin _ hmem)) (by decide) (by decide)

/-- A text in which everything is used and in order is mended. -/
theorem fixText_of_mended (hview : codeView doc.text = .ok doc.code)
    (hunused : doc.analyze.unused = []) (horder : planSort doc.text doc.analyze mode = none) :
    fixText (String.ofList doc.text) mode .all = .ok (String.ofList doc.text) := by
  have hanalyzed := analyze_ofList hview
  refine fixText_eq (withoutUnused_eq hanalyzed ?_) (withSortedImports_eq hanalyzed ?_)
  · rw [planRemoval, hunused]
    exact applyEdits_nil _
  · rw [String.toList_ofList, horder]
    exact applyEdits_nil _

/-- Mending gives a text in which everything is used and in order. -/
theorem exists_mended (hview : codeView doc.text = .ok doc.code) (hregular : Regular doc)
    (hs : 'ſ' ∉ doc.text) (hdistinct : DistinctNames doc.declarations) (mode : SortMode) :
    ∃ doc' : Document, codeView doc'.text = .ok doc'.code ∧ doc'.analyze.unused = [] ∧
      planSort doc'.text doc'.analyze mode = none ∧
      fixText (String.ofList doc.text) mode .all = .ok (String.ofList doc'.text) := by
  obtain ⟨removed, hremoved⟩ := hregular.orderly.exists_removed hview
  obtain ⟨sorted, hsorts⟩ := exists_sortsInto hremoved.view (hremoved.clean hregular.clean) mode
  have hreordered := hsorts.reordered hremoved.view
  have hunused := hremoved.unused fun d hd => legible_or_isReserved hview hs hd
  refine ⟨sorted, hreordered.view,
    hreordered.unused_eq_nil (hremoved.distinctNames hdistinct) hunused,
    hsorts.inOrder_again hremoved.view, fixText_eq (withoutUnused_eq (analyze_ofList hview) ?_)
      (withSortedImports_eq (analyze_ofList hremoved.view) ?_)⟩
  · rw [String.toList_ofList]
    exact hremoved.applied
  · rw [String.toList_ofList]
    exact hsorts.applied

/-- **A mended text stays as it is**: it is checked without an import that nothing uses, and mending
does not change it. -/
theorem mended_is_final {text : String} {code : List Char} (hcode : codeView text.toList = .ok code)
    (hregular : Regular ⟨text.toList, code⟩) (hs : 'ſ' ∉ text.toList)
    (hdistinct : DistinctNames (Document.mk text.toList code).declarations)
    (path : String) (c : Config) :
    ∃ report a again, checkText path text c .all = .ok report ∧
      analyze (report.fixed.getD text) = .ok a ∧ a.unused = [] ∧
      checkText path (report.fixed.getD text) c .all = .ok again ∧ again.fixed = none ∧
      ∀ line ∈ again.findings, ∃ f ∈ findings a c.diagnosticSeverity, f.kind = .unimportedClass ∧
        line = findingLine path (report.fixed.getD text).toList f := by
  obtain ⟨doc', hview', hunused, horder, hfixed⟩ :=
    exists_mended hcode hregular hs hdistinct c.sortMode
  rw [String.ofList_toList] at hfixed
  have hcheck := @checkText_eq path _ _ _ _ _ (analyze_eq hcode) hfixed
  have hagain :=
    @checkText_eq path _ _ _ _ _ (analyze_ofList hview') (fixText_of_mended hview' hunused horder)
  rw [if_pos rfl] at hagain
  have hgetD :
      (if String.ofList doc'.text = text then none else some (String.ofList doc'.text)).getD text =
      String.ofList doc'.text := by
    split
    · rename_i hsame
      exact hsame.symm
    · rfl
  refine ⟨_, doc'.analyze, ⟨(findings doc'.analyze c.diagnosticSeverity).map
    (findingLine path (String.ofList doc'.text).toList), none⟩, hcheck, ?_, hunused, ?_, rfl,
      fun line hline => ?_⟩
  · rw [hgetD]
    exact analyze_ofList hview'
  · rw [hgetD]
    exact hagain
  · rw [hgetD]
    obtain ⟨f, hf, rfl⟩ := List.mem_map.mp hline
    exact ⟨f, hf, kind_of_mem_findings hunused hf, rfl⟩

theorem mended_is_final_group : Regular ⟨unsortedText.toList, unsortedCode.toList⟩ ∧
    ∃ report a again, checkText "a.php" unsortedText default .all = .ok report ∧
      analyze (report.fixed.getD unsortedText) = .ok a ∧ a.unused = [] ∧
      checkText "a.php" (report.fixed.getD unsortedText) default .all = .ok again ∧
      again.fixed = none ∧
      ∀ line ∈ again.findings, ∃ f ∈ findings a (default : Config).diagnosticSeverity, f.kind =
        .unimportedClass ∧
        line = findingLine "a.php" (report.fixed.getD unsortedText).toList f := by
  have hregular : Regular ⟨unsortedText.toList, unsortedCode.toList⟩ := by decide +kernel
  refine ⟨hregular,
    mended_is_final (by decide +kernel) hregular (by decide +kernel) ?_ "a.php" default⟩
  unfold DistinctNames
  decide +kernel

/-- A mended text has an import that nothing uses. -/
def MendedUnused (path text : String) (c : Config) : Prop :=
  ∃ report a, checkText path text c .all = .ok report ∧ analyze (report.fixed.getD text) =
    .ok a ∧ a.unused ≠ []

/-- An import inside a `use` that has not come to its end: when it goes, that one comes to an end
and imports something. -/
theorem mended_unused_in_unfinished :
    MendedUnused "a.php" "<?php\nuse A\\\x7bX\x7d\nuse B\\Y;\n;\n" default := by
  have hview : codeView "<?php\nuse A\\\x7bX\x7d\nuse B\\Y;\n;\n".toList =
      .ok "     \nuse A\\\x7bX\x7d\nuse B\\Y;\n;\n".toList := by decide +kernel
  have hview' : codeView "<?php\nuse A\\\x7bX\x7d\n;\n".toList =
      .ok "     \nuse A\\\x7bX\x7d\n;\n".toList := by
    decide +kernel
  have hanalyzed' := analyze_eq hview'
  have hremoved : withoutUnused "<?php\nuse A\\\x7bX\x7d\nuse B\\Y;\n;\n" =
      .ok "<?php\nuse A\\\x7bX\x7d\n;\n" :=
    withoutUnused_eq (analyze_eq hview) (by decide +kernel)
  have hsorted : withSortedImports "<?php\nuse A\\\x7bX\x7d\n;\n" .alphabetical =
      .ok "<?php\nuse A\\\x7bX\x7d\n;\n" :=
    withSortedImports_eq hanalyzed' (by decide +kernel)
  exact ⟨_, _, checkText_eq (analyze_eq hview) (fixText_eq hremoved hsorted),
    hanalyzed', by decide +kernel⟩

end UseImports
