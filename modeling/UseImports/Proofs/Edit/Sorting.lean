import UseImports.Proofs.Code.Shape
import UseImports.Proofs.Edit.Block
import UseImports.Proofs.Edit.Convergence
import Mathlib.Data.List.Perm.Basic

/-!
# Sorting imports

The lines of the import block change places (`plan_sort`). Each of them is read as before, since a
statement may begin at the start of each line and all braces are closed there, so the document
imports what it did, in another order. Where no local name is imported twice, the order does not
matter.

* `Reordered`: the document after its imports have changed places, and what follows from it.
* `BlockAt.reordered`: **the lines of the block may change places.**
* `SortsInto`: what sorting makes of a document.
* `sorting_preserves`: **sorting does not change what the document means.**
-/

namespace UseImports

variable {ls ls' : List Line} {P p Q q X x X' x' : List Char} {doc doc' : Document} {m : Mode}
    {es : List BlockEntry}

/-- The second document imports what the first one does, in another order, and is otherwise the
same. -/
structure Reordered (doc doc' : Document) : Prop where
  view : codeView doc'.text = .ok doc'.code
  meanings : (doc'.declarations.map Declaration.meaning).Perm
    (doc.declarations.map Declaration.meaning)
  references : ∀ names, "" ∉ names → (allReferences doc'.code names).map Reference.meaning =
    (allReferences doc.code names).map Reference.meaning
  classes : ∀ name, name ∈ doc'.declaredClasses ↔ name ∈ doc.declaredClasses

namespace Reordered

theorem refl (hview : codeView doc.text = .ok doc.code) : Reordered doc doc where
  view := hview
  meanings := .refl _
  references _ _ := rfl
  classes _ := Iff.rfl

variable (h : Reordered doc doc') (hdistinct : DistinctNames doc.declarations)
include h hdistinct

/-- **A local name stands for what it did.** -/
theorem aliases (kind : ImportKind) (name : String) :
    (doc'.analyze.aliases.get? kind name).map
    (·.fqn) = (doc.analyze.aliases.get? kind name).map (·.fqn) := by
  have hlookup := lookup_eq_of_perm hdistinct h.meanings kind name
  rwa [← fqn_get?_build, ← fqn_get?_build] at hlookup

theorem retains : Retains doc.analyze doc'.declarations :=
  retains_of_perm hdistinct h.meanings

theorem references_eq :
    doc'.analyze.references.map Reference.meaning = doc.analyze.references.map Reference.meaning :=
  have hne := empty_not_mem_functionNames doc
  (h.retains hdistinct).references hne (h.references _ hne)

theorem isUsed_eq {d e : Declaration} (hmeaning : e.meaning = d.meaning) :
    doc'.analyze.isUsed e = doc.analyze.isUsed d := by
  have hrefs := h.references_eq hdistinct
  rw [Analysis.isUsed, Analysis.isUsed, (h.retains hdistinct).usedClasses_eq hrefs,
    (h.retains hdistinct).usedFunctions_eq hrefs, isUnused_of_meaning_eq hmeaning]

/-- **The same imports are not used.** -/
theorem unused (meaning : String × Option String × ImportKind) :
    meaning ∈ doc'.analyze.unused.map Declaration.meaning ↔
      meaning ∈ doc.analyze.unused.map Declaration.meaning := by
  simp only [List.mem_map, mem_unused_iff]
  constructor
  · rintro ⟨e, ⟨he, hunused⟩, rfl⟩
    obtain ⟨d, hd, hmeaning⟩ := List.mem_map.mp (h.meanings.subset (List.mem_map_of_mem he))
    exact ⟨d, ⟨hd, (h.isUsed_eq hdistinct hmeaning.symm).symm.trans hunused⟩, hmeaning⟩
  · rintro ⟨d, ⟨hd, hunused⟩, rfl⟩
    obtain ⟨e, he, hmeaning⟩ := List.mem_map.mp (h.meanings.symm.subset (List.mem_map_of_mem hd))
    exact ⟨e, ⟨he, (h.isUsed_eq hdistinct hmeaning).trans hunused⟩, hmeaning⟩

theorem unimported : doc'.analyze.unimported.map (·.name) = doc.analyze.unimported.map (·.name) :=
  (h.retains hdistinct).unimported_eq_of_mem (h.references_eq hdistinct) h.classes

end Reordered

/-- The code is divided where a statement may begin and lines with statements stand. -/
theorem runBetween_of_stacked (hopens : Opens p.reverse) (hlevel : importLevel p p = true)
    (hls : ∀ l ∈ ls, l.Sound) (h : Stacked ls X x) (r : List Char) :
    RunBetween p x r where
  run := h.run hls
  divides := by
    obtain ⟨w, s, z, rfl, hw, hs⟩ := h.exists_statement (Line.fair_of_sound hls)
    have := divides_of_statement hopens hlevel hw hs (z ++ r)
    simpa only [List.append_assoc] using this

namespace FairBlockAt

variable (h : FairBlockAt m doc es ls P X Q p x q)
include h

theorem hasOpenTag_eq (hperm : ls'.Perm ls) (h' : Stacked ls' X' x') :
    hasOpenTag (P ++ (X' ++ Q)) = hasOpenTag doc.text := by
  have hls' : ∀ l ∈ ls', l.Fair := fun l hl => h.fair l (hperm.subset hl)
  have hclosed : P.getLast? ≠ some '<' := by
    rcases h.atLineStart with rfl | hlast
    · simp
    · rw [hlast]
      decide
  obtain ⟨htags, hlast⟩ := h.stacked.hasOpenTag_eq h.fair
  obtain ⟨htags', hlast'⟩ := h'.hasOpenTag_eq hls'
  rw [h.text, hasOpenTag_append_of_ne hclosed, hasOpenTag_append_of_ne hclosed,
    hasOpenTag_append_of_ne hlast, hasOpenTag_append_of_ne hlast', htags, htags', hperm.any_eq]

/-- The text after its lines have changed places has the view that is made up of theirs. -/
theorem codeView_eq (hm : m = startMode doc.text) (hperm : ls'.Perm ls) (h' : Stacked ls' X' x') :
    codeView (P ++ (X' ++ Q)) = .ok (p ++ (x' ++ q)) := by
  have hls' : ∀ l ∈ ls', l.Fair := fun l hl => h.fair l (hperm.subset hl)
  have hstart : startMode (P ++ (X' ++ Q)) = m := by
    rw [hm, startMode, startMode, h.hasOpenTag_eq hperm h']
  have hread := (h.settles.append (h'.settles hls')) Q
  rw [h.rest, List.append_assoc] at hread
  rw [UseImports.codeView_eq, hstart, hread]
  exact congrArg Except.ok (List.append_assoc ..)

/-- The sorted entries are the lines of the block in another order. -/
theorem exists_sorted (mode : SortMode) {nl : String} (hnl : IsBreak nl.toList) :
    ∃ ls' X' x', ls'.Perm ls ∧ Stacked ls' X' x' ∧ (sortEntries mode es).map (·.key) =
      ls'.map (viewKey ·.view) ∧
      (String.intercalate nl ((sortEntries mode es).map fun e => String.ofList e.lines)).toList =
        X' := by
  have hsorted : ((sortEntries mode es).map fun e => (e.key, e.lines)).Perm
      (ls.map fun l => (viewKey l.view, l.text)) := by
    rw [← h.entries]
    exact (List.mergeSort_perm es _).map _
  obtain ⟨ls', hmap, hperm⟩ :
      Relation.Comp (· = List.map (fun l : Line => (viewKey l.view, l.text)) ·) (·.Perm ·)
      ((sortEntries mode es).map fun e => (e.key, e.lines)) ls := by
    rw [List.eq_map_comp_perm]
    exact hsorted
  have hne : ls' ≠ [] := fun hnil =>
    h.stacked.ne_nil (by rw [hnil] at hperm; exact hperm.nil_eq.symm)
  obtain ⟨x', hx'⟩ := stacked_intercalate hnl hne
  refine ⟨ls', _, x', hperm, hx', ?_, ?_⟩
  · have := congrArg (List.map Prod.fst) hmap
    rwa [List.map_map, List.map_map] at this
  · have := congrArg (List.map Prod.snd) hmap
    rw [List.map_map, List.map_map] at this
    rw [String.toList_intercalate, List.map_map]
    exact congrArg nl.toList.intercalate (by simpa [Function.comp_def] using this)

/-- Other lines take the place of the block. -/
theorem applyEdits_replace (N : String) :
    applyEdits (String.ofList doc.text) [⟨⟨byteLength P, byteLength P + byteLength X⟩, N⟩] =
      .ok (String.ofList (P ++ (N.toList ++ Q))) := by
  have hpatched :
      Patched 0 (P ++ (X ++ Q)) [⟨⟨0 + byteLength P, 0 + byteLength P + byteLength X⟩, N⟩]
      (P ++ (N.toList ++ Q)) := .edit (h.stacked.text_ne_nil h.fair) (.done _ Q)
  rw [Nat.zero_add, ← h.text] at hpatched
  exact hpatched.applyEdits (.refl _)

end FairBlockAt

namespace BlockAt

variable (h : BlockAt m doc es ls P X Q p x q) (hperm : ls'.Perm ls) (h' : Stacked ls' X' x')
include h hperm h'

theorem perm_meanings :
    ((imports (p ++ (x' ++ q))).map Declaration.meaning).Perm
    ((imports (p ++ (x ++ q))).map Declaration.meaning) := by
  have hls' : ∀ l ∈ ls', l.Sound := fun l hl => h.sound l (hperm.subset hl)
  have hu := runBetween_of_stacked h.opens h.level h.sound h.stacked q
  have hv := runBetween_of_stacked h.opens h.level hls' h' q
  rw [hu.divides.apart, hv.divides.apart, imports_append hu.run.importPlace,
    imports_append hv.run.importPlace]
  simp only [List.map_append, List.map_map, Function.comp_def, Declaration.meaning_shift]
  refine .append_left _ (.append_right _ ?_)
  rw [h.stacked.meanings h.sound, h'.meanings hls']
  exact hperm.flatMap_right _

theorem mem_classes (name : String) :
    name ∈ classesOf (p ++ (x' ++ q)) ↔ name ∈ classesOf (p ++ (x ++ q)) := by
  have hls' : ∀ l ∈ ls', l.Sound := fun l hl => h.sound l (hperm.subset hl)
  rw [classesOf_append h.opens, classesOf_append h.opens,
    classesOf_append (h'.run hls').importPlace.opens,
    classesOf_append (h.stacked.run h.sound).importPlace.opens, h'.classesOf_eq hls',
    h.stacked.classesOf_eq h.sound]
  simp only [List.mem_append, (hperm.flatMap_right _).mem_iff]

/-- **The lines of the block may change places.** -/
theorem reordered (hm : m = startMode doc.text) :
    Reordered doc ⟨P ++ (X' ++ Q), p ++ (x' ++ q)⟩ where
  view := h.codeView_eq hm hperm h'
  meanings := by
    rw [map_meaning_declarations, map_meaning_declarations, h.code]
    exact h.perm_meanings hperm h'
  references names hne := by
    rw [h.code]
    exact allReferences_exchange hne (runBetween_of_stacked h.opens h.level h.sound h.stacked q)
      (runBetween_of_stacked h.opens h.level (fun l hl => h.sound l (hperm.subset hl)) h' q)
  classes name := by
    have := h.mem_classes hperm h' name
    rw [← h.code] at this
    exact this

end BlockAt

/-- Sorting makes the second document of the first one: the block is in order, or its lines come in
the order of the sorted entries. -/
inductive SortsInto (mode : SortMode) (doc : Document) : Document → Prop
  | inOrder : planSort doc.text doc.analyze mode = none → SortsInto mode doc doc
  | moved {ls ls' : List Line} {P X X' Q p x x' q : List Char} {N : String} :
      BlockAt (startMode doc.text) doc (importBlock doc.text doc.declarations) ls P X Q p x q →
      ls'.Perm ls → Stacked ls' X' x' →
      (sortEntries mode (importBlock doc.text doc.declarations)).map (·.key) = ls'.map
      (viewKey ·.view) →
      planSort doc.text doc.analyze mode = some ⟨⟨byteLength P, byteLength P + byteLength X⟩, N⟩ →
      N.toList = X' →
      SortsInto mode doc ⟨P ++ (X' ++ Q), p ++ (x' ++ q)⟩

theorem exists_sortsInto {doc : Document} (hview : codeView doc.text = .ok doc.code)
    (hclean : Clean doc.text) (mode : SortMode) : ∃ doc', SortsInto mode doc doc' := by
  by_cases hsorted : sortEntries mode (importBlock doc.text doc.declarations) =
    importBlock doc.text doc.declarations
  · exact ⟨doc, .inOrder (if_pos hsorted)⟩
  rcases exists_blockAt hview (Mode.proper_startMode doc.text) hclean with hnil |
      ⟨ls, P, X, Q, p, x, q, h⟩
  · refine absurd ?_ hsorted
    rw [hnil, sortEntries, List.mergeSort_nil]
  obtain ⟨ls', X', x', hperm, hstacked, hkeys, htext⟩ :=
    h.exists_sorted mode (isBreak_lineBreak doc.text)
  refine ⟨_, .moved h hperm hstacked hkeys ?_ htext⟩
  exact (if_neg hsorted).trans (congrArg (Option.map _) h.span)

namespace SortsInto

variable {mode : SortMode} (h : SortsInto mode doc doc')
include h

/-- **Sorting puts the imports in another order.** -/
theorem reordered (hview : codeView doc.text = .ok doc.code) : Reordered doc doc' := by
  cases h with
  | inOrder => exact .refl hview
  | moved hblock hperm hstacked => exact hblock.reordered hperm hstacked rfl

theorem applied : applyEdits (String.ofList doc.text) (planSort doc.text doc.analyze mode).toList =
    .ok (String.ofList doc'.text) := by
  cases h with
  | inOrder hnone =>
    rw [hnone]
    exact applyEdits_nil _
  | moved hblock _ _ _ hplan htext =>
    rw [hplan, ← htext]
    exact hblock.applyEdits_replace _

end SortsInto

/-- Sorting the imports of the text gives `text'`; `a` and `a'` are the analyses of the two. -/
structure SortedFrom (mode : SortMode) (text : String) (a : Analysis) (text' : String)
    (a' : Analysis) : Prop where
  analyzed : analyze text = .ok a
  applied : applyEdits text (planSort text.toList a mode).toList = .ok text'
  after : analyze text' = .ok a'

/-- **Sorting does not change what a text means**: it imports the same in another order, its local
names stand for the same, it refers to the same, and the same imports are not used or missing. -/
theorem sorting_preserves {text : String} (hclean : Clean text.toList)
    (hdistinct : ∀ a, analyze text = .ok a → DistinctNames a.declarations) (mode : SortMode) :
    ∃ a text' a', SortedFrom mode text a text' a' ∧
      (a'.declarations.map Declaration.meaning).Perm (a.declarations.map Declaration.meaning) ∧
      (∀ kind name, (a'.aliases.get? kind name).map (·.fqn) =
        (a.aliases.get? kind name).map (·.fqn)) ∧
      a'.references.map Reference.meaning = a.references.map Reference.meaning ∧
      (∀ meaning, meaning ∈ a'.unused.map Declaration.meaning ↔
        meaning ∈ a.unused.map Declaration.meaning) ∧
      a'.unimported.map (·.name) = a.unimported.map (·.name) := by
  obtain ⟨code, hcode⟩ := exists_codeView hclean.noHeredoc
  have hanalyzed := analyze_eq hcode
  obtain ⟨doc', hsorts⟩ := @exists_sortsInto ⟨text.toList, code⟩ hcode hclean mode
  have h := hsorts.reordered hcode
  have hnames := hdistinct _ hanalyzed
  refine ⟨_, String.ofList doc'.text, doc'.analyze, ⟨hanalyzed, ?_, ?_⟩, h.meanings,
    h.aliases hnames, h.references_eq hnames, h.unused hnames, h.unimported hnames⟩
  · have happlied := hsorts.applied
    rwa [String.ofList_toList] at happlied
  · have hview := h.view
    rw [← @String.toList_ofList doc'.text] at hview
    have hafter := analyze_eq hview
    rwa [String.toList_ofList] at hafter

/-- A text whose import block is not in order: a group on two lines with a comment in it, and a
function. -/
def unsortedText : String :=
  "<?php\nuse function F\\g;\nuse B\\\x7bX, // first\n  Y as Z\x7d;\nuse A\\C;\nnew X; g(new D);\n"

/-- The code view of that text. -/
def unsortedCode : String :=
  "     \nuse function F\\g;\nuse B\\\x7bX,         \n  Y as Z\x7d;\nuse A\\C;\nnew X; g(new D);\n"

theorem sorting_preserves_group :
    (importBlock unsortedText.toList
      (Document.mk unsortedText.toList unsortedCode.toList).declarations).map (·.key) =
      ["~function F\\g", "B", "A\\C"] ∧
    ∃ a text' a', SortedFrom .natural unsortedText a text' a' ∧
      (a'.declarations.map Declaration.meaning).Perm (a.declarations.map Declaration.meaning) ∧
      (∀ kind name, (a'.aliases.get? kind name).map (·.fqn) =
        (a.aliases.get? kind name).map (·.fqn)) ∧
      a'.references.map Reference.meaning = a.references.map Reference.meaning ∧
      (∀ meaning, meaning ∈ a'.unused.map Declaration.meaning ↔
        meaning ∈ a.unused.map Declaration.meaning) ∧
      a'.unimported.map (·.name) = a.unimported.map (·.name) := by
  have hcode : codeView unsortedText.toList = .ok unsortedCode.toList := by decide +kernel
  refine ⟨by decide +kernel, sorting_preserves (by decide +kernel) (fun a ha => ?_) .natural⟩
  obtain rfl := Except.ok.inj ((analyze_eq hcode).symm.trans ha)
  unfold DistinctNames
  decide +kernel

end UseImports
