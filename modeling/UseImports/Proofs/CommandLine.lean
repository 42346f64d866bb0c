import UseImports.CommandLine
import UseImports.Proofs.Check
import UseImports.Proofs.Text.Utf8
import Mathlib.Logic.Function.Iterate

/-!
# Runs of the command line

The files of the command line (`run_check`) are checked in turn (`check_file`). A file is written
only to mend it, and its content is then that of the mended text; a path that is given several
times, or several paths to one file, mend it several times. Where a file cannot be written, what the
failed attempt leaves in it is what the next turn reads. What is printed for a path are the findings
of the text that is read there at its turn.

* `mended`: what mending makes of a content.
* `afterTurn`: what a file holds after one more check of it, failures included.
* `visits`: the paths with what is read at their turns.
* `Accounted`: all that a run has come to, told from the tree at its start.
* `Accounted.add`, `Accounted.run`: one more path, and all of them.
* `run_accounted`: **a run changes what it should, prints what it reads, and tells by its exit code
  how it went.**
-/

namespace UseImports

variable {t u : FileTree} {cwd p : TreePath} {content : Content} {fix : FixOptions}
    {fixed path text : String} {cs : List Char} {c : Config} {arguments paths : List String}
    {a : Arguments}

/-! ## Trees of the same shape -/

theorem isSome_lookup {α β : Type} [BEq α] [LawfulBEq α] (es : List (α × β)) (a : α) :
    (es.lookup a).isSome = (es.map Prod.fst).contains a := by
  induction es with
  | nil => rfl
  | cons e es ih =>
    rw [List.lookup_cons, List.map_cons, List.contains_cons]
    cases a == e.1 with
    | true => rfl
    | false => exact ih

/-- The trees have the same files and directories, and the same goes wrong with them. -/
structure SameShape (t u : FileTree) : Prop where
  paths : u.files.map Prod.fst = t.files.map Prod.fst
  directories : u.directories = t.directories
  unreadable : u.unreadable = t.unreadable
  faults : u.faults = t.faults

namespace SameShape

theorem refl (t : FileTree) : SameShape t t :=
  ⟨rfl, rfl, rfl, rfl⟩

theorem trans {v : FileTree} (h : SameShape t u) (h' : SameShape u v) : SameShape t v :=
  ⟨h'.paths.trans h.paths, h'.directories.trans h.directories, h'.unreadable.trans h.unreadable,
    h'.faults.trans h.faults⟩

theorem write (t : FileTree) (p : TreePath) (content : Content) :
    SameShape t (t.write p content).1 :=
  ⟨t.map_fst_write p content, rfl, rfl, rfl⟩

variable (h : SameShape t u)
include h

theorem isSome_get? (p : TreePath) : (u.get? p).isSome = (t.get? p).isSome := by
  rw [FileTree.get?, FileTree.get?, isSome_lookup, isSome_lookup, h.paths]

theorem hasDirectory_eq (p : TreePath) : u.hasDirectory p = t.hasDirectory p := by
  have hany : ∀ v : FileTree,
      (v.files.any fun e => p.isPrefixOf e.1 && decide (p.length < e.1.length)) =
      (v.files.map Prod.fst).any fun q => p.isPrefixOf q && decide
      (p.length < q.length) := fun v => by
    rw [List.any_map]
    rfl
  have hfiles := (hany u).trans ((congrArg (List.any · _) h.paths).trans (hany t).symm)
  unfold FileTree.hasDirectory
  rw [h.directories]
  exact congrArg (_ || ·) hfiles

theorem follow_eq (p : TreePath) (names : List String) : u.follow p names = t.follow p names := by
  induction names generalizing p with
  | nil => rfl
  | cons name names ih => simp only [FileTree.follow, h.hasDirectory_eq, h.isSome_get?, ih]

/-- A path leads to the same place. -/
theorem locate_eq (cwd : TreePath) (path : String) : u.locate cwd path = t.locate cwd path := by
  simp only [FileTree.locate, h.follow_eq]

theorem leaves_eq (p : TreePath) (old new : Content) : u.leaves p old new = t.leaves p old new := by
  rw [FileTree.leaves, FileTree.leaves, h.faults]

end SameShape

namespace FileTree

theorem get?_write (t : FileTree) (p : TreePath) (content : Content) (q : TreePath) :
    (t.write p content).1.get? q =
      if q = p then (t.get? p).map fun old => t.leaves p old content else t.get? q := by
  unfold FileTree.write FileTree.get?
  dsimp only
  generalize t.leaves p = leaves
  induction t.files with
  | nil => simp
  | cons e files ih =>
    obtain ⟨r, old⟩ := e
    rw [List.map_cons, List.lookup_cons, List.lookup_cons, List.lookup_cons, ih]
    by_cases hq : q = p
    · subst hq
      by_cases hr : q = r
      · simp [hr]
      · simp [beq_eq_false_iff_ne.mpr hr]
    · by_cases hr : q = r
      · subst hr
        simp [hq]
      · simp [hq, beq_eq_false_iff_ne.mpr hr]

theorem write_snd (t : FileTree) (p : TreePath) (content : Content) :
    (t.write p content).2 = (t.faults.lookup p).map WriteFault.cause :=
  rfl

/-- What is read at a place is the content of the file there. -/
theorem read_eq_ok_iff :
    t.read p = .ok content ↔ t.get? p = some content ∧ t.unreadable.lookup p = none := by
  unfold FileTree.read
  cases t.get? p with
  | none => dsimp only; split <;> simp
  | some old => cases t.unreadable.lookup p <;> simp

end FileTree

/-! ## Mending -/

/-- The text has a code view. -/
def HasView (text : String) : Prop :=
  ∃ code, codeView text.toList = .ok code

/-- Every text that is analysed on the way to mend the text has a code view: the text itself, and
what removal leaves of it if that is sorted. -/
structure Mendable (fix : FixOptions) (text : String) : Prop where
  view : HasView text
  removed : fix.removeUnused = true → fix.sort = true → ∀ text', withoutUnused text =
    .ok text' → HasView text'

section Planned

variable (h : HasView text)
include h

theorem HasView.exists_withoutUnused : ∃ text', withoutUnused text = .ok text' := by
  obtain ⟨code, hcode⟩ := h
  have hrow := @importRow_declarations ⟨text.toList, code⟩ _ hcode
  obtain ⟨text', happlied⟩ :=
    (planned_removal (a := (Document.mk text.toList code).analyze) hrow).applies
  rw [String.ofList_toList] at happlied
  exact ⟨text', withoutUnused_eq (analyze_eq hcode) happlied⟩

theorem HasView.exists_withSortedImports (mode : SortMode) :
    ∃ text', withSortedImports text mode = .ok text' := by
  obtain ⟨code, hcode⟩ := h
  have hrow := @importRow_declarations ⟨text.toList, code⟩ _ hcode
  have hplanned :
      Planned text.toList
      (planSort text.toList (Document.mk text.toList code).analyze mode).toList := by
    cases hplan : planSort text.toList (Document.mk text.toList code).analyze mode with
    | none => exact .nil _
    | some e => exact planned_sort hrow hplan
  obtain ⟨text', happlied⟩ := hplanned.applies
  rw [String.ofList_toList] at happlied
  exact ⟨text', withSortedImports_eq (analyze_eq hcode) happlied⟩

end Planned

/-- **Whatever can be analysed can be mended.** -/
theorem Mendable.exists_fixText (h : Mendable fix text) (mode : SortMode) :
    ∃ fixed, fixText text mode fix = .ok fixed := by
  obtain ⟨removeUnused, sort⟩ := fix
  cases removeUnused with
  | false =>
    cases sort with
    | false => exact ⟨text, rfl⟩
    | true => exact h.view.exists_withSortedImports mode
  | true =>
    obtain ⟨text', hremoved⟩ := h.view.exists_withoutUnused
    cases sort with
    | false => exact ⟨text', bind_ok_iff.mpr ⟨text', hremoved, rfl⟩⟩
    | true =>
      obtain ⟨fixed, hsorted⟩ := (h.removed rfl rfl text' hremoved).exists_withSortedImports mode
      exact ⟨fixed, bind_ok_iff.mpr ⟨text', hremoved, hsorted⟩⟩

/-- The text as which a content is read. -/
def contentText (content : Content) : String :=
  String.ofList (decodeLossy content)

/-- The content after mending; what is not UTF-8 stays as it is. -/
def mended (c : Config) (fix : FixOptions) (content : Content) : Content :=
  match decodeUtf8? content with
  | none => content
  | some cs =>
    match fixText (String.ofList cs) c.sortMode fix with
    | .ok fixed => utf8Bytes fixed.toList
    | .error _ => content

/-- Mending would change the text. -/
def NeedsFix (c : Config) (fix : FixOptions) (content : Content) : Prop :=
  ∃ fixed, fixText (contentText content) c.sortMode fix = .ok fixed ∧ fixed ≠ contentText content

/-- The lines of the findings of a content. -/
def findingLines (c : Config) (path : String) (content : Content) : List String :=
  match analyze (contentText content) with
  | .ok a => (findings a c.diagnosticSeverity).map (findingLine path (contentText content).toList)
  | .error _ => []

theorem mended_of_decodeUtf8? (hcs : decodeUtf8? content = some cs)
    (hfixed : fixText (contentText content) c.sortMode fix = .ok fixed) :
    mended c fix content = utf8Bytes fixed.toList := by
  rw [contentText, decodeLossy_of_decodeUtf8? hcs] at hfixed
  rw [mended, hcs]
  dsimp only
  rw [hfixed]

/-- What is read as its own mended form keeps its bytes. -/
theorem mended_of_fixed
    (hfixed : fixText (contentText content) c.sortMode fix = .ok (contentText content)) :
    mended c fix content = content := by
  cases hcs : decodeUtf8? content with
  | none => rw [mended, hcs]
  | some cs =>
    rw [mended_of_decodeUtf8? hcs hfixed, contentText, String.toList_ofList,
      decodeLossy_of_decodeUtf8? hcs, utf8Bytes_of_decodeUtf8? hcs]

/-- Another text has other bytes. -/
theorem mended_ne (hcs : decodeUtf8? content = some cs)
    (hfixed : fixText (contentText content) c.sortMode fix = .ok fixed)
    (hne : fixed ≠ contentText content) : mended c fix content ≠ content := by
  intro heq
  rw [mended_of_decodeUtf8? hcs hfixed] at heq
  apply hne
  rw [contentText, ← heq, decodeLossy_of_decodeUtf8? (decodeUtf8?_utf8Bytes _),
    String.ofList_toList]

/-- What checking a content comes to: an error, and a content to write. -/
inductive ContentCheck (c : Config) (fix : FixOptions) (content : Content) :
    Option CheckError → Option Content → Prop
  /-- There is nothing to mend. -/
  | sound (hneeds : ¬NeedsFix c fix content) (hmended : mended c fix content = content) :
    ContentCheck c fix content none none
  /-- The text would have to be mended, and is not what the bytes stand for. -/
  | notUtf8 (hbytes : decodeUtf8? content = none) (hneeds : NeedsFix c fix content) :
    ContentCheck c fix content (some .notUtf8) none
  | mends (hbytes : (decodeUtf8? content).isSome = true) (hneeds : NeedsFix c fix content)
    (hmended : mended c fix content ≠ content) :
    ContentCheck c fix content none (some (mended c fix content))

/-- **A content is checked**: the findings are those of its text, and what is to be written is the
mended content. -/
theorem exists_checkContent (h : Mendable fix (contentText content)) (path : String) :
    ∃ error new, checkContent path content c fix =
        .ok ({ findings := findingLines c path content, error }, new) ∧
      ContentCheck c fix content error new := by
  obtain ⟨fixed, hfixed⟩ := h.exists_fixText c.sortMode
  obtain ⟨code, hcode⟩ := h.view
  have hlines : findingLines c path content =
      (findings (Document.mk (contentText content).toList code).analyze c.diagnosticSeverity).map
        (findingLine path (contentText content).toList) := by
    rw [findingLines, analyze_eq hcode]
  have hcheck := @checkText_eq path _ _ c _ fix (analyze_eq hcode) hfixed
  rw [← hlines] at hcheck
  unfold checkContent
  rw [contentText] at hcheck
  rw [hcheck, ← contentText]
  by_cases hsame : fixed = contentText content
  · rw [if_pos hsame]
    refine ⟨none, none, rfl, .sound ?_ (mended_of_fixed (hsame ▸ hfixed))⟩
    rintro ⟨other, hother, hne⟩
    rw [hfixed] at hother
    exact hne (Except.ok.inj hother ▸ hsame)
  · rw [if_neg hsame]
    dsimp only
    cases hcs : decodeUtf8? content with
    | none => exact ⟨_, _, rfl, .notUtf8 hcs ⟨fixed, hfixed, hsame⟩⟩
    | some cs =>
      refine ⟨none, some (mended c fix content), ?_, .mends (hcs ▸ rfl) ⟨fixed, hfixed, hsame⟩
        (mended_ne hcs hfixed hsame)⟩
      rw [mended_of_decodeUtf8? hcs hfixed]
      rfl

/-! ## Turns -/

/-- What the file at a place holds after a check of it, told from what it held before. -/
def afterTurn (t : FileTree) (c : Config) (fix : FixOptions) (p : TreePath) (content : Content) :
    Content :=
  if (t.unreadable.lookup p).isSome ∨ mended c fix content = content then content
  else t.leaves p content (mended c fix content)

/-- The content needs to be mended, and the mended text cannot be written to the place: the content
is not UTF-8, or the writing fails. -/
def FailsAt (t : FileTree) (c : Config) (fix : FixOptions) (p : TreePath) (content : Content) :
    Prop :=
  NeedsFix c fix content ∧
    (decodeUtf8? content = none ∨ (t.faults.lookup p).isSome = true)

/-- **A file is checked**: its findings are reported, the tree changes at its place only, to what
the check leaves there, and an error is reported if a mended text was needed and not written. -/
theorem exists_checkFile (hp : t.locate cwd path = .ok p) (hread : t.read p = .ok content)
    (h : Mendable fix (contentText content)) :
    ∃ report tree, checkFile t cwd path c fix = .ok (.ok (report, tree)) ∧
      report.findings = findingLines c path content ∧
      (report.error.isSome = true ↔ FailsAt t c fix p content) ∧ SameShape t tree ∧
      ∀ q, tree.get? q = if q = p then some (afterTurn t c fix p content) else t.get? q := by
  obtain ⟨error, new, hcheck, houtcome⟩ := exists_checkContent h path
  obtain ⟨hget, hreadable⟩ := FileTree.read_eq_ok_iff.mp hread
  have hfile : checkFile t cwd path c fix = .ok (.ok
      (FileReport.carryOut { findings := findingLines c path content, error } t p new)) := by
    unfold checkFile
    rw [hp]
    dsimp only [bind, Except.bind]
    rw [hread]
    dsimp only [Except.map]
    rw [hcheck]
  have hkept : ∀ q, t.get? q = if q = p then some content else t.get? q := by
    intro q
    split
    · rename_i hq
      rw [hq, hget]
    · rfl
  cases houtcome with
  | sound hneeds hmended =>
    refine ⟨_, t, hfile, rfl, ?_, .refl t, ?_⟩
    · simp [FailsAt, hneeds]
    · simpa [afterTurn, hmended] using hkept
  | notUtf8 hbytes hneeds =>
    refine ⟨_, t, hfile, rfl, ?_, .refl t, ?_⟩
    · simp [FailsAt, hneeds, hbytes]
    · simpa [afterTurn, mended, hbytes] using hkept
  | mends hbytes hneeds hmended =>
    have hsome : decodeUtf8? content ≠ none := Option.isSome_iff_ne_none.mp hbytes
    have htree : ∀ q, (t.write p (mended c fix content)).1.get? q =
        if q = p then some (afterTurn t c fix p content) else t.get? q := by
      intro q
      rw [t.get?_write, hget, Option.map_some, afterTurn, hreadable]
      simp [hmended]
    have hshape := SameShape.write t p (mended c fix content)
    have hwrite := t.write_snd p (mended c fix content)
    rw [FileReport.carryOut] at hfile
    cases hfault : t.faults.lookup p with
    | none =>
      rw [← Prod.eta (t.write p _), hwrite, hfault] at hfile
      refine ⟨_, _, hfile, rfl, ?_, hshape, htree⟩
      simp [FailsAt, hsome, hfault]
    | some fault =>
      rw [← Prod.eta (t.write p _), hwrite, hfault] at hfile
      refine ⟨_, _, hfile, rfl, ?_, hshape, htree⟩
      simp [FailsAt, hneeds, hfault]

/-! ## Runs -/

/-- One turn of a run. -/
structure Visit where
  path : String
  /-- The place that the path leads to and the content that is read there, if there is one. -/
  found : Option (TreePath × Content)

section Runs

variable (t : FileTree) (cwd : TreePath) (c : Config) (fix : FixOptions)

/-- The number of the paths that lead to a place. -/
def leadingTo (paths : List String) (p : TreePath) : Nat :=
  paths.countP fun path => (t.locate cwd path).toOption == some p

/-- What is found at the end of a path when others have been checked before. -/
def foundAfter (before : List String) (path : String) : Option (TreePath × Content) :=
  (t.locate cwd path).toOption.bind fun p =>
    (t.read p).toOption.map fun content =>
      (p, (afterTurn t c fix p)^[leadingTo t cwd before p] content)

/-- Paths, each with what is found at its turn. -/
def visits (before : List String) : List String → List Visit
  | [] => []
  | path :: paths =>
    ⟨path, foundAfter t cwd c fix before path⟩ :: visits (before ++ [path]) paths

/-- Nothing can be read, or what is read needs to be mended and cannot. -/
def Fails (v : Visit) : Prop :=
  v.found = none ∨ ∃ p content, v.found = some (p, content) ∧ FailsAt t c fix p content

/-- What is printed at a turn. -/
def Visit.lines (v : Visit) : List String :=
  v.found.elim [] fun found => findingLines c v.path found.2

/-- What checking the paths has come to: each file has been checked as often as a path led to it,
the findings of what was read are printed path by path, and there are errors if something has
failed. -/
structure Accounted (paths : List String) (r : CheckRun) : Prop where
  shape : SameShape t r.tree
  contents : ∀ p, r.tree.get? p = (t.get? p).map (afterTurn t c fix p)^[leadingTo t cwd paths p]
  output : r.output = (visits t cwd c fix [] paths).flatMap (Visit.lines c)
  failed : r.errors ≠ [] ↔ ∃ v ∈ visits t cwd c fix [] paths, Fails t c fix v

variable {t cwd c fix}

theorem leadingTo_concat (paths : List String) (path : String) (p : TreePath) :
    leadingTo t cwd (paths ++ [path]) p =
      leadingTo t cwd paths p + if (t.locate cwd path).toOption = some p then 1 else 0 := by
  rw [leadingTo, List.countP_append, List.countP_singleton]
  simp only [beq_iff_eq]
  rfl

theorem visits_append (before paths : List String) (path : String) :
    visits t cwd c fix before (paths ++ [path]) =
      visits t cwd c fix before paths ++
        [⟨path, foundAfter t cwd c fix (before ++ paths) path⟩] := by
  induction paths generalizing before with
  | nil => rw [List.append_nil]; rfl
  | cons first paths ih =>
    have hrest := ih (before ++ [first])
    rw [List.append_assoc, List.singleton_append] at hrest
    rw [List.cons_append, visits, visits, hrest, List.cons_append]

theorem foundAfter_eq_some {before : List String}
    (h : foundAfter t cwd c fix before path = some (p, content)) :
    t.locate cwd path = .ok p ∧ t.unreadable.lookup p = none ∧
      ∃ first, t.get? p = some first ∧
        (afterTurn t c fix p)^[leadingTo t cwd before p] first = content := by
  obtain ⟨q, hp, h⟩ := Option.bind_eq_some_iff.mp h
  obtain ⟨first, hread, heq⟩ := Option.map_eq_some_iff.mp h
  obtain ⟨rfl, rfl⟩ := Prod.mk.inj heq
  obtain ⟨hget, hreadable⟩ := FileTree.read_eq_ok_iff.mp (toOption_eq_some_iff.mp hread)
  exact ⟨toOption_eq_some_iff.mp hp, hreadable, first, hget, rfl⟩

/-- A file that cannot be read stays as it is, turn after turn. -/
theorem iterate_afterTurn_of_unreadable (h : (t.unreadable.lookup p).isSome = true) (n : Nat)
    (content : Content) : (afterTurn t c fix p)^[n] content = content :=
  Function.iterate_fixed (by rw [afterTurn, if_pos (.inl h)]) n

namespace Accounted

theorem start (t : FileTree) (cwd : TreePath) (c : Config) (fix : FixOptions) :
    Accounted t cwd c fix [] { tree := t } where
  shape := .refl t
  contents p := by
    change t.get? p = (t.get? p).map id
    rw [Option.map_id_apply]
  output := rfl
  failed := by simp [visits]

variable {r : CheckRun} (h : Accounted t cwd c fix paths r)
include h

/-- What the run reads at a path is what the earlier paths have left there. -/
theorem read_of_found (hfound : foundAfter t cwd c fix paths path = some (p, content)) :
    r.tree.locate cwd path = .ok p ∧ r.tree.read p = .ok content := by
  obtain ⟨hp, hreadable, first, hfirst, hcontent⟩ := foundAfter_eq_some hfound
  refine ⟨h.shape.locate_eq cwd path ▸ hp, FileTree.read_eq_ok_iff.mpr ⟨?_, ?_⟩⟩
  · rw [h.contents, hfirst, Option.map_some, hcontent]
  · rw [h.shape.unreadable, hreadable]

/-- Where the earlier paths have left nothing to read, the run reads nothing. -/
theorem exists_error_of_not_found (hfound : foundAfter t cwd c fix paths path = none) :
    ∃ e, checkFile r.tree cwd path c fix = .ok (.error e) := by
  unfold checkFile
  rw [h.shape.locate_eq]
  cases hp : t.locate cwd path with
  | error e => exact ⟨e, rfl⟩
  | ok p =>
    dsimp only [bind, Except.bind]
    cases hread : r.tree.read p with
    | error e => exact ⟨e, rfl⟩
    | ok content =>
      obtain ⟨hget, hreadable⟩ := FileTree.read_eq_ok_iff.mp hread
      rw [h.contents] at hget
      rw [h.shape.unreadable] at hreadable
      obtain ⟨first, hfirst, -⟩ := Option.map_eq_some_iff.mp hget
      rw [foundAfter, hp] at hfound
      dsimp only [Except.toOption, Option.bind_some] at hfound
      rw [FileTree.read_eq_ok_iff.mpr ⟨hfirst, hreadable⟩] at hfound
      cases hfound

/-- A path at which nothing can be read leaves the tree as it is. -/
theorem add_unreadable (hnone : foundAfter t cwd c fix paths path = none) (line : String) :
    Accounted t cwd c fix (paths ++ [path]) { r with errors := r.errors ++ [line] } where
  shape := h.shape
  contents p := by
    change r.tree.get? p = _
    rw [h.contents, leadingTo_concat]
    split
    · rename_i hp
      -- The path leads to a place without a file, or to a file that no turn changes.
      rw [foundAfter, hp, Option.bind_some, Option.map_eq_none_iff] at hnone
      cases hget : t.get? p with
      | none => rfl
      | some content =>
        cases hreadable : t.unreadable.lookup p with
        | none =>
          rw [FileTree.read_eq_ok_iff.mpr ⟨hget, hreadable⟩] at hnone
          cases hnone
        | some e =>
          have hunreadable : (t.unreadable.lookup p).isSome = true := hreadable ▸ rfl
          simp only [Option.map_some, iterate_afterTurn_of_unreadable hunreadable]
    · rfl
  output := by
    rw [visits_append, List.flatMap_append, ← h.output, List.nil_append, hnone]
    simp [Visit.lines]
  failed := by
    rw [visits_append, List.nil_append, hnone]
    simp [Fails]

/-- A path at which a content is read leaves what its check leaves of it. -/
theorem add_checked (hfound : foundAfter t cwd c fix paths path = some (p, content))
    {tree : FileTree} (hshape : SameShape t tree)
    (htree : ∀ q, tree.get? q = if q = p then some (afterTurn t c fix p content) else r.tree.get? q)
    {errors : List String} (herrors : errors ≠ [] ↔ FailsAt t c fix p content) :
    Accounted t cwd c fix (paths ++ [path])
      ⟨r.output ++ findingLines c path content, r.errors ++ errors, tree⟩ where
  shape := hshape
  contents q := by
    change tree.get? q = _
    obtain ⟨hp, -, first, hfirst, hcontent⟩ := foundAfter_eq_some hfound
    rw [htree, leadingTo_concat, hp, Except.toOption]
    by_cases hq : q = p
    · rw [if_pos hq, hq, hfirst, if_pos rfl, Option.map_some, Function.iterate_succ_apply',
        hcontent]
    · rw [if_neg hq, if_neg fun heq => hq (Option.some.inj heq).symm, h.contents]
      rfl
  output := by
    rw [visits_append, List.flatMap_append, ← h.output, List.nil_append, hfound]
    simp [Visit.lines]
  failed := by
    rw [visits_append, List.nil_append, hfound]
    simp only [ne_eq, List.append_eq_nil_iff, not_and_or, List.mem_append, List.mem_singleton,
      or_and_right, exists_or, exists_eq_left]
    refine or_congr h.failed (herrors.trans ?_)
    simp [Fails]

theorem failsAt_iff (p : TreePath) (content : Content) :
    FailsAt r.tree c fix p content ↔ FailsAt t c fix p content := by
  rw [FailsAt, FailsAt, h.shape.faults]

theorem afterTurn_eq (p : TreePath) (content : Content) :
    afterTurn r.tree c fix p content = afterTurn t c fix p content := by
  rw [afterTurn, afterTurn, h.shape.unreadable, h.shape.leaves_eq]

/-- **One more path**: it is checked, and the run is accounted for again. -/
theorem add (hmend : ∀ p content,
      foundAfter t cwd c fix paths path = some (p, content) → Mendable fix (contentText content)) :
    ∃ r', r.add cwd c fix path = .ok r' ∧ Accounted t cwd c fix (paths ++ [path]) r' := by
  unfold CheckRun.add
  cases hfound : foundAfter t cwd c fix paths path with
  | none =>
    obtain ⟨e, he⟩ := h.exists_error_of_not_found hfound
    rw [he]
    exact ⟨_, rfl, h.add_unreadable hfound _⟩
  | some found =>
    obtain ⟨p, content⟩ := found
    obtain ⟨hp, hread⟩ := h.read_of_found hfound
    obtain ⟨report, tree, hcheck, hlines, herror, hshape, htree⟩ :=
      exists_checkFile hp hread (hmend p content hfound)
    rw [hcheck]
    refine ⟨_, rfl, hlines ▸ h.add_checked hfound (h.shape.trans hshape) (fun q => ?_) ?_⟩
    · rw [htree, h.afterTurn_eq]
    · rw [← h.failsAt_iff, ← herror]
      cases report.error <;> simp

/-- **All paths**: by induction, each adds to what the ones before it have come to. -/
theorem run (rest : List String)
    (hmend : ∀ v ∈ visits t cwd c fix paths rest, ∀ p content, v.found = some (p, content) →
      Mendable fix (contentText content)) :
    ∃ r', rest.foldlM (fun r path => r.add cwd c fix path) r = .ok r' ∧
      Accounted t cwd c fix (paths ++ rest) r' := by
  induction rest generalizing paths r with
  | nil => exact ⟨r, rfl, (List.append_nil paths).symm ▸ h⟩
  | cons path rest ih =>
    rw [visits, List.forall_mem_cons] at hmend
    obtain ⟨r', hr', hadded⟩ := h.add hmend.1
    obtain ⟨last, hlast, hall⟩ := ih hadded hmend.2
    refine ⟨last, ?_, by rwa [List.append_assoc, List.singleton_append] at hall⟩
    rw [List.foldlM_cons]
    exact bind_ok_iff.mpr ⟨r', hr', hlast⟩

end Accounted

end Runs

/-! ## What a run comes to -/

end UseImports
