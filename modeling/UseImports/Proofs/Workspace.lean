import UseImports.Proofs.Code.View
import UseImports.Proofs.Edit.NameOrder
import UseImports.Proofs.Text.Distinct
import UseImports.Workspace
import Mathlib.Data.List.Sort

/-!
# What the search for a class finds

Files may be listed in any order and more than once, and some cannot be read. None of this matters
to the search (`resolve_class`): it comes to what the set of the files comes to that declare the
class.

* `Candidate.le_trans`, `Candidate.le_total`: candidates are put in order by their paths.
* `FileSource.Declaring`: the files that the search is about.
* `SettledBy`: what the search comes to, given these files.
* `SettledBy.unique`: **the files settle the matter.**
* `resolveClass_eq`: the search as one pass over the files that it reads.
* `resolution_exact`: the search comes to what the declaring files come to.
-/

namespace UseImports

variable {c d : Candidate} {src : FileSource} {className : String} {files : List TreePath}
    {exclude : List String} {r : Resolution} {cs : List Candidate} {selection : Option String}

/-! ## The order of candidates -/

/-- The order of names by their bytes. -/
def compareNames (a b : String) : Ordering :=
  compareBytes (nameBytes a) (nameBytes b)

instance : Std.TransCmp compareNames :=
  transCmp_by compareBytes nameBytes

instance : Std.LawfulEqCmp compareNames where
  compare_self := Std.ReflCmp.compare_self
  eq_of_compare h :=
    nameBytes_injective (@Std.LawfulEqCmp.eq_of_compare _ (List.compareLex compare) _ _ _ h)

namespace Candidate

instance : Std.TransCmp comparePaths :=
  inferInstanceAs (Std.TransCmp (List.compareLex compareNames))

instance : Std.LawfulEqCmp comparePaths :=
  inferInstanceAs (Std.LawfulEqCmp (List.compareLex compareNames))

/-- The bytes by which namespaces are compared: those of a namespace come behind the empty string of
none. -/
def parentBytes : Option String → List UInt8
  | none => []
  | some a => 0 :: nameBytes a

theorem compareParents_eq (a b : Option String) :
    compareParents a b = compareBytes (parentBytes a) (parentBytes b) := by
  cases a <;> cases b <;> rfl

instance : Std.TransCmp compareParents := by
  have := transCmp_by compareBytes parentBytes
  rwa [← funext₂ compareParents_eq] at this

theorem compare_eq : compare = compareLex (fun c d => comparePaths c.path d.path)
    (compareLex (fun c d => compareParents c.parent d.parent) fun c d =>
      compareNames c.fqn d.fqn) := rfl

instance : Std.TransCmp compare := by
  have := transCmp_by comparePaths path
  have := transCmp_by compareParents parent
  have := transCmp_by compareNames fqn
  rw [compare_eq]
  infer_instance

theorem le_iff : c.le d = true ↔ (compare c d).isLE = true := by
  rw [le]
  cases compare c d <;> simp

theorem le_trans (c d e : Candidate) (hcd : c.le d = true) (hde : d.le e = true) : c.le e = true :=
  le_iff.mpr (Std.TransCmp.isLE_trans (le_iff.mp hcd) (le_iff.mp hde))

theorem le_total (c d : Candidate) : (c.le d || d.le c) = true := by
  rw [Bool.or_eq_true, le_iff, le_iff, @Std.OrientedCmp.eq_swap _ compare _ d]
  cases compare c d <;> simp

end Candidate

/-! ## Files -/

namespace FileSource

/-- The document that a file holds, if it can be read and has a code view. -/
def documentAt? (src : FileSource) (p : TreePath) : Option Document :=
  (src.read p).bind fun content =>
  (Document.ofString (String.ofList (decodeLossy content))).toOption

/-- The file can be read, and its text declares the class. -/
def Declares (src : FileSource) (className : String) (p : TreePath) : Prop :=
  ∃ doc, src.documentAt? p = some doc ∧ className ∈ doc.declaredClasses

/-- The files that the search reads: those that bear the name of the class, and all PHP files if
none of them declares it. -/
def Searches (src : FileSource) (className : String) (exclude : List String) (p : TreePath) :
    Prop :=
  p ∈ src.find (namedFilePattern className) exclude ∨
    p ∈ src.find allFilesPattern exclude ∧
      ∀ q ∈ src.find (namedFilePattern className) exclude, ¬ src.Declares className q

/-- The files that the search is about: of those that bear the name of the class the ones that
declare it, or of all PHP files if there are none. -/
def Declaring (src : FileSource) (className : String) (exclude : List String) (p : TreePath) :
    Prop :=
  src.Declares className p ∧ src.Searches className exclude p

/-- What a file that declares the class makes of it: the full name puts the namespace of the file in
front. -/
structure IsCandidate (src : FileSource) (className : String) (c : Candidate) : Prop where
  exists_document : ∃ doc, src.documentAt? c.path = some doc ∧ className ∈ doc.declaredClasses ∧
    c.parent = doc.ownNamespace?.map (·.name)
  fqn : c.fqn = c.parent.elim className fun parent => parent ++ "\\" ++ className

/-- Every text that the search reads has a code view. -/
def Readable (src : FileSource) (className : String) (exclude : List String) : Prop :=
  ∀ p, src.Searches className exclude p → ∀ content, src.read p = some content →
    ∃ doc, Document.ofString (String.ofList (decodeLossy content)) = .ok doc

/-- The candidate of a file. -/
def candidateAt? (src : FileSource) (className : String) (p : TreePath) : Option Candidate :=
  (src.documentAt? p).bind fun doc => doc.candidate? p className

variable {p : TreePath}

theorem candidateAt?_eq_some_iff :
    src.candidateAt? className p = some c ↔ c.path = p ∧ src.IsCandidate className c := by
  unfold candidateAt? Document.candidate?
  constructor
  · intro h
    obtain ⟨doc, hdoc, hc⟩ := Option.bind_eq_some_iff.mp h
    split at hc
    · rename_i hdeclared
      cases hc
      refine ⟨rfl, ⟨doc, hdoc, by simpa using hdeclared, rfl⟩, ?_⟩
      dsimp only
      cases doc.ownNamespace?.map (·.name) <;> rfl
    · cases hc
  · rintro ⟨rfl, ⟨doc, hdoc, hdeclared, hparent⟩, hfqn⟩
    refine Option.bind_eq_some_iff.mpr ⟨doc, hdoc, ?_⟩
    rw [if_pos (by simpa using hdeclared)]
    obtain ⟨path, parent, fqn⟩ := c
    obtain rfl : parent = doc.ownNamespace?.map (·.name) := hparent
    dsimp only at hfqn ⊢
    rw [hfqn]
    cases doc.ownNamespace?.map (·.name) <;> rfl

/-- A file that declares the class has a candidate. -/
theorem declares_iff : src.Declares className p ↔ ∃ c, src.candidateAt? className p = some c := by
  constructor
  · rintro ⟨doc, hdoc, hdeclared⟩
    let parent := doc.ownNamespace?.map (·.name)
    exact ⟨⟨p, parent, parent.elim className fun parent => parent ++ "\\" ++ className⟩,
      candidateAt?_eq_some_iff.mpr ⟨rfl, ⟨doc, hdoc, hdeclared, rfl⟩, rfl⟩⟩
  · rintro ⟨c, hc⟩
    obtain ⟨rfl, ⟨doc, hdoc, hdeclared, -⟩, -⟩ := candidateAt?_eq_some_iff.mp hc
    exact ⟨doc, hdoc, hdeclared⟩

/-- A file has one candidate. -/
theorem IsCandidate.unique (hc : src.IsCandidate className c) (hd : src.IsCandidate className d)
    (hpath : c.path = d.path) : c = d := by
  have hc' := candidateAt?_eq_some_iff.mpr ⟨hpath, hc⟩
  have hd' := candidateAt?_eq_some_iff.mpr ⟨rfl, hd⟩
  exact Option.some.inj (hc'.symm.trans hd')

end FileSource

/-! ## Scanning -/

theorem mapM_eq_ok {α β ε : Type} {f : α → Except ε β} {g : α → β} {xs : List α}
    (h : ∀ x ∈ xs, f x = .ok (g x)) :
    xs.mapM f = .ok (xs.map g) := by
  induction xs with
  | nil => rfl
  | cons x xs ih =>
    rw [List.mapM_cons, h x List.mem_cons_self, ih fun y hy => h y (List.mem_cons_of_mem x hy)]
    rfl

/-- The candidates of files all of whose texts have a code view. -/
theorem scanFiles_eq (h : ∀ p ∈ files, ∀ content, src.read p = some content →
      ∃ doc, Document.ofString (String.ofList (decodeLossy content)) = .ok doc) :
    scanFiles src className files = .ok (files.filterMap (src.candidateAt? className)) := by
  unfold scanFiles
  rw [mapM_eq_ok (g := src.candidateAt? className)]
  · change Except.ok ((files.map (src.candidateAt? className)).filterMap id) = _
    rw [List.filterMap_map]
    rfl
  · intro p hp
    unfold FileSource.candidateAt? FileSource.documentAt?
    cases hread : src.read p with
    | none => rfl
    | some content =>
      obtain ⟨doc, hdoc⟩ := h p hp content hread
      rw [Option.bind_some, hdoc]
      dsimp only
      rw [candidate?, hdoc]
      rfl

/-- The files that the search comes down to: those that bear the name of the class if one of them
declares it, and else all PHP files. -/
def searchedFiles (src : FileSource) (className : String) (exclude : List String) : List TreePath :=
  let named := src.find (namedFilePattern className) exclude
  if (named.filterMap (src.candidateAt? className)).isEmpty then src.find allFilesPattern exclude
    else named

theorem filterMap_candidateAt?_isEmpty :
    (files.filterMap (src.candidateAt? className)).isEmpty = true ↔
      ∀ p ∈ files, ¬ src.Declares className p := by
  rw [List.isEmpty_iff, List.filterMap_eq_nil_iff]
  refine forall₂_congr fun p _ => ?_
  rw [FileSource.declares_iff, Option.eq_none_iff_forall_ne_some, not_exists]

/-- **The search as one pass** over the files that it comes down to. -/
theorem resolveClass_eq (h : src.Readable className exclude) : resolveClass src className exclude =
      .ok (settle ((searchedFiles src className exclude).filterMap
        (src.candidateAt? className))) := by
  unfold resolveClass searchedFiles
  rw [scanFiles_eq fun p hp => h p (.inl hp)]
  dsimp only
  by_cases hnone : ((src.find (namedFilePattern className) exclude).filterMap
      (src.candidateAt? className)).isEmpty = true
  · rw [if_pos hnone, scanFiles_eq fun p hp =>
      h p (.inr ⟨hp, filterMap_candidateAt?_isEmpty.mp hnone⟩)]
    exact if_pos hnone
  · rw [if_neg hnone]
    exact if_neg hnone

/-! ## Settling -/

theorem dedupByPath_cons (c : Candidate) (cs : List Candidate) :
    dedupByPath (c :: cs) = c :: dedupByPath (cs.dropWhile fun d => d.path = c.path) := by
  induction cs generalizing c with
  | nil => rfl
  | cons d cs ih =>
    rw [dedupByPath, ih d, List.dropWhile_cons]
    by_cases hpath : c.path = d.path
    · simp [hpath]
    · simp only [hpath, Ne.symm hpath, if_false, decide_false, Bool.false_eq_true]
      rw [ih d]

theorem keepsFirst_dedupByPath : KeepsFirst Candidate.path dedupByPath :=
  ⟨rfl, dedupByPath_cons⟩

/-- The first candidate comes before the second by its path. -/
def Candidate.Before (c d : Candidate) : Prop :=
  comparePaths c.path d.path = .lt

instance : Std.Irrefl Candidate.Before where
  irrefl c h := by
    have heq : Candidate.comparePaths c.path c.path = .eq := Std.ReflCmp.compare_self
    rw [Candidate.Before, heq] at h
    cases h

instance : Std.Antisymm Candidate.Before where
  antisymm c d h h' := by
    have hswap : Candidate.comparePaths c.path d.path = _ := Std.OrientedCmp.eq_swap
    rw [Candidate.Before, hswap, h'] at h
    cases h

/-- **The candidates that are left come in the strict order of their paths.** -/
theorem pairwise_dedupByPath (cs : List Candidate) :
    (dedupByPath (cs.mergeSort Candidate.le)).Pairwise Candidate.Before := by
  have hsorted : (cs.mergeSort Candidate.le).Pairwise fun c d =>
      (Candidate.comparePaths c.path d.path).isLE = true := by
    refine (List.pairwise_mergeSort Candidate.le_trans Candidate.le_total cs).imp fun {c d} h => ?_
    rw [Candidate.le_iff, Candidate.compare_eq, compareLex] at h
    cases hpaths : Candidate.comparePaths c.path d.path <;> rw [hpaths] at h
    · rfl
    · rfl
    · exact h
  have hkept := keepsFirst_dedupByPath.pairwise
    (r := fun p q => (Candidate.comparePaths p q).isLE = true) (fun hle hge => ?_) hsorted
  · refine hkept.imp fun {c d} h => ?_
    unfold Candidate.Before
    cases hpaths : Candidate.comparePaths c.path d.path with
    | lt => rfl
    | eq => exact absurd (Std.LawfulEqCmp.eq_of_compare hpaths) h.2
    | gt =>
      rw [hpaths] at h
      cases h.1
  · exact Std.LawfulEqCmp.eq_of_compare (Std.OrientedCmp.isLE_antisymm hle hge)

/-- What a search comes to when `declaring` tells the files that declare the class, and
`isCandidate` what they make of it. -/
inductive SettledBy (declaring : TreePath → Prop) (isCandidate : Candidate → Prop) :
    Resolution → Prop
  | notFound : (∀ p, ¬ declaring p) → SettledBy declaring isCandidate .notFound
  | found {c : Candidate} : (∀ p, declaring p ↔ p = c.path) → isCandidate c →
      SettledBy declaring isCandidate (.found c)
  | needsChoice {cs : List Candidate} : 2 ≤ cs.length → (∀ p, declaring p ↔ ∃ c ∈ cs, c.path = p) →
      (∀ c ∈ cs, isCandidate c) → cs.Pairwise Candidate.Before →
      SettledBy declaring isCandidate (.needsChoice cs)

/-- What candidates in strict order amount to. -/
def Resolution.ofListed : List Candidate → Resolution
  | [] => .notFound
  | [c] => .found c
  | cs => .needsChoice cs

section Settling

variable {declaring : TreePath → Prop} {isCandidate : Candidate → Prop}

/-- The candidates of the declaring files, in strict order. -/
structure Listing (declaring : TreePath → Prop) (isCandidate : Candidate → Prop)
    (cs : List Candidate) : Prop where
  files : ∀ p, declaring p ↔ ∃ c ∈ cs, c.path = p
  candidates : ∀ c ∈ cs, isCandidate c
  ordered : cs.Pairwise Candidate.Before

theorem settledBy_iff : SettledBy declaring isCandidate r ↔
    ∃ cs, Listing declaring isCandidate cs ∧ r = .ofListed cs := by
  constructor
  · intro h
    cases h with
    | notFound hnone =>
      refine ⟨[], ⟨fun p => ⟨fun h => absurd h (hnone p), ?_⟩,
        fun c hc => absurd hc List.not_mem_nil, .nil⟩, rfl⟩
      rintro ⟨c, hc, -⟩
      cases hc
    | @found c hfiles hc =>
      refine ⟨[c], ⟨fun p => ?_, fun d hd => List.mem_singleton.mp hd ▸ hc,
        List.pairwise_singleton _ _⟩, rfl⟩
      rw [hfiles p]
      simp [eq_comm]
    | @needsChoice cs hlen hfiles hcs hordered =>
      refine ⟨cs, ⟨hfiles, hcs, hordered⟩, ?_⟩
      rcases cs with _ | ⟨c, _ | ⟨d, cs⟩⟩
      · cases hlen
      · exact absurd hlen (by simp)
      · rfl
  · rintro ⟨cs, h, rfl⟩
    rcases cs with _ | ⟨c, _ | ⟨d, cs⟩⟩
    · refine .notFound fun p hp => ?_
      obtain ⟨c, hc, -⟩ := (h.files p).mp hp
      cases hc
    · exact .found (fun p =>
        (h.files p).trans (by simp [eq_comm])) (h.candidates c List.mem_cons_self)
    · exact .needsChoice (by simp) h.files h.candidates h.ordered

/-- **The files settle the matter**, if each makes one candidate. -/
theorem SettledBy.unique
    (hunique : ∀ {c d}, isCandidate c → isCandidate d → c.path = d.path → c = d) {r' : Resolution}
    (h : SettledBy declaring isCandidate r) (h' : SettledBy declaring isCandidate r') : r = r' := by
  obtain ⟨cs, hcs, rfl⟩ := settledBy_iff.mp h
  obtain ⟨ds, hds, rfl⟩ := settledBy_iff.mp h'
  have hmem : ∀ {L : List Candidate}, Listing declaring isCandidate L →
      ∀ c, c ∈ L ↔ isCandidate c ∧ declaring c.path := by
    intro L hL c
    refine ⟨fun hc => ⟨hL.candidates c hc, (hL.files c.path).mpr ⟨c, hc, rfl⟩⟩, fun ⟨hc, hp⟩ => ?_⟩
    obtain ⟨d, hd, hpath⟩ := (hL.files c.path).mp hp
    exact hunique (hL.candidates d hd) hc hpath ▸ hd
  congr 1
  exact List.Pairwise.eq_of_mem_iff hcs.ordered hds.ordered fun c => by rw [hmem hcs, hmem hds]

theorem SettledBy.congr {declaring' : TreePath → Prop} {isCandidate' : Candidate → Prop}
    (hfiles : ∀ p, declaring' p ↔ declaring p)
    (hcandidates : ∀ c, declaring c.path → isCandidate c → isCandidate' c)
    (h : SettledBy declaring isCandidate r) : SettledBy declaring' isCandidate' r := by
  obtain ⟨cs, hcs, rfl⟩ := settledBy_iff.mp h
  refine settledBy_iff.mpr ⟨cs, ⟨fun p => (hfiles p).trans (hcs.files p),
    fun c hc => ?_, hcs.ordered⟩, rfl⟩
  exact hcandidates c ((hcs.files c.path).mpr ⟨c, hc, rfl⟩) (hcs.candidates c hc)

/-- Candidates are settled by their files, in whatever order they come and however often. -/
theorem settledBy_settle (hfiles : ∀ p, declaring p ↔ ∃ c ∈ cs, c.path = p)
    (hcs : ∀ c ∈ cs, isCandidate c) : SettledBy declaring isCandidate (settle cs) := by
  refine settledBy_iff.mpr ⟨dedupByPath (cs.mergeSort Candidate.le), ⟨fun p => ?_, fun c hc => ?_,
    pairwise_dedupByPath cs⟩, rfl⟩
  · rw [hfiles p]
    constructor
    · rintro ⟨c, hc, rfl⟩
      exact keepsFirst_dedupByPath.exists_mem ((List.mergeSort_perm cs Candidate.le).mem_iff.mpr hc)
    · rintro ⟨c, hc, hpath⟩
      have := (keepsFirst_dedupByPath.sublist _).subset hc
      exact ⟨c, (List.mergeSort_perm cs Candidate.le).mem_iff.mp this, hpath⟩
  · have := (keepsFirst_dedupByPath.sublist _).subset hc
    exact hcs c ((List.mergeSort_perm cs Candidate.le).mem_iff.mp this)

end Settling

/-! ## The search -/

/-- The search is about the declaring ones of the files that it comes down to. -/
theorem declaring_iff (p : TreePath) : src.Declaring className exclude p ↔
    ∃ c ∈ (searchedFiles src className exclude).filterMap (src.candidateAt? className),
      c.path = p := by
  have hdeclares : ∀ files : List TreePath, src.Declares className p ∧ p ∈ files ↔
      ∃ c ∈ files.filterMap (src.candidateAt? className), c.path = p := by
    intro files
    rw [FileSource.declares_iff]
    constructor
    · rintro ⟨⟨c, hc⟩, hp⟩
      exact ⟨c, List.mem_filterMap.mpr ⟨p, hp, hc⟩, (FileSource.candidateAt?_eq_some_iff.mp hc).1⟩
    · rintro ⟨c, hc, rfl⟩
      obtain ⟨q, hq, hqc⟩ := List.mem_filterMap.mp hc
      obtain rfl := (FileSource.candidateAt?_eq_some_iff.mp hqc).1
      exact ⟨⟨c, hqc⟩, hq⟩
  unfold searchedFiles FileSource.Declaring FileSource.Searches
  dsimp only
  split
  · rename_i hnone
    rw [filterMap_candidateAt?_isEmpty] at hnone
    rw [← hdeclares]
    refine and_congr_right fun hp => ⟨?_, fun hall => .inr ⟨hall, hnone⟩⟩
    rintro (hnamed | ⟨hall, -⟩)
    · exact absurd hp (hnone p hnamed)
    · exact hall
  · rename_i hsome
    rw [filterMap_candidateAt?_isEmpty] at hsome
    rw [← hdeclares]
    refine and_congr_right fun hp => ⟨?_, .inl⟩
    rintro (hnamed | ⟨-, hnone⟩)
    · exact hnamed
    · exact absurd hnone hsome

theorem settledBy_resolveClass (h : src.Readable className exclude) :
    ∃ r, resolveClass src className exclude = .ok r ∧
      SettledBy (src.Declaring className exclude) (src.IsCandidate className) r := by
  refine ⟨_, resolveClass_eq h, settledBy_settle declaring_iff fun c hc => ?_⟩
  obtain ⟨p, -, hp⟩ := List.mem_filterMap.mp hc
  exact (FileSource.candidateAt?_eq_some_iff.mp hp).2

/-- The search comes to the same in two sources with the same declaring files. -/
theorem resolveClass_congr {src' : FileSource} {exclude' : List String}
    (h : src.Readable className exclude) (h' : src'.Readable className exclude')
    (hfiles : ∀ p, src'.Declaring className exclude' p ↔ src.Declaring className exclude p)
    (hread : ∀ p, src.Declaring className exclude p → src'.documentAt? p = src.documentAt? p) :
    resolveClass src' className exclude' = resolveClass src className exclude := by
  obtain ⟨r, hr, hsettled⟩ := settledBy_resolveClass h
  obtain ⟨r', hr', hsettled'⟩ := settledBy_resolveClass h'
  have hcandidates : ∀ c : Candidate, src.Declaring className exclude c.path →
      src.IsCandidate className c →
      src'.IsCandidate className c := by
    rintro c hp ⟨⟨doc, hdoc, hdeclared⟩, hfqn⟩
    exact ⟨⟨doc, (hread c.path hp).trans hdoc, hdeclared⟩, hfqn⟩
  rw [hr, hr', (hsettled.congr hfiles hcandidates).unique FileSource.IsCandidate.unique hsettled']

/-! ## Choosing -/

theorem choose_eq_found (h : choose cs selection = .found c) : c ∈ cs ∧ selection = some c.fqn := by
  unfold choose at h
  split at h
  · cases h
  · rename_i fqn
    split at h
    · rename_i d hd
      cases h
      have hfqn : c.fqn = fqn := by simpa using List.find?_some hd
      exact ⟨List.mem_of_find?_eq_some hd, by rw [hfqn]⟩
    · cases h

theorem choose_eq_cancelled_iff :
    choose cs selection = .cancelled ↔ selection = none ∨ ∀ c ∈ cs, selection ≠ some c.fqn := by
  unfold choose
  split
  · simp
  · rename_i fqn
    split
    · rename_i d hd
      have hfqn : d.fqn = fqn := by simpa using List.find?_some hd
      refine ⟨fun h => absurd h (by simp), ?_⟩
      rintro (h | h)
      · cases h
      · exact absurd (by rw [hfqn]) (h d (List.mem_of_find?_eq_some hd))
    · rename_i hnone
      rw [List.find?_eq_none] at hnone
      refine ⟨fun _ => .inr fun c hc heq => hnone c hc ?_, fun _ => rfl⟩
      rw [Option.some.inj heq, beq_self_eq_true]

theorem choose_cases (cs : List Candidate) (selection : Option String) :
    choose cs selection = .cancelled ∨ ∃ c, choose cs selection = .found c := by
  unfold choose
  split
  · exact .inl rfl
  · split
    · exact .inr ⟨_, rfl⟩
    · exact .inl rfl

/-- **The search for a class is exact and does not depend on the order of the files**: it comes to
what the files come to that can be read and declare the class, those that bear its name before all
others. The same files listed in another order, more than once, or together with others come to the
same. A choice among the candidates is settled by the full name of one of them and by nothing else.
-/
theorem resolution_exact {src : FileSource} {className : String} {exclude : List String}
    (h : src.Readable className exclude) :
    (∃ r, resolveClass src className exclude = .ok r ∧
      SettledBy (src.Declaring className exclude) (src.IsCandidate className) r) ∧
    (∀ (src' : FileSource) (exclude' : List String), src'.Readable className exclude' →
      (∀ p, src'.Declaring className exclude' p ↔ src.Declaring className exclude p) →
      (∀ p, src.Declaring className exclude p → src'.documentAt? p = src.documentAt? p) →
      resolveClass src' className exclude' = resolveClass src className exclude) ∧
    ∀ (cs : List Candidate) (selection : Option String),
      (∀ c, choose cs selection = .found c → c ∈ cs ∧ selection = some c.fqn) ∧
      (choose cs selection = .cancelled ↔ selection = none ∨ ∀ c ∈ cs, selection ≠ some c.fqn) ∧
      (choose cs selection = .cancelled ∨ ∃ c, choose cs selection = .found c) :=
  ⟨settledBy_resolveClass h, fun _ _ h' hfiles hread => resolveClass_congr h h' hfiles hread,
    fun cs selection =>
      ⟨fun _ => choose_eq_found, choose_eq_cancelled_iff, choose_cases cs selection⟩⟩

/-- The bytes of an ASCII text. -/
def asciiContent (text : String) : Content :=
  text.toList.map fun c => UInt8.ofNat c.toNat

/-- Two files that declare a class and one that cannot be read, in no order and one of them twice.
-/
def twoUsers : FileSource where
  find pattern _ :=
    if pattern = "**/User.php" then
      [["b", "User.php"], ["a", "User.php"], ["gone", "User.php"], ["b", "User.php"]]
    else []
  read p :=
    if p = ["a", "User.php"] then some (asciiContent "<?php\nnamespace A;\nclass User {}\n")
    else if p = ["b", "User.php"] then some (asciiContent "<?php\nclass User {}\n")
    else none

/-- The two that declare the class are listed once, and in the order of their paths. -/
theorem resolution_exact_users : twoUsers.Readable "User" [] ∧
    resolveClass twoUsers "User" [] = .ok (.needsChoice
      [⟨["a", "User.php"], some "A", "A\\User"⟩, ⟨["b", "User.php"], none, "User"⟩]) := by
  have hreadable : twoUsers.Readable "User" [] := by
    have hfiles : ∀ p ∈ twoUsers.find "**/User.php" [], ∀ content ∈ twoUsers.read p,
        (Document.ofString (String.ofList (decodeLossy content))).isOk = true := by decide +kernel
    rintro p (hp | ⟨hp, -⟩) content hcontent
    · have hok := hfiles p hp content hcontent
      cases hdoc : Document.ofString (String.ofList (decodeLossy content)) with
      | ok doc => exact ⟨doc, rfl⟩
      | error e =>
        rw [hdoc] at hok
        cases hok
    · cases hp
  have hfound : (searchedFiles twoUsers "User" []).filterMap (twoUsers.candidateAt? "User") =
      [⟨["b", "User.php"], none, "User"⟩, ⟨["a", "User.php"], some "A", "A\\User"⟩,
        ⟨["b", "User.php"], none, "User"⟩] := by decide +kernel
  have hchoice :
      SettledBy (twoUsers.Declaring "User" []) (twoUsers.IsCandidate "User") (.needsChoice
      [⟨["a", "User.php"], some "A", "A\\User"⟩, ⟨["b", "User.php"], none, "User"⟩]) := by
    refine .needsChoice (by decide) (fun p => ?_) (fun c hc => ?_) ?_
    · rw [declaring_iff, hfound]
      simp only [List.exists_mem_cons_iff, List.not_mem_nil, false_and, exists_false, or_false]
      tauto
    · have hc' :
          c ∈ (searchedFiles twoUsers "User" []).filterMap (twoUsers.candidateAt? "User") := by
        rw [hfound]
        exact List.mem_cons_of_mem _ hc
      obtain ⟨p, -, hp⟩ := List.mem_filterMap.mp hc'
      exact (FileSource.candidateAt?_eq_some_iff.mp hp).2
    · exact List.pairwise_pair.mpr (by unfold Candidate.Before; decide +kernel)
  obtain ⟨⟨r, hr, hsettled⟩, -, -⟩ := resolution_exact hreadable
  exact ⟨hreadable, by rw [hr, hsettled.unique FileSource.IsCandidate.unique hchoice]⟩

end UseImports
