import UseImports.Proofs.Code.Splice
import UseImports.Proofs.Code.References

/-!
# Classes around import statements

A class-like declaration is a keyword and the word behind it, wherever they stand. In an import
statement two words stand behind each other only at its keywords, so that what follows a word like
`class` there is the `as` of an alias, which is no class name. The classes that a code declares
(`declared_classes`) do not depend on its runs.

* `ClassFree`: a text that declares no class, whatever is put around it.
* `IsStatement.classFree`: **an import statement declares no class**, if its keywords are in ASCII.
* `classesOf_append`, `Run.classesOf_eq`: the classes of a code, piece by piece.
-/

namespace UseImports

open Placed Cursor

variable {a B b body cs g k s v ws : List Char} {name w : String} {c : Char} {clause : Clause}
    {offset : Nat}

/-! ## Class keywords -/

/-- The keywords of class-like declarations. -/
def classWords : List String :=
  ["class", "interface", "trait", "enum"]

theorem isIdent_of_classWords (h : ∃ w ∈ classWords, k.map foldLetter = w.toList) : IsIdent k := by
  obtain ⟨w, hw, hfold⟩ := h
  have hlower : ∀ w ∈ classWords, w.toList ≠ [] ∧ ∀ x ∈ w.toList, x.isLower = true := by decide
  exact isIdent_of_folded (hlower w hw).1 (hlower w hw).2 hfold

/-- A class keyword and the word behind it, in a text. -/
structure ClassAt (cs P k g v R : List Char) : Prop where
  text : cs = P ++ (k ++ (g ++ (v ++ R)))
  front : P.getLast?.any isWordChar = false
  keyword : ∃ w ∈ classWords, k.map foldLetter = w.toList
  gap_ne : g ≠ []
  gap : ∀ c ∈ g, isBlank c = true
  word : IsIdent v
  rest : R.head?.any isWordChar = false

/-- What follows a class keyword in the text is never a class name. -/
def ClassFree (cs : List Char) : Prop :=
  ∀ P k g v R, ClassAt cs P k g v R → isReserved (String.ofList v) = true

namespace ClassAt

variable {P R : List Char}

theorem isIdent_keyword (h : ClassAt cs P k g v R) : IsIdent k :=
  isIdent_of_classWords h.keyword

theorem keyword_ne (h : ClassAt cs P k g v R) : k ≠ [] :=
  h.isIdent_keyword.ne_nil

theorem isWordChar_keyword (h : ClassAt cs P k g v R) : ∀ c ∈ k, isWordChar c = true :=
  h.isIdent_keyword.word

/-- The keyword is none of an import statement. -/
theorem keyword_ne_of_folded (h : ClassAt cs P k g v R) (hw : w ∉ classWords) :
    k.map foldLetter ≠ w.toList := by
  obtain ⟨w', hw', hfold⟩ := h.keyword
  intro heq
  rw [hfold] at heq
  exact hw (String.toList_inj.mp heq ▸ hw')

theorem mem_block (h : ClassAt cs P k g v R) (hc : c ∈ k ++ (g ++ v)) :
    isWordChar c = true ∨ isBlank c = true := by
  rcases List.mem_append.mp hc with hc | hc
  · exact .inl (h.isWordChar_keyword c hc)
  rcases List.mem_append.mp hc with hc | hc
  · exact .inr (h.gap c hc)
  · exact .inl (h.word.word c hc)

/-- In a text of two parts the keyword and the word stand in one of them, or on both sides of the
cut. -/
theorem cut (h : ClassAt (a ++ b) P k g v R) :
    (∃ P', ClassAt b P' k g v R) ∨ (∃ R', ClassAt a P k g v R') ∨
      ∃ t t', t ≠ [] ∧ t' ≠ [] ∧ k ++ (g ++ v) = t ++ t' ∧ a = P ++ t ∧ b = t' ++ R := by
  rcases append_eq_append_cases h.text with ⟨P', rfl, hrest⟩ | ⟨x, t, rfl, hrest⟩
  · exact .inl ⟨P', hrest, any_getLast?_append h.front, h.keyword, h.gap_ne, h.gap, h.word, h.rest⟩
  have hblock : (x :: t) ++ b = (k ++ (g ++ v)) ++ R := by
    rw [← hrest]
    simp
  rcases append_eq_append_cases hblock with ⟨t', hsplit, hb⟩ | ⟨y, R', hcut, hR⟩
  · cases t' with
    | nil =>
      refine .inr (.inl ⟨[], ?_, h.front, h.keyword, h.gap_ne, h.gap, h.word, rfl⟩)
      rw [List.append_nil] at hsplit
      rw [← hsplit]
      simp
    | cons y t' =>
      exact .inr (.inr ⟨x :: t, y :: t', List.cons_ne_nil x t, List.cons_ne_nil y t',
        hsplit, rfl, hb⟩)
  · refine .inr (.inl ⟨y :: R', ?_, h.front, h.keyword, h.gap_ne, h.gap, h.word, ?_⟩)
    · rw [hcut]
      simp
    · exact any_head?_append (hR ▸ h.rest)

end ClassAt

namespace ClassFree

theorem of_not_isBlank (h : ∀ c ∈ a, isBlank c = false) : ClassFree a := by
  intro P k g v R hat
  obtain ⟨c, hc⟩ := List.exists_mem_of_ne_nil g hat.gap_ne
  have := h c (by rw [hat.text]; simp [hc])
  rw [hat.gap c hc] at this
  cases this

section Append

variable (ha : ClassFree a) (hb : ClassFree b)
include ha hb

/-- Two texts that declare no class, if no class is declared across the cut. -/
theorem append (hcut : ∀ P k g v R t t', ClassAt (a ++ b) P k g v R → t ≠ [] → t' ≠ [] →
    k ++ (g ++ v) = t ++ t' →
    a = P ++ t → b = t' ++ R → isReserved (String.ofList v) = true) : ClassFree (a ++ b) := by
  intro P k g v R hat
  rcases hat.cut with ⟨P', hat'⟩ | ⟨R', hat'⟩ | ⟨t, t', hne, hne', hblock, hfront, hback⟩
  · exact hb _ _ _ _ _ hat'
  · exact ha _ _ _ _ _ hat'
  · exact hcut P k g v R t t' hat hne hne' hblock hfront hback

/-- Nothing reaches across a character that is neither of a word nor white space. -/
theorem append_of_first (hc : b.head? = some c) (hword : isWordChar c = false)
    (hblank : isBlank c = false) : ClassFree (a ++ b) := by
  refine ha.append hb fun P k g v R t t' hat _ hne' hblock _ hback => ?_
  have hmem : c ∈ t' := by
    rw [hback, List.head?_append_of_ne_nil _ hne'] at hc
    exact List.mem_of_mem_head? hc
  rcases hat.mem_block (hblock ▸ List.mem_append_right t hmem) with h | h
  · exact absurd h (by simp [hword])
  · exact absurd h (by simp [hblank])

theorem append_of_last (hc : a.getLast? = some c) (hword : isWordChar c = false)
    (hblank : isBlank c = false) : ClassFree (a ++ b) := by
  refine ha.append hb fun P k g v R t t' hat hne _ hblock hfront _ => ?_
  have hmem : c ∈ t := by
    rw [hfront, List.getLast?_append_of_ne_nil _ hne] at hc
    exact List.mem_of_getLast? hc
  rcases hat.mem_block (hblock ▸ List.mem_append_left t' hmem) with h | h
  · exact absurd h (by simp [hword])
  · exact absurd h (by simp [hblank])

end Append

/-- A character that is neither of a word nor white space may stand between two texts. -/
theorem separated (ha : ClassFree a) (hb : ClassFree b) (hword : isWordChar c = false)
    (hblank : isBlank c = false) : ClassFree (a ++ c :: b) := by
  have hc : ClassFree [c] := of_not_isBlank fun x hx => by rwa [List.mem_singleton.mp hx]
  exact ha.append_of_first (hc.append_of_last hb rfl hword hblank) rfl hword hblank

theorem of_isBlank (h : ∀ c ∈ a, isBlank c = true) : ClassFree a := by
  intro P k g v R hat
  obtain ⟨c, hc⟩ := List.exists_mem_of_ne_nil k hat.keyword_ne
  have := h c (by rw [hat.text]; simp [hc])
  rw [isBlank_of_isWordChar (hat.isWordChar_keyword c hc)] at this
  cases this

/-- White space may stand in front of a text. -/
theorem blank_front (hws : ∀ c ∈ ws, isBlank c = true) (hb : ClassFree b) :
    ClassFree (ws ++ b) := by
  refine (of_isBlank hws).append hb fun P k g v R t t' hat hne _ hblock hfront _ => ?_
  obtain ⟨c, t, rfl⟩ := List.exists_cons_of_ne_nil hne
  obtain ⟨x, k', rfl⟩ := List.exists_cons_of_ne_nil hat.keyword_ne
  obtain rfl : x = c := (List.cons.inj hblock).1
  have := hws x (by rw [hfront]; simp)
  rw [isBlank_of_isWordChar (hat.isWordChar_keyword x List.mem_cons_self)] at this
  cases this

/-- White space may stand behind a text. -/
theorem blank_back (ha : ClassFree a) (hws : ∀ c ∈ ws, isBlank c = true) : ClassFree (a ++ ws) := by
  refine ha.append (of_isBlank hws) fun P k g v R t t' hat _ hne' hblock _ hback => ?_
  have hlast := congrArg List.getLast? hblock
  rw [List.getLast?_append_of_ne_nil _ hne', ← List.append_assoc,
    List.getLast?_append_of_ne_nil _ hat.word.ne_nil,
    List.getLast?_eq_some_getLast hat.word.ne_nil] at hlast
  have := hws _ (by rw [hback]; exact List.mem_append_left R (List.mem_of_getLast? hlast.symm))
  rw [isBlank_of_isWordChar (hat.word.word _ (List.getLast_mem _))] at this
  cases this

/-- What is left when white space is taken off decides. -/
theorem of_trim (h : ClassFree (trim a)) : ClassFree a := by
  obtain ⟨ws, hsplit, hws⟩ := trim_split a
  rw [hsplit]
  exact .blank_front (fun c hc => List.mem_takeWhile_imp hc) (h.blank_back hws)

/-- A keyword of an import statement may stand in front. -/
theorem keyword (hw : w ∉ classWords) (hlower : ∀ x ∈ w.toList, x.isLower = true)
    (ha : a.map foldLetter = w.toList) (hb : ClassFree b) (hhead : b.head?.any isWordChar = false) :
    ClassFree (a ++ b) := by
  have hword := isWordChar_of_folded hlower ha
  have hfree : ClassFree a := of_not_isBlank fun c hc => isBlank_of_isWordChar (hword c hc)
  refine hfree.append hb fun P k g v R t t' hat hne hne' hblock hfront hback => ?_
  -- the class keyword would be the whole of this keyword
  have hP : P = [] := by
    cases hlast : P.getLast? with
    | none => exact List.getLast?_eq_none_iff.mp hlast
    | some c =>
      have := hat.front
      rw [hlast, Option.any_some,
        hword c (by rw [hfront]; exact List.mem_append_left t (List.mem_of_getLast? hlast))] at this
      cases this
  subst hP
  rw [List.nil_append] at hfront
  subst hfront
  have hgap : (g ++ v).head?.any isWordChar = false := by
    obtain ⟨c, g', rfl⟩ := List.exists_cons_of_ne_nil hat.gap_ne
    exact isWordChar_of_isBlank (hat.gap c List.mem_cons_self)
  have hsame :=
    eq_of_runs hblock hat.isWordChar_keyword hword hgap (any_head?_append (hback ▸ hhead))
  exact absurd (hsame.1 ▸ ha) (hat.keyword_ne_of_folded hw)

/-- A reserved word may stand behind a name. -/
theorem named {w : List Char} (ha : ∀ c ∈ a, isBlank c = false) (hne : g ≠ [])
    (hg : ∀ c ∈ g, isBlank c = true) (hw : ∀ c ∈ w, isWordChar c = true)
    (hreserved : isReserved (String.ofList w) = true) (hb : ClassFree (w ++ b))
    (hhead : b.head?.any isWordChar = false) : ClassFree (a ++ (g ++ (w ++ b))) := by
  have hback : ClassFree (g ++ (w ++ b)) := blank_front hg hb
  refine (of_not_isBlank ha).append hback fun P k g' v R t t' hat hne' ht' hblock hfront hcut => ?_
  have hfirst : ∀ {x y : List Char}, x ≠ [] → (∀ c ∈ x, isBlank c = true) →
      (x ++ y).head?.any (!isBlank ·) = false := by
    intro x y hx hblank
    obtain ⟨c, x', rfl⟩ := List.exists_cons_of_ne_nil hx
    simp [hblank c List.mem_cons_self]
  have hvisible : ∀ {x : List Char}, (∀ c ∈ x, isWordChar c = true) →
      ∀ c ∈ x, (!isBlank c) = true := by
    intro x hx c hc
    rw [isBlank_of_isWordChar (hx c hc)]
    rfl
  have hstart : ∀ {x y : List Char}, x ≠ [] → (∀ c ∈ x, isWordChar c = true) →
      (x ++ y).head?.any isBlank = false := by
    intro x y hx hword
    obtain ⟨c, x', rfl⟩ := List.exists_cons_of_ne_nil hx
    exact isBlank_of_isWordChar (hword c List.mem_cons_self)
  -- the keyword ends where the name ends, and what follows is the reserved word
  have hk : k = t ∧ g' ++ v = t' := by
    refine eq_of_runs hblock (hvisible hat.isWordChar_keyword) (fun c hc =>
      ?_) (hfirst hat.gap_ne hat.gap) ?_
    · rw [ha c (by rw [hfront]; exact List.mem_append_right P hc)]
      rfl
    · refine any_head?_append (b := R) ?_
      rw [← hcut]
      exact hfirst hne hg
  rw [← hk.2, List.append_assoc] at hcut
  have hwne : w ≠ [] := by
    rintro rfl
    revert hreserved
    decide
  obtain ⟨-, hrest⟩ :=
    eq_of_runs hcut hg hat.gap (hstart hwne hw) (hstart hat.word.ne_nil hat.word.word)
  obtain ⟨rfl, -⟩ := eq_of_runs hrest hw hat.word.word hhead hat.rest
  exact hreserved

end ClassFree

/-! ## Reserved words -/

/-- A word that is read as a keyword is the keyword, if no long s stands for an s and no Kelvin sign
for a k. -/
theorem map_toLower_of_folded (h : k.map foldLetter = w.toList) (hs : 'ſ' ∉ k ∨ 's' ∉ w.toList)
    (hk : 'k' ∉ w.toList) : k.map Char.toLower = w.toList := by
  rw [← h]
  refine List.map_congr_left fun c hc => ?_
  have hmem : foldLetter c ∈ w.toList := h ▸ List.mem_map_of_mem hc
  unfold foldLetter at hmem ⊢
  split
  · rename_i hlong
    rw [if_pos hlong] at hmem
    exact (hs.elim (· (hlong ▸ hc)) (· hmem)).elim
  · rename_i hlong
    rw [if_neg hlong] at hmem
    split
    · rename_i hkelvin
      rw [if_pos hkelvin] at hmem
      exact absurd hmem hk
    · rfl

theorem isReserved_of_toLower (h : name.toList.map Char.toLower = w.toList) (hw : w ∈ reservedWords)
    : isReserved name = true := by
  rw [isReserved, h, String.ofList_toList]
  exact List.elem_eq_true_of_mem hw

theorem isReserved_of_folded (h : name.toList.map foldLetter = w.toList)
    (hs : 'ſ' ∉ name.toList ∨ 's' ∉ w.toList) (hk : 'k' ∉ w.toList) (hw : w ∈ reservedWords) :
    isReserved name = true :=
  isReserved_of_toLower (map_toLower_of_folded h hs hk) hw

/-! ## Import statements -/

/-- A name with an alias. -/
theorem classFree_alias {name w g' : List Char} (hname : ∀ c ∈ name, isBlank c = false)
    (hne : g ≠ []) (hg : ∀ c ∈ g, isBlank c = true) (hw : w.map foldLetter = "as".toList)
    (hs : 'ſ' ∉ w) (hne' : g' ≠ []) (hg' : ∀ c ∈ g', isBlank c = true)
    (halias : ∀ c ∈ v, isWordChar c = true) : ClassFree (name ++ (g ++ (w ++ (g' ++ v)))) := by
  have hhead : (g' ++ v).head?.any isWordChar = false := by
    obtain ⟨c, y, rfl⟩ := List.exists_cons_of_ne_nil hne'
    exact isWordChar_of_isBlank (hg' c List.mem_cons_self)
  have hreserved : isReserved (String.ofList w) = true := by
    rw [← String.toList_ofList (l := w)] at hw hs
    exact isReserved_of_folded hw (.inl hs) (by decide) (by decide)
  have hfree : ClassFree v := .of_not_isBlank fun c hc => isBlank_of_isWordChar (halias c hc)
  have hback : ClassFree (g' ++ v) := .blank_front hg' hfree
  have hlower : ∀ x ∈ "as".toList, x.isLower = true := by decide
  exact .named hname hne hg (isWordChar_of_folded hlower hw) hreserved
    (.keyword (by decide) hlower hw hback hhead) hhead

theorem classFree_of_readNamed? {kind : Option ImportKind} {c : Cursor}
    (h : readNamed? kind c = some clause) (hs : 'ſ' ∉ c.after) : ClassFree c.after := by
  obtain ⟨stop, hstop, h⟩ := Option.bind_eq_some_iff.mp h
  have hname : ∀ x ∈ c.upTo stop, isBlank x = false := by
    obtain ⟨name, hname, hcut⟩ := qualifiedName?_eq_some hstop
    rcases hcut with hcut | hcut
    · rw [hcut]
      exact hname.not_isBlank
    · rw [hcut]
      exact List.forall_mem_cons.mpr ⟨isBlank_backslash, hname.not_isBlank⟩
  have htext := (confined_qualifiedName.forward hstop).upTo_eq
  split at h
  · rename_i hempty
    rw [htext, List.isEmpty_iff.mp hempty, List.append_nil]
    exact .of_not_isBlank hname
  · obtain ⟨second, hsecond, h⟩ := Option.bind_eq_some_iff.mp h
    obtain ⟨last, hlast, h⟩ := Option.bind_eq_some_iff.mp h
    split at h
    · rename_i hempty
      obtain ⟨e, he, hrest⟩ := Option.bind_eq_some_iff.mp hsecond
      obtain ⟨k, hk, hk'⟩ := Option.bind_eq_some_iff.mp hrest
      obtain ⟨g, hne, hg, htextG, -⟩ := blanks?_eq_some he
      obtain ⟨w, htextW, hw, -⟩ := folded?_eq_some hk
      obtain ⟨g', hne', hg', htextG', -⟩ := blanks?_eq_some hk'
      have htextA := (confined_ident.forward hlast).upTo_eq
      rw [List.isEmpty_iff.mp hempty, List.append_nil] at htextA
      rw [htextG, htextW, htextG', htextA] at htext
      rw [htext] at hs ⊢
      exact classFree_alias hname hne hg hw (fun hmem => hs (by simp [hmem])) hne' hg'
        (ident?_eq_some hlast).word
    · cases h

/-- White space, the keyword of a kind and white space in front. -/
theorem ClassFree.kind {kind : ImportKind} (h : ClassFree cs) (hk : IsKindKeyword kind k)
    (hne : g ≠ []) (hg : ∀ c ∈ g, isBlank c = true) : ClassFree (k ++ (g ++ cs)) := by
  obtain ⟨w, hw, hfold⟩ := hk
  have hwords : w ∉ classWords ∧ ∀ x ∈ w.toList, x.isLower = true := by
    cases kind with
    | cls => cases hw
    | function =>
      cases hw
      decide
    | const =>
      cases hw
      decide
  have hback : ClassFree (g ++ cs) := .blank_front hg h
  refine .keyword hwords.1 hwords.2 hfold hback ?_
  obtain ⟨c, y, rfl⟩ := List.exists_cons_of_ne_nil hne
  exact isWordChar_of_isBlank (hg c List.mem_cons_self)

theorem classFree_of_readClause? (h : readClause? cs = some clause) (hs : 'ſ' ∉ cs) :
    ClassFree cs := by
  unfold readClause? at h
  dsimp only at h
  split at h
  · rename_i clause' hkind
    obtain ⟨⟨kind, c⟩, hc, hread⟩ := Option.bind_eq_some_iff.mp hkind
    obtain ⟨k, g, hk, hne, hg, hafter, -⟩ := kindKeyword?_eq_some hc
    have htext : cs = k ++ (g ++ c.after) := hafter
    rw [htext] at hs ⊢
    exact (classFree_of_readNamed? hread fun hmem => hs (by simp [hmem])).kind hk hne hg
  · exact classFree_of_readNamed? h hs

theorem classFree_of_readClauses? {clauses : List (Nat × Clause)}
    (h : readClauses? offset cs = some clauses) (hs : 'ſ' ∉ cs) : ClassFree cs := by
  have hpiece : ∀ {p : List Char}, 'ſ' ∉ p →
      ((trim p).isEmpty = true ∨ ∃ clause, readClause? (trim p) = some clause) →
      ClassFree p := by
    intro p hs hp
    refine .of_trim ?_
    rcases hp with hempty | ⟨clause, hclause⟩
    · rw [List.isEmpty_iff.mp hempty]
      exact .of_isBlank (by simp)
    · obtain ⟨ws, hsplit, -⟩ := trim_split p
      exact classFree_of_readClause? hclause fun hmem => hs (by rw [hsplit]; simp [hmem])
  -- from comma to comma
  induction hn : cs.length using Nat.strong_induction_on generalizing offset cs clauses with
  | _ n ih =>
    by_cases hcomma : ',' ∈ cs
    · obtain ⟨p, rest, rfl, hp⟩ := List.eq_append_cons_of_mem hcomma
      have hrest : ∀ {clauses}, readClauses? (offset + byteLength p + 1) rest = some clauses →
          ClassFree rest :=
        fun hread =>
          ih rest.length (by rw [← hn, List.length_append, List.length_cons]; omega) hread
          (fun hmem => hs (by simp [hmem])) rfl
      have hfront : 'ſ' ∉ p := fun hmem => hs (by simp [hmem])
      rw [readClauses?_comma hp] at h
      split at h
      · rename_i hempty
        exact (hpiece hfront (.inl hempty)).separated (hrest h) (by decide) (by decide)
      · obtain ⟨clause, hclause, h⟩ := Option.bind_eq_some_iff.mp h
        obtain ⟨others, hothers, rfl⟩ := Option.map_eq_some_iff.mp h
        exact (hpiece hfront (.inr ⟨clause, hclause⟩)).separated (hrest hothers)
          (by decide) (by decide)
    · rw [readClauses?_last hcomma] at h
      split at h
      · rename_i hempty
        exact hpiece hs (.inl hempty)
      · obtain ⟨clause, hclause, -⟩ := Option.map_eq_some_iff.mp h
        exact hpiece hs (.inr ⟨clause, hclause⟩)

/-- White space, the keyword of a kind and white space may stand in front. -/
theorem ClassFree.lead {lead : List Char} (h : ClassFree cs) (hlead : StatementLead lead) :
    ClassFree (lead ++ cs) := by
  rcases hlead with rfl | ⟨g, kind, k, g', rfl, hg, hk, hne, hg'⟩
  · exact h
  · rw [List.append_assoc, List.append_assoc]
    exact .blank_front hg (h.kind hk hne hg')

theorem classFree_of_readBody {doc : Document} {statement : Span}
    (h : doc.readBody statement offset body ≠ []) (hs : 'ſ' ∉ body) : ClassFree body := by
  obtain ⟨lead, kind, hlead, hcases⟩ := readBody_cases doc statement offset body
  rcases hcases with ⟨front, rfl, -, hread⟩ | ⟨front, inner, tail, rfl, -, -, htail, hread⟩ | hread
  · refine ClassFree.lead ?_ hlead
    rw [hread, readSequence] at h
    cases hclauses : readClauses? (offset + byteLength lead) front with
    | none =>
      rw [hclauses] at h
      exact absurd rfl h
    | some clauses => exact classFree_of_readClauses? hclauses fun hmem => hs (by simp [hmem])
  · refine ClassFree.lead ?_ hlead
    rw [hread, readGroup] at h
    split at h
    · rename_i group clauses hgroup hclauses
      have hfront : ClassFree front := .of_trim (.of_not_isBlank (groupName?_trim hgroup).2)
      have hinner : ClassFree inner := classFree_of_readClauses? hclauses fun hmem =>
        hs (by simp [hmem])
      exact hfront.separated (hinner.separated (.of_isBlank htail) (by decide) (by decide))
        (by decide) (by decide)
    · exact absurd rfl h
  · exact absurd hread h

/-- **An import statement declares no class**, if its keywords are in ASCII. -/
theorem IsStatement.classFree (h : IsStatement s) (hs : 'ſ' ∉ s) : ClassFree s := by
  obtain ⟨body, stop, h⟩ := h
  obtain ⟨w, -, hw, hsplit, hstop⟩ := h.split
  have hbody : ClassFree body := by
    have hread := h.imports ▸ h.ne_nil
    rw [statementImports_eq, h.statementBody] at hread
    exact classFree_of_readBody hread fun hmem => hs (by rw [hsplit]; simp [hmem])
  have hhead : (body ++ [';']).head?.any isWordChar = false := by
    obtain ⟨-, -, -, hend, -⟩ := useKeyword?_eq_some h.keyword
    rw [atWordEnd, h.after] at hend
    simpa using hend
  rw [hsplit]
  have hword : "use".toList = ['u', 's', 'e'] := rfl
  exact .keyword (by decide) (by decide) (hword ▸ hw)
    (hbody.separated (.of_isBlank (by simp)) (by decide) (by decide)) hhead

theorem classFree_use (h : ClassFree body) (hhead : (body ++ [';']).head?.any isWordChar = false) :
    ClassFree ('u' :: 's' :: 'e' :: (body ++ [';'])) :=
  .keyword (w := "use") (a := ['u', 's', 'e']) (by decide) (by decide) (by decide)
    (h.separated (.of_isBlank (by simp)) (by decide) (by decide)) hhead

/-- A plain statement declares no class. -/
theorem classFree_plainStatement {d : Declaration} (hd : d.WellNamed) :
    ClassFree d.plainStatement.toList := by
  have hname := hd.fqn.not_isBlank
  have hspace : ∀ c ∈ [' '], isBlank c = true := by decide
  have hclause : ClassFree (clauseText d.fqn.toList (d.aliasName.map String.toList)) := by
    cases ha : d.aliasName with
    | none => exact .of_not_isBlank hname
    | some a =>
      exact classFree_alias hname (List.cons_ne_nil ' ' []) hspace (w := ['a', 's'])
        (by decide) (by decide) (List.cons_ne_nil ' ' []) hspace (hd.aliasName a ha).word
  have hkind :
      ClassFree (kindText d.kind ++ clauseText d.fqn.toList (d.aliasName.map String.toList)) := by
    cases hkind : d.kind with
    | cls => exact hclause
    | function =>
      have hword : IsKindKeyword .function "function".toList := ⟨_, rfl, by decide⟩
      exact hclause.kind hword (List.cons_ne_nil ' ' []) hspace
    | const =>
      have hword : IsKindKeyword .const "const".toList := ⟨_, rfl, by decide⟩
      exact hclause.kind hword (List.cons_ne_nil ' ' []) hspace
  have hbody : ClassFree (plainBody d) := .blank_front hspace hkind
  rw [toList_plainStatement]
  exact classFree_use hbody (show isWordChar ' ' = false by decide)

/-- Nor does a statement without a name. -/
theorem IsNameless.classFree (h : IsNameless s) : ClassFree s := by
  obtain ⟨k, a, hs⟩ := h
  have hspace : ∀ c ∈ [' '], isBlank c = true := by decide
  have hword : ∀ c ∈ k, isBlank c = false := fun c hc =>
    isBlank_of_isWordChar (hs.word c (List.mem_append_left a hc))
  have hclause : ClassFree (k ++ ([' '] ++ (['a', 's'] ++ ([' '] ++ a)))) :=
    classFree_alias hword (List.cons_ne_nil ' ' []) hspace (by decide) (by decide)
      (List.cons_ne_nil ' ' []) hspace
      fun c hc => hs.word c (List.mem_append_right k hc)
  have hstatement :=
    classFree_use (.blank_front hspace hclause) (show isWordChar ' ' = false by decide)
  rw [hs.text]
  simpa using hstatement

/-! ## The classes of a code -/

/-- The classes that a code declares. -/
abbrev classesOf (code : List Char) : List String :=
  (Document.mk [] code).declaredClasses

/-- The places of a class keyword, of the word behind it and of the end of this word. -/
def classPlace (P k g v R : List Char) : Cursor × Cursor × Cursor :=
  (⟨P.reverse, k ++ (g ++ (v ++ R))⟩, ⟨(P ++ (k ++ g)).reverse, v ++ R⟩,
    ⟨(P ++ (k ++ (g ++ v))).reverse, R⟩)

theorem upTo_classPlace (P k g v R : List Char) :
    (classPlace P k g v R).2.1.upTo (classPlace P k g v R).2.2 = v := by
  simp [classPlace, upTo]

/-- What is read as a class and its name. -/
theorem exists_classAt {place : Cursor × Cursor × Cursor}
    (h : place ∈ (atStart cs).findAll classClause?) :
    ∃ P k g v R, ClassAt cs P k g v R ∧ place = classPlace P k g v R := by
  obtain ⟨c, d, h, hc, -⟩ := mem_findAll h
  simp only [classClause?, Option.bind_eq_bind, Option.bind_eq_some_iff] at h
  obtain ⟨k, hk, n, hn, s, hs, heq⟩ := h
  cases heq
  unfold keyword? at hk
  split at hk
  · rename_i hstart
    obtain ⟨w, hmem, hw⟩ := List.exists_of_findSome?_eq_some hk
    obtain ⟨u, htextU, hfold, hbeforeU⟩ := folded?_eq_some hw
    obtain ⟨g, hne, hg, htextG, hbeforeG⟩ := blanks?_eq_some hn
    obtain ⟨v, htextV, hbeforeV⟩ := confined_ident.forward hs
    have hcut : n.upTo d = v :=
      List.append_cancel_right ((confined_ident.forward hs).upTo_eq.symm.trans htextV)
    refine ⟨c.before.reverse, u, g, v, d.after,
      ⟨?_, ?_, ⟨w, hmem, hfold⟩, hne, hg, hcut ▸ ident?_eq_some hs, ?_⟩, ?_⟩
    · rw [← htextV, ← htextG, ← htextU]
      exact hc.text_eq
    · rw [List.getLast?_reverse]
      simpa [atWordStart] using hstart
    · unfold ident? at hs
      split at hs
      · cases hs
        cases hrest : n.after.dropWhile isWordChar with
        | nil => simp [skipWhile, hrest]
        | cons x xs =>
          have := List.head?_dropWhile_not isWordChar n.after
          rw [hrest] at this
          simpa [skipWhile, hrest] using this
      · cases hs
    · obtain ⟨cb, ca⟩ := c
      obtain ⟨nb, na⟩ := n
      obtain ⟨db, da⟩ := d
      simp_all [classPlace]
  · cases hk

/-- The name of the class that is declared at a place, if it is one. -/
def className? (place : Cursor × Cursor × Cursor) : Option String :=
  let word := String.ofList (place.2.1.upTo place.2.2)
  if place.1.before.take 2 == [':', ':'] || isReserved word then none else some word

theorem classesOf_eq_filterMap (code : List Char) :
    classesOf code = ((atStart code).findAll classClause?).filterMap className? := by
  unfold classesOf Document.declaredClasses Document.classNames
  rw [List.map_filterMap]
  refine List.filterMap_congr fun place _ => ?_
  unfold className?
  dsimp only
  split <;> rfl

theorem ClassFree.classesOf_eq (h : ClassFree cs) : classesOf cs = [] := by
  rw [classesOf_eq_filterMap, List.filterMap_eq_nil_iff]
  intro place hplace
  obtain ⟨P, k, g, v, R, hat, rfl⟩ := exists_classAt hplace
  unfold className?
  dsimp only
  rw [upTo_classPlace, h _ _ _ _ _ hat, Bool.or_true, if_pos rfl]

/-- Two colons in front of a place are not seen from behind the start of a statement. -/
theorem take_colons (hB : Opens B) (before : List Char) :
    ((before ++ B).take 2 == [':', ':']) = (before.take 2 == [':', ':']) := by
  have hhead : ∀ c cs, B = c :: cs → c ≠ ':' := fun c cs heq => (hB.head_ne heq).2.2.2.2
  rcases before with _ | ⟨x, _ | ⟨y, before⟩⟩
  · cases B with
    | nil => rfl
    | cons c cs => simp [hhead c cs rfl]
  · cases B with
    | nil => rfl
    | cons c cs => simp [hhead c cs rfl]
  · rfl

theorem className?_move (hB : Opens B) (X : List Char) (place : Cursor × Cursor × Cursor) :
    className? (move B X place) = className? place := by
  obtain ⟨start, name, stop⟩ := place
  simp only [className?, move_prod, move_cursor, upTo_within, within_before, take_colons hB]

/-- **The classes of a code are found piece by piece.** -/
theorem classesOf_append {p : List Char} (hp : Opens p.reverse) (x : List Char) :
    classesOf (p ++ x) = classesOf p ++ classesOf x := by
  rw [classesOf_eq_filterMap, classesOf_eq_filterMap, classesOf_eq_filterMap,
    findAll_append located_classClause hp, List.filterMap_append, List.filterMap_map,
    List.filterMap_map]
  congr 1
  · exact List.filterMap_congr fun place _ => className?_move opens_nil x place
  · exact List.filterMap_congr fun place _ => className?_move hp [] place

theorem Run.classesOf_eq {u : List Char} (h : Run u) (hs : 'ſ' ∉ u) : classesOf u = [] := by
  induction h with
  | nil => rfl
  | @space c u hc _ ih =>
    have hfree : ClassFree [c] := .of_isBlank fun x hx => by
      rw [List.mem_singleton.mp hx]
      exact isBlank_of_isSpace hc
    rw [← List.singleton_append, classesOf_append (importPlace_space hc).opens, hfree.classesOf_eq,
      ih fun hmem => hs (List.mem_cons_of_mem c hmem)]
    rfl
  | @statement s u hst _ ih =>
    have hfree := hst.classFree fun hmem => hs (List.mem_append_left u hmem)
    rw [classesOf_append hst.importPlace.opens, hfree.classesOf_eq, ih fun hmem =>
      hs (List.mem_append_right s hmem)]
    rfl
  | @nameless s u hst _ ih =>
    rw [classesOf_append hst.importPlace.opens, hst.classFree.classesOf_eq,
      ih fun hmem => hs (List.mem_append_right s hmem)]
    rfl

/-- Plain statements declare no class. -/
theorem classesOf_plainText {sep : List Char} (hsep : ∀ c ∈ sep, isSpace c = true)
    {ds : List Declaration} (hwell : ∀ d ∈ ds, d.WellNamed) :
    classesOf (plainText sep ds) = [] := by
  induction ds with
  | nil => rfl
  | cons d ds ih =>
    have hd := hwell d List.mem_cons_self
    have hfree := classFree_plainStatement hd
    cases ds with
    | nil => simpa [plainText, List.intercalate] using hfree.classesOf_eq
    | cons e ds =>
      have hgap : ClassFree sep := .of_isBlank fun c hc => isBlank_of_isSpace (hsep c hc)
      rw [plainText_cons, classesOf_append hd.run.importPlace.opens,
        classesOf_append (Run.of_space hsep).importPlace.opens, hfree.classesOf_eq,
        hgap.classesOf_eq,
        ih fun x hx => hwell x (List.mem_cons_of_mem d hx)]
      rfl

end UseImports
