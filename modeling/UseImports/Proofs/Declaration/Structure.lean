import UseImports.Proofs.Code.View
import UseImports.Proofs.Declaration.Apart
import UseImports.Proofs.Text.Positions

/-!
# The structure of the declarations

The declarations of a text (`parse_use_statements`) come statement by statement and in the order of
the text, each at a place of its own inside its statement. The code view shows them where they stand
in the text, so all their ends are places of the text, and the line of a declaration is that of its
name.

* `exists_piece_of_visible`: a word that can be seen in the view stands in the text.
* `Arranged`: **the structure of a list of declarations.**
* `declarations_arranged`: the declarations of a text have it.
-/

namespace UseImports

open Cursor

variable {known : List Verdict} {m : Mode} {a b body T x : List Char} {doc : Document}
    {site : Cursor × Cursor} {d e : Declaration}

/-! ## What can be seen -/

/-- **A word that can be seen in the view stands in the text.** -/
theorem exists_piece_of_visible (h : viewFrom known m T = .ok (a ++ (x ++ b))) (hne : x ≠ [])
    (hx : ∀ c ∈ x, isBlank c = false) : ∃ A B, T = A ++ (x ++ B) ∧ byteLength A = byteLength a :=
  exists_word_of_visible h hne fun c hc => isSpace_of_not_isBlank (hx c hc)

theorem IsAnchor.isBoundary {text : List Char} {n : Nat} (h : IsAnchor text n) :
    isBoundary text n = true := by
  obtain ⟨A, B, htext, hA, -⟩ := h
  exact isBoundary_iff.mpr ⟨A, B, htext, hA⟩

/-- What begins and ends with something that can be seen has its ends at anchors of the text. -/
theorem isAnchor_of_trimmed (h : viewFrom known m T = .ok (a ++ (x ++ b))) (hne : x ≠ [])
    (hx : Trimmed x) : IsAnchor T (byteLength a) ∧ IsAnchor T (byteLength a + byteLength x) := by
  constructor
  · obtain ⟨c, y, rfl⟩ := List.exists_cons_of_ne_nil hne
    have hc : ∀ d ∈ [c], isBlank d = false := by simpa using hx.first c rfl
    obtain ⟨A, B, rfl, hlen⟩ := exists_piece_of_visible (x := [c]) (b := y ++ b) h (by simp) hc
    rw [← hlen]
    exact (isAnchor_of_word (by simp) hc).1
  · obtain ⟨y, c, rfl⟩ := (List.eq_nil_or_concat' x).resolve_left hne
    have hc : ∀ d ∈ [c], isBlank d = false := by simpa using hx.last c (by simp)
    rw [List.append_assoc, ← List.append_assoc] at h
    obtain ⟨A, B, rfl, hlen⟩ := exists_piece_of_visible (x := [c]) h (by simp) hc
    have hstop : byteLength a + byteLength (y ++ [c]) = byteLength A + byteLength [c] := by
      rw [hlen, byteLength_append, byteLength_append, Nat.add_assoc]
    rw [hstop]
    exact (isAnchor_of_word (by simp) hc).2

/-! ## Declarations and their sites -/

/-- A place of an import in the code of a document, with the body of its statement. -/
structure ImportSite (code : List Char) (site : Cursor × Cursor) (body : List Char) : Prop where
  start : site ∈ useStarts code
  isSite : isSite code site.1 = true
  body : statementBody? site.2 = some body

/-- The statement of a site. -/
def siteSpan (site : Cursor × Cursor) (body : List Char) : Span :=
  ⟨site.1.offset, site.2.offset + byteLength body + 1⟩

/-- The declarations of a site. -/
def siteDeclarations (doc : Document) (site : Cursor × Cursor) : List Declaration :=
  if isSite doc.code site.1 then readStatement doc site.1 site.2 else []

theorem declarations_eq_flatMap (doc : Document) :
    doc.declarations = (useStarts doc.code).flatMap (siteDeclarations doc) :=
  doc.declarations_eq

theorem siteDeclarations_eq (hmem : site ∈ useStarts doc.code) (h : siteDeclarations doc site ≠ [])
    :
    ∃ body, ImportSite doc.code site body ∧
      siteDeclarations doc site = doc.readBody (siteSpan site body) site.2.offset body := by
  unfold siteDeclarations at h ⊢
  split at h
  · rename_i hsite
    rw [readStatement_eq] at h
    cases hbody : statementBody? site.2 with
    | none =>
      rw [hbody] at h
      exact absurd rfl h
    | some body =>
      refine ⟨body, ⟨hmem, hsite, hbody⟩, ?_⟩
      rw [if_pos hsite, readStatement_eq, hbody]
      rfl
  · exact absurd rfl h

namespace ImportSite

/-- The code around the statement of a site. -/
theorem text (h : ImportSite doc.code site body) :
    ∃ P w R, doc.code = P ++ (w ++ (body ++ ';' :: R)) ∧ w.map foldLetter = "use".toList ∧
      byteLength P = site.1.offset ∧ byteLength (P ++ w) = site.2.offset ∧
      (body ++ ';' :: R).head?.any isWordChar = false := by
  obtain ⟨w, R, huse, hs, hafter⟩ :=
    useSite_of_mem (k := site.1) (s := site.2) h.start h.isSite h.body
  refine ⟨_, w, R, huse.text, huse.keyword, byteLength_reverse _, ?_, ?_⟩
  · rw [← hs, byteLength_reverse]
    rfl
  · obtain ⟨hk, -⟩ := mem_useStarts (k := site.1) (s := site.2) h.start
    obtain ⟨-, -, -, hend, -⟩ := useKeyword?_eq_some hk
    rw [← hafter]
    simpa [atWordEnd] using hend

/-- The place of a declaration lies in its statement. -/
theorem inside (h : ImportSite doc.code site body)
    (hd : d ∈ doc.readBody (siteSpan site body) site.2.offset body) :
    d.statement.start ≤ d.span.start ∧ d.span.start < d.span.stop ∧
    d.span.stop ≤ d.statement.stop := by
  obtain ⟨P, w, R, -, -, hP, hw, -⟩ := h.text
  have hread := readOff_readBody doc (siteSpan site body) site.2.offset body
  have hstart : site.1.offset ≤ site.2.offset := by
    rw [← hP, ← hw, byteLength_append]
    omega
  have hstatement := hread.statement d hd
  rcases (hread.stands d hd).span with hspan | ⟨lead, x, tail, hbody, hne, -, hspan⟩
  · rw [hspan, hstatement, siteSpan]
    dsimp only
    omega
  · have hlen := congrArg byteLength hbody
    rw [byteLength_append, byteLength_append] at hlen
    have := byteLength_pos hne
    rw [hspan, hstatement, siteSpan]
    dsimp only
    omega

end ImportSite

/-- Where a declaration of a document comes from. -/
theorem exists_site (h : d ∈ doc.declarations) :
    ∃ site body, ImportSite doc.code site body ∧
      d ∈ doc.readBody (siteSpan site body) site.2.offset body ∧
      ∀ e ∈ doc.readBody (siteSpan site body) site.2.offset body, e ∈ doc.declarations := by
  rw [declarations_eq_flatMap] at h ⊢
  obtain ⟨site, hmem, hd⟩ := List.mem_flatMap.mp h
  obtain ⟨body, hsite, heq⟩ := siteDeclarations_eq hmem (List.ne_nil_of_mem hd)
  rw [heq] at hd
  exact ⟨site, body, hsite, hd, fun e he => List.mem_flatMap.mpr ⟨site, hmem, by rwa [heq]⟩⟩

/-- Two sites at the same offset are one. -/
theorem ImportSite.unique {code : List Char} {site' : Cursor × Cursor} {body' : List Char}
    (h : ImportSite code site body) (h' : ImportSite code site' body')
    (hoffset : site.1.offset = site'.1.offset) : site = site' ∧ body = body' := by
  obtain ⟨k, s⟩ := site
  obtain ⟨k', s'⟩ := site'
  obtain ⟨hk, hreach⟩ := mem_useStarts h.start
  obtain ⟨hk', hreach'⟩ := mem_useStarts h'.start
  have hsame : k = k' := by
    have htext := hreach.text_eq.symm.trans hreach'.text_eq
    obtain ⟨hbefore, hafter⟩ := append_eq_append_of_eq htext
      (by rw [byteLength_reverse, byteLength_reverse]; exact hoffset)
    obtain ⟨b, a⟩ := k
    obtain ⟨b', a'⟩ := k'
    rw [Cursor.mk.injEq]
    exact ⟨List.reverse_injective hbefore, hafter⟩
  subst hsame
  rw [hk] at hk'
  obtain rfl : s = s' := by
    have := Option.some.inj hk'
    exact (Prod.mk.inj this).2
  exact ⟨rfl, Option.some.inj (h.body.symm.trans h'.body)⟩

/-! ## The structure -/

/-- The span is a statement: it begins with the keyword `use`, a word of its own in the code, and
ends in a semicolon. -/
def IsUseStatement (doc : Document) (s : Span) : Prop :=
  ∃ A w M B, doc.text = A ++ (w ++ (M ++ ';' :: B)) ∧ byteLength A = s.start ∧
    byteLength (A ++ (w ++ M)) + 1 = s.stop ∧ w.map foldLetter = "use".toList ∧
    ∃ a b, doc.code = a ++ (w ++ b) ∧ byteLength a = s.start ∧ b.head?.any isWordChar = false

/-- The name of the declaration stands behind `A`: it begins the place of the declaration, or it is
the first name of the statement and nothing but the keywords stands in front of it. -/
def NameBehind (doc : Document) (d : Declaration) (A : List Char) : Prop :=
  ∃ name B, doc.text = A ++ (name ++ B) ∧ name ≠ [] ∧ d.NamedBy name ∧
    (d.span.start = byteLength A ∨ d.span = d.statement ∧ ∃ P w lead R,
      doc.code = P ++ (w ++ (lead ++ (name ++ R))) ∧ byteLength P = d.statement.start ∧
      byteLength (P ++ (w ++ lead)) = byteLength A ∧ w.map foldLetter = "use".toList ∧ Lead lead)

/-- The structure of the declarations of a document. -/
structure Arranged (doc : Document) (ds : List Declaration) : Prop where
  /-- Different statements do not overlap, and they come in the order of the text. -/
  ordered : ds.Pairwise fun d e => d.statement = e.statement ∨ d.statement.stop ≤ e.statement.start
  /-- The declarations of one statement follow each other. -/
  contiguous : ∀ front d between e back, ds = front ++ d :: (between ++ e :: back) →
    d.statement = e.statement → ∀ x ∈ between, x.statement = d.statement
  /-- The places of the declarations do not overlap, and they come in the order of the text. -/
  apart : ds.Pairwise fun d e => d.span.stop ≤ e.span.start
  inside : ∀ d ∈ ds, d.statement.start ≤ d.span.start ∧ d.span.start < d.span.stop ∧
    d.span.stop ≤ d.statement.stop
  shares : ∀ d ∈ ds, d.sharesStatement = true ↔ ∃ e ∈ ds, e ≠ d ∧ e.statement = d.statement
  statement : ∀ d ∈ ds, IsUseStatement doc d.statement
  boundaries : ∀ d ∈ ds, ∀ n ∈ [d.statement.start, d.statement.stop, d.span.start, d.span.stop],
    isBoundary doc.text n = true
  fqn : ∀ d ∈ ds, IsName d.fqn.toList ∧ d.fqn.toList.head? ≠ some '\\' ∧ firstSegment d.fqn ≠ ""
  line : ∀ d ∈ ds, ∃ A, NameBehind doc d A ∧ d.line = A.count '\n'

theorem span_inside (h : d ∈ doc.declarations) :
    d.statement.start ≤ d.span.start ∧ d.span.start < d.span.stop ∧
    d.span.stop ≤ d.statement.stop := by
  obtain ⟨site, body, hsite, hd, -⟩ := exists_site h
  exact hsite.inside hd

/-- **The declarations of a document come in the order of the text**, statement by statement. -/
theorem declarations_pairwise (doc : Document) : doc.declarations.Pairwise fun d e =>
    (d.statement = e.statement ∨ d.statement.stop ≤ e.statement.start) ∧
    d.span.stop ≤ e.span.start := by
  rw [declarations_eq_flatMap]
  refine List.pairwise_flatMap.mpr ⟨fun site hmem =>
    ?_, (useStarts_pairwise doc.code).imp_of_mem ?_⟩
  · by_cases hnil : siteDeclarations doc site = []
    · rw [hnil]
      exact .nil
    · obtain ⟨body, -, heq⟩ := siteDeclarations_eq hmem hnil
      have hread := readOff_readBody doc (siteSpan site body) site.2.offset body
      rw [heq]
      refine hread.apart.imp_of_mem fun {d e} hd he hde => ⟨.inl ?_, hde⟩
      rw [hread.statement d hd, hread.statement e he]
  · intro site site' hmem hmem' hle d hd e he
    obtain ⟨body, hsite, heq⟩ := siteDeclarations_eq hmem (List.ne_nil_of_mem hd)
    obtain ⟨body', hsite', heq'⟩ := siteDeclarations_eq hmem' (List.ne_nil_of_mem he)
    rw [heq] at hd
    rw [heq'] at he
    have hstop : d.statement.stop ≤ e.statement.start := by
      rw [(readOff_readBody doc _ _ body).statement d hd,
        (readOff_readBody doc _ _ body').statement e he]
      exact sites_apart hmem hmem' hle hsite.isSite hsite'.isSite hsite.body
        (bodyShape_of_readBody (List.ne_nil_of_mem hd))
    have hin := hsite.inside hd
    have hin' := hsite'.inside he
    exact ⟨.inr hstop, by omega⟩

/-- Two statements of a document are the same or stand apart. -/
theorem statements_apart (hd : d ∈ doc.declarations) (he : e ∈ doc.declarations) :
    d.statement = e.statement ∨ d.statement.stop ≤ e.statement.start ∨
    e.statement.stop ≤ d.statement.start := by
  have hpairwise := declarations_pairwise doc
  refine List.Pairwise.forall_of_forall_of_flip (R := fun d e : Declaration =>
    d.statement = e.statement ∨
    d.statement.stop ≤ e.statement.start ∨ e.statement.stop ≤ d.statement.start) (fun d _ =>
      .inl rfl)
    (hpairwise.imp fun h => ?_) (hpairwise.imp fun h => ?_) hd he
  · exact h.1.imp_right .inl
  · exact h.1.imp Eq.symm .inr

/-- The declarations of one statement follow each other. -/
theorem declarations_contiguous {front between back : List Declaration}
    (hds : doc.declarations = front ++ d :: (between ++ e :: back))
    (hsame : d.statement = e.statement) : ∀ x ∈ between, x.statement = d.statement := by
  intro x hx
  have hmem : ∀ y ∈ d :: (between ++ e :: back), y ∈ doc.declarations := fun y hy => by
    rw [hds]
    exact List.mem_append_right front hy
  have hpair := declarations_pairwise doc
  rw [hds] at hpair
  have hrest := (List.pairwise_append.mp hpair).2.1
  have hdx := ((List.pairwise_cons.mp hrest).1 x (List.mem_append_left _ hx)).1
  have hxe := ((List.pairwise_append.mp (List.pairwise_cons.mp hrest).2).2.2 x hx e
    List.mem_cons_self).1
  rcases hdx with hdx | hdx
  · exact hdx.symm
  rcases hxe with hxe | hxe
  · exact hxe.trans hsame.symm
  · -- the statement of `x` would lie behind that of `d` and in front of it
    have hd := span_inside (hmem d List.mem_cons_self)
    have hx := span_inside (hmem x (List.mem_cons_of_mem d (List.mem_append_left _ hx)))
    rw [← hsame] at hxe
    omega

/-- A statement is shared by its declarations, if there are several. -/
theorem sharesStatement_iff (h : d ∈ doc.declarations) :
    d.sharesStatement = true ↔ ∃ e ∈ doc.declarations, e ≠ d ∧ e.statement = d.statement := by
  obtain ⟨site, body, hsite, hd, hsub⟩ := exists_site h
  have hread := readOff_readBody doc (siteSpan site body) site.2.offset body
  rw [hread.shares d hd, decide_eq_true_iff]
  constructor
  · intro hlen
    suffices hother : ∃ e ∈ doc.readBody (siteSpan site body) site.2.offset body, e ≠ d by
      obtain ⟨e, he, hne⟩ := hother
      exact ⟨e, hsub e he, hne, by rw [hread.statement e he, hread.statement d hd]⟩
    obtain ⟨a, b, rest, heq⟩ : ∃ a b rest, doc.readBody (siteSpan site body) site.2.offset body =
        a :: b :: rest := by
      generalize doc.readBody (siteSpan site body) site.2.offset body = ds at hlen
      rcases ds with _ | ⟨a, _ | ⟨b, rest⟩⟩
      · simp at hlen
      · simp at hlen
      · exact ⟨a, b, rest, rfl⟩
    have hapart := hread.apart
    rw [heq] at hapart ⊢
    have hab := (List.pairwise_cons.mp hapart).1 b List.mem_cons_self
    by_cases hda : d = a
    · refine ⟨b, by simp, ?_⟩
      rintro rfl
      have := hsite.inside hd
      rw [hda] at hab this
      omega
    · exact ⟨a, List.mem_cons_self, Ne.symm hda⟩
  · rintro ⟨e, he, hne, hsame⟩
    obtain ⟨site', body', hsite', he', -⟩ := exists_site he
    have hoffset : site.1.offset = site'.1.offset := by
      have hstart := congrArg Span.start hsame
      rw [hread.statement d hd, (readOff_readBody doc _ _ body').statement e he'] at hstart
      exact hstart.symm
    obtain ⟨rfl, rfl⟩ := hsite.unique hsite' hoffset
    by_contra hlen
    generalize doc.readBody (siteSpan site body) site.2.offset body = ds at *
    rcases ds with _ | ⟨a, _ | ⟨b, rest⟩⟩
    · cases hd
    · exact hne ((List.mem_singleton.mp he').trans (List.mem_singleton.mp hd).symm)
    · exact absurd (by simp) hlen

section Text

variable (hview : viewFrom [] m doc.text = .ok doc.code)
include hview

theorem isUseStatement_of_mem (h : d ∈ doc.declarations) : IsUseStatement doc d.statement := by
  obtain ⟨site, body, hsite, hd, -⟩ := exists_site h
  obtain ⟨P, w, R, hcode, hw, hP, hPw, hend⟩ := hsite.text
  rw [(readOff_readBody doc _ _ body).statement d hd, siteSpan]
  have hkeyword := plain_of_folded (w := "use") (by decide) hw
  have hne : w ≠ [] := by
    rintro rfl
    cases hw
  have hfront := hview
  rw [hcode] at hfront
  obtain ⟨A, B, htext, hA⟩ := exists_piece_of_visible hfront hne fun c hc => (hkeyword c hc).2
  have hback := hview
  rw [hcode, ← List.append_assoc w, ← List.append_assoc P, ← List.singleton_append] at hback
  obtain ⟨A', B', htext', hA'⟩ := exists_piece_of_visible hback (by simp) (by simp; decide)
  -- the semicolon stands behind the keyword
  have hsame : A ++ w ++ B = A' ++ ([';'] ++ B') := by rw [← htext', htext, List.append_assoc]
  rw [byteLength_append] at hPw
  obtain ⟨M, rfl, rfl⟩ := append_eq_append_of_le hsame (by
    rw [byteLength_append, hA, hA', byteLength_append, byteLength_append]
    omega)
  refine ⟨A, w, M, B', htext, hA.trans hP, ?_, hw, P, body ++ ';' :: R, hcode, hP, hend⟩
  rw [← List.append_assoc, hA', byteLength_append, byteLength_append]
  dsimp only
  omega

/-- **A declaration and its statement have their ends at anchors of the text.** -/
theorem isAnchor_of_mem (h : d ∈ doc.declarations) :
    ∀ n ∈ [d.statement.start, d.statement.stop, d.span.start, d.span.stop],
      IsAnchor doc.text n := by
  obtain ⟨site, body, hsite, hd, -⟩ := exists_site h
  obtain ⟨P, w, R, hcode, hw, hP, hPw, -⟩ := hsite.text
  have hread := readOff_readBody doc (siteSpan site body) site.2.offset body
  have hkeyword := plain_of_folded (w := "use") (by decide) hw
  rw [byteLength_append] at hPw
  have hsemi : (';' : Char).utf8Size = 1 := by decide
  -- the statement as a whole
  have hstatement : IsAnchor doc.text d.statement.start ∧ IsAnchor doc.text d.statement.stop := by
    have hwhole := hview
    rw [hcode, ← List.singleton_append, ← List.append_assoc body, ← List.append_assoc w] at hwhole
    have hne : w ≠ [] := by
      rintro rfl
      cases hw
    have := isAnchor_of_trimmed hwhole (by simp) ⟨fun c hc => ?_, fun c hc => ?_⟩
    · rw [hread.statement d hd, siteSpan]
      dsimp only
      rw [byteLength_append, byteLength_append, byteLength_cons, byteLength_nil, hsemi,
        ← Nat.add_assoc, ← Nat.add_assoc, hPw, hP] at this
      exact this
    · rw [List.head?_append_of_ne_nil _ hne] at hc
      exact (hkeyword c (List.mem_of_mem_head? hc)).2
    · obtain rfl : c = ';' := by simpa using hc.symm
      decide
  have hspan : IsAnchor doc.text d.span.start ∧ IsAnchor doc.text d.span.stop := by
    rcases (hread.stands d hd).span with hspan | ⟨lead, x, tail, hbody, hne, htrim, hspan⟩
    · rw [hspan]
      exact hstatement
    · have hwhole := hview
      have hsplit : doc.code = (P ++ (w ++ lead)) ++ (x ++ (tail ++ ';' :: R)) := by
        rw [hcode, hbody]
        simp only [List.append_assoc]
      rw [hsplit] at hwhole
      have := isAnchor_of_trimmed hwhole hne htrim
      rw [byteLength_append, byteLength_append, ← Nat.add_assoc, hPw] at this
      rw [hspan]
      exact this
  intro n hn
  simp only [List.mem_cons, List.not_mem_nil, or_false] at hn
  rcases hn with rfl | rfl | rfl | rfl
  · exact hstatement.1
  · exact hstatement.2
  · exact hspan.1
  · exact hspan.2

theorem exists_nameBehind (h : d ∈ doc.declarations) :
    ∃ A, NameBehind doc d A ∧ d.line = A.count '\n' := by
  obtain ⟨site, body, hsite, hd, -⟩ := exists_site h
  obtain ⟨P, w, R, hcode, hw, hP, hPw, -⟩ := hsite.text
  have hread := readOff_readBody doc (siteSpan site body) site.2.offset body
  obtain ⟨lead, name, tail, hbody, hne, hvisible, hname, hline, hspan⟩ := (hread.stands d hd).name
  have hsplit : doc.code = (P ++ (w ++ lead)) ++ (name ++ (tail ++ ';' :: R)) := by
    rw [hcode, hbody]
    simp only [List.append_assoc]
  have hwhole := hview
  rw [hsplit] at hwhole
  obtain ⟨A, B, htext, hA⟩ := exists_piece_of_visible hwhole hne hvisible
  have hoffset : site.2.offset + byteLength lead = byteLength A := by
    rw [hA, ← hPw, byteLength_append, byteLength_append, byteLength_append, Nat.add_assoc]
  rw [hoffset] at hline hspan
  refine ⟨A, ⟨name, B, htext, hne, hname, hspan.imp id fun hlead =>
    ⟨hlead.1, P, w, lead, tail ++ ';' :: R, ?_, ?_, hA.symm, hw, hlead.2⟩⟩, ?_⟩
  · rw [hsplit]
    simp only [List.append_assoc]
  · rw [hread.statement d hd, hP]
    rfl
  · rw [hline, Document.lineOf, htext, lineOf_append]
    rfl

end Text

/-- The full name of a declaration has no leading backslash and at least one segment. -/
theorem fqn_of_mem (h : d ∈ doc.declarations) :
    IsName d.fqn.toList ∧ d.fqn.toList.head? ≠ some '\\' ∧ firstSegment d.fqn ≠ "" := by
  have hname : IsName d.fqn.toList := (wellNamed_of_mem_declarations h).fqn
  refine ⟨hname, hname.head?_ne, fun hempty => ?_⟩
  cases hcs : d.fqn.toList with
  | nil => exact hname.ne_nil hcs
  | cons c cs =>
    have hc : c ≠ '\\' := fun hc => hname.head?_ne (by rw [hcs, hc]; rfl)
    have := congrArg String.toList hempty
    rw [firstSegment, hcs, List.takeWhile_cons_of_pos (by simpa using hc)] at this
    simp at this

/-- **The structure of the declarations of a text.** -/
theorem declarations_arranged {cs : List Char} {doc : Document} (h : Document.ofText cs = .ok doc) :
    doc.text = cs ∧ Arranged doc doc.declarations := by
  obtain ⟨code, hcode, rfl⟩ := map_ok_iff.mp h
  have hview : viewFrom [] (startMode cs) cs = .ok code := hcode
  have hpair := declarations_pairwise ⟨cs, code⟩
  exact ⟨rfl, {
    ordered := hpair.imp fun h => h.1
    contiguous := fun _ _ _ _ _ hds hsame => declarations_contiguous hds hsame
    apart := hpair.imp fun h => h.2
    inside := fun _ hd => span_inside hd
    shares := fun _ hd => sharesStatement_iff hd
    statement := fun _ hd => isUseStatement_of_mem hview hd
    boundaries := fun _ hd n hn => (isAnchor_of_mem hview hd n hn).isBoundary
    fqn := fun _ hd => fqn_of_mem hd
    line := fun _ hd => exists_nameBehind hview hd }⟩

/-- Two declarations that share a statement. -/
theorem declarations_arranged_pair :
    (Document.mk "<?php use A, B;".toList "      use A, B;".toList).declarations.map
    (·.sharesStatement) =
        [true, true] ∧
      Arranged ⟨"<?php use A, B;".toList, "      use A, B;".toList⟩
        (Document.mk "<?php use A, B;".toList "      use A, B;".toList).declarations :=
  ⟨by decide, (@declarations_arranged "<?php use A, B;".toList _ rfl).2⟩

end UseImports
