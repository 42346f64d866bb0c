import UseImports.Edit.Sorting
import UseImports.Proofs.Code.Passage
import UseImports.Proofs.Declaration.Structure
import UseImports.Proofs.Edit.Planned

/-!
# The import block

The import block of a document (`import_block`) is a run of lines. Each of its statements begins on
a line of its own, at a place where the text is read as code, and nothing but white space stands
around it on its lines. So the block can be cut out of the text and out of the code at the same
places, and cut up into its lines. No heredoc may reach into the block: one that is closed by the
word `use` could be closed by another line after the lines have changed places.

White space that is not ASCII may stand behind the last statement only, since no statement begins
behind it.

* `HeadAt`, `exists_headAt`: the first declaration of a statement, and where the statement stands.
* `Line`, `Stacked`: the lines of a statement, and lines one below the other.
* `GoesOn`: the block from one of its statements on, with one lemma for each step of the search.
* `FairBlockAt`, `exists_fairBlockAt`: **the import block of a document.**
* `BlockAt`, `exists_blockAt`: the block where all white space is ASCII.
-/

namespace UseImports

open Placed Cursor

variable {A a A' b cs nl S s S' W X x Y y Y' : List Char} {ds : List Declaration} {d : Declaration}
    {doc : Document} {m : Mode}

/-! ## Statements in the text -/

/-- The import statement at a site, cut out of the code. -/
theorem ImportSite.exists_statement {code body : List Char} {site : Cursor × Cursor}
    (h : ImportSite code site body) (hne : readBody (siteSpan site body) site.2.offset body ≠ []) :
    ∃ s y, code = site.1.before.reverse ++ (s ++ y) ∧ IsStatement s ∧
      siteSpan site body = ⟨byteLength site.1.before, byteLength site.1.before + byteLength s⟩ ∧
      readBody (siteSpan site body) site.2.offset body =
        (imports s).map (Declaration.shift (byteLength site.1.before)) ∧
      Opens site.1.before ∧ importLevel site.1.before.reverse site.1.before.reverse = true := by
  obtain ⟨k, t⟩ := site
  obtain ⟨w, R, huse, hbefore, hafter⟩ := useSite_of_mem h.start h.isSite h.body
  have hopens : Opens k.before := by simpa using huse.opens
  obtain ⟨hk, hreach⟩ := mem_useStarts h.start
  have hcode : k.after = w ++ (body ++ ';' :: R) :=
    List.append_cancel_left (hreach.text_eq.symm.trans huse.text)
  -- the keyword is read in what follows the place as it is read in the whole code
  have hfront := located_useKeyword.front hopens (atStart k.after)
  have hplace : (atStart k.after).within k.before [] = k := by simp [atStart, within]
  rw [hplace, hk] at hfront
  obtain ⟨⟨⟨k₀, t₀⟩, e⟩, he, heq⟩ := Option.map_eq_some_iff.mp hfront.symm
  obtain ⟨rfl, rfl, -⟩ := useKeyword?_eq_some he
  have ht : t₀.within k.before [] = t := congrArg Prod.snd heq
  have hbody : statementBody? t₀ = some body := by
    rw [← h.body, ← ht]
    exact (statementBody?_within _ (.inl rfl)).symm
  obtain ⟨s, y, stop, hsplit, hst⟩ := exists_statementText he hbody
  obtain ⟨v, hlen, -, rfl, rfl⟩ := hst.split
  have hw : w.length = 3 := by
    have := congrArg List.length huse.keyword
    rwa [List.length_map] at this
  obtain rfl : v = w := by
    rw [hcode, List.append_assoc] at hsplit
    exact (List.append_inj hsplit (by omega)).1.symm
  have hsemi : (';' : Char).utf8Size = 1 := by decide
  have hoffset : t.offset = byteLength k.before + byteLength v := by
    rw [offset, ← byteLength_reverse, hbefore, byteLength_append, byteLength_reverse]
  have hspan : siteSpan (k, t) body =
      (⟨0, byteLength v + byteLength body + 1⟩ : Span).shift (byteLength k.before) := by
    rw [siteSpan, hoffset, Span.shift, offset]
    congr 1
    simp only [Nat.add_assoc]
  have hread : readBody (siteSpan (k, t) body) t.offset body =
      (statementImports (atStart (v ++ (body ++ [';']))) ⟨v.reverse, body ++ [';']⟩).map
        (Declaration.shift (byteLength k.before)) := by
    rw [hspan, hoffset, readBody_shift, statementImports_eq, hst.statementBody]
    simp [atStart, offset]
  have hstatement := hst.statementAt_of_ne_nil fun hnil => hne (by rw [hread, hnil]; rfl)
  refine ⟨_, y, ?_, ⟨_, _, hstatement⟩, ?_, ?_, hopens, ?_⟩
  · rw [← hsplit]
    exact hreach.text_eq
  · rw [hspan, Span.shift]
    simp only [byteLength_append, byteLength_cons, byteLength_nil, hsemi,
      Nat.add_zero, Nat.add_assoc]
  · rw [hread, hstatement.imports]
  · have hlevel := huse.level
    rw [huse.text] at hlevel
    rwa [importLevel_front huse.opens _ (List.prefix_refl _)] at hlevel

/-! ## First declarations -/

theorem map_firstDeclarations (ds : List Declaration) :
    (firstDeclarations ds).map (fun d => (d.statement, some d)) =
      (byStatement ds).map fun e => (e.1, e.2.head?) := by
  induction ds with
  | nil => rfl
  | cons d ds ih =>
    cases ds with
    | nil => rfl
    | cons e ds =>
      rw [firstDeclarations, byStatement]
      cases hfirst : firstDeclarations (e :: ds) with
      | nil =>
        rw [hfirst] at ih
        rw [List.map_eq_nil_iff.mp ih.symm]
        rfl
      | cons f fs =>
        rw [hfirst] at ih
        obtain ⟨s, rest, hs⟩ : ∃ s rest, byStatement (e :: ds) = s :: rest :=
          List.exists_cons_of_ne_nil fun hnil => by rw [hnil] at ih; cases ih
        rw [hs, List.map_cons, List.map_cons] at ih
        obtain ⟨hhead, hrest⟩ := List.cons.inj ih
        have hsame : f.statement = s.1 := (Prod.mk.inj hhead).1
        rw [hs]
        simp only [hsame, eq_comm (a := d.statement)]
        split
        · simp_all
        · simp_all

/-- The first declarations have statements that follow each other. -/
theorem ImportRow.pairwise_firstDeclarations (h : ImportRow cs ds) :
    (firstDeclarations ds).Pairwise fun d e => d.statement.stop ≤ e.statement.start := by
  have hmap : (firstDeclarations ds).map (·.statement) = (byStatement ds).map (·.1) := by
    have := congrArg (List.map Prod.fst) (map_firstDeclarations ds)
    rwa [List.map_map, List.map_map] at this
  have hordered := h.statementRow.ordered
  rwa [← hmap, List.pairwise_map] at hordered

theorem firstDeclarations_cons (d : Declaration) (ds : List Declaration) :
    firstDeclarations (d :: ds) = d :: match firstDeclarations ds with
      | [] => []
      | f :: fs => if d.statement = f.statement then fs else f :: fs := by
  cases ds with
  | nil => rfl
  | cons e ds =>
    rw [firstDeclarations]
    cases firstDeclarations (e :: ds) with
    | nil => rfl
    | cons f fs =>
      dsimp only
      split <;> rfl

/-- No declaration in front of a first one has the same statement. -/
theorem ImportRow.exists_front (h : ImportRow cs ds) (hd : d ∈ firstDeclarations ds) :
    ∃ front back, ds = front ++ d :: back ∧ ∀ e ∈ front, e.statement ≠ d.statement := by
  induction ds with
  | nil => cases hd
  | cons c ds ih =>
    have hrow := h.sublist (List.sublist_cons_self c ds)
    have hpair := h.pairwise_firstDeclarations
    rw [firstDeclarations_cons] at hd hpair
    rcases List.mem_cons.mp hd with rfl | hd
    · exact ⟨[], ds, rfl, by simp⟩
    have hbehind := (List.pairwise_cons.mp hpair).1 d hd
    have hd' : d ∈ firstDeclarations ds := by
      cases hfirst : firstDeclarations ds with
      | nil =>
        rw [hfirst] at hd
        cases hd
      | cons f fs =>
        rw [hfirst] at hd
        dsimp only at hd
        split at hd
        · exact List.mem_cons_of_mem f hd
        · exact hd
    obtain ⟨front, back, rfl, hfront⟩ := ih hrow hd'
    refine ⟨c :: front, back, rfl, fun e he => ?_⟩
    rcases List.mem_cons.mp he with rfl | he
    · intro hsame
      obtain ⟨A, S, Y, hstretch⟩ := h.stretch e List.mem_cons_self
      have := hstretch.start_lt
      rw [hsame] at hbehind this
      omega
    · exact hfront e he

/-- The name by which the statement with the given view is sorted. -/
def viewKey (view : List Char) : String :=
  ((imports view).head?.map sortKey).getD ""

/-- The declaration `d` is the first one of a statement with the text `S` and the view `s`. It
stands at a place where the text is read as code. -/
structure HeadAt (doc : Document) (d : Declaration) (A S Y a s y : List Char) : Prop where
  text : doc.text = A ++ (S ++ Y)
  code : doc.code = a ++ (s ++ y)
  length : byteLength a = byteLength A
  span : d.statement = ⟨byteLength A, byteLength A + byteLength S⟩
  key : sortKey d = viewKey s
  settles : Settles .code S s .code
  rest : viewFrom [] .code Y = .ok y
  isStatement : IsStatement s
  first : ∃ x S', S = x :: S' ∧ isBlank x = false
  last : S.getLast? = some ';'
  opens : Opens a.reverse
  level : importLevel a a = true

theorem HeadAt.stretch (h : HeadAt doc d A S Y a s y) : Stretch doc.text d.statement A S Y :=
  ⟨h.text, h.span, h.first, h.last⟩

section Heads

variable (hview : viewFrom [] m doc.text = .ok doc.code)

include hview

/-- A first declaration comes first in what is read at its site. -/
theorem exists_site_of_first (h : d ∈ firstDeclarations doc.declarations) :
    ∃ site body, ImportSite doc.code site body ∧
      (doc.readBody (siteSpan site body) site.2.offset body).head? = some d := by
  obtain ⟨front, back, hds, hfront⟩ := (importRow_declarations hview).exists_front h
  have hd : d ∈ doc.declarations := (firstDeclarations_sublist _).subset h
  obtain ⟨site, body, hsite, hmem, hsub⟩ := exists_site hd
  have hread := readOff_readBody doc (siteSpan site body) site.2.offset body
  refine ⟨site, body, hsite, ?_⟩
  cases hbody : doc.readBody (siteSpan site body) site.2.offset body with
  | nil =>
    rw [hbody] at hmem
    cases hmem
  | cons c rest =>
    rw [hbody] at hmem hread hsub
    rcases List.mem_cons.mp hmem with rfl | hmem
    · rfl
    -- else the one read first would stand in front of `d` in the statement, but behind `d` in the
    -- document
    have hc := hsub c List.mem_cons_self
    have hbefore := (List.pairwise_cons.mp hread.apart).1 d hmem
    have hcinside := span_inside hc
    have hdinside := span_inside hd
    have hpair := declarations_pairwise doc
    rw [hds] at hc hpair
    rcases List.mem_append.mp hc with hc | hc
    · refine absurd ?_ (hfront c hc)
      rw [hread.statement c List.mem_cons_self, hread.statement d (List.mem_cons_of_mem c hmem)]
    rcases List.mem_cons.mp hc with rfl | hc
    · rfl
    · have := ((List.pairwise_cons.mp (List.pairwise_append.mp hpair).2.1).1 c hc).2
      omega

/-- The statement of a first declaration stands in the code. -/
theorem exists_statement_of_first (h : d ∈ firstDeclarations doc.declarations)
    (hcode : doc.code = a ++ b) (hstart : byteLength a = d.statement.start) :
    ∃ s y, b = s ++ y ∧ IsStatement s ∧ d.statement = ⟨byteLength a, byteLength a + byteLength s⟩ ∧
      sortKey d = viewKey s ∧ Opens a.reverse ∧ importLevel a a = true := by
  obtain ⟨site, body, hsite, hhead⟩ := exists_site_of_first hview h
  have hmem := List.mem_of_head? hhead
  obtain ⟨s, y, hsplit, hs, hspan, hread, hopens, hlevel⟩ :=
    hsite.exists_statement (readBody_ne_nil hmem)
  have hd := (readOff_readBody doc (siteSpan site body) site.2.offset body).statement d hmem
  rw [hspan, ← byteLength_reverse] at hd
  obtain ⟨rfl, rfl⟩ :=
    append_eq_append_of_eq (hcode.symm.trans hsplit) (hstart.trans (congrArg Span.start hd))
  refine ⟨s, y, rfl, hs, hd, ?_, by rwa [List.reverse_reverse], hlevel⟩
  have hfirst := congrArg List.head?
    ((readBody_unlined doc (siteSpan site body) site.2.offset body).trans hread)
  rw [List.head?_map, List.head?_map, hhead] at hfirst
  obtain ⟨e, he, hshift⟩ := Option.map_eq_some_iff.mp hfirst.symm
  rw [viewKey, he]
  exact (congrArg sortKey hshift).symm

/-- **The statement of a first declaration** that stands where the text is read as code. -/
theorem exists_headAt (h : d ∈ firstDeclarations doc.declarations)
    (hstretch : Stretch doc.text d.statement A S Y) (hcode : doc.code = a ++ b)
    (hlength : byteLength a = byteLength A) (hrest : viewFrom [] .code (S ++ Y) = .ok b) :
    ∃ s y, b = s ++ y ∧ HeadAt doc d A S Y a s y := by
  obtain ⟨s, y, rfl, hs, hspan, hkey, hopens, hlevel⟩ :=
    exists_statement_of_first hview h hcode (by rw [hlength, hstretch.span])
  obtain ⟨S₁, Y₁, hparts, hwalk, hviewY, -⟩ := exists_statement_walk hrest hs
  have hsettles : Settles .code S₁ s .code := fun R => (hwalk R).viewFrom_eq
  have hlen := hsettles.byteLength_eq
  have hstop := congrArg Span.stop (hstretch.span.symm.trans hspan)
  obtain ⟨rfl, rfl⟩ := append_eq_append_of_eq hparts (by dsimp only at hstop; omega)
  exact ⟨s, y, rfl, hstretch.text, hcode, hlength, hstretch.span, hkey, hsettles, hviewY, hs,
    hstretch.first, hstretch.last, hopens, hlevel⟩

end Heads

/-! ## Lines -/

/-- The end of a line. -/
def IsBreak (nl : List Char) : Prop :=
  nl = ['\n'] ∨ nl = ['\r', '\n']

namespace IsBreak

variable (h : IsBreak nl)
include h

theorem isSpace : ∀ c ∈ nl, isSpace c = true := by
  rcases h with rfl | rfl <;> decide

theorem breaks_eq : breaks nl = 1 := by
  rcases h with rfl | rfl <;> rfl

theorem getLast?_eq : nl.getLast? = some '\n' := by
  rcases h with rfl | rfl <;> rfl

theorem atLineStart (A : List Char) : AtLineStart (A ++ nl) := by
  rw [AtLineStart, List.getLast?_append, h.getLast?_eq]
  exact .inr rfl

end IsBreak

theorem isBreak_lineBreak (cs : List Char) : IsBreak (lineBreak cs).toList := by
  unfold lineBreak
  split
  · exact .inr rfl
  · exact .inl rfl

/-- The text begins with the end of a line, if it is not empty. -/
def BreakFirst (Q : List Char) : Prop :=
  Q = [] ∨ ∃ nl R, IsBreak nl ∧ Q = nl ++ R

/-- White space on one line. -/
def IsIndent (W : List Char) : Prop :=
  ∀ c ∈ W, isSpace c = true ∧ c ≠ '\n'

theorem IsIndent.isSpace (h : IsIndent W) : ∀ c ∈ W, isSpace c = true :=
  fun c hc => (h c hc).1

theorem IsIndent.not_mem (h : IsIndent W) : '\n' ∉ W :=
  fun hmem => (h _ hmem).2 rfl

/-- White space on one line, be it ASCII or not. -/
def IsWhite (W : List Char) : Prop :=
  ∀ c ∈ W, isBlank c = true ∧ c ≠ '\n'

theorem IsIndent.isWhite (h : IsIndent W) : IsWhite W :=
  fun c hc => ⟨isBlank_of_isSpace (h c hc).1, (h c hc).2⟩

theorem IsWhite.not_mem (h : IsWhite W) : '\n' ∉ W :=
  fun hmem => (h _ hmem).2 rfl

theorem isPlain_of_isBlank {c : Char} (h : isBlank c = true) : isPlain c = true :=
  of_isBlank (p := fun c => isPlain c = true) (by decide +kernel) h

/-- White space in front of a place where a statement may begin is ASCII. -/
theorem Opens.isSpace_of_blank (h : Opens (b ++ W).reverse) (hW : ∀ c ∈ W, isBlank c = true) :
    ∀ c ∈ W, isSpace c = true := by
  induction W using List.reverseRecOn with
  | nil => simp
  | append_singleton W c ih =>
    rw [← List.append_assoc] at h
    have hc : isSpace c = true := by
      rw [List.reverse_append, List.reverse_singleton] at h
      refine (h.head_cases rfl).resolve_right fun hstop => ?_
      have hblank := hW c (by simp)
      rw [halts_isBlank c hstop] at hblank
      cases hblank
    have hfront := ih (h.of_space (by simpa using hc)) fun x hx => hW x (List.mem_append_left _ hx)
    intro x hx
    rcases List.mem_append.mp hx with hx | hx
    · exact hfront x hx
    · rwa [List.mem_singleton.mp hx]

theorem firstLine_subset (Y : List Char) : firstLine Y ⊆ Y.takeWhile (· ≠ '\n') := by
  unfold firstLine
  dsimp only
  split
  · exact List.dropLast_subset _
  · exact List.Subset.refl _

theorem not_mem_firstLine (Y : List Char) : '\n' ∉ firstLine Y := fun h => by
  have := List.mem_takeWhile_imp (firstLine_subset Y h)
  simp at this

/-- A text goes on with a line end behind its first line. -/
theorem exists_breakFirst (Y : List Char) : ∃ Q, Y = firstLine Y ++ Q ∧ BreakFirst Q := by
  obtain ⟨Q, hsplit, hQ⟩ := exists_firstLine Y
  refine ⟨Q, hsplit, ?_⟩
  rcases hQ with rfl | ⟨R, rfl⟩ | ⟨R, rfl, -⟩
  · exact .inl rfl
  · exact .inr ⟨_, R, .inr rfl, rfl⟩
  · exact .inr ⟨_, R, .inl rfl, rfl⟩

theorem isWhite_firstLine (h : isBlankText (firstLine Y) = true) : IsWhite (firstLine Y) :=
  fun c hc => ⟨isBlankText_iff.mp h c hc, fun heq => not_mem_firstLine Y (heq ▸ hc)⟩

theorem isWhite_lead (h : isBlankText (lead A) = true) : IsWhite (lead A) :=
  fun c hc => ⟨isBlankText_iff.mp h c hc, fun heq => not_mem_lead A (heq ▸ hc)⟩

/-- White space with one line end, which comes first. -/
theorem exists_lineBreak {G R : List Char} (hbreak : BreakFirst (G ++ R)) (hone : breaks G = 1) :
    ∃ nl, IsBreak nl ∧ G = nl ++ lead G := by
  rcases hbreak with hnil | ⟨nl, R', hnl, heq⟩
  · rw [(List.append_eq_nil_iff.mp hnil).1] at hone
    cases hone
  · -- the text begins with one line end, and there is no other
    obtain ⟨L, rfl⟩ : ∃ L, G = nl ++ L := by
      rcases List.append_eq_append_iff.mp heq with ⟨t, ht, -⟩ | ⟨L, hG, -⟩
      · have hbreaks := hnl.breaks_eq
        have hlast := hnl.getLast?_eq
        rw [ht, breaks_append, hone] at hbreaks
        rw [ht, List.getLast?_append] at hlast
        cases hend : t.getLast? with
        | none =>
          rw [List.getLast?_eq_none_iff.mp hend, List.append_nil] at ht
          exact ⟨[], by rw [ht, List.append_nil]⟩
        | some c =>
          rw [hend] at hlast
          obtain rfl := Option.some.inj hlast
          have := breaks_pos hend
          omega
      · exact ⟨L, hG⟩
    have hL : '\n' ∉ L := by
      intro hmem
      have hpos : 0 < breaks L := List.count_pos_iff.mpr hmem
      rw [breaks_append, hnl.breaks_eq] at hone
      omega
    have hsplit := lead_of_split (hnl.atLineStart []) hL
    exact ⟨nl, hnl, by rw [List.nil_append] at hsplit; rw [hsplit.1]⟩

/-- The lines of a statement of the block, of which the last one has no end. -/
structure Line where
  indent : List Char
  statement : List Char
  view : List Char
  tail : List Char

namespace Line

def text (l : Line) : List Char :=
  l.indent ++ (l.statement ++ l.tail)

def code (l : Line) : List Char :=
  l.indent ++ (l.view ++ l.tail)

def meanings (l : Line) : List (String × Option String × ImportKind) :=
  (imports l.view).map Declaration.meaning

/-- The statement is one, and nothing but white space stands around it. -/
structure Fair (l : Line) : Prop where
  indent : IsIndent l.indent
  blank : IsWhite l.tail
  settles : Settles .code l.statement l.view .code
  isStatement : IsStatement l.view
  first : ∃ x S, l.statement = x :: S ∧ isBlank x = false
  last : l.statement.getLast? = some ';'

/-- Moreover, the white space is ASCII. -/
structure Sound (l : Line) : Prop extends Fair l where
  tail : IsIndent l.tail

namespace Fair

variable {l : Line} (h : l.Fair)
include h

theorem settles_code : Settles .code l.text l.code .code :=
  (settles_of_isPlain fun c hc => isPlain_of_isSpace (h.indent.isSpace c hc)).append
    (h.settles.append (settles_of_isPlain fun c hc => isPlain_of_isBlank (h.blank c hc).1))

theorem text_ne_nil : l.text ≠ [] := by
  obtain ⟨S, hS⟩ := List.getLast?_eq_some_iff.mp h.last
  simp [text, hS]

theorem closed : l.text.getLast? ≠ some '<' := by
  rw [text, List.getLast?_append, List.getLast?_append, h.last]
  cases hlast : l.tail.getLast? with
  | none => simp
  | some c =>
    intro heq
    obtain rfl : c = '<' := by simpa using heq
    exact absurd (isPlain_of_isBlank (h.blank _ (List.mem_of_getLast? hlast)).1) (by decide)

end Fair

namespace Sound

variable {l : Line} (h : l.Sound)
include h

theorem run : Run l.code :=
  (Run.of_space h.indent.isSpace).append
  ((Run.of_statement h.isStatement).append (Run.of_space h.tail.isSpace))

theorem imports_code : (imports l.code).map Declaration.meaning = l.meanings := by
  rw [code, imports_append (Run.of_space h.indent.isSpace).importPlace,
    imports_append h.isStatement.importPlace, imports_of_isSpace h.indent.isSpace,
    imports_of_isSpace h.tail.isSpace]
  simp only [List.map_nil, List.append_nil, List.nil_append, List.map_map]
  rfl

end Sound

theorem fair_of_sound {ls : List Line} (h : ∀ l ∈ ls, l.Sound) : ∀ l ∈ ls, l.Fair :=
  fun l hl => (h l hl).toFair

end Line

/-- Lines one below the other, and the view of the text that they make up. -/
inductive Stacked : List Line → List Char → List Char → Prop
  | single (l : Line) : Stacked [l] l.text l.code
  | cons (l : Line) {nl : List Char} {ls : List Line} {X x : List Char} : IsBreak nl →
      Stacked ls X x →
      Stacked (l :: ls) (l.text ++ (nl ++ X)) (l.code ++ (nl ++ x))

namespace Stacked

variable {ls : List Line} (h : Stacked ls X x)
include h

theorem ne_nil : ls ≠ [] := by
  cases h <;> exact List.cons_ne_nil _ _

theorem text_subset {l : Line} (hl : l ∈ ls) : l.text ⊆ X := by
  induction h with
  | single k => rw [List.mem_singleton.mp hl]; exact List.Subset.refl _
  | cons k _ _ ih =>
    rcases List.mem_cons.mp hl with rfl | hl
    · exact List.subset_append_left _ _
    · exact List.Subset.trans (ih hl)
        (List.Subset.trans (List.subset_append_right _ _) (List.subset_append_right _ _))

section Fair

variable (hls : ∀ l ∈ ls, l.Fair)
include hls

theorem text_ne_nil : X ≠ [] := by
  cases h with
  | single l => exact (hls l List.mem_cons_self).text_ne_nil
  | cons l _ _ => exact List.append_ne_nil_of_left_ne_nil (hls l List.mem_cons_self).text_ne_nil _

theorem settles : Settles .code X x .code := by
  induction h with
  | single l => exact (hls l List.mem_cons_self).settles_code
  | cons l hnl _ ih =>
    exact (hls l List.mem_cons_self).settles_code.append
      ((settles_of_isPlain fun c hc => isPlain_of_isSpace (hnl.isSpace c hc)).append
        (ih fun k hk => hls k (List.mem_cons_of_mem l hk)))

/-- Open tags stand inside the statements. -/
theorem hasOpenTag_eq : hasOpenTag X = ls.any (hasOpenTag ·.text) ∧ X.getLast? ≠ some '<' := by
  induction h with
  | single l => exact ⟨by simp, (hls l List.mem_cons_self).closed⟩
  | @cons l nl ls X x hnl _ ih =>
    obtain ⟨htags, hclosed⟩ := ih fun k hk => hls k (List.mem_cons_of_mem l hk)
    have hmem : '<' ∉ nl := fun hmem => absurd (hnl.isSpace _ hmem) (by decide)
    have hbreak : (nl ++ X).getLast? ≠ some '<' := by
      rw [List.getLast?_append]
      cases hlast : X.getLast? with
      | none =>
        rw [hnl.getLast?_eq]
        simp
      | some c => simpa [hlast] using hclosed
    refine ⟨?_, ?_⟩
    · rw [hasOpenTag_append_of_ne (hls l List.mem_cons_self).closed,
        hasOpenTag_append_of_ne fun hlast => hmem (List.mem_of_getLast? hlast),
        hasOpenTag_of_not_mem hmem, htags,
        List.any_cons, Bool.false_or]
    · rw [List.getLast?_append]
      cases hlast : (nl ++ X).getLast? with
      | none => simp [hnl.getLast?_eq] at hlast
      | some c => simpa [hlast] using hbreak

/-- The first line begins with white space and a statement. -/
theorem exists_statement :
    ∃ w s z, x = w ++ (s ++ z) ∧ (∀ c ∈ w, isSpace c = true) ∧ IsStatement s := by
  cases h with
  | single l =>
    have hl := hls l List.mem_cons_self
    exact ⟨l.indent, l.view, l.tail, rfl, hl.indent.isSpace, hl.isStatement⟩
  | @cons l nl ls X x hnl _ =>
    have hl := hls l List.mem_cons_self
    refine ⟨l.indent, l.view, l.tail ++ (nl ++ x), ?_, hl.indent.isSpace, hl.isStatement⟩
    simp only [Line.code, List.append_assoc]

end Fair

section Sound

variable (hls : ∀ l ∈ ls, l.Sound)
include hls

theorem run : Run x := by
  induction h with
  | single l => exact (hls l List.mem_cons_self).run
  | cons l hnl _ ih =>
    exact (hls l List.mem_cons_self).run.append
      ((Run.of_space hnl.isSpace).append (ih fun k hk => hls k (List.mem_cons_of_mem l hk)))

/-- The lines import what each of them imports. -/
theorem meanings : (imports x).map Declaration.meaning = ls.flatMap Line.meanings := by
  induction h with
  | single l => simpa using (hls l List.mem_cons_self).imports_code
  | @cons l nl ls X x hnl _ ih =>
    have hl := hls l List.mem_cons_self
    have hspace := Run.of_space hnl.isSpace
    rw [imports_append hl.run.importPlace, imports_append hspace.importPlace,
      imports_of_isSpace hnl.isSpace, List.flatMap_cons, ← hl.imports_code,
      ← ih fun k hk => hls k (List.mem_cons_of_mem l hk)]
    simp [Function.comp_def]

theorem classesOf_eq : classesOf x = ls.flatMap fun l => classesOf l.code := by
  induction h with
  | single l => simp
  | @cons l nl ls X x hnl _ ih =>
    have hspace := Run.of_space hnl.isSpace
    have hlong : 'ſ' ∉ nl := fun hmem => absurd (hnl.isSpace _ hmem) (by decide)
    rw [classesOf_append (hls l List.mem_cons_self).run.importPlace.opens,
      classesOf_append hspace.importPlace.opens,
      hspace.classesOf_eq hlong, ih fun k hk => hls k (List.mem_cons_of_mem l hk), List.nil_append,
      List.flatMap_cons]

end Sound

end Stacked

/-- Lines can be put below each other in any order. -/
theorem stacked_intercalate (hnl : IsBreak nl) {ls : List Line} (hne : ls ≠ []) :
    ∃ x, Stacked ls (nl.intercalate (ls.map Line.text)) x := by
  induction ls with
  | nil => exact absurd rfl hne
  | cons l ls ih =>
    cases ls with
    | nil => exact ⟨l.code, by simpa [List.intercalate] using Stacked.single l⟩
    | cons k ls =>
      obtain ⟨x, hx⟩ := ih (List.cons_ne_nil k ls)
      refine ⟨l.code ++ (nl ++ x), ?_⟩
      have := Stacked.cons l hnl hx
      simpa [List.intercalate] using this

/-! ## The search -/

/-- From the statement `S` on, the text is made up of the lines `ls` of the entries, and of `Q`. -/
structure GoesOn (A S Y s y : List Char) (es : List BlockEntry) (ls : List Line)
    (X x Q q : List Char) : Prop where
  stacked : Stacked ls X x
  fair : ∀ l ∈ ls, l.Fair
  indented : ∀ l ∈ ls.dropLast, IsIndent l.tail
  text : lead A ++ (S ++ Y) = X ++ Q
  code : lead A ++ (s ++ y) = x ++ q
  rest : viewFrom [] .code Q = .ok q
  breakFirst : BreakFirst Q
  entries : es.map (fun e => (e.key, e.lines)) = ls.map fun l => (viewKey l.view, l.text)
  stop : ∀ e ∈ es.getLast?, e.span.stop = byteLength (upToLead A) + byteLength X

namespace Stretch

variable {s t : Span} (h : Stretch cs s A S Y)
include h

theorem isAlone_eq : isAlone cs s = (isBlankText (lead A) && isBlankText (firstLine Y)) := by
  rw [h.text, h.span, isAlone_append h.last]

theorem lineExtent_eq : lineExtent cs s = (breaks A, breaks (A ++ S)) := by
  rw [h.text, h.span, lineExtent_append h.last]

/-- A statement that begins on the next line. -/
theorem exists_next (h' : Stretch cs t A' S' Y') (hle : s.stop ≤ t.start)
    (hnext : breaks A' = breaks (A ++ S) + 1) :
    ∃ nl, IsBreak nl ∧ upToLead A' = A ++ (S ++ (firstLine Y ++ nl)) ∧
      Y = firstLine Y ++ (nl ++ (lead A' ++ (S' ++ Y'))) := by
  obtain ⟨M, hA', hY⟩ := h.exists_between h' hle
  obtain ⟨Q, hQ, hbreak⟩ := exists_breakFirst Y
  have hone : breaks M = 1 := by
    rw [hA'] at hnext
    simp only [breaks_append] at hnext
    omega
  have hmem : '\n' ∈ M := List.count_pos_iff.mp (by rw [← breaks, hone]; exact Nat.one_pos)
  -- the first line is over before the next statement begins
  obtain ⟨G, hM⟩ : ∃ G, M = firstLine Y ++ G := by
    have hpre : firstLine Y <+: M := List.prefix_of_prefix_length_le (firstLine_isPrefix Y)
      ⟨_, hY.symm⟩ (by
        by_contra hlt
        have := List.prefix_of_prefix_length_le ⟨_, hY.symm⟩ (firstLine_isPrefix Y) (by omega)
        exact not_mem_firstLine Y (this.subset hmem))
    exact hpre.imp fun G hG => hG.symm
  have hG : Q = G ++ (S' ++ Y') := by
    rw [hM, List.append_assoc] at hY
    exact List.append_cancel_left (hQ.symm.trans hY)
  rw [hM, breaks_append, breaks_eq_zero (not_mem_firstLine Y), Nat.zero_add] at hone
  rw [hG] at hbreak
  obtain ⟨nl, hnl, hsplit⟩ := exists_lineBreak hbreak hone
  have hmem' : '\n' ∈ G := List.count_pos_iff.mp (by rw [← breaks, hone]; exact Nat.one_pos)
  have hup : upToLead G = nl := List.append_cancel_right ((upToLead_append_lead G).trans hsplit)
  obtain ⟨hleadG, hupA⟩ := lead_append_of_mem hmem' (A ++ (S ++ firstLine Y))
  have hA : A' = A ++ (S ++ firstLine Y) ++ G := by
    rw [hA', hM]
    simp only [List.append_assoc]
  rw [← hA] at hleadG hupA
  refine ⟨nl, hnl, ?_, ?_⟩
  · rw [hupA, hup]
    simp only [List.append_assoc]
  · rw [hleadG, ← List.append_assoc nl, ← hsplit, ← hG]
    exact hQ

end Stretch

namespace HeadAt

variable {e : Declaration} (h : HeadAt doc d A S Y a s y)
include h

theorem blockEntry_eq : blockEntry doc.text d =
    ⟨viewKey s, ⟨byteLength (upToLead A), byteLength A + byteLength S + byteLength (firstLine Y)⟩,
      lead A ++ (S ++ firstLine Y)⟩ := by
  rw [h.text, blockEntry_append h.last A Y h.span, h.key]

theorem fair (hindent : IsIndent (lead A)) (hline : isBlankText (firstLine Y) = true) :
    Line.Fair ⟨lead A, S, s, firstLine Y⟩ :=
  ⟨hindent, isWhite_firstLine hline, h.settles, h.isStatement, h.first, h.last⟩

/-- The block ends with the statement. -/
theorem done (hindent : IsIndent (lead A)) (hline : isBlankText (firstLine Y) = true) :
    ∃ Q q, GoesOn A S Y s y [blockEntry doc.text d] [⟨lead A, S, s, firstLine Y⟩]
      (lead A ++ (S ++ firstLine Y)) (lead A ++ (s ++ firstLine Y)) Q q := by
  obtain ⟨Q, hY, hbreak⟩ := exists_breakFirst Y
  have hview := h.rest
  rw [hY, (settles_of_isPlain fun c hc =>
    isPlain_of_isBlank (isWhite_firstLine hline c hc).1) Q] at hview
  obtain ⟨q, hq, hy⟩ := map_ok_iff.mp hview
  refine ⟨Q, q, .single _, fun l hl => ?_, by simp, ?_, ?_, hq, hbreak, ?_, fun e he => ?_⟩
  · rw [List.mem_singleton.mp hl]
    exact h.fair hindent hline
  · simp only [List.append_assoc, ← hY]
  · simp only [List.append_assoc, hy]
  · rw [h.blockEntry_eq]
    rfl
  · rw [List.getLast?_singleton] at he
    obtain rfl := Option.some.inj he
    have hlen := byteLength_upToLead A
    rw [h.blockEntry_eq]
    simp only [byteLength_append]
    omega

/-- **The next statement of the block** stands on the next line, and nothing but ASCII white space
in front of it. -/
theorem exists_next (hview : viewFrom [] m doc.text = .ok doc.code)
    (he : e ∈ firstDeclarations doc.declarations) (h' : Stretch doc.text e.statement A' S' Y')
    (hle : d.statement.stop ≤ e.statement.start) (hline : isBlankText (firstLine Y) = true)
    (hlead' : isBlankText (lead A') = true) (hnext : breaks A' = breaks (A ++ S) + 1) :
    ∃ nl a' s' y', IsBreak nl ∧ upToLead A' = A ++ (S ++ (firstLine Y ++ nl)) ∧
      Y = firstLine Y ++ (nl ++ (lead A' ++ (S' ++ Y'))) ∧
      y = firstLine Y ++ (nl ++ (lead A' ++ (s' ++ y'))) ∧
      HeadAt doc e A' S' Y' a' s' y' ∧ IsIndent (firstLine Y) ∧ IsIndent (lead A') := by
  obtain ⟨nl, hnl, hup, hY⟩ := h.stretch.exists_next h' hle hnext
  have hwhite := isWhite_firstLine hline
  have hwhite' := isWhite_lead hlead'
  have hblank : ∀ c ∈ firstLine Y ++ (nl ++ lead A'), isBlank c = true := by
    intro c hc
    rcases List.mem_append.mp hc with hc | hc
    · exact (hwhite c hc).1
    · exact (List.mem_append.mp hc).elim (fun hc => isBlank_of_isSpace (hnl.isSpace c hc)) fun hc =>
        (hwhite' c hc).1
  have hread := (settles_of_isPlain fun c hc => isPlain_of_isBlank (hblank c hc)) (S' ++ Y')
  simp only [List.append_assoc] at hread
  rw [← hY, h.rest] at hread
  obtain ⟨b, hb, hy⟩ := map_ok_iff.mp hread.symm
  have hcode : doc.code = (a ++ (s ++ (firstLine Y ++ (nl ++ lead A')))) ++ b := by
    rw [h.code, ← hy]
    simp only [List.append_assoc]
  have hA' : A' = A ++ (S ++ (firstLine Y ++ (nl ++ lead A'))) := by
    conv_lhs => rw [← upToLead_append_lead A', hup]
    simp only [List.append_assoc]
  have hlength : byteLength (a ++ (s ++ (firstLine Y ++ (nl ++ lead A')))) = byteLength A' := by
    have hlen := congrArg byteLength hA'
    simp only [byteLength_append] at hlen ⊢
    rw [h.length, h.settles.byteLength_eq, hlen]
  obtain ⟨s', y', rfl, hhead⟩ := exists_headAt hview he h' hcode hlength hb
  -- a statement begins behind the white space, so it is ASCII
  have hspace : ∀ c ∈ firstLine Y ++ (nl ++ lead A'), isSpace c = true := by
    have hopens := hhead.opens
    rw [← List.append_assoc a] at hopens
    exact hopens.isSpace_of_blank hblank
  refine ⟨nl, _, s', y', hnl, hup, hY, by simpa only [List.append_assoc] using hy.symm, hhead,
    fun c hc => ⟨hspace c (List.mem_append_left _ hc), (hwhite c hc).2⟩,
    fun c hc => ⟨hspace c (List.mem_append_right _ (List.mem_append_right _ hc)), (hwhite' c hc).2⟩⟩

/-- The block goes on with the next statement. -/
theorem goesOn_cons {s' y' : List Char} (hnl : IsBreak nl)
    (hup : upToLead A' = A ++ (S ++ (firstLine Y ++ nl)))
    (hY : Y = firstLine Y ++ (nl ++ (lead A' ++ (S' ++ Y'))))
    (hy : y = firstLine Y ++ (nl ++ (lead A' ++ (s' ++ y')))) (hindent : IsIndent (lead A))
    (htail : IsIndent (firstLine Y)) (hline : isBlankText (firstLine Y) = true)
    {es : List BlockEntry} {ls : List Line} {Q q : List Char}
    (hrest : GoesOn A' S' Y' s' y' es ls X x Q q) (hne : es ≠ []) :
    GoesOn A S Y s y (blockEntry doc.text d :: es) (⟨lead A, S, s, firstLine Y⟩ :: ls)
      (lead A ++ (S ++ firstLine Y) ++ (nl ++ X))
      (lead A ++ (s ++ firstLine Y) ++ (nl ++ x)) Q q := by
  refine ⟨.cons ⟨lead A, S, s, firstLine Y⟩ hnl hrest.stacked, fun l hl => ?_,
    fun l hl => ?_, ?_, ?_, hrest.rest, hrest.breakFirst, ?_, fun e he => ?_⟩
  · rcases List.mem_cons.mp hl with rfl | hl
    · exact h.fair hindent hline
    · exact hrest.fair l hl
  · rw [List.dropLast_cons_of_ne_nil hrest.stacked.ne_nil] at hl
    rcases List.mem_cons.mp hl with rfl | hl
    · exact htail
    · exact hrest.indented l hl
  · simp only [List.append_assoc, ← hrest.text, ← hY]
  · simp only [List.append_assoc, ← hrest.code, ← hy]
  · rw [List.map_cons, List.map_cons, hrest.entries, h.blockEntry_eq]
    rfl
  · rw [List.getLast?_cons, List.getLast?_eq_some_getLast hne] at he
    have hstop := hrest.stop e (by rw [List.getLast?_eq_some_getLast hne]; exact he)
    have hlen := byteLength_upToLead A
    rw [hstop, hup]
    simp only [byteLength_append]
    omega

end HeadAt

/-- **The lines of the block** from a statement of it on. -/
theorem exists_goesOn (hview : viewFrom [] m doc.text = .ok doc.code)
    (hds : ∀ e ∈ ds, e ∈ firstDeclarations doc.declarations)
    (hordered : ds.Pairwise fun d e => d.statement.stop ≤ e.statement.start)
    (h : HeadAt doc d A S Y a s y) (hbehind : ∀ e ∈ ds, d.statement.stop ≤ e.statement.start)
    (hindent : IsIndent (lead A)) (hline : isBlankText (firstLine Y) = true) :
    ∃ ls X x Q q,
      GoesOn A S Y s y (blockEntry doc.text d :: blockFrom doc.text (some (breaks (A ++ S))) ds)
        ls X x Q q := by
  induction ds generalizing d A S Y a s y with
  | nil =>
    obtain ⟨Q, q, hdone⟩ := h.done hindent hline
    exact ⟨_, _, _, Q, q, hdone⟩
  | cons e ds ih =>
    have he := hds e List.mem_cons_self
    obtain ⟨A', S', Y', h'⟩ :=
      (importRow_declarations hview).stretch e ((firstDeclarations_sublist _).subset he)
    obtain ⟨hbehind', hordered'⟩ := List.pairwise_cons.mp hordered
    rw [blockFrom, h'.lineExtent_eq, h'.isAlone_eq]
    dsimp only
    split
    · rename_i hnext
      simp only [Bool.and_eq_true_iff, beq_iff_eq] at hnext
      obtain ⟨⟨hlead', hline'⟩, hnext⟩ := hnext
      obtain ⟨nl, a', s', y', hnl, hup, hY, hy, hhead, htail, hindent'⟩ :=
        h.exists_next hview he h' (hbehind e List.mem_cons_self) hline hlead' hnext
      obtain ⟨ls, X, x, Q, q, hrest⟩ := ih (fun d hd =>
        hds d (List.mem_cons_of_mem e hd)) hordered' hhead hbehind'
        hindent' hline'
      exact ⟨_, _, _, Q, q,
        h.goesOn_cons hnl hup hY hy hindent htail hline hrest (List.cons_ne_nil _ _)⟩
    · obtain ⟨Q, q, hdone⟩ := h.done hindent hline
      exact ⟨_, _, _, Q, q, hdone⟩

/-- The lines `ls` of the entries make up the part `X` of the document, with the view `x`. It begins
at the start of a line, where a statement may begin. White space that is not ASCII stands at its end
only. -/
structure FairBlockAt (m : Mode) (doc : Document) (es : List BlockEntry) (ls : List Line)
    (P X Q p x q : List Char) :
    Prop where
  text : doc.text = P ++ (X ++ Q)
  code : doc.code = p ++ (x ++ q)
  settles : Settles m P p .code
  rest : viewFrom [] .code Q = .ok q
  breakFirst : BreakFirst Q
  atLineStart : AtLineStart P
  opens : Opens p.reverse
  level : importLevel p p = true
  stacked : Stacked ls X x
  fair : ∀ l ∈ ls, l.Fair
  indented : ∀ l ∈ ls.dropLast, IsIndent l.tail
  entries : es.map (fun e => (e.key, e.lines)) = ls.map fun l => (viewKey l.view, l.text)
  span : blockSpan? es = some ⟨byteLength P, byteLength P + byteLength X⟩

/-- All white space around the statements is ASCII. -/
structure BlockAt (m : Mode) (doc : Document) (es : List BlockEntry) (ls : List Line)
    (P X Q p x q : List Char) :
    Prop extends FairBlockAt m doc es ls P X Q p x q where
  sound : ∀ l ∈ ls, l.Sound

/-- The block begins with the first statement that is alone on its lines. -/
theorem blockFrom_none_cases (cs : List Char) (ds : List Declaration) :
    blockFrom cs none ds = [] ∨ ∃ front d rest, ds = front ++ d :: rest ∧
    isAlone cs d.statement = true ∧
      blockFrom cs none ds =
        blockEntry cs d :: blockFrom cs (some (lineExtent cs d.statement).2) rest := by
  induction ds with
  | nil => exact .inl rfl
  | cons d ds ih =>
    rw [blockFrom]
    split
    · rename_i halone
      exact .inr ⟨[], d, ds, rfl, halone, rfl⟩
    · rcases ih with hnil | ⟨front, e, rest, rfl, halone, hblock⟩
      · exact .inl hnil
      · exact .inr ⟨d :: front, e, rest, rfl, halone, hblock⟩

/-- A text whose view begins with a statement is read as code. -/
theorem code_of_isStatement (hm : m.Proper) {Z : List Char} (hview : viewFrom [] m Z = .ok (s ++ y))
    (hs : IsStatement s) : m = .code := by
  obtain ⟨x, s', rfl, hx⟩ := hs.exists_letter
  obtain ⟨-, hspace, hquote, -⟩ := visible_of_foldLetter hx
  obtain ⟨A, B, known, m', rfl, hwalk, hrest⟩ := exists_split_of_visible (a := []) hview hspace
  obtain rfl : A = [] := by
    have hlen := hwalk.byteLength_eq
    rw [byteLength_nil] at hlen
    exact byteLength_eq_zero.mp hlen.symm
  obtain ⟨rfl, rfl, -⟩ := hwalk.eq_of_nil
  exact ((steady_nil hm _).code_of_visible hrest hspace hquote).2

/-- The first statement of the block stands where the text is read as code, if no heredoc reaches
into its line. -/
theorem exists_firstHead (hview : viewFrom [] m doc.text = .ok doc.code) (hm : m.Proper)
    (hd : d ∈ firstDeclarations doc.declarations) (hstretch : Stretch doc.text d.statement A S Y)
    (hlead : isBlankText (lead A) = true) (hfree : ¬ InHeredoc m doc.text (byteLength (upToLead A)))
    :
    ∃ p s y, HeadAt doc d A S Y (p ++ lead A) s y ∧ IsIndent (lead A) ∧
      Settles m (upToLead A) p .code := by
  have htext : doc.text = upToLead A ++ (lead A ++ (S ++ Y)) := by
    rw [hstretch.text, append_eq_lead]
  have hview' := hview
  rw [htext] at hview' hfree
  obtain ⟨p, known, m', hwalk⟩ := exists_walk hview'
  obtain rfl : known = [] := by
    by_contra hne
    exact hfree (inHeredoc_of_walk hwalk (atLineStart_upToLead A) hne)
  obtain ⟨w, hblanks⟩ := Walk.of_blanks (hwalk.proper hm) (isWhite_lead hlead) (S ++ Y)
  have hall := hwalk.trans hblanks
  have hread := hall.viewFrom_eq
  rw [List.append_assoc, hview'] at hread
  obtain ⟨b, hb, hcode⟩ := map_ok_iff.mp hread.symm
  have hlength : byteLength (p ++ w) = byteLength A := by
    rw [hall.byteLength_eq, upToLead_append_lead]
  -- the statement can be seen, so the walk is in code all along the line
  obtain ⟨s, y, rfl, hs, -⟩ :=
    exists_statement_of_first hview hd hcode.symm (by rw [hlength, hstretch.span])
  obtain rfl := code_of_isStatement (hwalk.proper hm) hb hs
  have hwhite := isWhite_lead hlead
  obtain rfl : w = lead A := hblanks.eq_of_isPlain fun c hc => isPlain_of_isBlank (hwhite c hc).1
  obtain ⟨s, y, -, hhead⟩ := exists_headAt hview hd hstretch hcode.symm hlength hb
  refine ⟨p, s, y, hhead,
    fun c hc => ⟨hhead.opens.isSpace_of_blank (fun c hc => (hwhite c hc).1) c hc, (hwhite c hc).2⟩,
    hwalk.settles_of_break ?_ (atLineStart_upToLead A)⟩
  exact List.append_ne_nil_of_right_ne_nil _ (List.append_ne_nil_of_left_ne_nil hstretch.ne_nil Y)

/-- **The import block of a document**, if it has one and no heredoc reaches into it. -/
theorem exists_fairBlockAt {doc : Document} {m : Mode}
    (hview : viewFrom [] m doc.text = .ok doc.code) (hm : m.Proper)
    (hfree : ∀ e ∈ (importBlock doc.text doc.declarations).head?,
      ¬ InHeredoc m doc.text e.span.start) :
    importBlock doc.text doc.declarations = [] ∨
      ∃ ls P X Q p x q,
        FairBlockAt m doc (importBlock doc.text doc.declarations) ls P X Q p x q := by
  have hrow := importRow_declarations hview
  have hordered := hrow.pairwise_firstDeclarations
  unfold importBlock at hfree ⊢
  rcases blockFrom_none_cases doc.text (firstDeclarations doc.declarations) with hnil |
      ⟨front, d, rest, hfirst, h⟩
  · exact .inl hnil
  obtain ⟨halone, hblock⟩ := h
  have hds : ∀ e ∈ d :: rest, e ∈ firstDeclarations doc.declarations := fun e he => by
    rw [hfirst]
    exact List.mem_append_right front he
  have hd := hds d List.mem_cons_self
  rw [hfirst] at hordered
  obtain ⟨hbehind, hordered⟩ := List.pairwise_cons.mp (List.pairwise_append.mp hordered).2.1
  obtain ⟨A, S, Y, hstretch⟩ := hrow.stretch d ((firstDeclarations_sublist _).subset hd)
  rw [hstretch.isAlone_eq, Bool.and_eq_true_iff] at halone
  obtain ⟨hlead, hline⟩ := halone
  have hstart : (blockEntry doc.text d).span.start = byteLength (upToLead A) := by
    rw [hstretch.text, blockEntry_append hstretch.last A Y hstretch.span]
  rw [hblock, hstretch.lineExtent_eq] at hfree
  obtain ⟨p, s, y, hhead, hindent, hsettles⟩ :=
    exists_firstHead hview hm hd hstretch hlead (hstart ▸ hfree _ rfl)
  obtain ⟨ls, X, x, Q, q, hgoes⟩ := exists_goesOn hview (fun e he =>
    hds e (List.mem_cons_of_mem d he)) hordered
    hhead hbehind hindent hline
  have hopens := hhead.opens.of_space hindent.isSpace
  rw [hstretch.lineExtent_eq] at hblock
  rw [hblock]
  refine .inr ⟨ls, upToLead A, X, Q, p, x, q, ?_, ?_, hsettles, hgoes.rest, hgoes.breakFirst,
    atLineStart_upToLead A,
    hopens, importLevel_of_space hopens hindent.isSpace hhead.level, hgoes.stacked, hgoes.fair,
    hgoes.indented,
    hgoes.entries, ?_⟩
  · rw [← hgoes.text, ← append_eq_lead, hhead.text]
  · rw [← hgoes.code, ← List.append_assoc, hhead.code]
  · have hne : blockEntry doc.text d :: blockFrom doc.text (some (breaks (A ++ S))) rest ≠
        [] := List.cons_ne_nil _ _
    have hlast := List.getLast?_eq_some_getLast hne
    rw [blockSpan?, List.head?_cons, hlast]
    have hstop := hgoes.stop _ hlast
    simp only [Option.pure_def, Option.bind_eq_bind, Option.bind_some, hstart, hstop]

/-- The import block of a text without heredocs in which all white space is ASCII. -/
theorem exists_blockAt (hview : viewFrom [] m doc.text = .ok doc.code) (hm : m.Proper)
    (hclean : Clean doc.text) :
    importBlock doc.text doc.declarations = [] ∨
      ∃ ls P X Q p x q, BlockAt m doc (importBlock doc.text doc.declarations) ls P X Q p x q := by
  refine (exists_fairBlockAt hview hm fun e _ => hclean.noHeredoc.not_inHeredoc m _).imp id ?_
  rintro ⟨ls, P, X, Q, p, x, q, h⟩
  refine ⟨ls, P, X, Q, p, x, q, h, fun l hl => ⟨h.fair l hl, fun c hc => ?_⟩⟩
  obtain ⟨hblank, hbreak⟩ := (h.fair l hl).blank c hc
  refine ⟨hclean.spaces c ?_ hblank, hbreak⟩
  rw [h.text]
  refine List.mem_append_right _ (List.mem_append_left _ (h.stacked.text_subset hl ?_))
  exact List.mem_append_right _ (List.mem_append_right _ hc)

end UseImports
