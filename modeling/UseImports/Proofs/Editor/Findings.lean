import UseImports.Proofs.Editor.Denotation
import UseImports.Proofs.Resolution

/-!
# What findings point at

A finding (`project`) is sent to an editor as a range of lines and columns (`to_lsp`). The range
leads back to a span of bytes, and at that span stands what the finding is about. The names of a
phrase are read without a semicolon or a brace between them, so that no import statement begins
among them; a class that lacks an import is therefore never found in one.

* `Phrase.Plain`, `Rule.plain`: the names of a phrase.
* `UseSite.apart`: **no import statement begins among the names of a phrase.**
* `Span.Holds`: what stands at a span.
* `NeedsImport`: why a name is reported.
* `findings_point`: findings point at what they report.
-/

namespace UseImports

open Cursor

variable {c d : Cursor} {names : Cursor → Option Cursor} {p : Phrase} {rule : Rule}
    {code cs w : List Char} {s : Span} {r : Reference} {doc : Document} {name : String}

/-! ## Phrases -/

/-- The names of the phrase begin with something that can be seen, and no character at which
statements meet is among them. -/
structure Phrase.Plain (p : Phrase) : Prop where
  reaches : p.start.Reaches p.stop
  first : ∃ x xs, p.start.after = x :: xs ∧ isBlank x = false
  not_isStop : ∀ x ∈ p.start.upTo p.stop, isStop x = false

/-- Something else than white space follows, if anything does. -/
def AtVisible (c : Cursor) : Prop :=
  ∀ x ∈ c.after.head?, isBlank x = false

theorem atVisible_skipBlanks (c : Cursor) : AtVisible c.skipBlanks :=
  head?_trimStart c.after

theorem atVisible_of_blanks? (h : c.blanks? = some d) : AtVisible d :=
  eq_skipBlanks_of_blanks? h ▸ atVisible_skipBlanks c

theorem atVisible_of_qualifiedName? (h : c.qualifiedName? = some d) : AtVisible c := by
  obtain ⟨x, xs, hx, hfirst⟩ := qualifiedName?_head h
  intro y hy
  rw [hx] at hy
  cases hy
  rcases hfirst with hstart | rfl
  · exact isBlank_of_isWordChar (isWordChar_of_isIdentStart hstart)
  · decide

theorem ReadsNames.plain (hn : ReadsNames names) (h : names c = some d) (hc : AtVisible c) :
    Phrase.Plain ⟨c, d⟩ where
  reaches := hn.confined.forward h
  first := by
    obtain ⟨x, xs, hx⟩ := List.exists_cons_of_ne_nil (hn.ne_nil h)
    exact ⟨x, xs, hx, hc x (by rw [hx]; rfl)⟩
  not_isStop := hn.confined.not_isStop h (hn.confined.forward h).upTo_eq

theorem plain_of_keywordPhrase? {words : List String} (hn : ReadsNames names)
    (h : keywordPhrase? words names c = some (p, d)) : p.Plain := by
  simp only [keywordPhrase?, phrase?, Option.bind_eq_bind, Option.bind_eq_some_iff,
    Option.map_eq_some_iff] at h
  obtain ⟨k, -, start, hstart, stop, hstop, heq⟩ := h
  cases heq
  exact hn.plain hstop (atVisible_of_blanks? hstart)

/-- A type behind some modifiers, with something else behind it. -/
theorem plain_of_modifiersThen? {behind : Cursor → Option Cursor} {n : Nat}
    {c d : Cursor} {p : Phrase}
    (hc : AtVisible c)
    (h : modifiersThen? (fun t => (types? t).bind fun stop => (behind stop).bind fun last =>
      some (⟨t, stop⟩, last)) n c = some (p, d)) : p.Plain := by
  obtain ⟨t, -, ht, hnext⟩ := modifiersThen?_eq_some h
  obtain ⟨stop, hstop, hbehind⟩ := Option.bind_eq_some_iff.mp hnext
  obtain ⟨last, -, heq⟩ := Option.bind_eq_some_iff.mp hbehind
  cases heq
  refine readsNames_types.plain hstop ?_
  rcases ht with rfl | ⟨e, rfl⟩
  · exact hc
  · exact atVisible_skipBlanks e

theorem atVisible_optional_attributeGroup (hc : AtVisible c) :
    AtVisible (c.optional attributeGroup?) := by
  unfold Cursor.optional
  rw [attributeGroup?_eq]
  cases hgroup : (c.literal? "#[").bind closeBracket? with
  | none => exact hc
  | some d =>
    obtain ⟨inner, -, hclose⟩ := Option.bind_eq_some_iff.mp hgroup
    obtain ⟨e, -, rfl⟩ := Option.map_eq_some_iff.mp hclose
    exact atVisible_skipBlanks e

/-- **The names of the phrases of all rules.** -/
theorem Rule.plain (h : rule.phrase? c = some (p, d)) : p.Plain := by
  cases rule with
  | keywordSingle => exact plain_of_keywordPhrase? readsNames_qualifiedName h
  | keywordList => exact plain_of_keywordPhrase? readsNames_names h
  | catchClause =>
    simp only [Rule.phrase?, catchPhrase?, UseImports.phrase?, Option.bind_eq_bind,
      Option.bind_eq_some_iff, Option.map_eq_some_iff] at h
    obtain ⟨k, -, inner, -, stop, hstop, heq⟩ := h
    cases heq
    exact readsNames_alternatives.plain hstop (atVisible_skipBlanks inner)
  | staticAccess =>
    simp only [Rule.phrase?, accessPhrase?, Option.bind_eq_bind, Option.bind_eq_some_iff] at h
    obtain ⟨stop, hstop, last, -, heq⟩ := h
    cases heq
    exact readsNames_qualifiedName.plain hstop (atVisible_of_qualifiedName? hstop)
  | parameterHint =>
    obtain ⟨inner, -, htail⟩ := Option.bind_eq_some_iff.mp ((parameterPhrase?_eq c).symm.trans h)
    exact plain_of_modifiersThen?
      (atVisible_optional_attributeGroup (atVisible_skipBlanks inner)) htail
  | returnType =>
    simp only [Rule.phrase?, returnPhrase?, Option.bind_eq_bind, Option.bind_eq_some_iff] at h
    obtain ⟨close, -, colon, -, stop, hstop, last, -, heq⟩ := h
    cases heq
    exact readsNames_types.plain hstop (atVisible_skipBlanks colon)
  | propertyType =>
    obtain ⟨keyword, -, hstart⟩ := Option.bind_eq_some_iff.mp h
    obtain ⟨start, hblanks, htail⟩ := Option.bind_eq_some_iff.mp hstart
    exact @plain_of_modifiersThen? (fun stop => stop.blanks?.bind (literal? "$")) _ _ _ _
      (atVisible_of_blanks? hblanks) htail
  | «attribute» =>
    simp only [Rule.phrase?, attributePhrase?, UseImports.phrase?, Option.bind_eq_bind,
      Option.bind_eq_some_iff, Option.map_eq_some_iff] at h
    obtain ⟨inner, -, stop, hstop, heq⟩ := h
    cases heq
    exact readsNames_qualifiedName.plain hstop (atVisible_skipBlanks inner)
  | traitUse =>
    rw [Rule.phrase?, traitPhrase?_eq] at h
    simp only [Option.bind_eq_some_iff] at h
    obtain ⟨k, -, start, hstart, stop, hstop, last, -, heq⟩ := h
    cases heq
    exact readsNames_names.plain hstop (atVisible_of_blanks? hstart)
  | functionCall => cases h

theorem Rule.between (h : rule.phrase? c = some (p, d)) : p.Between c d := by
  by_cases hrule : rule = .parameterHint
  · subst hrule
    exact parameterPhrase?_between h
  · exact (Rule.readsPhrase hrule).between h

/-- **No import statement begins among the names of a phrase.** -/
theorem UseSite.apart {P body R : List Char} (h : UseSite code P w body R) (hp : p.Plain)
    (hreach : (atStart code).Reaches p.start) :
    byteLength P ≤ p.start.offset ∨ p.stop.offset ≤ byteLength P := by
  by_contra hinside
  rw [not_or, Nat.not_le, Nat.not_le] at hinside
  obtain ⟨hstart, hstop⟩ := hinside
  have hcode : p.start.before.reverse ++ p.start.after = P ++ (w ++ (body ++ ';' :: R)) :=
    hreach.text_eq.symm.trans h.text
  obtain ⟨x, hP, hafter⟩ :=
    append_eq_append_of_le hcode (by rw [byteLength_reverse]; exact Nat.le_of_lt hstart)
  have hx : byteLength P = p.start.offset + byteLength x := by
    rw [hP, byteLength_append, byteLength_reverse]
    rfl
  have hnames := hp.reaches.offset_eq
  obtain ⟨t, hupTo, -⟩ := append_eq_append_of_le (hafter.symm.trans hp.reaches.upTo_eq) (by omega)
  -- what stands between the start of the names and the keyword can be seen, so it ends in a stop
  have hvisible : ∃ c ∈ x, isSpace c = false := by
    obtain ⟨c, cs, hc, hblank⟩ := hp.first
    cases x with
    | nil =>
      rw [byteLength_nil] at hx
      omega
    | cons d x =>
      rw [hafter] at hc
      obtain ⟨rfl, -⟩ := List.cons.inj hc
      exact ⟨_, List.mem_cons_self, isSpace_of_not_isBlank hblank⟩
  have hopens := h.opens
  rw [hP] at hopens
  obtain ⟨y, c, ws, rfl, hc, -⟩ := hopens.exists_stop hvisible
  rw [hp.not_isStop c (by rw [hupTo]; simp)] at hc
  cases hc

/-! ## References -/

/-- The word stands at the span. -/
def Span.Holds (s : Span) (cs w : List Char) : Prop :=
  ∃ A B, cs = A ++ (w ++ B) ∧ s = ⟨byteLength A, byteLength A + byteLength w⟩

theorem Span.Holds.cut? (h : s.Holds cs w) : (s.cut? cs).map (·.2.1) = some w := by
  obtain ⟨A, B, rfl, rfl⟩ := h
  rw [Span.cut?_append]
  rfl

theorem Span.Holds.unique {v : List Char} (hv : s.Holds cs v) (hw : s.Holds cs w) : v = w :=
  Option.some.inj (hv.cut?.symm.trans hw.cut?)

/-- The names between two places. -/
theorem exists_of_mem_namesUpTo {stop : Cursor} {x : Span × List Char} (h : x ∈ c.namesUpTo stop) :
    (∃ a b, c.upTo stop = a ++ (x.2 ++ b) ∧
      x.1 = ⟨c.offset + byteLength a, c.offset + byteLength a + byteLength x.2⟩) ∧
    x.2 ≠ [] ∧ ∀ y ∈ x.2, isBlank y = false := by
  rw [namesUpTo_eq] at h
  obtain ⟨place, hplace, rfl⟩ := List.mem_map.mp h
  obtain ⟨d, e, hread, hreach, -⟩ := mem_findFrom hplace
  obtain ⟨stop', hname, heq⟩ := Option.map_eq_some_iff.mp hread
  cases heq
  have hforward := confined_qualifiedName.forward hname
  refine ⟨⟨(Cursor.mk c.before (c.upTo stop)).upTo d, e.after, ?_, ?_⟩, ?_⟩
  · dsimp only
    rw [← hforward.upTo_eq]
    exact hreach.upTo_eq
  · dsimp only
    rw [spanTo, hforward.offset_eq, hreach.offset_eq]
    rfl
  · obtain ⟨name, hname, hupTo⟩ := qualifiedName?_eq_some hname
    dsimp only
    rcases hupTo with hupTo | hupTo <;> rw [hupTo]
    · exact ⟨hname.ne_nil, hname.not_isBlank⟩
    · exact ⟨List.cons_ne_nil _ _, List.forall_mem_cons.mpr ⟨isBlank_backslash, hname.not_isBlank⟩⟩

/-- Where a reference to a type comes from. -/
theorem exists_phrase (h : r ∈ ruleReferences code rule) :
    ∃ p : Phrase, (atStart code).Reaches p.start ∧ p.Plain ∧
      inImport (imports code) p.start.offset = false ∧
      (r.span, r.name.toList) ∈ p.start.namesUpTo p.stop := by
  obtain ⟨p, hp, hgather⟩ := List.mem_flatMap.mp h
  obtain ⟨c, d, hread, hreach, -⟩ := mem_findAll hp
  unfold gather at hgather
  split at hgather
  next happlies =>
    obtain ⟨found, hfound, rfl⟩ := List.mem_map.mp hgather
    refine ⟨p, hreach.trans (Rule.between hread).start, Rule.plain hread, ?_, ?_⟩
    · unfold Rule.applies at happlies
      simp only [Bool.and_eq_true, Bool.not_eq_true'] at happlies
      exact happlies.1.1
    · rw [String.toList_ofList]
      exact hfound
  next => cases hgather

/-- **The name of a reference stands at its span in the code**, and can be seen. -/
theorem holds_of_mem_ruleReferences (h : r ∈ ruleReferences code rule) :
    r.span.Holds code r.name.toList ∧ r.name.toList ≠ [] ∧ ∀ c ∈ r.name.toList,
    isBlank c = false := by
  obtain ⟨p, hreach, hplain, -, hname⟩ := exists_phrase h
  obtain ⟨⟨a, b, hupTo, hspan⟩, hvisible⟩ := exists_of_mem_namesUpTo hname
  refine ⟨⟨p.start.before.reverse ++ a, b ++ p.stop.after, ?_, ?_⟩, hvisible⟩
  · rw [hreach.text_eq, hplain.reaches.upTo_eq, hupTo]
    simp only [List.append_assoc]
  · rw [byteLength_append, byteLength_reverse]
    exact hspan

/-- **No reference stands in an import statement.** -/
theorem apart_of_mem_ruleReferences (h : r ∈ ruleReferences doc.code rule) {d : Declaration}
    (hd : d ∈ doc.declarations) :
    r.span.stop ≤ d.statement.start ∨ d.statement.stop ≤ r.span.start := by
  obtain ⟨p, hreach, hplain, houtside, hname⟩ := exists_phrase h
  obtain ⟨⟨a, b, hupTo, hspan⟩, -⟩ := exists_of_mem_namesUpTo hname
  have hspan : r.span =
      ⟨p.start.offset + byteLength a, p.start.offset + byteLength a + byteLength r.name.toList⟩ :=
    hspan
  have hinside : p.start.offset ≤ r.span.start ∧ r.span.stop ≤ p.stop.offset := by
    rw [hspan, hplain.reaches.offset_eq, hupTo, byteLength_append, byteLength_append]
    dsimp only
    omega
  -- the phrase does not begin in the statement, and the statement does not begin in the phrase
  have hbegins : d.statement.start ≤ p.start.offset → d.statement.stop ≤ p.start.offset := by
    intro hle
    by_contra hlt
    rw [← inImport_declarations, inImport, List.any_eq_false] at houtside
    exact houtside d hd (Span.contains_iff.mpr ⟨hle, by omega⟩)
  obtain ⟨site, body, hsite, hread, -⟩ := exists_site hd
  obtain ⟨w, R, huse, -⟩ := useSite_of_mem hsite.start hsite.isSite hsite.body
  have hstart : d.statement.start = byteLength site.1.before.reverse := by
    rw [(readOff_readBody doc _ _ body).statement d hread, byteLength_reverse]
    rfl
  rcases huse.apart hplain hreach with hle | hle
  · rw [← hstart] at hle
    exact .inr (Nat.le_trans (hbegins hle) hinside.1)
  · rw [← hstart] at hle
    exact .inl (Nat.le_trans hinside.2 hle)

/-! ## Names that need an import -/

/-- The name needs an import that is not there: it has a single segment, no import of a class binds
it, the document does not declare it, and it is neither reserved nor the name of a class that comes
with the language. -/
structure NeedsImport (doc : Document) (name : String) : Prop where
  isBare : isBare name = true
  unbound : ∀ d ∈ doc.declarations, d.kind = .cls → d.localName ≠ name
  undeclared : name ∉ doc.declaredClasses
  unreserved : isReserved name = false
  notBuiltin : isBuiltinClass name = false

theorem lacksImport_iff :
    lacksImport (AliasTable.build doc.declarations) doc.declaredClasses r = true ↔
      r.kind = .type ∧ NeedsImport doc r.name := by
  have hunbound : (AliasTable.build doc.declarations).contains .cls r.name = false ↔
      ∀ d ∈ doc.declarations, d.kind = .cls → d.localName ≠ r.name := by
    rw [contains_build, Option.isSome_eq_false_iff, Option.isNone_iff_eq_none, lookup_eq_none_iff]
    simp [Declaration.binds]
  unfold lacksImport isBuiltin Reference.isBare
  simp only [Bool.and_eq_true, Bool.not_eq_true', beq_iff_eq, hunbound, Bool.or_eq_false_iff]
  constructor
  · rintro ⟨⟨⟨⟨hkind, hbare⟩, hnot⟩, hdeclared⟩, hreserved, hbuiltin⟩
    exact ⟨hkind, hbare, hnot, by simpa using hdeclared, hreserved, hbuiltin⟩
  · rintro ⟨hkind, hbare, hnot, hdeclared, hreserved, hbuiltin⟩
    exact ⟨⟨⟨⟨hkind, hbare⟩, hnot⟩, by simpa using hdeclared⟩, hreserved, hbuiltin⟩

theorem typeReferences_eq (doc : Document) :
    typeReferences doc doc.declarations = typeRules.flatMap (ruleReferences doc.code) := by
  unfold typeReferences
  simp only [references_eq]

theorem mem_typeReferences (h : r ∈ typeReferences doc doc.declarations) :
    ∃ rule, r ∈ ruleReferences doc.code rule := by
  rw [typeReferences_eq] at h
  obtain ⟨rule, -, hr⟩ := List.mem_flatMap.mp h
  exact ⟨rule, hr⟩

theorem references_analyze (doc : Document) :
    doc.analyze.references =
      allReferences doc.code ((AliasTable.build doc.declarations).names .function) :=
  references_eq_allReferences doc _

/-- **The types among the references are those that the rules for types find.** -/
theorem exists_reference_iff :
    (∃ r ∈ doc.analyze.references, r.kind = .type ∧ r.span = s ∧ r.name = name) ↔
      ∃ r ∈ typeReferences doc doc.declarations, r.span = s ∧ r.name = name := by
  rw [references_analyze]
  constructor
  · rintro ⟨r, hr, hkind, hspan, hname⟩
    have hfound :
        r ∈ foundReferences doc.code ((AliasTable.build doc.declarations).names .function) :=
      List.mem_mergeSort.mp ((keepsFirst_distinctSpans.sublist _).subset hr)
    rcases List.mem_append.mp hfound with htype | hcall
    · exact ⟨r, by rwa [typeReferences_eq], hspan, hname⟩
    · rw [kind_of_mem_callReferences hcall] at hkind
      cases hkind
  · rintro ⟨r, hr, hspan, hname⟩
    -- the rules for types come first, so the reference at the span is a type, and its name stands
    -- there too
    have hsome : ((typeReferences doc doc.declarations).find? (·.span = s)).isSome = true :=
      List.find?_isSome.mpr ⟨r, hr, by simpa using hspan⟩
    obtain ⟨first, hfirst⟩ := Option.isSome_iff_exists.mp hsome
    have hmem := List.mem_of_find?_eq_some hfirst
    have hspan' : first.span = s := by simpa using List.find?_some hfirst
    obtain ⟨rule, hrule⟩ := mem_typeReferences hr
    obtain ⟨rule', hrule'⟩ := mem_typeReferences hmem
    have hsame : first.name = r.name := by
      have hholds := (holds_of_mem_ruleReferences hrule).1
      rw [hspan, ← hspan'] at hholds
      exact String.toList_injective ((holds_of_mem_ruleReferences hrule').1.unique hholds)
    have hall : (allReferences doc.code ((AliasTable.build doc.declarations).names .function)).find?
        (·.span = s) =
        some first := by
      rw [find?_allReferences, foundReferences, List.find?_append, ← typeReferences_eq, hfirst]
      rfl
    exact ⟨first, List.mem_of_find?_eq_some hall, kind_of_mem_ruleReferences hrule', hspan',
      hsame.trans hname⟩

theorem exists_unimported_iff :
    (∃ u ∈ doc.analyze.unimported, u.span = s ∧ u.name = name) ↔
      NeedsImport doc name ∧ ∃ r ∈ typeReferences doc doc.declarations, r.span = s ∧
        r.name = name := by
  have hunimported : doc.analyze.unimported =
      findUnimported doc doc.analyze.references (AliasTable.build doc.declarations)
        doc.declaredClasses := rfl
  rw [hunimported, ← exists_reference_iff]
  constructor
  · rintro ⟨u, hu, rfl, rfl⟩
    obtain ⟨r, hr, rfl⟩ := List.mem_map.mp hu
    obtain ⟨hmem, hlacks⟩ := List.mem_filter.mp hr
    obtain ⟨hkind, hneeds⟩ := lacksImport_iff.mp hlacks
    exact ⟨hneeds, r, hmem, hkind, rfl, rfl⟩
  · rintro ⟨hneeds, r, hmem, hkind, rfl, rfl⟩
    exact ⟨_, List.mem_map_of_mem (List.mem_filter.mpr ⟨hmem, lacksImport_iff.mpr ⟨hkind, hneeds⟩⟩),
      rfl, rfl⟩

/-- Start before start, and stop before stop where the starts agree. -/
def Span.Before (s t : Span) : Prop :=
  s.start < t.start ∨ s.start = t.start ∧ s.stop < t.stop

theorem unimported_pairwise (doc : Document) :
    doc.analyze.unimported.Pairwise fun u v => u.span.Before v.span := by
  have hordered :=
    strictlyOrdered_allReferences doc.code ((AliasTable.build doc.declarations).names .function)
  rw [← references_analyze] at hordered
  refine List.pairwise_map.mpr ((hordered.sublist List.filter_sublist).imp fun {r s} h => ?_)
  obtain ⟨hle, hne⟩ := h
  rcases Span.le_iff.mp hle with hlt | ⟨hstart, hstop⟩
  · exact .inl hlt
  · refine .inr ⟨hstart, Nat.lt_of_le_of_ne hstop fun hsame => hne (Span.le_antisymm hle ?_)⟩
    exact Span.le_iff.mpr (.inr ⟨hstart.symm, Nat.le_of_eq hsame.symm⟩)

/-! ## Findings -/

section Findings

variable {m : Mode} (hview : viewFrom [] m doc.text = .ok doc.code)
include hview

/-- A class that lacks an import stands at its span in the text. -/
theorem holds_of_mem_unimported {u : Unimported} (hu : u ∈ doc.analyze.unimported) :
    u.span.Holds doc.text u.name.toList ∧ IsAnchor doc.text u.span.start ∧
    IsAnchor doc.text u.span.stop := by
  obtain ⟨-, r, hr, hspan, hname⟩ := exists_unimported_iff.mp ⟨u, hu, rfl, rfl⟩
  obtain ⟨rule, hrule⟩ := mem_typeReferences hr
  obtain ⟨⟨a, b, hcode, hends⟩, hne, hvisible⟩ := holds_of_mem_ruleReferences hrule
  rw [hname] at hcode hends hne hvisible
  rw [hspan] at hends
  rw [hcode] at hview
  obtain ⟨A, B, htext, hA⟩ := exists_piece_of_visible hview hne hvisible
  have hanchors := @isAnchor_of_word A _ B hne hvisible
  rw [htext, hends, ← hA]
  exact ⟨⟨A, B, rfl, rfl⟩, hanchors⟩

/-- **The ends of a finding are anchors of the text.** -/
theorem isAnchor_of_mem_findings {severity : Severity} {f : Finding}
    (hf : f ∈ findings doc.analyze severity) :
    IsAnchor doc.text f.span.start ∧ IsAnchor doc.text f.span.stop := by
  rw [findings, List.mem_mergeSort, List.mem_append] at hf
  rcases hf with hf | hf
  · obtain ⟨d, hd, rfl⟩ := List.mem_map.mp hf
    have hmem : d ∈ doc.declarations := (List.mem_filter.mp (List.mem_mergeSort.mp hd)).1
    exact ⟨isAnchor_of_mem hview hmem _ (by simp), isAnchor_of_mem hview hmem _ (by simp)⟩
  · obtain ⟨u, hu, rfl⟩ := List.mem_map.mp hf
    exact (holds_of_mem_unimported hview hu).2

end Findings

/-- The span that a range means in the text. -/
def Range.toSpan (cs : List Char) (r : Range) : Span :=
  ⟨offsetAt cs r.start, offsetAt cs r.stop⟩

/-- **Findings point at what they report.** The classes that lack an import are exactly the names of
types that need one, in the order of the text and each place once. They stand where they are
reported, in no import statement; and the range of every finding leads back to its span. -/
theorem findings_point {text : String} {doc : Document} (h : Document.ofString text = .ok doc)
    (hlen : byteLength doc.text < 2 ^ 32) :
    (∀ s name, (∃ u ∈ doc.analyze.unimported, u.span = s ∧ u.name = name) ↔
      NeedsImport doc name ∧ ∃ r ∈ doc.analyze.references, r.kind = .type ∧ r.span = s ∧
      r.name = name) ∧
    (∀ s name, (∃ r ∈ doc.analyze.references, r.kind = .type ∧ r.span = s ∧ r.name = name) ↔
      ∃ r ∈ typeReferences doc doc.declarations, r.span = s ∧ r.name = name) ∧
    (doc.analyze.unimported.Pairwise fun u v => u.span.Before v.span) ∧
    (∀ u ∈ doc.analyze.unimported, (u.span.cut? doc.text).map (·.2.1) = some u.name.toList ∧
      ∀ d ∈ doc.declarations, u.span.stop ≤ d.statement.start ∨ d.statement.stop ≤ u.span.start) ∧
    ∀ severity,
      (diagnostics doc.text (findings doc.analyze severity)).map
      (fun d => d.range.toSpan doc.text) =
          (findings doc.analyze severity).map (·.span) ∧
      ∀ d ∈ diagnostics doc.text (findings doc.analyze severity), d.range.start.IsShort ∧
        d.range.stop.IsShort := by
  obtain ⟨code, hcode, rfl⟩ := map_ok_iff.mp h
  have hview : viewFrom [] (startMode text.toList) text.toList = .ok code := hcode
  have hanchor := @isAnchor_of_mem_findings ⟨text.toList, code⟩ _ hview
  refine ⟨fun s name =>
    exists_unimported_iff.trans (and_congr_right fun _ => exists_reference_iff.symm),
    fun s name => exists_reference_iff, unimported_pairwise _, fun u hu => ⟨?_, fun d hd => ?_⟩,
    fun severity => ⟨?_, fun d hd => ?_⟩⟩
  · exact (holds_of_mem_unimported hview hu).1.cut?
  · obtain ⟨-, r, hr, hspan, -⟩ := exists_unimported_iff.mp ⟨u, hu, rfl, rfl⟩
    obtain ⟨rule, hrule⟩ := mem_typeReferences hr
    rw [← hspan]
    exact apart_of_mem_ruleReferences hrule hd
  · rw [diagnostics, List.map_map]
    refine List.map_congr_left fun f hf => ?_
    obtain ⟨hstart, hstop⟩ := hanchor hf
    simp only [Function.comp_apply, Diagnostic.ofFinding, Range.toSpan, range,
      offsetAt_position hstart, offsetAt_position hstop]
  · obtain ⟨f, hf, rfl⟩ := List.mem_map.mp hd
    obtain ⟨hstart, hstop⟩ := hanchor hf
    exact ⟨hstart.isShort hlen, hstop.isShort hlen⟩

/-- A document with an import that nothing uses, and with two references to a class that is not
imported, one of them behind a character of two UTF-16 code units. -/
def unimportedDocument : Document :=
  ⟨"<?php\nuse A\\B;\n/*𝒳*/ new D; D::e();\n".toList,
    "     \nuse A\\B;\n         new D; D::e();\n".toList⟩

/-- The class at byte 28 is sent as column 11, and found again. -/
theorem findings_point_astral :
    (∃ u ∈ unimportedDocument.analyze.unimported, u.span = ⟨28, 29⟩ ∧ u.name = "D" ∧
      range unimportedDocument.text u.span = ⟨⟨2, 11⟩, ⟨2, 12⟩⟩ ∧
      (u.span.cut? unimportedDocument.text).map (·.2.1) = some u.name.toList) ∧
    (diagnostics unimportedDocument.text (findings unimportedDocument.analyze .hint)).map
        (fun d => d.range.toSpan unimportedDocument.text) =
      (findings unimportedDocument.analyze .hint).map (·.span) := by
  obtain ⟨hexact, htypes, -, hpoint, hranges⟩ :=
    @findings_point "<?php\nuse A\\B;\n/*𝒳*/ new D; D::e();\n" unimportedDocument
      (by decide +kernel) (by decide +kernel)
  obtain ⟨u, hu, hspan, hname⟩ := (hexact ⟨28, 29⟩ "D").mpr
    ⟨⟨by decide +kernel, by decide +kernel, by decide +kernel, by decide +kernel,
      by decide +kernel⟩, (htypes ⟨28, 29⟩ "D").mpr (by decide +kernel)⟩
  refine ⟨⟨u, hu, hspan, hname, ?_, (hpoint u hu).1⟩, (hranges .hint).1⟩
  rw [hspan]
  decide +kernel

end UseImports
