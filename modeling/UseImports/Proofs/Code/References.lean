import UseImports.Proofs.Declaration.Clauses

/-!
# The references around a run

What the rules find in a code (`scan_usages`) does not depend on the runs of import statements in
it: in front of a run and behind it the same references are found, whatever the run is, and none is
found inside.

* `gather`: the references of one phrase.
* `ruleReferences_append`, `ruleReferences_run`: the references of a rule, piece by piece.
* `callReferences_append`, `callReferences_run`: the same for calls.
-/

namespace UseImports

open Placed Cursor

variable {B code P p q R s u x : List Char} {c d : Cursor} {rule : Rule} {phrase : Phrase}
    {names words : List String}

/-! ## The references of a phrase -/

/-- The reference in a text with `n` more bytes in front. -/
def Reference.shift (n : Nat) (r : Reference) : Reference :=
  { r with span := r.span.shift n }

@[simp] theorem Reference.meaning_shift (n : Nat) (r : Reference) :
    (r.shift n).meaning = r.meaning :=
  rfl

/-- The references of a phrase of a rule. -/
def gather (code : List Char) (rule : Rule) (phrase : Phrase) : List Reference :=
  if rule.applies (imports code) (Document.mk [] code).importRegions phrase.start then
    (phrase.start.namesUpTo phrase.stop).map fun (span, name) =>
      ⟨span, String.ofList name, .type, rule⟩
  else []

/-- The references that a rule finds in a code. -/
def ruleReferences (code : List Char) (rule : Rule) : List Reference :=
  ((atStart code).findAll rule.phrase?).flatMap (gather code rule)

theorem inImport_declarations (d : Document) (o : Nat) :
    inImport d.declarations o = inImport (imports d.code) o := by
  rw [← declarations_unlined]
  unfold inImport
  rw [List.any_map]
  rfl

/-- What the rules for types find depends on the code alone. -/
theorem references_eq (d : Document) (rule : Rule) :
    rule.references d.code d.declarations d.importRegions = ruleReferences d.code rule := by
  unfold Rule.references ruleReferences
  refine List.flatMap_congr fun phrase _ => ?_
  unfold gather Rule.applies
  rw [inImport_declarations]
  rfl

/-- What stands in front of a place where a statement may begin is no operator. -/
theorem Opens.head_ne (hB : Opens B) {c : Char} {cs : List Char} (h : B = c :: cs) :
    c ≠ '$' ∧ c ≠ '>' ∧ c ≠ '-' ∧ c ≠ '\\' ∧ c ≠ ':' := by
  have hcases : isSpace c = true ∨ isStop c = true := hB.head_cases h
  refine ⟨?_, ?_, ?_, ?_, ?_⟩ <;> (rintro rfl; revert hcases; decide)

theorem isDynamicReceiver_within (hB : Opens B) (X : List Char) (c : Cursor) :
    isDynamicReceiver (c.within B X) = isDynamicReceiver c := by
  unfold isDynamicReceiver
  rw [within_before]
  match c.before with
  | [] =>
    cases hb : B with
    | nil => rfl
    | cons x xs =>
      obtain ⟨h₁, h₂, -⟩ := hB.head_ne hb
      simp [h₁, h₂]
  | [y] =>
    cases hb : B with
    | nil => rfl
    | cons x xs =>
      obtain ⟨-, -, h₃, -⟩ := hB.head_ne hb
      by_cases hy : y = '$' <;> by_cases hy' : y = '>' <;> simp [hy, hy', h₃]
  | y :: z :: ys => by_cases hy : y = '$' <;> by_cases hy' : y = '>' <;> by_cases hz : z = '-' <;>
      simp [hy, hy', hz]

/-- The phrase begins with no brace, which is only asked where the import regions matter. -/
def Phrase.Begins (rule : Rule) (phrase : Phrase) : Prop :=
  rule = .traitUse → ∃ c cs, phrase.start.after = c :: cs ∧ c ≠ '{' ∧ c ≠ '}'

theorem applies_front (hp : Divides p x)
    (hreach : (atStart p).Reaches phrase.start) (hne : phrase.start.after ≠ [])
    (hbegins : phrase.Begins rule) :
    rule.applies (imports (p ++ x)) (Document.mk [] (p ++ x)).importRegions
        (phrase.start.within [] x) =
      rule.applies (imports p) (Document.mk [] p).importRegions phrase.start := by
  have hoffset : (phrase.start.within [] x).offset = phrase.start.offset := by
    rw [offset_within, byteLength_nil, Nat.zero_add]
  have hpre : phrase.start.before.reverse <+: p := ⟨phrase.start.after, hreach.text_eq.symm⟩
  unfold Rule.applies
  rw [hoffset, inImport_front hp (hreach.offset_lt hne), isDynamicReceiver_within opens_nil]
  by_cases hrule : rule = .traitUse
  · obtain ⟨c, cs, hafter, hopen, -⟩ := hbegins hrule
    have hcode := hreach.text_eq
    rw [hafter] at hcode
    have h₁ := importRegions_contains [] phrase.start.before.reverse hopen cs
    have h₂ := importRegions_contains [] phrase.start.before.reverse hopen (cs ++ x)
    have hcode' : p ++ x = phrase.start.before.reverse ++ c :: (cs ++ x) := by
      rw [hcode]
      simp
    rw [← hcode, byteLength_reverse] at h₁
    rw [← hcode', byteLength_reverse, importLevel_front hp.opens x hpre] at h₂
    unfold Cursor.offset
    rw [h₁, h₂]
  · have : (rule != .traitUse) = true := by simpa using hrule
    rw [this, Bool.true_or, Bool.true_or]

theorem applies_back (hp : Divides p x)
    (hreach : (atStart x).Reaches phrase.start) (hbegins : phrase.Begins rule) :
    rule.applies (imports (p ++ x)) (Document.mk [] (p ++ x)).importRegions
        (phrase.start.within p.reverse []) =
      rule.applies (imports x) (Document.mk [] x).importRegions phrase.start := by
  have hoffset : (phrase.start.within p.reverse []).offset =
      byteLength p + phrase.start.offset := by
    rw [offset_within, byteLength_reverse]
  unfold Rule.applies
  rw [hoffset, inImport_back hp, isDynamicReceiver_within hp.opens]
  by_cases hrule : rule = .traitUse
  · obtain ⟨c, cs, hafter, hopen, -⟩ := hbegins hrule
    have hcode := hreach.text_eq
    rw [hafter] at hcode
    have h₁ := importRegions_contains [] phrase.start.before.reverse hopen cs
    have h₂ := importRegions_contains [] (p ++ phrase.start.before.reverse) hopen cs
    have hcode' : p ++ x = (p ++ phrase.start.before.reverse) ++ c :: cs := by
      rw [List.append_assoc, ← hcode]
    rw [← hcode, byteLength_reverse] at h₁
    rw [← hcode', byteLength_append, byteLength_reverse, importLevel_back hp.opens hp.level] at h₂
    unfold Cursor.offset
    rw [h₁, h₂]
  · have : (rule != .traitUse) = true := by simpa using hrule
    rw [this, Bool.true_or, Bool.true_or]

/-- In front of a place where a code is divided a phrase has the references that it has there. -/
theorem gather_front (hp : Divides p x)
    (hreach : (atStart p).Reaches phrase.start) (hne : phrase.start.after ≠ [])
    (hbegins : phrase.Begins rule) :
    gather (p ++ x) rule (move [] x phrase) = gather p rule phrase := by
  unfold gather
  have happlies := applies_front hp hreach hne hbegins
  have hnames := namesUpTo_within opens_nil x phrase.start phrase.stop
  rw [byteLength_nil] at hnames
  show (if rule.applies _ _ (phrase.start.within [] x) = true then
    ((phrase.start.within [] x).namesUpTo (phrase.stop.within [] x)).map _ else []) = _
  rw [happlies, hnames, List.map_map]
  split
  · refine List.map_congr_left fun found _ => ?_
    simp [Span.shift]
  · rfl

/-- Behind such a place a phrase has the references that it has in the rest. -/
theorem gather_back (hp : Divides p x)
    (hreach : (atStart x).Reaches phrase.start) (hbegins : phrase.Begins rule) :
    gather (p ++ x) rule (move p.reverse [] phrase) =
      (gather x rule phrase).map (Reference.shift (byteLength p)) := by
  unfold gather
  have happlies := applies_back hp hreach hbegins
  have hnames := namesUpTo_within hp.opens [] phrase.start phrase.stop
  rw [byteLength_reverse] at hnames
  show (if rule.applies _ _ (phrase.start.within p.reverse []) = true then
    ((phrase.start.within p.reverse []).namesUpTo (phrase.stop.within p.reverse [])).map _
      else []) = _
  rw [happlies, hnames, List.map_map]
  split
  · rw [List.map_map]
    rfl
  · rfl

/-- A phrase inside an import has no references. -/
theorem gather_inImport (h : inImport (imports code) phrase.start.offset = true) :
    gather code rule phrase = [] := by
  unfold gather Rule.applies
  rw [h]
  rfl

/-! ## Rules other than that for parameters -/

theorem Rule.begins (h : rule ≠ .parameterHint) (hphrase : rule.phrase? c = some (phrase, d)) :
    phrase.Begins rule := by
  rintro rfl
  exact traitPhrase?_begins hphrase

theorem Rule.reaches_of_mem (h : rule ≠ .parameterHint)
    (hmem : phrase ∈ (atStart code).findAll rule.phrase?) :
    (atStart code).Reaches phrase.start ∧ phrase.start.after ≠ [] ∧ phrase.Begins rule := by
  obtain ⟨c, d, hc, hreach, -⟩ := mem_findAll hmem
  have hb := (Rule.readsPhrase h).between hc
  exact ⟨hreach.trans hb.start, hb.ne_nil, Rule.begins h hc⟩

/-- **The references of a rule are found piece by piece.** -/
theorem ruleReferences_append (h : rule ≠ .parameterHint) (hp : Divides p x) :
    ruleReferences (p ++ x) rule =
      ruleReferences p rule ++ (ruleReferences x rule).map (Reference.shift (byteLength p)) := by
  unfold ruleReferences
  rw [findAll_append (Rule.located h) hp.opens, List.flatMap_append, List.flatMap_map,
    List.flatMap_map, List.map_flatMap]
  congr 1
  · refine List.flatMap_congr fun phrase hmem => ?_
    obtain ⟨hreach, hne, hbegins⟩ := Rule.reaches_of_mem h hmem
    exact gather_front hp hreach hne hbegins
  · refine List.flatMap_congr fun phrase hmem => ?_
    obtain ⟨hreach, -, hbegins⟩ := Rule.reaches_of_mem h hmem
    exact gather_back hp hreach hbegins

theorem findAll_space {α : Type} [Placed α] {r : Cursor → Option (α × Cursor)} (hr : Located r)
    {c : Char} (hc : isSpace c = true) : (atStart [c]).findAll r = [] := by
  unfold findAll atStart
  dsimp only
  rw [findFrom_zero_cons, hr.atSpace hc]
  rfl

/-- Nothing is found inside a statement. -/
theorem ruleReferences_statement (h : rule ≠ .parameterHint) (hs : IsStatement s) :
    ruleReferences s rule = [] := by
  obtain ⟨body, stop, hst⟩ := hs
  unfold ruleReferences
  rw [List.flatMap_eq_nil_iff]
  intro phrase hmem
  obtain ⟨hreach, hne, -⟩ := Rule.reaches_of_mem h hmem
  refine gather_inImport (hst.inImport_of_lt (hreach.offset_lt hne))

/-! ## Statements without a name -/

/-- In front of a character that is of no word, the first word of a text stands at its begin or
behind that word. -/
theorem word_cases {w rest : List Char} {x y : Char} (hw : ∀ c ∈ w, isWordChar c = true)
    (hy : isWordChar y = false) (hu : ∀ c ∈ u, isWordChar c = true) (hx : isWordChar x = false)
    (hP : P.getLast?.any isWordChar = false) (h : w ++ y :: rest = P ++ (u ++ x :: R)) :
    (u = w ∧ x = y) ∨ ∃ P', P'.getLast?.any isWordChar = false ∧ rest = P' ++ (u ++ x :: R) := by
  have hruns : w ++ y :: rest = u ++ x :: R → u = w ∧ x = y := fun heq => by
    obtain ⟨rfl, hrest⟩ := eq_of_runs heq hw hu hy hx
    exact ⟨rfl, (List.cons.inj hrest).1.symm⟩
  have hnil : ∀ {t}, w = P ++ t → P = [] := fun {t} heq => by
    cases hlast : P.getLast? with
    | none => exact List.getLast?_eq_none_iff.mp hlast
    | some c =>
      rw [hlast, Option.any_some,
        hw c (heq ▸ List.mem_append_left t (List.mem_of_getLast? hlast))] at hP
      cases hP
  rcases List.append_eq_append_iff.mp h with ⟨t, hPt, hrest⟩ | ⟨t, hwt, -⟩
  · cases t with
    | nil =>
      rw [List.append_nil] at hPt
      have hP' := hnil (t := []) (by rw [List.append_nil, hPt])
      rw [hP', List.nil_append] at h
      exact .inl (hruns h)
    | cons z t =>
      obtain ⟨rfl, htail⟩ := List.cons.inj hrest
      refine .inr ⟨t, any_getLast?_append (a := w ++ [y]) ?_, htail⟩
      rwa [List.append_assoc, List.singleton_append, ← hPt]
  · rw [hnil hwt, List.nil_append] at h
    exact .inl (hruns h)

namespace IsNameless

variable (hs : IsNameless s)
include hs

/-- White space stands only behind `use`, the keyword of the kind and `as`. -/
theorem word_eq {x : Char} (htext : s = P ++ (u ++ x :: R)) (hP : P.getLast?.any isWordChar = false)
    (hu : ∀ c ∈ u, isWordChar c = true) (hx : isBlank x = true) :
    ∃ w ∈ ["use", "function", "const", "as"], u.map foldLetter = w.toList := by
  obtain ⟨k, a, h⟩ := hs
  have hxw := isWordChar_of_isBlank hx
  have hk : ∀ c ∈ k, isWordChar c = true := fun c hc => h.word c (List.mem_append_left a hc)
  have ha : ∀ c ∈ a, isWordChar c = true := fun c hc => h.word c (List.mem_append_right k hc)
  rw [h.text] at htext
  obtain ⟨rfl, -⟩ | ⟨P, hP, htext⟩ :=
    word_cases (w := ['u', 's', 'e']) (by decide) (by decide) hu hxw hP htext
  · exact ⟨"use", by decide, by decide⟩
  obtain ⟨rfl, -⟩ | ⟨P, hP, htext⟩ := word_cases hk (by decide) hu hxw hP htext
  · rcases of_decide_eq_true h.kind with hfold | hfold
    · exact ⟨"function", by decide, hfold⟩
    · exact ⟨"const", by decide, hfold⟩
  obtain ⟨rfl, -⟩ | ⟨P, hP, htext⟩ :=
    word_cases (w := ['a', 's']) (by decide) (by decide) hu hxw hP htext
  · exact ⟨"as", by decide, by decide⟩
  -- behind the alias stands the semicolon, and nothing behind that
  obtain ⟨-, rfl⟩ | ⟨P, -, htext⟩ := word_cases ha (by decide) hu hxw hP htext
  · exact absurd hx (by decide)
  · exact absurd htext (by simp)

/-- No other keyword has white space behind it. -/
theorem keyword?_eq_none (hlower : ∀ w ∈ words, ∀ x ∈ w.toList, x.isLower = true)
    (hwords : ∀ w ∈ words, w ∉ ["use", "function", "const", "as"]) (hc : (atStart s).Reaches c) :
    (c.keyword? words).bind blanks? = none := by
  rw [Option.bind_eq_none_iff]
  intro e he
  rw [Option.eq_none_iff_forall_ne_some]
  intro f hf
  unfold keyword? at he
  split at he
  · rename_i hstart
    obtain ⟨w, hmem, hw⟩ := List.exists_of_findSome?_eq_some he
    obtain ⟨u, htextU, hfold, -⟩ := folded?_eq_some hw
    obtain ⟨g, hne, hg, htextG, -⟩ := blanks?_eq_some hf
    obtain ⟨x, g, rfl⟩ := List.exists_cons_of_ne_nil hne
    have htext : s = c.before.reverse ++ (u ++ x :: (g ++ f.after)) := by
      rw [hc.text_eq, htextU, htextG]
      rfl
    have hfront : c.before.reverse.getLast?.any isWordChar = false := by
      rw [List.getLast?_reverse]
      simpa [atWordStart] using hstart
    obtain ⟨w', hmem', hfold'⟩ := hs.word_eq htext hfront
      (isWordChar_of_folded (hlower w hmem) hfold) (hg x List.mem_cons_self)
    rw [hfold] at hfold'
    exact hwords w hmem (String.toList_inj.mp hfold' ▸ hmem')
  · cases he

end IsNameless

/-- The character without which the rule finds nothing. -/
def Rule.mark? : Rule → Option Char
  | .catchClause => some '('
  | .staticAccess => some ':'
  | .returnType => some ')'
  | .propertyType => some '$'
  | .attribute => some '#'
  | _ => none

theorem mem_of_literal? {e : Cursor} {w : String} {x : Char} (hreach : c.Reaches d)
    (h : d.literal? w = some e) (hx : x ∈ w.toList) : x ∈ c.after := by
  obtain ⟨b, hafter, -⟩ := literal?_eq_some h
  exact hreach.suffix.subset (by rw [hafter]; exact List.mem_append_left b hx)

theorem Rule.mark_mem {x : Char} (hx : rule.mark? = some x) {p : Phrase}
    (h : rule.phrase? c = some (p, d)) : x ∈ c.after := by
  have hwords : ∀ {words : List String} {k : Cursor}, AreWords words → c.keyword? words =
      some k → c.Reaches k :=
    fun hw hk => (confined_words hw).forward hk
  cases rule with
  | keywordSingle => cases hx
  | keywordList => cases hx
  | parameterHint => cases hx
  | traitUse => cases hx
  | functionCall => cases hx
  | catchClause =>
    cases hx
    simp only [Rule.phrase?, catchPhrase?, Option.bind_eq_bind, Option.bind_eq_some_iff] at h
    obtain ⟨k, hk, i, hi, -⟩ := h
    exact mem_of_literal? ((hwords (by decide) hk).trans k.reaches_skipBlanks) hi (by decide)
  | staticAccess =>
    cases hx
    simp only [Rule.phrase?, accessPhrase?, Option.bind_eq_bind, Option.bind_eq_some_iff] at h
    obtain ⟨n, hn, i, hi, -⟩ := h
    exact mem_of_literal? (confined_qualifiedName.forward hn) hi (by decide)
  | returnType =>
    cases hx
    simp only [Rule.phrase?, returnPhrase?, Option.bind_eq_bind, Option.bind_eq_some_iff] at h
    obtain ⟨i, hi, -⟩ := h
    exact mem_of_literal? (.refl c) hi (by decide)
  | propertyType =>
    cases hx
    simp only [Rule.phrase?, propertyPhrase?, Option.bind_eq_bind, Option.bind_eq_some_iff] at h
    obtain ⟨k, hk, b, hb, h⟩ := h
    obtain ⟨t, ht, -, hnext⟩ := modifiersThen?_eq_some h
    simp only [Option.bind_eq_some_iff] at hnext
    obtain ⟨n, hn, l, ⟨e, he, hl⟩, -⟩ := hnext
    exact mem_of_literal?
      ((hwords (by decide) hk).trans <| (confined_blanks.forward hb).trans <| ht.trans <|
      (readsNames_types.confined.forward hn).trans (confined_blanks.forward he)) hl (by decide)
  | «attribute» =>
    cases hx
    simp only [Rule.phrase?, attributePhrase?, Option.bind_eq_bind, Option.bind_eq_some_iff] at h
    obtain ⟨i, hi, -⟩ := h
    exact mem_of_literal? (.refl c) hi (by decide)

/-- Where no brace stands, nothing is a trait of a class. -/
theorem gather_trait_eq_nil (hbrace : ∀ c ∈ code, c ≠ '{' ∧ c ≠ '}')
    (hreach : (atStart code).Reaches phrase.start) (hbegins : phrase.Begins .traitUse) :
    gather code .traitUse phrase = [] := by
  obtain ⟨c, cs, hafter, hopen, -⟩ := hbegins rfl
  have hcode := hreach.text_eq
  rw [hafter] at hcode
  have hlevel : importLevel code phrase.start.before.reverse = true := by
    unfold importLevel bracesAt
    rw [openBraces_of_plain]
    · rfl
    · exact fun x hx => hbrace x (by rw [hcode]; exact List.mem_append_left _ hx)
  have hregion := importRegions_contains [] phrase.start.before.reverse hopen cs
  rw [← hcode, hlevel, byteLength_reverse] at hregion
  unfold gather Rule.applies Cursor.offset
  rw [hregion]
  simp

theorem ruleReferences_eq_nil (h : ∀ {c : Cursor}, (atStart code).Reaches c → rule.phrase? c = none)
    : ruleReferences code rule = [] := by
  unfold ruleReferences
  rw [List.flatMap_eq_nil_iff]
  intro phrase hmem
  obtain ⟨c, d, hc, hreach, -⟩ := mem_findAll hmem
  rw [h hreach] at hc
  cases hc

namespace IsNameless

variable (hs : IsNameless s)
include hs

theorem phrase?_of_mark {x : Char} (hx : rule.mark? = some x) (hc : (atStart s).Reaches c) :
    rule.phrase? c = none := by
  obtain ⟨hword, hspace, hsemi⟩ : isWordChar x = false ∧ x ≠ ' ' ∧ x ≠ ';' := by
    cases rule <;> cases hx <;> decide
  rw [Option.eq_none_iff_forall_ne_some]
  intro found hfound
  exact hs.not_mem hword hspace hsemi (hc.suffix.subset (Rule.mark_mem hx hfound))

theorem keywordPhrase?_eq_none (hlower : ∀ w ∈ words, ∀ x ∈ w.toList, x.isLower = true)
    (hwords : ∀ w ∈ words, w ∉ ["use", "function", "const", "as"]) (names : Cursor → Option Cursor)
    (hc : (atStart s).Reaches c) : keywordPhrase? words names c = none := by
  have hnone := hs.keyword?_eq_none hlower hwords hc
  unfold keywordPhrase?
  cases hk : c.keyword? words with
  | none => rfl
  | some k =>
    rw [hk, Option.bind_some] at hnone
    simp [hnone]

/-- Nothing is found inside a statement without a name. -/
theorem ruleReferences_eq (h : rule ≠ .parameterHint) : ruleReferences s rule = [] := by
  cases rule with
  | parameterHint => exact absurd rfl h
  | functionCall => exact ruleReferences_eq_nil fun _ => rfl
  | keywordSingle =>
    exact ruleReferences_eq_nil (hs.keywordPhrase?_eq_none (by decide) (by decide) _)
  | keywordList => exact ruleReferences_eq_nil (hs.keywordPhrase?_eq_none (by decide) (by decide) _)
  | catchClause => exact ruleReferences_eq_nil (hs.phrase?_of_mark rfl)
  | staticAccess => exact ruleReferences_eq_nil (hs.phrase?_of_mark rfl)
  | returnType => exact ruleReferences_eq_nil (hs.phrase?_of_mark rfl)
  | propertyType => exact ruleReferences_eq_nil (hs.phrase?_of_mark rfl)
  | «attribute» => exact ruleReferences_eq_nil (hs.phrase?_of_mark rfl)
  | traitUse =>
    unfold ruleReferences
    rw [List.flatMap_eq_nil_iff]
    intro phrase hmem
    obtain ⟨hreach, -, hbegins⟩ := Rule.reaches_of_mem h hmem
    refine gather_trait_eq_nil (fun c hc => ?_) hreach hbegins
    constructor
    · rintro rfl
      exact hs.not_mem (by decide) (by decide) (by decide) hc
    · rintro rfl
      exact hs.not_mem (by decide) (by decide) (by decide) hc

end IsNameless

/-- **Nothing is found inside a run.** -/
theorem ruleReferences_run (h : rule ≠ .parameterHint) (hu : Run u) :
    ruleReferences u rule = [] := by
  induction hu with
  | nil => rfl
  | @space c u hc _ ih =>
    have hspace : ruleReferences [c] rule = [] := by
      unfold ruleReferences
      rw [findAll_space (Rule.located h) hc]
      rfl
    have := ruleReferences_append h ((importPlace_space hc).divides u)
    rw [hspace, ih] at this
    exact this
  | @statement s u hs _ ih =>
    rw [ruleReferences_append h (hs.importPlace.divides u), ruleReferences_statement h hs, ih]
    rfl
  | @nameless s u hs _ ih =>
    rw [ruleReferences_append h (hs.importPlace.divides u), hs.ruleReferences_eq h, ih]
    rfl

/-! ## Calls -/

/-- What stands in front makes the name no call of the function. -/
def isCall (start : Cursor) : Bool :=
  !isQualifiedOrMember start && !endsInKeyword start.before ["new", "function", "fn"]

/-- The reference of a call. -/
def gatherCall (code : List Char) (p : Phrase) : List Reference :=
  if !inImport (imports code) p.start.offset && isCall p.start then
    [⟨p.start.spanTo p.stop, String.ofList (p.start.upTo p.stop), .function, .functionCall⟩]
  else []

/-- The calls of the functions with the given local names in a code. -/
def callReferences (code : List Char) (names : List String) : List Reference :=
  ((atStart code).findAll (call? names)).flatMap (gatherCall code)

theorem functionCalls_eq (d : Document) (names : List String) :
    functionCalls d d.declarations names = callReferences d.code names := by
  unfold functionCalls callReferences
  dsimp only
  induction (atStart d.code).findAll (call? names) with
  | nil => rfl
  | cons p ps ih =>
    rw [List.flatMap_cons, ← ih, List.filter_cons]
    unfold gatherCall isCall
    rw [inImport_declarations, ← Bool.and_assoc]
    split <;> rfl

theorem isQualifiedOrMember_within (hB : Opens B) (X : List Char) (c : Cursor) :
    isQualifiedOrMember (c.within B X) = isQualifiedOrMember c := by
  unfold isQualifiedOrMember
  rw [within_before]
  match c.before with
  | [] =>
    cases hb : B with
    | nil => rfl
    | cons x xs =>
      obtain ⟨h₁, h₂, -, h₄, h₅⟩ := hB.head_ne hb
      simp [h₁, h₂, h₄, h₅]
  | [y] =>
    cases hb : B with
    | nil => rfl
    | cons x xs =>
      obtain ⟨-, -, h₃, -, h₅⟩ := hB.head_ne hb
      by_cases hy : y = '\\' <;> by_cases hy₁ : y = '$' <;> by_cases hy₂ : y = '>' <;>
        by_cases hy₃ : y = ':' <;> simp [hy, hy₁, hy₂, hy₃, h₃, h₅]
  | y :: z :: ys =>
    by_cases hy : y = '\\' <;> by_cases hy₁ : y = '$' <;> by_cases hy₂ : y = '>' <;>
      by_cases hy₃ : y = ':' <;> by_cases hz : z = '-' <;> by_cases hz₁ : z = ':' <;>
        simp [hy, hy₁, hy₂, hy₃, hz, hz₁]

/-- No word reaches back over a place where a statement may begin. -/
theorem takeWhile_of_opens (hB : Opens B) : B.takeWhile isIdentChar = [] := by
  cases hb : B with
  | nil => rfl
  | cons x xs =>
    have hx : isIdentChar x = false := by
      rcases hB.head_cases hb with h | h
      · rcases isSpace_cases h with rfl | rfl | rfl | rfl | rfl <;> decide
      · rcases isStop_cases h with rfl | rfl | rfl <;> decide
    simp [hx]

theorem opens_dropWhile_isBlank (hB : Opens B) : Opens (B.dropWhile isBlank) := by
  induction B with
  | nil => exact hB
  | cons x xs ih =>
    by_cases hx : isSpace x = true
    · rw [List.dropWhile_cons, if_pos (isBlank_of_isSpace hx)]
      refine ih ?_
      unfold Opens startsStatement at hB ⊢
      rw [List.dropWhile_cons, if_pos hx] at hB
      exact hB
    · have hstop : isStop x = true := (hB.head_cases rfl).resolve_left hx
      rw [List.dropWhile_cons, if_neg (by simp [halts_isBlank x hstop])]
      exact hB

theorem endsInKeyword_within (hB : Opens B) (X : List Char) (c : Cursor) (keywords : List String) :
    endsInKeyword (c.within B X).before keywords = endsInKeyword c.before keywords := by
  have hword : ((c.before ++ B).dropWhile isBlank).takeWhile isIdentChar =
      (c.before.dropWhile isBlank).takeWhile isIdentChar := by
    rw [List.dropWhile_append]
    split
    · rename_i hnil
      rw [List.isEmpty_iff.mp hnil]
      exact takeWhile_of_opens (opens_dropWhile_isBlank hB)
    · rw [List.takeWhile_append, takeWhile_of_opens hB, List.append_nil]
      split
      · rename_i hlen
        exact ((List.takeWhile_prefix _).eq_of_length hlen).symm
      · rfl
  unfold endsInKeyword
  rw [within_before, hword]

theorem isCall_within (hB : Opens B) (X : List Char) (c : Cursor) :
    isCall (c.within B X) = isCall c := by
  unfold isCall
  rw [isQualifiedOrMember_within hB, endsInKeyword_within hB]

/-- A call lies in the code. -/
theorem reaches_of_mem_call {p : Phrase} (h : p ∈ (atStart code).findAll (call? names)) :
    (atStart code).Reaches p.start ∧ p.start.after ≠ [] := by
  obtain ⟨c, d, hc, hreach, hafter⟩ := mem_findAll h
  rw [call?_eq] at hc
  split at hc
  · obtain ⟨e, -, heq⟩ := Option.map_eq_some_iff.mp hc
    cases heq
    exact ⟨hreach, hafter⟩
  · cases hc

theorem gatherCall_front (hp : Divides p x) (hreach : (atStart p).Reaches phrase.start)
    (hne : phrase.start.after ≠ []) :
    gatherCall (p ++ x) (move [] x phrase) = gatherCall p phrase := by
  have hoffset : (phrase.start.within [] x).offset = phrase.start.offset := by
    rw [offset_within, byteLength_nil, Nat.zero_add]
  unfold gatherCall
  show (if (!inImport _ (phrase.start.within [] x).offset && isCall (phrase.start.within [] x)) =
    true
    then [(⟨(phrase.start.within [] x).spanTo (phrase.stop.within [] x),
      String.ofList ((phrase.start.within [] x).upTo (phrase.stop.within [] x)), _, _⟩ : Reference)]
    else []) = _
  rw [hoffset, inImport_front hp (hreach.offset_lt hne), isCall_within opens_nil, spanTo_within,
    upTo_within]
  simp [Span.shift]

theorem gatherCall_back (hp : Divides p x) (phrase : Phrase) :
    gatherCall (p ++ x) (move p.reverse [] phrase) =
      (gatherCall x phrase).map (Reference.shift (byteLength p)) := by
  have hoffset : (phrase.start.within p.reverse []).offset =
      byteLength p + phrase.start.offset := by
    rw [offset_within, byteLength_reverse]
  unfold gatherCall
  show (if (!inImport _ (phrase.start.within p.reverse []).offset &&
    isCall (phrase.start.within p.reverse [])) = true
    then [(⟨(phrase.start.within p.reverse []).spanTo (phrase.stop.within p.reverse []),
      String.ofList ((phrase.start.within p.reverse []).upTo (phrase.stop.within p.reverse [])), _,
      _⟩ :
        Reference)]
    else []) = _
  rw [hoffset, inImport_back hp, isCall_within hp.opens, spanTo_within, upTo_within,
    byteLength_reverse]
  split <;> rfl

/-- **The calls are found piece by piece.** -/
theorem callReferences_append (hne : "" ∉ names) (hp : Divides p x) :
    callReferences (p ++ x) names =
      callReferences p names ++ (callReferences x names).map (Reference.shift (byteLength p)) := by
  unfold callReferences
  rw [findAll_append (located_call hne) hp.opens, List.flatMap_append, List.flatMap_map,
    List.flatMap_map, List.map_flatMap]
  congr 1
  · refine List.flatMap_congr fun phrase hmem => ?_
    obtain ⟨hreach, hafter⟩ := reaches_of_mem_call hmem
    exact gatherCall_front hp hreach hafter
  · exact List.flatMap_congr fun phrase _ => gatherCall_back hp phrase

/-- **No call is found inside a run.** -/
theorem callReferences_run (hne : "" ∉ names) (hu : Run u) : callReferences u names = [] := by
  induction hu with
  | nil => rfl
  | @space c u hc _ ih =>
    have hspace : callReferences [c] names = [] := by
      unfold callReferences
      rw [findAll_space (located_call hne) hc]
      rfl
    have := callReferences_append hne ((importPlace_space hc).divides u)
    rw [hspace, ih] at this
    exact this
  | @statement s u hs _ ih =>
    have hstatement : callReferences s names = [] := by
      obtain ⟨body, stop, hst⟩ := id hs
      unfold callReferences
      rw [List.flatMap_eq_nil_iff]
      intro phrase hmem
      obtain ⟨hreach, hafter⟩ := reaches_of_mem_call hmem
      unfold gatherCall
      rw [hst.inImport_of_lt (hreach.offset_lt hafter)]
      rfl
    rw [callReferences_append hne (hs.importPlace.divides u), hstatement, ih]
    rfl
  | @nameless s u hs _ ih =>
    have hstatement : callReferences s names = [] := by
      unfold callReferences
      rw [List.flatMap_eq_nil_iff]
      intro phrase hmem
      obtain ⟨c, d, hc, hreach, -⟩ := mem_findAll hmem
      rw [call?_eq] at hc
      split at hc
      · -- no parenthesis stands behind a word
        obtain ⟨e, he, -⟩ := Option.map_eq_some_iff.mp hc
        have hparen := mem_of_literal?
          ((c.reaches_skipWhile isWordChar).trans (reaches_skipBlanks _)) he (x := '(') (by decide)
        exact absurd (hreach.suffix.subset hparen) (hs.not_mem (by decide) (by decide) (by decide))
      · cases hc
    rw [callReferences_append hne (hs.importPlace.divides u), hstatement, ih]
    rfl

/-! ## References around a run -/

/-- A reference in front of a place, or one behind it in a text with `n` bytes in front of that
text. -/
def place (n : Nat) : Reference ⊕ Reference → Reference :=
  Sum.elim id (Reference.shift n)

/-- The run stands between `p` and `q`, and the code is divided in front of it. -/
structure RunBetween (p u q : List Char) : Prop where
  run : Run u
  divides : Divides p (u ++ q)

theorem Run.between (hu : Run u) (hp : ImportPlace p) (q : List Char) : RunBetween p u q :=
  ⟨hu, hp.divides (u ++ q)⟩

/-- References around a run: some of the text `p` in front of it, and some of the text `q` behind
it. They are the same for every run. -/
def AroundRuns (p q : List Char) (found : List Char → List Reference) : Prop :=
  ∃ L : List (Reference ⊕ Reference), (∀ a, .inl a ∈ L → a.span.start < byteLength p) ∧
    ∀ u, RunBetween p u q → found u = L.map (place (byteLength p + byteLength u))

theorem aroundRuns_of_parts {found : List Char → List Reference} (A B : List Reference)
    (hA : ∀ a ∈ A, a.span.start < byteLength p) (hfound : ∀ u, RunBetween p u q →
      found u = A ++ B.map (Reference.shift (byteLength p + byteLength u))) :
    AroundRuns p q found := by
  refine ⟨A.map .inl ++ B.map .inr, fun a ha => ?_, fun u hu => ?_⟩
  · rcases List.mem_append.mp ha with ha | ha
    · obtain ⟨a', ha', heq⟩ := List.mem_map.mp ha
      cases heq
      exact hA a ha'
    · obtain ⟨b, -, heq⟩ := List.mem_map.mp ha
      cases heq
  · rw [hfound u hu, List.map_append, List.map_map, List.map_map]
    congr 1
    exact (List.map_id A).symm

theorem AroundRuns.append {f g : List Char → List Reference} (hf : AroundRuns p q f)
    (hg : AroundRuns p q g) : AroundRuns p q fun u => f u ++ g u := by
  obtain ⟨L, hL, hf⟩ := hf
  obtain ⟨M, hM, hg⟩ := hg
  refine ⟨L ++ M, fun a ha => ?_, fun u hu => ?_⟩
  · rcases List.mem_append.mp ha with ha | ha
    · exact hL a ha
    · exact hM a ha
  · dsimp only
    rw [hf u hu, hg u hu, List.map_append]

/-- The names of a phrase lie in the code. -/
theorem start_lt_of_mem_namesUpTo {start stop : Cursor} (hreach : (atStart code).Reaches start)
    {found : Span × List Char} (h : found ∈ start.namesUpTo stop) :
    found.1.start < byteLength code := by
  rw [namesUpTo_eq, List.mem_map] at h
  obtain ⟨⟨c, d⟩, hmem, rfl⟩ := h
  obtain ⟨e, f, he, ⟨z, hz, hbefore⟩, hne⟩ := mem_findFrom hmem
  obtain ⟨g, -, heq⟩ := Option.map_eq_some_iff.mp he
  cases heq
  have hupTo : start.upTo stop <+: start.after := List.take_prefix _ _
  obtain ⟨rest, hrest⟩ := hupTo
  dsimp only at hz hbefore
  have hlen := congrArg byteLength hreach.text_eq
  rw [← hrest, hz] at hlen
  have hpos : 0 < byteLength c.after := by
    rw [Nat.pos_iff_ne_zero, Ne, byteLength_eq_zero]
    exact hne
  simp only [byteLength_append, byteLength_reverse] at hlen
  simp only [spanTo, Cursor.offset, hbefore, byteLength_append, byteLength_reverse]
  omega

theorem start_lt_of_mem_gather (hreach : (atStart code).Reaches phrase.start) {r : Reference}
    (h : r ∈ gather code rule phrase) : r.span.start < byteLength code := by
  unfold gather at h
  split at h
  · obtain ⟨found, hmem, rfl⟩ := List.mem_map.mp h
    exact start_lt_of_mem_namesUpTo hreach hmem
  · cases h

theorem aroundRuns_rule (h : rule ≠ .parameterHint) (p q : List Char) :
    AroundRuns p q fun u => ruleReferences (p ++ (u ++ q)) rule := by
  refine aroundRuns_of_parts (ruleReferences p rule) (ruleReferences q rule) (fun a ha => ?_)
    fun u hu => ?_
  · obtain ⟨phrase, hmem, hgather⟩ := List.mem_flatMap.mp ha
    exact start_lt_of_mem_gather (Rule.reaches_of_mem h hmem).1 hgather
  · rw [ruleReferences_append h hu.divides, ruleReferences_append h (hu.run.importPlace.divides q),
      ruleReferences_run h hu.run,
      List.nil_append, List.map_map]
    congr 1
    refine List.map_congr_left fun r _ => ?_
    simp [Reference.shift, Span.shift, Nat.add_assoc]

theorem aroundRuns_call (hne : "" ∉ names) (p q : List Char) :
    AroundRuns p q fun u => callReferences (p ++ (u ++ q)) names := by
  refine aroundRuns_of_parts (callReferences p names) (callReferences q names) (fun a ha => ?_)
    fun u hu => ?_
  · obtain ⟨phrase, hmem, hgather⟩ := List.mem_flatMap.mp ha
    obtain ⟨hreach, hafter⟩ := reaches_of_mem_call hmem
    unfold gatherCall at hgather
    split at hgather
    · obtain rfl := List.mem_singleton.mp hgather
      exact hreach.offset_lt hafter
    · cases hgather
  · rw [callReferences_append hne hu.divides,
      callReferences_append hne (hu.run.importPlace.divides q), callReferences_run hne hu.run,
      List.nil_append, List.map_map]
    congr 1
    refine List.map_congr_left fun r _ => ?_
    simp [Reference.shift, Span.shift, Nat.add_assoc]

end UseImports
