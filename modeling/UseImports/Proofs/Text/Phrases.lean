import UseImports.Declaration.Reader
import UseImports.Proofs.Text.Search
import UseImports.Reference.Scan

/-!
# The phrases of a piece of text

Every phrase that is searched for in the code, with one exception, is read in a piece of text as it
is read in the text around the piece. The exception is a typed parameter with an attribute in front,
since an attribute reaches up to the next bracket, whatever stands before that.

* `located_useKeyword`, `located_namespaceClause`, `located_classClause`, `located_call`: the
  keyword of an import, namespace clauses, class-like declarations, calls.
* `Rule.located`: the phrases of the rules but typed parameters.
* `readsPhrase_parameterTail`: a typed parameter from behind its attribute on.
-/

namespace UseImports

open Placed

variable {names r : Cursor → Option Cursor} {B X : List Char} {c d : Cursor} {words : List String}
    {s : String} {a : Char} {n : Nat} {p : Phrase} {rule : Rule}

instance : Placed Phrase where
  move B X p := ⟨p.start.within B X, p.stop.within B X⟩
  move_move B X B' X' p := by simp [Cursor.within]

instance : Placed NamespaceClause where
  move B X n := ⟨n.start.within B X, n.name.within B X, n.nameStop.within B X,
    n.delimiter.within B X, n.stop.within B X⟩
  move_move B X B' X' n := by simp [Cursor.within]

/-- A reader that reads in a piece what it reads there in a longer text. -/
def Framed {β : Type} [Placed β] (g : Cursor → Option β) : Prop :=
  ∀ {B X c}, Opens B → Fits X c → g (c.within B X) = (g c).map (move B X)

/-- What comes behind a confined reader may use all the places passed so far. -/
theorem bind_within {β : Type} [Placed β] (hr : Confined r) (hB : Opens B) (hX : Fits X c)
    {g g' : Cursor → Option β}
    (h : ∀ d, r c = some d → Fits X d → g' (d.within B X) = (g d).map (move B X)) :
    (r (c.within B X)).bind g' = ((r c).bind g).map (move B X) := by
  rw [hr.within hB hX]
  cases hc : r c with
  | none => rfl
  | some d => exact h d hc (hr.fits hc hX)

/-! ## Words do not begin with white space -/

/-- Words in lower case. -/
def AreWords (words : List String) : Prop :=
  ∀ w ∈ words, w.toList.head?.any Char.isLower = true ∧ ∀ x ∈ w.toList, isStop x = false

instance (words : List String) : Decidable (AreWords words) :=
  inferInstanceAs (Decidable (∀ w ∈ words, _ ∧ _))

theorem foldLetter_of_isSpace {c : Char} (hc : isSpace c = true) :
    (Cursor.foldLetter c).isLower = false := by
  rcases isSpace_cases hc with rfl | rfl | rfl | rfl | rfl <;> decide

namespace Cursor

theorem oneOf?_cons_none (hw : AreWords words) {c : Char} (hc : (foldLetter c).isLower = false)
    (before after : List Char) : (Cursor.mk before (c :: after)).oneOf? words = none := by
  unfold oneOf?
  rw [List.findSome?_eq_none_iff]
  intro w hmem
  refine folded?_neg fun heq => ?_
  have hhead := (hw w hmem).1
  rw [← heq] at hhead
  cases hn : w.toList.length with
  | zero => simp [hn] at hhead
  | succ n => simp [hn, hc] at hhead

theorem keyword?_atSpace (hw : AreWords words) {c : Char} (hc : isSpace c = true)
    (before after : List Char) : (Cursor.mk before (c :: after)).keyword? words = none := by
  unfold keyword?
  rw [oneOf?_cons_none hw (foldLetter_of_isSpace hc)]
  split <;> rfl

theorem literal?_cons_ne {x : Char} {xs : List Char} (hs : s.toList = x :: xs) {c : Char}
    (hne : x ≠ c) (before after : List Char) :
    (Cursor.mk before (c :: after)).literal? s = none := by
  unfold literal?
  rw [hs, if_neg]
  simp [hne]

theorem confined_words (hw : AreWords words) : Confined (keyword? words) :=
  confined_keyword fun w hmem => (hw w hmem).2

/-! ## Imports, namespaces and classes -/

theorem located_useKeyword : Located useKeyword? where
  forward {c a d} h := by
    have hk : Confined (keyword? ["use"]) := confined_words (by decide)
    obtain ⟨e, he, heq⟩ := Option.map_eq_some_iff.mp h
    cases heq
    exact hk.forward (Option.filter_eq_some_iff.mp he).1
  within {B X c} hB hX := by
    have hk : Confined (keyword? ["use"]) := confined_words (by decide)
    unfold useKeyword?
    rw [hk.within hB hX]
    cases hc : c.keyword? ["use"] with
    | none => rfl
    | some d =>
      have hend : (d.within B X).atWordEnd = d.atWordEnd := by
        unfold atWordEnd
        rw [within_after, head?_within (hk.fits hc hX)]
      simp only [Option.map_some, Option.filter_some, hend]
      split <;> rfl
  atSpace {before after c} hc := by
    unfold useKeyword?
    rw [keyword?_atSpace (by decide) hc]
    rfl

theorem located_namespaceClause : Located namespaceClause? where
  forward {c a d} h := by
    simp only [namespaceClause?, Option.bind_eq_bind, Option.bind_eq_some_iff] at h
    obtain ⟨k, hk, n, hn, s, hs, e, he, heq⟩ := h
    cases heq
    exact ((confined_words (by decide)).forward hk).trans <| (confined_blanks.forward hn).trans <|
      (confined_qualifiedName.forward hs).trans <| s.reaches_skipBlanks.trans <| reaches_of_char? he
  within {B X c} hB hX := by
    refine bind_within (confined_words (by decide)) hB hX fun k hk hXk => ?_
    refine bind_within confined_blanks hB hXk fun n hn hXn => ?_
    refine bind_within confined_qualifiedName hB hXn fun s hs hXs => ?_
    dsimp only
    rw [within_skipBlanks hXs, within_char? (fits_skipBlanks hXs)]
    cases s.skipBlanks.char? fun d => d == ';' || d == '{' <;> rfl
  atSpace {before after c} hc := by
    unfold namespaceClause?
    rw [keyword?_atSpace (by decide) hc]
    rfl

theorem located_classClause : Located classClause? where
  forward {c a d} h := by
    simp only [classClause?, Option.bind_eq_bind, Option.bind_eq_some_iff] at h
    obtain ⟨k, hk, n, hn, s, hs, heq⟩ := h
    cases heq
    exact ((confined_words (by decide)).forward hk).trans <| (confined_blanks.forward hn).trans <|
      confined_ident.forward hs
  within {B X c} hB hX := by
    refine bind_within (confined_words (by decide)) hB hX fun k hk hXk => ?_
    refine bind_within confined_blanks hB hXk fun n hn hXn => ?_
    refine bind_within confined_ident hB hXn fun s hs hXs => ?_
    rfl
  atSpace {before after c} hc := by
    unfold classClause?
    rw [keyword?_atSpace (by decide) hc]
    rfl

end Cursor

/-! ## Types -/

open Cursor

theorem confined_type : Confined type? := by
  have hopen := confined_optional (confined_literal (s := "(") (by decide))
  have hmark := confined_optional (confined_literal (s := "?") (by decide))
  have hclose := confined_literal (s := ")") (by decide)
  have := confined_bind (confined_bind hopen confined_skipBlanks)
    (confined_bind (confined_bind hmark confined_skipBlanks)
      (confined_bind confined_qualifiedName
        (confined_optional (confined_bind confined_skipBlanks hclose))))
  exact this

theorem halts_or_beq {b : Char} (ha : isStop a = false) (hb : isStop b = false) :
    Halts fun d => d == a || d == b := by
  intro c hc
  simp only [Bool.or_eq_false_iff, beq_eq_false_iff_ne]
  constructor
  · rintro rfl
    rw [ha] at hc
    exact absurd hc (by simp)
  · rintro rfl
    rw [hb] at hc
    exact absurd hc (by simp)

theorem halts_beq (ha : isStop a = false) : Halts (· == a) := by
  intro c hc
  rw [beq_eq_false_iff_ne]
  rintro rfl
  rw [ha] at hc
  exact absurd hc (by simp)

theorem confined_setScope : Confined setScope? :=
  confined_bind (confined_literal (by decide))
    (confined_bind (confined_bind confined_skipBlanks (confined_folded (by decide)))
      (confined_bind confined_skipBlanks (confined_literal (by decide))))

theorem confined_modifier : Confined modifier? :=
  confined_bind (confined_oneOf (by decide))
    (confined_bind (confined_optional confined_setScope) confined_blanks)

theorem Cursor.eq_skipBlanks_of_blanks? (h : c.blanks? = some d) : d = c.skipBlanks := by
  unfold blanks? at h
  split at h
  · exact (Option.some.inj h).symm
  · cases h

/-- A modifier has at least one character. -/
theorem length_modifier? (h : modifier? c = some d) : d.after.length < c.after.length := by
  obtain ⟨w, hw, hd⟩ := Option.bind_eq_some_iff.mp h
  have hle := ((confined_bind (confined_optional confined_setScope) confined_blanks).forward
    hd).length_le
  obtain ⟨word, hmem, hword⟩ := List.exists_of_findSome?_eq_some hw
  obtain ⟨u, hu, hm, -⟩ := folded?_eq_some hword
  have hall : ∀ w ∈ modifierWords, 0 < w.toList.length := by decide
  have hpos := hall word hmem
  rw [← hm, List.length_map] at hpos
  rw [hu, List.length_append]
  omega

section Modifiers

variable {α : Type} {next : Cursor → Option α}

theorem modifiersThen?_succ (next : Cursor → Option α) (n : Nat) (c : Cursor) :
    modifiersThen? next (n + 1) c =
      match modifier? c with
      | some behind => modifiersThen? next n behind <|> next c
      | none => next c := rfl

/-- The bound on the number of modifiers does not matter where it is large enough. -/
theorem modifiersThen?_of_le {m : Nat} (hn : c.after.length ≤ n) (hm : c.after.length ≤ m) :
    modifiersThen? next n c = modifiersThen? next m c := by
  induction n generalizing m c with
  | zero =>
    cases m with
    | zero => rfl
    | succ m =>
      rw [modifiersThen?_succ]
      cases h : modifier? c with
      | none => rfl
      | some d =>
        have := length_modifier? h
        omega
  | succ n ih =>
    cases m with
    | zero =>
      rw [modifiersThen?_succ]
      cases h : modifier? c with
      | none => rfl
      | some d =>
        have := length_modifier? h
        omega
    | succ m =>
      rw [modifiersThen?_succ, modifiersThen?_succ]
      cases h : modifier? c with
      | none => rfl
      | some d =>
        have := length_modifier? h
        simp only
        rw [ih (m := m) (by omega) (by omega)]

theorem modifiersThen?_within [Placed α] (hnext : Framed next) (hB : Opens B) (n : Nat)
    (hX : Fits X c) :
    modifiersThen? next n (c.within B X) = (modifiersThen? next n c).map (move B X) := by
  induction n generalizing c with
  | zero => exact hnext hB hX
  | succ n ih =>
    rw [modifiersThen?_succ, modifiersThen?_succ, confined_modifier.within hB hX]
    cases h : modifier? c with
    | none => exact hnext hB hX
    | some d =>
      simp only [Option.map_some]
      rw [ih (confined_modifier.fits h hX), hnext hB hX]
      cases modifiersThen? next n d <;> rfl

/-- Behind some modifiers and the white space behind them `next` succeeds. -/
theorem modifiersThen?_eq_some {a : α} (h : modifiersThen? next n c = some a) :
    ∃ t, c.Reaches t ∧ (t = c ∨ ∃ e : Cursor, t = e.skipBlanks) ∧ next t = some a := by
  induction n generalizing c with
  | zero => exact ⟨c, .refl c, .inl rfl, h⟩
  | succ n ih =>
    rw [modifiersThen?_succ] at h
    cases hm : modifier? c with
    | none => rw [hm] at h; exact ⟨c, .refl c, .inl rfl, h⟩
    | some d =>
      rw [hm] at h
      simp only [Option.orElse_eq_orElse, Option.orElse_eq_or, Option.or_eq_some_iff] at h
      rcases h with h | ⟨-, h⟩
      · obtain ⟨t, ht, hbegins, hnext⟩ := ih h
        obtain ⟨w, -, hd⟩ := Option.bind_eq_some_iff.mp hm
        refine ⟨t, (confined_modifier.forward hm).trans ht, .inr ?_, hnext⟩
        exact hbegins.elim (fun heq => ⟨_, heq.trans (eq_skipBlanks_of_blanks? hd)⟩) id
      · exact ⟨c, .refl c, .inl rfl, h⟩

end Modifiers

/-! ## Phrases -/

theorem Cursor.Reaches.after_ne_nil (h : c.Reaches d) (hd : d.after ≠ []) : c.after ≠ [] := by
  obtain ⟨u, hu, -⟩ := h
  rw [hu]
  simp [hd]

theorem Cursor.qualifiedName?_ne_nil (h : c.qualifiedName? = some d) : c.after ≠ [] := by
  rw [qualifiedName?_eq] at h
  have hreach := (confined_optional (confined_literal (s := "\\") (by decide))).forward (c := c) rfl
  refine hreach.after_ne_nil fun hnil => ?_
  simp [nameBody?, hnil, beginsIdent] at h

/-- A reader of names: it is confined and reads at least one character. -/
structure ReadsNames (names : Cursor → Option Cursor) : Prop where
  confined : Confined names
  ne_nil : ∀ {c d}, names c = some d → c.after ≠ []

theorem readsNames_qualifiedName : ReadsNames Cursor.qualifiedName? :=
  ⟨confined_qualifiedName, Cursor.qualifiedName?_ne_nil⟩

theorem readsNames_type : ReadsNames type? where
  confined := confined_type
  ne_nil {c d} h := by
    simp only [type?, Option.bind_eq_bind, Option.bind_eq_some_iff] at h
    obtain ⟨s, hs, -⟩ := h
    have hopen := (confined_optional (confined_literal (s := "(") (by decide))).forward (c := c) rfl
    have hmark := (confined_optional (confined_literal (s := "?") (by decide))).forward
      (c := (c.optional (literal? "(")).skipBlanks) rfl
    refine (hopen.trans <| (reaches_skipBlanks _).trans <| hmark.trans <|
      reaches_skipBlanks _).after_ne_nil (Cursor.qualifiedName?_ne_nil hs)

theorem readsNames_listOf {separator : Char → Bool} {item : Cursor → Option Cursor}
    (hsep : Halts separator) (hi : ReadsNames item) : ReadsNames (listOf? separator item) where
  confined := confined_listOf hsep hi.confined
  ne_nil {c d} h := by
    obtain ⟨e, he, -⟩ := Option.map_eq_some_iff.mp h
    exact hi.ne_nil he

theorem readsNames_types : ReadsNames types? :=
  readsNames_listOf (halts_or_beq (by decide) (by decide)) readsNames_type

theorem readsNames_names : ReadsNames names? :=
  readsNames_listOf (halts_beq (by decide)) readsNames_qualifiedName

theorem readsNames_alternatives : ReadsNames alternatives? :=
  readsNames_listOf (halts_beq (by decide)) readsNames_qualifiedName

/-- The phrase lies between the two places, and its names are not empty. -/
structure Phrase.Between (c : Cursor) (p : Phrase) (d : Cursor) : Prop where
  start : c.Reaches p.start
  names : p.start.Reaches p.stop
  stop : p.stop.Reaches d
  ne_nil : p.start.after ≠ []

/-- A reader of phrases. -/
structure ReadsPhrase (r : Cursor → Option (Phrase × Cursor)) : Prop where
  between : ∀ {c p d}, r c = some (p, d) → p.Between c d
  framed : Framed r

theorem Phrase.Between.reaches (h : p.Between c d) : c.Reaches d :=
  h.start.trans <| h.names.trans h.stop

theorem ReadsPhrase.located {r : Cursor → Option (Phrase × Cursor)} (hr : ReadsPhrase r)
    (hspace : ∀ {before after c}, isSpace c = true → r ⟨before, c :: after⟩ = none) :
    Located r where
  forward h := (hr.between h).reaches
  within := hr.framed
  atSpace := hspace

/-- What comes behind a confined reader. -/
theorem ReadsPhrase.bind (hr : Confined r) {g : Cursor → Option (Phrase × Cursor)}
    (hg : ReadsPhrase g) :
    ReadsPhrase fun c => (r c).bind g where
  between {c p e} h := by
    obtain ⟨d, hd, he⟩ := Option.bind_eq_some_iff.mp h
    have hb := hg.between he
    exact ⟨(hr.forward hd).trans hb.start, hb.names, hb.stop, hb.ne_nil⟩
  framed hB hX := bind_within hr hB hX fun _ _ hXd => hg.framed hB hXd

/-- A phrase that is its names and then something else. -/
theorem readsPhrase_names (hn : ReadsNames names) (hforward : ∀ {c d}, r c = some d → c.Reaches d)
    (hr : Framed r) :
    ReadsPhrase fun c =>
      (names c).bind fun stop => (r stop).bind fun last => some (⟨c, stop⟩, last) where
  between {c p e} h := by
    obtain ⟨d, hd, h⟩ := Option.bind_eq_some_iff.mp h
    obtain ⟨e, he, heq⟩ := Option.bind_eq_some_iff.mp h
    cases heq
    exact ⟨.refl c, hn.confined.forward hd, hforward he, hn.ne_nil hd⟩
  framed {B X c} hB hX := bind_within hn.confined hB hX fun d _ hXd => by
    rw [hr hB hXd]
    cases r d <;> rfl

theorem readsPhrase_phrase (hn : ReadsNames names) :
    ReadsPhrase (phrase? names) where
  between {c p e} h := by
    obtain ⟨d, hd, heq⟩ := Option.map_eq_some_iff.mp h
    cases heq
    exact ⟨.refl c, hn.confined.forward hd, .refl _, hn.ne_nil hd⟩
  framed {B X c} hB hX := by
    unfold phrase?
    rw [hn.confined.within hB hX]
    cases names c <;> rfl

theorem framed_of_confined (hr : Confined r) : Framed r :=
  fun hB hX => hr.within hB hX

theorem readsPhrase_modifiers {next : Cursor → Option (Phrase × Cursor)} (hn : ReadsPhrase next) :
    ReadsPhrase fun c => modifiersThen? next c.after.length c where
  between {c p d} h := by
    obtain ⟨t, ht, -, hnext⟩ := modifiersThen?_eq_some h
    have hb := hn.between hnext
    exact ⟨ht.trans hb.start, hb.names, hb.stop, hb.ne_nil⟩
  framed {B X c} hB hX := by
    dsimp only
    rw [modifiersThen?_within hn.framed hB _ hX,
      modifiersThen?_of_le (m := c.after.length) (by simp) (Nat.le_refl _)]

theorem readsPhrase_keyword (hw : AreWords words) (hn : ReadsNames names) :
    ReadsPhrase (keywordPhrase? words names) :=
  .bind (confined_words hw) (.bind confined_blanks (readsPhrase_phrase hn))

theorem readsPhrase_catch : ReadsPhrase catchPhrase? := by
  have hparen := confined_bind confined_skipBlanks (confined_literal (s := "(") (by decide))
  have hcatch : AreWords ["catch"] := by decide
  have := ReadsPhrase.bind (confined_words hcatch)
    (.bind hparen (.bind confined_skipBlanks (readsPhrase_phrase readsNames_alternatives)))
  exact this

theorem readsPhrase_attribute : ReadsPhrase attributePhrase? := by
  have := ReadsPhrase.bind (confined_literal (s := "#[") (by decide))
    (.bind confined_skipBlanks (readsPhrase_phrase readsNames_qualifiedName))
  exact this

theorem readsPhrase_access : ReadsPhrase accessPhrase? := by
  have hcolons := confined_literal (s := "::") (by decide)
  have := readsPhrase_names readsNames_qualifiedName hcolons.forward (framed_of_confined hcolons)
  exact this

/-- A character at which statements meet may end a phrase. -/
theorem framed_delimiter (p : Char → Bool) : Framed fun c => c.skipBlanks.char? p := by
  intro B X c _ hX
  dsimp only
  rw [within_skipBlanks hX, within_char? (fits_skipBlanks hX)]
  rfl

theorem reaches_delimiter {p : Char → Bool} (h : c.skipBlanks.char? p = some d) : c.Reaches d :=
  c.reaches_skipBlanks.trans (reaches_of_char? h)

theorem traitPhrase?_eq (c : Cursor) : traitPhrase? c =
    (c.keyword? ["use"]).bind fun k => k.blanks?.bind fun start => (names? start).bind fun stop =>
      (stop.skipBlanks.char? fun d => d == ';' || d == '{').bind fun last =>
        some (⟨start, stop⟩, last) := by
  unfold traitPhrase? keywordPhrase? phrase?
  cases c.keyword? ["use"] with
  | none => rfl
  | some k =>
    cases hk : k.blanks? with
    | none => simp [hk]
    | some start => cases hs : names? start <;> simp [hk, hs]

theorem readsPhrase_trait : ReadsPhrase traitPhrase? := by
  rw [funext traitPhrase?_eq]
  exact .bind (confined_words (by decide)) (.bind confined_blanks
    (readsPhrase_names readsNames_names reaches_delimiter (framed_delimiter _)))

/-- What ends a return type. -/
def returnEnd? (c : Cursor) : Option Cursor :=
  c.skipBlanks.char? (fun d => d == '{' || d == ';') <|> c.skipBlanks.literal? "=>"

theorem confined_arrow : Confined fun c => c.skipBlanks.literal? "=>" :=
  confined_bind confined_skipBlanks (confined_literal (s := "=>") (by decide))

theorem framed_returnEnd : Framed returnEnd? := by
  intro B X c _ hX
  have harrow := confined_arrow.within ‹Opens B› hX
  unfold returnEnd?
  rw [harrow, within_skipBlanks hX, within_char? (fits_skipBlanks hX)]
  cases c.skipBlanks.char? fun d => d == '{' || d == ';' <;> rfl

theorem reaches_returnEnd (h : returnEnd? c = some d) : c.Reaches d := by
  simp only [returnEnd?, Option.orElse_eq_orElse, Option.orElse_eq_or, Option.or_eq_some_iff] at h
  rcases h with h | ⟨-, h⟩
  · exact reaches_delimiter h
  · exact confined_arrow.forward h

theorem readsPhrase_return : ReadsPhrase returnPhrase? := by
  have hcolon := confined_bind confined_skipBlanks (confined_literal (s := ":") (by decide))
  have := ReadsPhrase.bind (confined_literal (s := ")") (by decide)) (.bind hcolon
    (.bind confined_skipBlanks
      (readsPhrase_names readsNames_types reaches_returnEnd framed_returnEnd)))
  exact this

theorem readsPhrase_property : ReadsPhrase propertyPhrase? := by
  have hdollar := confined_bind confined_blanks (confined_literal (s := "$") (by decide))
  have hwords : AreWords ["public", "protected", "private", "var", "readonly", "static"] := by
    decide
  have := ReadsPhrase.bind (confined_words hwords)
    (.bind confined_blanks (readsPhrase_modifiers
      (readsPhrase_names readsNames_types hdollar.forward (framed_of_confined hdollar))))
  exact this

/-! ## Typed parameters -/

theorem confined_parameterName : Confined parameterName? := by
  have hamp := confined_bind confined_skipBlanks (confined_literal (s := "&") (by decide))
  have hdots := confined_optional (confined_literal (s := "...") (by decide))
  have hdollar := confined_bind confined_skipBlanks (confined_literal (s := "$") (by decide))
  have heq : parameterName? = fun c => ((c.skipBlanks.literal? "&").or c.blanks?).bind fun behind =>
      ((behind.skipBlanks).optional (literal? "...")).skipBlanks.literal? "$" := by
    funext c
    dsimp only [parameterName?]
    cases c.skipBlanks.literal? "&" <;> rfl
  rw [heq]
  have := confined_bind (confined_or hamp confined_blanks)
    (confined_bind (confined_bind confined_skipBlanks hdots) hdollar)
  exact this

/-- A typed parameter from behind its attribute on. -/
def parameterTail? (c : Cursor) : Option (Phrase × Cursor) :=
  modifiersThen? (fun t => do
    let stop ← types? t
    let last ← parameterName? stop
    return (⟨t, stop⟩, last)) c.after.length c

theorem parameterPhrase?_eq (c : Cursor) : parameterPhrase? c =
    (c.char? fun d => d == '(' || d == ',').bind fun inner =>
      parameterTail? (inner.skipBlanks.optional attributeGroup?) := rfl

theorem readsPhrase_parameterTail : ReadsPhrase parameterTail? :=
  readsPhrase_modifiers (readsPhrase_names readsNames_types confined_parameterName.forward
    (framed_of_confined confined_parameterName))

/-! ## Calls -/

theorem literal?_eq_some (h : c.literal? s = some d) :
    ∃ b, c.after = s.toList ++ b ∧ d = ⟨s.toList.reverse ++ c.before, b⟩ := by
  unfold literal? at h
  split at h
  next hword =>
    obtain ⟨b, hb⟩ := List.isPrefixOf_iff_prefix.mp hword
    refine ⟨b, hb.symm, ?_⟩
    rw [← Option.some.inj h, Cursor.advance, ← hb, List.take_left, List.drop_left]
  next => cases h

theorem skipBlanks_gap {g : List Char} (hg : ∀ c ∈ g, isBlank c = true) (B rest : List Char) :
    skipBlanks ⟨B, g ++ rest⟩ = skipBlanks ⟨g.reverse ++ B, rest⟩ := by
  simp [skipBlanks, skipWhile, List.takeWhile_append_of_pos hg, List.dropWhile_append_of_pos hg]

theorem skipBlanks_of_visible {rest : List Char} (h : ∀ c ∈ rest.head?, isBlank c = false)
    (B : List Char) :
    skipBlanks ⟨B, rest⟩ = ⟨B, rest⟩ := by
  cases rest with
  | nil => rfl
  | cons c rest => simp [skipBlanks, skipWhile, h c rfl]

theorem skipBlanks_paren {gap : List Char} (hgap : ∀ x ∈ gap, isBlank x = true)
    (B back : List Char) :
    skipBlanks ⟨B, gap ++ '(' :: back⟩ = ⟨gap.reverse ++ B, '(' :: back⟩ := by
  rw [skipBlanks_gap hgap, skipBlanks_of_visible]
  rintro x ⟨⟩
  decide

/-- Behind white space stands a parenthesis. -/
theorem paren?_eq_some_iff {last : Cursor} : c.skipBlanks.literal? "(" = some last ↔
    ∃ gap back, c.after = gap ++ '(' :: back ∧ (∀ x ∈ gap, isBlank x = true) ∧
      last = ⟨'(' :: (gap.reverse ++ c.before), back⟩ := by
  constructor
  · intro h
    obtain ⟨back, hafter, rfl⟩ := literal?_eq_some h
    refine ⟨c.after.takeWhile isBlank, back, ?_, fun x hx => List.mem_takeWhile_imp hx, rfl⟩
    have hsplit := c.after.takeWhile_append_dropWhile (p := isBlank)
    rw [show c.after.dropWhile isBlank = '(' :: back from hafter] at hsplit
    exact hsplit.symm
  · rintro ⟨gap, back, hafter, hgap, rfl⟩
    obtain ⟨before, after⟩ := c
    dsimp only at hafter
    rw [hafter, skipBlanks_paren hgap]
    rfl

theorem call?_eq (names : List String) (c : Cursor) : c.call? names =
    if c.atWordStart && names.contains (String.ofList (c.after.takeWhile isWordChar)) then
      ((c.skipWhile isWordChar).skipBlanks.literal? "(").map fun last =>
        (⟨c, c.skipWhile isWordChar⟩, last)
    else none := by
  unfold call?
  cases c.atWordStart with
  | false => rfl
  | true =>
    cases names.contains (String.ofList (c.after.takeWhile isWordChar)) with
    | false => rfl
    | true =>
      simp only [Bool.not_true, Bool.false_eq_true, if_false, Bool.and_self, if_true]
      cases (c.skipWhile isWordChar).skipBlanks.literal? "(" <;> rfl

theorem takeWhile_within {p : Char → Bool} (hp : Halts p) (hX : Fits X c) :
    (c.after ++ X).takeWhile p = c.after.takeWhile p := by
  rcases hX with rfl | hX
  · rw [List.append_nil]
  · obtain ⟨d, hd, hs⟩ := hX.exists_mem
    exact takeWhile_append_of_mem ⟨d, hd, hp d hs⟩ X

theorem confined_paren : Confined fun c => (c.skipWhile isWordChar).skipBlanks.literal? "(" :=
  confined_bind (confined_skipWhile halts_isWordChar)
    (confined_bind confined_skipBlanks (confined_literal (s := "(") (by decide)))

/-- A call is read piece by piece, if no name is empty. -/
theorem located_call {names : List String} (hne : "" ∉ names) : Located (call? names) where
  forward {c a d} h := by
    rw [call?_eq] at h
    split at h
    · obtain ⟨e, he, heq⟩ := Option.map_eq_some_iff.mp h
      cases heq
      exact confined_paren.forward he
    · cases h
  within {B X c} hB hX := by
    rw [call?_eq, call?_eq, atWordStart_within hB, within_after,
      takeWhile_within halts_isWordChar hX]
    have hparen := confined_paren.within hB hX
    rw [hparen, within_skipWhile halts_isWordChar hX]
    split
    · cases (c.skipWhile isWordChar).skipBlanks.literal? "(" <;> rfl
    · rfl
  atSpace {before after c} hc := by
    have hw : isWordChar c = false := by
      rcases isSpace_cases hc with rfl | rfl | rfl | rfl | rfl <;> decide
    rw [call?_eq, if_neg]
    simp [hw, hne]

/-! ## The rules -/

theorem literal?_atSpace (hs : s.toList.head?.any isSpace = false) (hne : s.toList ≠ []) {c : Char}
    (hc : isSpace c = true) (before after : List Char) :
    (Cursor.mk before (c :: after)).literal? s = none := by
  cases hl : s.toList with
  | nil => exact absurd hl hne
  | cons x xs =>
    refine literal?_cons_ne hl ?_ before after
    rintro rfl
    rw [hl] at hs
    simp [hc] at hs

theorem Rule.readsPhrase (h : rule ≠ .parameterHint) : ReadsPhrase rule.phrase? := by
  cases rule with
  | parameterHint => exact absurd rfl h
  | functionCall => exact ⟨fun h => by simp [Rule.phrase?] at h, fun _ _ => rfl⟩
  | keywordSingle => exact readsPhrase_keyword (by decide) readsNames_qualifiedName
  | keywordList => exact readsPhrase_keyword (by decide) readsNames_names
  | catchClause => exact readsPhrase_catch
  | staticAccess => exact readsPhrase_access
  | returnType => exact readsPhrase_return
  | propertyType => exact readsPhrase_property
  | «attribute» => exact readsPhrase_attribute
  | traitUse => exact readsPhrase_trait

/-- **The phrases of every rule but typed parameters** are found piece by piece. -/
theorem Rule.located (h : rule ≠ .parameterHint) : Located rule.phrase? := by
  refine (Rule.readsPhrase h).located fun {before after c} hc => ?_
  cases rule with
  | parameterHint => exact absurd rfl h
  | functionCall => rfl
  | keywordSingle => rw [Rule.phrase?, keywordPhrase?, keyword?_atSpace (by decide) hc]; rfl
  | keywordList => rw [Rule.phrase?, keywordPhrase?, keyword?_atSpace (by decide) hc]; rfl
  | catchClause => rw [Rule.phrase?, catchPhrase?, keyword?_atSpace (by decide) hc]; rfl
  | staticAccess =>
    have hb : c ≠ '\\' := by rintro rfl; exact absurd hc (by decide)
    rw [Rule.phrase?, accessPhrase?, qualifiedName?_cons (isIdentStart_of_isSpace hc) hb]; rfl
  | returnType =>
    rw [Rule.phrase?, returnPhrase?, literal?_atSpace (by decide) (by decide) hc]; rfl
  | propertyType => rw [Rule.phrase?, propertyPhrase?, keyword?_atSpace (by decide) hc]; rfl
  | «attribute» =>
    rw [Rule.phrase?, attributePhrase?, literal?_atSpace (by decide) (by decide) hc]; rfl
  | traitUse => rw [Rule.phrase?, traitPhrase?_eq, keyword?_atSpace (by decide) hc]; rfl

/-- A name begins with a letter or a backslash. -/
theorem Cursor.qualifiedName?_head (h : c.qualifiedName? = some d) :
    ∃ x xs, c.after = x :: xs ∧ (isIdentStart x = true ∨ x = '\\') := by
  cases ha : c.after with
  | nil => exact absurd ha (Cursor.qualifiedName?_ne_nil h)
  | cons x xs =>
    refine ⟨x, xs, rfl, ?_⟩
    by_contra hno
    rw [not_or, Bool.not_eq_true] at hno
    have := Cursor.qualifiedName?_cons hno.1 hno.2 c.before xs
    rw [← ha] at this
    rw [this] at h
    cases h

/-- The names of the traits that a class uses do not begin with a brace. -/
theorem traitPhrase?_begins (h : traitPhrase? c = some (p, d)) :
    ∃ x xs, p.start.after = x :: xs ∧ x ≠ '{' ∧ x ≠ '}' := by
  rw [traitPhrase?_eq] at h
  simp only [Option.bind_eq_some_iff] at h
  obtain ⟨k, -, start, -, stop, hstop, last, -, heq⟩ := h
  cases heq
  obtain ⟨e, he, -⟩ := Option.map_eq_some_iff.mp hstop
  obtain ⟨x, xs, hx, hcase⟩ := Cursor.qualifiedName?_head he
  refine ⟨x, xs, hx, ?_, ?_⟩
  · rintro rfl
    revert hcase
    decide
  · rintro rfl
    revert hcase
    decide

end UseImports
