import UseImports.Proofs.Declaration.Apart

/-!
# Plain statements

The plain statement of a declaration (`to_plain_statement`) is read back as that declaration. The
one exception is a class with an alias whose whole name is the keyword of a kind: such a word is
taken for the keyword, and no name is left behind it.

* `isLegible`, `Declaration.Legible`: the exception.
* `clauseText`, `kindText`, `plainBody`: the parts of a plain statement.
* `Declaration.WellNamed.isStatement`: **a plain statement is an import statement.**
* `Declaration.WellNamed.meaning_imports`: **it imports what the declaration says.**
* `Declaration.WellNamed.isNameless`, `Declaration.WellNamed.imports_of_not_legible`: **the
  exception imports nothing.**
-/

namespace UseImports

open Cursor

variable {d : Declaration} {a : Option (List Char)} {b name rest ws : List Char} {c : Char}
    {kind : ImportKind}

/-! ## Clauses -/

/-- No alias stands behind the keyword of a kind. -/
def isLegible (m : String × Option String × ImportKind) : Bool :=
  !(m.2.2 == .cls && isKindWord m.1.toList && m.2.1.isSome)

/-- The plain statement of the declaration can be read back. -/
def Declaration.Legible (d : Declaration) : Prop :=
  d.kind = .cls → isKindWord d.fqn.toList = true → d.aliasName = none

instance (d : Declaration) : Decidable d.Legible :=
  inferInstanceAs (Decidable (d.kind = .cls → isKindWord d.fqn.toList = true → d.aliasName = none))

theorem Declaration.legible_iff : d.Legible ↔ isLegible d.meaning = true := by
  simp only [Legible, isLegible, meaning, Bool.not_eq_true', Bool.and_eq_false_imp,
    Bool.and_eq_true, beq_iff_eq, and_imp, Option.isSome_eq_false_iff, Option.isNone_iff_eq_none]

theorem Declaration.not_legible_iff :
    ¬ d.Legible ↔ d.kind = .cls ∧ isKindWord d.fqn.toList = true ∧ ∃ a, d.aliasName = some a := by
  simp [Legible, Option.ne_none_iff_exists']

/-- A name with its alias, as a clause has them. -/
def clauseText (name : List Char) : Option (List Char) → List Char
  | none => name
  | some a => name ++ (' ' :: 'a' :: 's' :: ' ' :: a)

/-- Behind a name stands nothing or a blank. -/
theorem clauseText_split (name : List Char) (a : Option (List Char)) :
    ∃ rest, clauseText name a = name ++ rest ∧ (rest = [] ∨ ∃ r, rest = ' ' :: r) := by
  cases a with
  | none => exact ⟨[], by simp [clauseText], .inl rfl⟩
  | some a => exact ⟨_, rfl, .inr ⟨_, rfl⟩⟩

theorem nameRest_blank (cs : List Char) : nameRest (' ' :: cs) = 0 := by
  have hword : isWordChar ' ' = false := by decide
  rw [nameRest_cons, hword]
  rfl

theorem visible_of_beginsIdent {a : List Char} (h : beginsIdent a = true) :
    ∀ c ∈ a.head?, isBlank c = false := by
  intro c hc
  obtain ⟨t, rfl⟩ := List.head?_eq_some_iff.mp hc
  exact isBlank_of_isWordChar (isWordChar_of_isIdentStart h)

theorem skipBlanks_cons (h : ∀ c ∈ rest.head?, isBlank c = false) (B : List Char) :
    skipBlanks ⟨B, ' ' :: rest⟩ = ⟨' ' :: B, rest⟩ :=
  (skipBlanks_gap (g := [' ']) (by decide) B rest).trans (skipBlanks_of_visible h _)

theorem blanks?_cons_ident {a : List Char} (h : beginsIdent a = true) (B : List Char) :
    (Cursor.mk B (' ' :: a)).blanks? = some ⟨' ' :: B, a⟩ := by
  rw [← skipBlanks_cons (visible_of_beginsIdent h)]
  exact if_pos rfl

/-- No keyword `as` stands at the begin of an alias. -/
theorem aliasKeyword?_eq_none {a : List Char} (h : IsIdent a) (B : List Char) :
    aliasKeyword? ⟨B, ' ' :: a⟩ = none := by
  unfold aliasKeyword?
  rw [blanks?_cons_ident h.begins]
  cases hword : folded? "as" ⟨' ' :: B, a⟩ with
  | none => simp [hword]
  | some k =>
    obtain ⟨u, hu, -, -⟩ := folded?_eq_some hword
    have hnone : k.blanks? = none := by
      unfold blanks?
      rw [if_neg]
      cases hk : k.after with
      | nil => simp
      | cons c cs =>
        have hc : isWordChar c = true := h.word c (by rw [show a = u ++ k.after from hu, hk]; simp)
        simp [isBlank_of_isWordChar hc]
    simp [hword, hnone]

/-- **A name with its alias is read as such.** -/
theorem readNamed?_clauseText (hname : IsName name) (ha : ∀ b ∈ a, IsIdent b)
    (kind : Option ImportKind) (B : List Char) :
    ∃ span stop, readNamed? kind ⟨B, clauseText name a⟩ = some ⟨kind, name, span, a, stop⟩ := by
  cases a with
  | none =>
    have hread := qualifiedName?_of_isName hname (show nameRest [] = 0 from rfl) B
    rw [List.append_nil] at hread
    refine ⟨spanTo ⟨B, name⟩ ⟨name.reverse ++ B, []⟩, offset ⟨name.reverse ++ B, []⟩, ?_⟩
    simp [readNamed?, clauseText, hread, upTo]
  | some b =>
    have hb := ha b rfl
    have hread := qualifiedName?_of_isName hname (nameRest_blank ('a' :: 's' :: ' ' :: b)) B
    have hkeyword : aliasKeyword? ⟨name.reverse ++ B, ' ' :: 'a' :: 's' :: ' ' :: b⟩ =
        some ⟨' ' :: 's' :: 'a' :: ' ' :: (name.reverse ++ B), b⟩ := by
      have hgap := blanks?_cons_ident (a := 'a' :: 's' :: ' ' :: b) rfl (name.reverse ++ B)
      have hword : folded? "as" ⟨' ' :: (name.reverse ++ B), 'a' :: 's' :: ' ' :: b⟩ =
          some ⟨'s' :: 'a' :: ' ' :: (name.reverse ++ B), ' ' :: b⟩ := rfl
      have hgap' := blanks?_cons_ident hb.begins ('s' :: 'a' :: ' ' :: (name.reverse ++ B))
      simp [aliasKeyword?, hgap, hword, hgap']
    have hident := ident?_of_isIdent hb (' ' :: 's' :: 'a' :: ' ' :: (name.reverse ++ B))
    refine ⟨spanTo ⟨B, clauseText name (some b)⟩ ⟨name.reverse ++ B, ' ' :: 'a' :: 's' :: ' ' :: b⟩,
      offset ⟨b.reverse ++ ' ' :: 's' :: 'a' :: ' ' :: (name.reverse ++ B), []⟩, ?_⟩
    simp [readNamed?, clauseText, hread, hkeyword, hident, upTo]

/-- What is read as the keyword of a kind is the whole name in front of an alias. -/
theorem eq_of_folded_clauseText {u : List Char} (hname : IsName name)
    (hu : ∀ x ∈ u, isBlank x = false) (hc : isBlank c = true)
    (h : clauseText name a = u ++ c :: rest) :
    u = name ∧ ∃ b, a = some b ∧ c :: rest = ' ' :: 'a' :: 's' :: ' ' :: b := by
  obtain ⟨back, hback, hshape⟩ := clauseText_split name a
  have hcut : ∀ {v w : List Char}, (∀ x ∈ v, isBlank x = false) →
      (w = [] ∨ ∃ x r, w = x :: r ∧ isBlank x = true) →
      (v ++ w).takeWhile (fun x => !isBlank x) = v := by
    intro v w hv hw
    have hv' : ∀ x ∈ v, (!isBlank x) = true := fun x hx => by simp [hv x hx]
    rw [List.takeWhile_append_of_pos hv']
    rcases hw with rfl | ⟨x, r, rfl, hx⟩
    · simp
    · simp [hx]
  have hleft := hcut hu (w := c :: rest) (.inr ⟨c, rest, rfl, hc⟩)
  have hright := hcut hname.not_isBlank (w := back) (by
    rcases hshape with rfl | ⟨r, rfl⟩
    · exact .inl rfl
    · exact .inr ⟨' ', r, rfl, by decide⟩)
  have huname : u = name := by rw [← hleft, ← h, hback, hright]
  subst huname
  refine ⟨rfl, ?_⟩
  cases a with
  | none =>
    have := congrArg List.length h
    simp [clauseText] at this
  | some b => exact ⟨b, rfl, (List.append_cancel_left h).symm⟩

theorem kindKeyword?_clauseText (hname : IsName name) {B : List Char} {d : Cursor}
    (h : kindKeyword? ⟨B, clauseText name a⟩ = some (kind, d)) :
    isKindWord name = true ∧ ∃ b, a = some b ∧ d.after = 'a' :: 's' :: ' ' :: b := by
  have hword : ∀ {w : String} {k e : Cursor}, (∀ x ∈ w.toList, x.isLower = true) →
      folded? w ⟨B, clauseText name a⟩ = some k → k.blanks? = some e →
      name.map foldLetter = w.toList ∧ ∃ b, a = some b ∧ e.after = 'a' :: 's' :: ' ' :: b := by
    intro w k e hw hk he
    obtain ⟨u, hu, hm, -⟩ := folded?_eq_some hk
    unfold blanks? at he
    split at he
    · rename_i hblank
      obtain ⟨c, rest, hcons, hc⟩ : ∃ c rest, k.after = c :: rest ∧ isBlank c = true := by
        cases hk' : k.after with
        | nil =>
          rw [hk'] at hblank
          cases hblank
        | cons c rest => exact ⟨c, rest, rfl, by rwa [hk'] at hblank⟩
      rw [hcons] at hu
      obtain ⟨rfl, b, rfl, hrest⟩ :=
        eq_of_folded_clauseText hname (fun x hx =>
          isBlank_of_isWordChar (isWordChar_of_folded hw hm x hx)) hc hu
      refine ⟨hm, b, rfl, ?_⟩
      cases he
      have hspace : isBlank ' ' = true := by decide
      have ha : isBlank 'a' = false := by decide
      simp [skipBlanks, skipWhile, hcons, hrest, hspace, ha]
    · cases he
  unfold kindKeyword? at h
  split at h
  · rename_i k hk
    obtain ⟨e, he, heq⟩ := Option.map_eq_some_iff.mp h
    cases heq
    obtain ⟨hm, b, hb, hd⟩ := hword (by decide) hk he
    exact ⟨by simp [isKindWord, hm], b, hb, hd⟩
  · obtain ⟨e, he, heq⟩ := Option.map_eq_some_iff.mp h
    cases heq
    obtain ⟨k, hk, he⟩ := Option.bind_eq_some_iff.mp he
    obtain ⟨hm, b, hb, hd⟩ := hword (by decide) hk he
    exact ⟨by simp [isKindWord, hm], b, hb, hd⟩

/-- `as` and an alias are no name. -/
theorem readNamed?_as (hb : IsIdent b) (kind : Option ImportKind) (B : List Char) :
    readNamed? kind ⟨B, 'a' :: 's' :: ' ' :: b⟩ = none := by
  have has : IsName ['a', 's'] := ⟨by decide, by decide⟩
  have hname : qualifiedName? ⟨B, 'a' :: 's' :: ' ' :: b⟩ = some ⟨'s' :: 'a' :: B, ' ' :: b⟩ :=
    qualifiedName?_of_isName has (nameRest_blank b) B
  have hkeyword := aliasKeyword?_eq_none hb ('s' :: 'a' :: B)
  simp [readNamed?, hname, hkeyword]

/-- **A clause is read back**, whatever its name is. -/
theorem readClause?_clauseText (hname : IsName name) (ha : ∀ b ∈ a, IsIdent b) :
    ∃ span stop, readClause? (clauseText name a) = some ⟨none, name, span, a, stop⟩ := by
  obtain ⟨span, stop, hread⟩ := readNamed?_clauseText hname ha none []
  refine ⟨span, stop, ?_⟩
  unfold readClause?
  dsimp only
  cases hkind : kindKeyword? (atStart (clauseText name a)) with
  | none => exact hread
  | some start =>
    -- behind the keyword only `as` and the alias are left, and they are no clause
    obtain ⟨kind, B, A⟩ := start
    obtain ⟨-, b, hb, hafter⟩ := kindKeyword?_clauseText hname hkind
    obtain rfl : A = 'a' :: 's' :: ' ' :: b := hafter
    rw [Option.bind_some, readNamed?_as (ha b hb)]
    exact hread

/-- Nor are they a clause. -/
theorem readClause?_as (hb : IsIdent b) : readClause? ('a' :: 's' :: ' ' :: b) = none := by
  have hno : ∀ {w : String} {c : Char} {cs : List Char}, w.toList = c :: cs → c ≠ 'a' →
      folded? w (atStart ('a' :: 's' :: ' ' :: b)) = none := by
    intro w c cs hw hc
    refine folded?_neg fun hm => hc ?_
    rw [hw] at hm
    exact (List.cons.inj hm).1.symm
  have hkind : kindKeyword? (atStart ('a' :: 's' :: ' ' :: b)) = none := by
    rw [kindKeyword?, hno (w := "function") rfl (by decide), hno (w := "const") rfl (by decide)]
    rfl
  unfold readClause?
  dsimp only
  rw [hkind]
  exact readNamed?_as hb none []

/-! ## Bodies -/

/-- The keyword of a kind with a blank behind it. -/
def kindText : ImportKind → List Char
  | .cls => []
  | .function => ['f', 'u', 'n', 'c', 't', 'i', 'o', 'n', ' ']
  | .const => ['c', 'o', 'n', 's', 't', ' ']

/-- What stands between the keyword and the semicolon of a plain statement. -/
def plainBody (d : Declaration) : List Char :=
  ' ' :: (kindText d.kind ++ clauseText d.fqn.toList (d.aliasName.map String.toList))

theorem toList_plainStatement (d : Declaration) :
    d.plainStatement.toList = 'u' :: 's' :: 'e' :: (plainBody d ++ [';']) := by
  have hplain : ∀ front behind : String, ("use " ++ front ++ d.fqn ++ behind ++ ";").toList =
      'u' :: 's' :: 'e' :: ' ' :: (front.toList ++ (d.fqn.toList ++ behind.toList)) ++ [';'] := by
    intro front behind
    have huse : "use ".toList = ['u', 's', 'e', ' '] := rfl
    have hsemi : ";".toList = [';'] := rfl
    rw [String.toList_append, String.toList_append, String.toList_append,
      String.toList_append, huse, hsemi]
    simp
  have hbehind : ∀ a : String, (" as " ++ a).toList = ' ' :: 'a' :: 's' :: ' ' :: a.toList := by
    intro a
    rw [String.toList_append]
    rfl
  have hempty : "".toList = [] := rfl
  have hfunction : ("function" ++ " ").toList = kindText .function := rfl
  have hconst : ("const" ++ " ").toList = kindText .const := rfl
  unfold Declaration.plainStatement plainBody
  cases d.kind <;> cases d.aliasName <;>
    simp only [ImportKind.keyword?, hplain, hbehind, hempty, hfunction, hconst, clauseText,
      List.append_nil, Option.map_none, Option.map_some] <;> rfl

theorem getLast?_plainStatement (d : Declaration) :
    d.plainStatement.toList.getLast? = some ';' := by
  rw [toList_plainStatement, ← List.cons_append, ← List.cons_append, ← List.cons_append,
    List.getLast?_concat]

theorem clauseText_begins (hname : IsName name) (a : Option (List Char)) :
    beginsIdent (clauseText name a) = true := by
  cases a with
  | none => exact hname.begins
  | some b => exact beginsIdent_append hname.begins _

/-- A clause is made of word characters, backslashes and blanks, and ends in a word character or in
a backslash. -/
theorem mem_clauseText (hname : IsName name) (ha : ∀ b ∈ a, IsIdent b) :
    ∀ c ∈ clauseText name a, isWordChar c = true ∨ c = '\\' ∨ c = ' ' := by
  intro c hc
  cases a with
  | none =>
    rcases hname.mem c hc with h | h
    · exact .inl h
    · exact .inr (.inl h)
  | some b =>
    simp only [clauseText, List.mem_append, List.mem_cons] at hc
    rcases hc with hc | rfl | rfl | rfl | rfl | hc
    · rcases hname.mem c hc with h | h
      · exact .inl h
      · exact .inr (.inl h)
    · exact .inr (.inr rfl)
    · exact .inl (by decide)
    · exact .inl (by decide)
    · exact .inr (.inr rfl)
    · exact .inl ((ha b rfl).word c hc)

/-- A clause does not end in a blank. -/
theorem trim_clauseText (hname : IsName name) (ha : ∀ b ∈ a, IsIdent b)
    (hws : ∀ c ∈ ws, isBlank c = true) : trim (ws ++ clauseText name a) = clauseText name a := by
  have hstart : trimStart (ws ++ clauseText name a) = clauseText name a := by
    have hbegins := clauseText_begins hname a
    unfold trimStart
    rw [List.dropWhile_append_of_pos hws]
    cases hclause : clauseText name a with
    | nil => rfl
    | cons c cs =>
      rw [hclause] at hbegins
      have hc : isBlank c = false := isBlank_of_isWordChar (isWordChar_of_isIdentStart hbegins)
      rw [List.dropWhile_cons_of_neg (by simp [hc])]
  have hlast : ∃ x, IsName x ∧ ∃ front, clauseText name a = front ++ x := by
    cases a with
    | none => exact ⟨name, hname, [], rfl⟩
    | some b => exact ⟨b, (ha b rfl).isName, name ++ [' ', 'a', 's', ' '], by simp [clauseText]⟩
  obtain ⟨x, hx, front, hfront⟩ := hlast
  rw [trim, hstart, trimEnd, dropEndWhile, hfront, List.reverse_append]
  cases hrev : x.reverse with
  | nil => exact absurd (List.reverse_eq_nil_iff.mp hrev) hx.ne_nil
  | cons c cs =>
    have hmem : c ∈ x := List.mem_reverse.mp (hrev ▸ List.mem_cons_self)
    have hc : isBlank c = false := hx.not_isBlank c hmem
    rw [List.cons_append, List.dropWhile_cons_of_neg (by simp [hc]), ← List.cons_append, ← hrev,
      ← List.reverse_append, List.reverse_reverse]

/-- The characters that a plain statement has no use for. -/
theorem not_isWordChar_of_mem
    (h : c ∈ [',', ';', '{', '}', '?', '/', '<', '#', '\x27', '\x22', '\x60']) :
    isWordChar c = false ∧ c ≠ '\\' ∧ c ≠ ' ' := by
  revert c
  decide

theorem not_mem_clauseText (hname : IsName name) (ha : ∀ b ∈ a, IsIdent b)
    (hc : c ∈ [',', ';', '{', '}', '?', '/', '<', '#', '\x27', '\x22', '\x60']) :
    c ∉ clauseText name a := by
  intro hmem
  obtain ⟨hword, hslash, hspace⟩ := not_isWordChar_of_mem hc
  rcases mem_clauseText hname ha c hmem with h | h | h
  · rw [hword] at h
    cases h
  · exact hslash h
  · exact hspace h

theorem readSequence_clauseText (hname : IsName name) (ha : ∀ b ∈ a, IsIdent b)
    (hws : ∀ c ∈ ws, isBlank c = true) (head : StatementHead) (offset : Nat) :
    (readSequence ⟨[], []⟩ head offset (ws ++ clauseText name a)).map Declaration.meaning =
      [(String.ofList name, a.map String.ofList, head.kind)] := by
  have hcomma : ',' ∉ ws ++ clauseText name a := by
    intro hmem
    rcases List.mem_append.mp hmem with hmem | hmem
    · exact absurd (hws ',' hmem) (by decide)
    · exact not_mem_clauseText hname ha (by decide) hmem
  obtain ⟨span, stop, hclause⟩ := readClause?_clauseText hname ha
  have htrim := trim_clauseText hname ha hws
  have hne : (clauseText name a).isEmpty = false := by
    cases hempty : clauseText name a with
    | nil =>
      have := clauseText_begins hname a
      rw [hempty] at this
      cases this
    | cons c cs => rfl
  have hread : readClauses? offset (ws ++ clauseText name a) =
      some [(offset + byteLength ((ws ++ clauseText name a).takeWhile isBlank),
        ⟨none, name, span, a, stop⟩)] := by
    rw [readClauses?, splitOnChar_of_forall (beq_comma_of_not_mem hcomma)]
    simp [trimmedPieces, htrim, hne, hclause]
  unfold readSequence
  rw [hread]
  simp [Declaration.meaning, stripLeading, hname.stripLeading]

/-- The kind of a statement is read off its keyword. -/
theorem statementStart_keyword {k : List Char} (hk : IsKindKeyword kind k)
    (hrest : beginsIdent rest = true) :
    statementStart (' ' :: (k ++ ' ' :: rest)) = (kind, ⟨' ' :: (k.reverse ++ [' ']), rest⟩) := by
  have hvisible : ∀ c ∈ (k ++ ' ' :: rest).head?, isBlank c = false := by
    obtain ⟨c, t, rfl⟩ := List.exists_cons_of_ne_nil hk.ne_nil
    rintro _ ⟨⟩
    exact hk.not_isBlank c List.mem_cons_self
  have hread := hk.kindKeyword?_eq (g := [' ']) (by decide) (by simp) [' '] rest
  rw [skipBlanks_of_visible (visible_of_beginsIdent hrest), List.singleton_append] at hread
  rw [statementStart, atStart, skipBlanks_cons hvisible, hread]
  simp

/-- The kind of a plain statement is read off its keyword, and behind it stands the clause. -/
theorem statementStart_plainBody (h : d.WellNamed) (hkind : d.Legible) :
    (statementStart (plainBody d)).1 = d.kind ∧ ∃ ws, (∀ c ∈ ws, isBlank c = true) ∧
      (statementStart (plainBody d)).2.after =
        ws ++ clauseText d.fqn.toList (d.aliasName.map String.toList) := by
  have hbegins := clauseText_begins h.fqn (d.aliasName.map String.toList)
  unfold plainBody
  cases hk : d.kind with
  | cls =>
    rw [kindText, List.nil_append, statementStart, atStart,
      skipBlanks_cons (visible_of_beginsIdent hbegins)]
    cases hread : kindKeyword? ⟨[' '], clauseText d.fqn.toList (d.aliasName.map String.toList)⟩ with
    | none => exact ⟨rfl, [' '], by decide, rfl⟩
    | some start =>
      obtain ⟨hword, b, hb, -⟩ :=
        kindKeyword?_clauseText h.fqn (hread.trans rfl : _ = some (start.1, start.2))
      rw [hkind hk hword] at hb
      cases hb
  | function =>
    have hword : IsKindKeyword .function "function".toList := ⟨_, rfl, by decide⟩
    have hstart := statementStart_keyword hword hbegins
    exact ⟨congrArg Prod.fst hstart, [], by simp, congrArg (fun start => start.2.after) hstart⟩
  | const =>
    have hword : IsKindKeyword .const "const".toList := ⟨_, rfl, by decide⟩
    have hstart := statementStart_keyword hword hbegins
    exact ⟨congrArg Prod.fst hstart, [], by simp, congrArg (fun start => start.2.after) hstart⟩

theorem readBody_plainBody (h : d.WellNamed) (hkind : d.Legible) (statement : Span) (offset : Nat) :
    (readBody statement offset (plainBody d)).map Declaration.meaning = [d.meaning] := by
  have ha : ∀ b ∈ d.aliasName.map String.toList, IsIdent b := by
    intro b hb
    obtain ⟨a, ha, rfl⟩ := Option.map_eq_some_iff.mp hb
    exact h.aliasName a ha
  obtain ⟨hstart, ws, hws, hafter⟩ := statementStart_plainBody h hkind
  have hbrace : ∀ c ∈ ws ++ clauseText d.fqn.toList (d.aliasName.map String.toList),
      decide (c ≠ '{') = true := by
    intro c hc
    rw [decide_eq_true_eq]
    rintro rfl
    rcases List.mem_append.mp hc with hc | hc
    · exact absurd (hws '{' hc) (by decide)
    · exact not_mem_clauseText h.fqn ha (by decide) hc
  have hfront := List.takeWhile_eq_self_iff.mpr hbrace
  dsimp only [readBody, Document.readBody]
  rw [hafter, hfront, List.drop_length, hstart]
  dsimp only
  rw [readSequence_clauseText h.fqn ha hws]
  have halias : (d.aliasName.map String.toList).map String.ofList = d.aliasName := by
    cases d.aliasName <;> simp
  simp [Declaration.meaning, halias]

/-- The body without a name declares nothing. -/
theorem readBody_of_not_legible (h : d.WellNamed) (hno : ¬ d.Legible) (statement : Span)
    (offset : Nat) : readBody statement offset (plainBody d) = [] := by
  obtain ⟨hkind, hword, a, ha⟩ := Declaration.not_legible_iff.mp hno
  obtain ⟨kind, hk⟩ := isKindWord_iff.mp hword
  have hident := h.aliasName a ha
  have hbody : plainBody d = ' ' :: (d.fqn.toList ++ ' ' :: 'a' :: 's' :: ' ' :: a.toList) := by
    rw [plainBody, hkind, ha]
    rfl
  -- what is left behind the keyword is no clause
  have hfree : ∀ x, isWordChar x = false → x ≠ ' ' → x ∉ 'a' :: 's' :: ' ' :: a.toList := by
    intro x hx hspace hmem
    simp only [List.mem_cons] at hmem
    rcases hmem with rfl | rfl | hmem | hmem
    · exact absurd hx (by decide)
    · exact absurd hx (by decide)
    · exact hspace hmem
    · rw [hident.word x hmem] at hx
      cases hx
  have hfront := List.takeWhile_eq_self_iff.mpr fun c hc => decide_eq_true (p := c ≠ '{') fun heq =>
    hfree '{' (by decide) (by decide) (heq ▸ hc)
  have htrimmed : Trimmed ('a' :: 's' :: ' ' :: a.toList) := by
    refine ⟨visible_of_beginsIdent rfl, fun c hc => ?_⟩
    rw [show 'a' :: 's' :: ' ' :: a.toList = ['a', 's', ' '] ++ a.toList from rfl,
      List.getLast?_append_of_ne_nil _ hident.isName.ne_nil] at hc
    exact isBlank_of_isWordChar (hident.word c (List.mem_of_getLast? hc))
  have htrim : trim ('a' :: 's' :: ' ' :: a.toList) = 'a' :: 's' :: ' ' :: a.toList := by
    have hnone : ∀ c ∈ ([] : List Char), isBlank c = true := by simp
    simpa using trim_append hnone htrimmed hnone
  dsimp only [readBody, Document.readBody]
  rw [hbody, statementStart_keyword hk rfl]
  dsimp only
  rw [hfront, List.drop_length]
  dsimp only
  rw [readSequence, readClauses?_last (hfree ',' (by decide) (by decide)), htrim,
    readClause?_as hident]
  rfl

/-! ## Statements -/

theorem isIdentChar_of_isWordChar (h : isWordChar c = true) : isIdentChar c = true := by
  unfold isWordChar at h
  unfold isIdentChar
  split at h
  · simp [h]
  · rename_i hascii
    have : (0x80 : Nat) ≤ c.toNat := by omega
    simp [this]

/-- A body of words, backslashes and blanks is scanned to its end. -/
theorem statementLength?_of_plain {body : List Char}
    (hbody : ∀ c ∈ body, isWordChar c = true ∨ c = '\\' ∨ c = ' ') {sawName : Bool}
    (hname : sawName = true ∨ ∃ c ∈ body, isWordChar c = true) :
    statementLength? false sawName (body ++ [';']) = some body.length := by
  induction body generalizing sawName with
  | nil =>
    obtain rfl : sawName = true := by simpa using hname
    rfl
  | cons c body ih =>
    have hrest : ∀ x ∈ body, isWordChar x = true ∨ x = '\\' ∨ x = ' ' :=
      fun x hx => hbody x (List.mem_cons_of_mem c hx)
    rw [List.cons_append, statementLength?_cons]
    rcases hbody c List.mem_cons_self with hc | hc
    · have hne : ∀ x ∈ [',', ';', '{', '}'], c ≠ x := by
        rintro x hx rfl
        rw [(not_isWordChar_of_mem (List.mem_append_left _ hx)).1] at hc
        cases hc
      have hslash : c ≠ '\\' := by
        rintro rfl
        exact absurd hc (by decide)
      have hspace : isSpace c = false := by
        by_contra hspace
        have := isBlank_of_isSpace (by simpa using hspace)
        rw [isBlank_of_isWordChar hc] at this
        cases this
      have hstep : scanStep false sawName c = some (false, true) := by
        simp only [List.mem_cons, List.not_mem_nil, or_false, forall_eq_or_imp, forall_eq] at hne
        simp [scanStep, hne, hslash, hspace, isIdentChar_of_isWordChar hc]
      rw [hstep]
      dsimp only
      rw [ih hrest (.inl rfl)]
      rfl
    · have hstep : scanStep false sawName c = some (false, sawName) := by
        rcases hc with rfl | rfl <;> rfl
      have hname' : sawName = true ∨ ∃ x ∈ body, isWordChar x = true := by
        refine hname.imp_right ?_
        rintro ⟨x, hx, hword⟩
        rcases List.mem_cons.mp hx with rfl | hx
        · rcases hc with rfl | rfl <;> exact absurd hword (by decide)
        · exact ⟨x, hx, hword⟩
      rw [hstep]
      dsimp only
      rw [ih hrest hname']
      rfl

theorem mem_plainBody (h : d.WellNamed) :
    ∀ c ∈ plainBody d, isWordChar c = true ∨ c = '\\' ∨ c = ' ' := by
  have hkind : ∀ kind, ∀ c ∈ kindText kind, isWordChar c = true ∨ c = '\\' ∨ c = ' ' := by
    intro kind
    cases kind <;> decide
  intro c hc
  rcases List.mem_cons.mp hc with rfl | hc
  · exact .inr (.inr rfl)
  rcases List.mem_append.mp hc with hc | hc
  · exact hkind _ c hc
  · refine mem_clauseText h.fqn (fun b hb => ?_) c hc
    obtain ⟨a, ha, rfl⟩ := Option.map_eq_some_iff.mp hb
    exact h.aliasName a ha

namespace Declaration.WellNamed

theorem statementText (h : d.WellNamed) :
    StatementText d.plainStatement.toList (plainBody d) ⟨['e', 's', 'u'],
      plainBody d ++ [';']⟩ := by
  refine ⟨?_, rfl, ?_⟩
  · rw [toList_plainStatement]
    rfl
  · refine statementLength?_of_plain (mem_plainBody h) (.inr ?_)
    cases hname : d.fqn.toList with
    | nil => exact absurd hname h.fqn.ne_nil
    | cons c cs =>
      have hc : isWordChar c = true := by
        have := h.fqn.begins
        rw [hname] at this
        exact isWordChar_of_isIdentStart this
      obtain ⟨rest, hrest, -⟩ := clauseText_split d.fqn.toList (d.aliasName.map String.toList)
      refine ⟨c, ?_, hc⟩
      rw [plainBody, hrest, hname]
      simp

theorem map_statementImports (h : d.WellNamed) (hkind : d.Legible) :
    (statementImports (atStart d.plainStatement.toList)
      ⟨['e', 's', 'u'], plainBody d ++ [';']⟩).map meaning = [d.meaning] := by
  rw [statementImports_eq, h.statementText.statementBody]
  exact readBody_plainBody h hkind _ _

theorem statementAt (h : d.WellNamed) (hkind : d.Legible) :
    StatementAt d.plainStatement.toList (plainBody d) ⟨['e', 's', 'u'], plainBody d ++ [';']⟩ := by
  refine h.statementText.statementAt_of_ne_nil fun hnil => ?_
  have hmeaning := h.map_statementImports hkind
  rw [hnil] at hmeaning
  cases hmeaning

/-- **A plain statement is an import statement.** -/
theorem isStatement (h : d.WellNamed) (hkind : d.Legible) : IsStatement d.plainStatement.toList :=
  ⟨_, _, h.statementAt hkind⟩

/-- **A plain statement imports what the declaration says.** -/
theorem meaning_imports (h : d.WellNamed) (hkind : d.Legible) :
    (imports d.plainStatement.toList).map meaning = [d.meaning] := by
  rw [(h.statementAt hkind).imports]
  exact h.map_statementImports hkind

/-- **A plain statement that is not legible has no name.** -/
theorem isNameless (h : d.WellNamed) (hno : ¬ d.Legible) : IsNameless d.plainStatement.toList := by
  obtain ⟨hkind, hword, a, ha⟩ := not_legible_iff.mp hno
  obtain ⟨kind, hk⟩ := isKindWord_iff.mp hword
  refine ⟨d.fqn.toList, a.toList, ?_, hword, ?_, _, _, h.statementText⟩
  · rw [toList_plainStatement, plainBody, hkind, ha]
    simp [kindText, clauseText]
  · intro c hc
    rcases List.mem_append.mp hc with hc | hc
    · exact hk.isWordChar c hc
    · exact (h.aliasName a ha).word c hc

/-- **It imports nothing.** -/
theorem imports_of_not_legible (h : d.WellNamed) (hno : ¬ d.Legible) :
    imports d.plainStatement.toList = [] := by
  have hbrace : '{' ∉ plainBody d := by
    intro hmem
    rcases mem_plainBody h '{' hmem with hc | hc | hc
    · exact absurd hc (by decide)
    · exact absurd hc (by decide)
    · exact absurd hc (by decide)
  rw [h.statementText.imports_eq (.sequence (.inl rfl) rfl hbrace), statementImports_eq,
    h.statementText.statementBody]
  exact readBody_of_not_legible h hno _ _

/-- In either case it can stand in a run. -/
theorem run (h : d.WellNamed) : Run d.plainStatement.toList := by
  by_cases hkind : d.Legible
  · exact .of_statement (h.isStatement hkind)
  · exact .of_nameless (h.isNameless hkind)

/-- A plain statement opens neither comment nor string, and its only white space is the space. -/
theorem plain (h : d.WellNamed) :
    ∀ c ∈ d.plainStatement.toList, isPlain c = true ∧ (isBlank c = true → c = ' ') := by
  have hword : ∀ {c : Char}, isWordChar c = true → isPlain c = true ∧
      (isBlank c = true → c = ' ') := by
    intro c hc
    constructor
    · unfold isPlain
      rw [decide_eq_true_eq]
      intro hmem
      have := (not_isWordChar_of_mem (List.mem_append_right [',', ';', '{', '}'] hmem)).1
      rw [hc] at this
      cases this
    · intro hblank
      rw [isBlank_of_isWordChar hc] at hblank
      cases hblank
  intro c hc
  rw [toList_plainStatement] at hc
  simp only [List.mem_cons, List.mem_append, List.not_mem_nil, or_false] at hc
  rcases hc with rfl | rfl | rfl | hc | rfl
  · exact hword (by decide)
  · exact hword (by decide)
  · exact hword (by decide)
  · rcases mem_plainBody h c hc with hc | rfl | rfl
    · exact hword hc
    · exact ⟨by decide, by decide⟩
    · exact ⟨by decide, by decide⟩
  · exact ⟨by decide, by decide⟩

end Declaration.WellNamed

end UseImports
