import UseImports.Proofs.Declaration.Plain

/-!
# The grammar of import statements

An import statement imports a list of names, or a group of names with a common front. It is written
with white space of any amount between its tokens and with its keywords in any case; a name is one
token, and so is the front of a group with its last backslash. Every way to write it is read as what
it says.

* `Identifier`, `QualifiedName`, `UseClause`, `UseStatement`: statements as they are meant.
* `UseStatement.sharedKind`, `UseStatement.meanings`: what a statement declares.
* `ClauseText`, `ClauseList`, `BodyText`: how a statement is written.
* `readClause?_of_clauseText`, `ClauseList.exists_read`: **clauses are read as what they say.**
* `BodyText.meanings_readBody`: **so is the body of a statement.**
-/

namespace UseImports

open Cursor

variable {body e g g' k rest t x : List Char} {kind : ImportKind}

/-! ## Statements as they are meant -/

/-- The keywords of import statements and namespaces. -/
def statementWords : List String :=
  ["function", "const", "as", "use", "namespace"]

/-- An identifier that is no keyword of a statement, in any case. -/
structure Identifier where
  text : List Char
  isIdent : IsIdent text
  free : ∀ w ∈ statementWords, text.map foldLetter ≠ w.toList

/-- Identifiers with backslashes between them. -/
structure QualifiedName where
  first : Identifier
  others : List Identifier

/-- The name as it is written. -/
def QualifiedName.text (n : QualifiedName) : List Char :=
  n.first.text ++ n.others.flatMap fun i => '\\' :: i.text

/-- The name with a leading backslash, or without one. -/
def QualifiedName.written (rooted : Bool) (n : QualifiedName) : List Char :=
  if rooted then '\\' :: n.text else n.text

/-- An imported name with its own kind and its alias, written with or without a leading backslash.
-/
structure UseClause where
  kind : Option ImportKind
  rooted : Bool
  name : QualifiedName
  aliasName : Option Identifier

/-- What the clause declares behind a common front, if it has the kind `shared` unless it has its
own. -/
def UseClause.meaning (shared : ImportKind) (front : List Char) (c : UseClause) :
    String × Option String × ImportKind :=
  (String.ofList (front ++ c.name.text), c.aliasName.map fun a =>
    String.ofList a.text, c.kind.getD shared)

/-- The members of a group: at least one, and none with a leading backslash. -/
structure Members where
  clauses : List UseClause
  ne_nil : clauses ≠ []
  unrooted : ∀ c ∈ clauses, c.rooted = false

/-- What a statement imports: a list of names, or the members of a group behind a common front. -/
inductive UseForm where
  | clauses (first : UseClause) (others : List UseClause)
  | group (rooted : Bool) (front : QualifiedName) (members : Members)

/-- An import statement. -/
structure UseStatement where
  kind : Option ImportKind
  form : UseForm

namespace UseStatement

/-- The kind of the clauses that have none of their own. A kind in front of the first clause of a
list is that of the statement. -/
def sharedKind (s : UseStatement) : ImportKind :=
  match s.form with
  | .clauses first _ => (s.kind.or first.kind).getD .cls
  | .group _ _ _ => s.kind.getD .cls

/-- What the statement declares, clause by clause, if `shared` is the kind of the clauses that have
none of their own. -/
def meaningsWith (shared : ImportKind) (s : UseStatement) :
    List (String × Option String × ImportKind) :=
  match s.form with
  | .clauses first others => (first :: others).map (UseClause.meaning shared [])
  | .group _ front members => members.clauses.map (UseClause.meaning shared (front.text ++ ['\\']))

/-- What the statement declares. -/
def meanings (s : UseStatement) : List (String × Option String × ImportKind) :=
  s.meaningsWith s.sharedKind

end UseStatement

/-! ## How statements are written -/

/-- ASCII white space. -/
def IsGap (g : List Char) : Prop :=
  ∀ c ∈ g, isSpace c = true

instance (g : List Char) : Decidable (IsGap g) :=
  inferInstanceAs (Decidable (∀ c ∈ g, isSpace c = true))

theorem isGap_nil : IsGap [] := by decide

theorem isGap_space : IsGap [' '] := by decide

theorem IsGap.append (h : IsGap g) (h' : IsGap g') : IsGap (g ++ g') :=
  fun c hc => (List.mem_append.mp hc).elim (h c) (h' c)

/-- The keyword of a kind with white space behind it, if there is a kind. -/
inductive KindText : Option ImportKind → List Char → Prop
  | none : KindText none []
  | some {kind : ImportKind} {k g : List Char} : IsKindKeyword kind k → IsGap g → g ≠ [] →
      KindText (some kind) (k ++ g)

/-- An alias behind the keyword `as`, if there is one. -/
inductive AliasText : Option Identifier → List Char → Prop
  | none : AliasText none []
  | some {a : Identifier} {g k g' : List Char} : IsGap g → g ≠ [] → k.map foldLetter = "as".toList →
      IsGap g' → g' ≠ [] → AliasText (some a) (g ++ (k ++ (g' ++ a.text)))

/-- A clause without white space around it. -/
inductive ClauseText (c : UseClause) : List Char → Prop
  | mk {k a : List Char} : KindText c.kind k → AliasText c.aliasName a →
      ClauseText c (k ++ (c.name.written c.rooted ++ a))

/-- Clauses with commas between them. -/
inductive ClauseList : List UseClause → List Char → Prop
  | last {c : UseClause} {g t g' : List Char} : IsGap g → ClauseText c t → IsGap g' →
      ClauseList [c] (g ++ (t ++ g'))
  | cons {c : UseClause} {cs : List UseClause} {g t g' rest : List Char} : IsGap g →
      ClauseText c t → IsGap g' →
      ClauseList cs rest → ClauseList (c :: cs) (g ++ (t ++ g') ++ ',' :: rest)

/-- What may stand behind the last member of a group. -/
inductive ListEnd : List Char → Prop
  | none : ListEnd []
  | comma {g : List Char} : IsGap g → ListEnd (',' :: g)

/-- What stands between the keyword `use` and the semicolon. -/
inductive BodyText : UseStatement → List Char → Prop
  | clauses {kind : Option ImportKind} {first : UseClause} {others : List UseClause}
      {g k t : List Char} :
      IsGap g → KindText kind k → ClauseList (first :: others) t →
      BodyText ⟨kind, .clauses first others⟩ (g ++ (k ++ t))
  | group {kind : Option ImportKind} {rooted : Bool} {front : QualifiedName} {members : Members}
      {g k g' t e g'' : List Char} :
      IsGap g → KindText kind k → IsGap g' → ClauseList members.clauses t → ListEnd e → IsGap g'' →
      BodyText ⟨kind, .group rooted front members⟩
        (g ++ (k ++ (front.written rooted ++ '\\' :: (g' ++ '{' :: (t ++ (e ++ '}' :: g''))))))

/-- The text of an import statement. Behind its keyword stands white space or the backslash of a
name. -/
inductive UseText (s : UseStatement) : List Char → Prop
  | mk {w body : List Char} : w.map foldLetter = "use".toList → BodyText s body →
      body.head?.any isWordChar = false → UseText s (w ++ (body ++ [';']))

/-! ## Names and keywords -/

theorem IsGap.isBlank (h : IsGap g) : ∀ c ∈ g, UseImports.isBlank c = true :=
  fun c hc => isBlank_of_isSpace (h c hc)

/-- The characters inside a clause. -/
def isClauseChar (c : Char) : Bool :=
  isWordChar c || c == '\\' || isSpace c

theorem isClauseChar_of_folded {w : String} (hw : ∀ x ∈ w.toList, x.isLower = true) {u : List Char}
    (h : u.map foldLetter = w.toList) : ∀ c ∈ u, isClauseChar c = true := by
  intro c hc
  simp [isClauseChar, isWordChar_of_folded hw h c hc]

theorem isClauseChar_of_gap (h : IsGap g) : ∀ c ∈ g, isClauseChar c = true := by
  intro c hc
  simp [isClauseChar, h c hc]

theorem isClauseChar_of_isName {name : List Char} (h : IsName name) :
    ∀ c ∈ name, isClauseChar c = true := by
  intro c hc
  rcases h.mem c hc with hword | rfl
  · simp [isClauseChar, hword]
  · rfl

theorem not_isClauseChar {c : Char} (h : c ∈ [',', ';', '{', '}']) : isClauseChar c = false := by
  revert c
  decide

/-- Commas, braces and semicolons stand in no text of clause characters. -/
theorem not_mem_of_isClauseChar (ht : ∀ c ∈ t, isClauseChar c = true) {c : Char}
    (h : c ∈ [',', ';', '{', '}']) : c ∉ t := by
  intro hmem
  have := ht c hmem
  rw [not_isClauseChar h] at this
  cases this

theorem isKindWord_of_backslash (h : '\\' ∈ x) : isKindWord x = false := by
  have hmem : '\\' ∈ x.map foldLetter := List.mem_map.mpr ⟨'\\', h, by decide⟩
  rw [isKindWord, decide_eq_false_iff_not]
  rintro (hx | hx) <;> exact absurd (hx ▸ hmem) (by decide)

namespace QualifiedName

theorem isName (n : QualifiedName) : IsName n.text := by
  have happend : ∀ (others : List Identifier) {a : List Char}, IsName a →
      IsName (a ++ others.flatMap fun i => '\\' :: i.text) := by
    intro others
    induction others with
    | nil => simp
    | cons i others ih =>
      intro a ha
      rw [List.flatMap_cons, ← List.append_assoc]
      exact ih (ha.append i.isIdent.isName)
  exact happend n.others n.first.isIdent.isName

theorem written_ne_nil (n : QualifiedName) (rooted : Bool) : n.written rooted ≠ [] := by
  cases rooted with
  | false => exact n.isName.ne_nil
  | true => exact List.cons_ne_nil _ _

theorem not_isBlank (n : QualifiedName) (rooted : Bool) :
    ∀ c ∈ n.written rooted, isBlank c = false := by
  intro c hc
  cases rooted with
  | false => exact n.isName.not_isBlank c hc
  | true =>
    rcases List.mem_cons.mp hc with rfl | hc
    · exact isBlank_backslash
    · exact n.isName.not_isBlank c hc

theorem isClauseChar_written (n : QualifiedName) (rooted : Bool) :
    ∀ c ∈ n.written rooted, isClauseChar c = true := by
  intro c hc
  cases rooted with
  | false => exact isClauseChar_of_isName n.isName c hc
  | true =>
    rcases List.mem_cons.mp hc with rfl | hc
    · rfl
    · exact isClauseChar_of_isName n.isName c hc

/-- A name is not taken for the keyword of a kind. -/
theorem not_isKindWord (n : QualifiedName) (rooted : Bool) :
    isKindWord (n.written rooted) = false := by
  cases rooted with
  | true => exact isKindWord_of_backslash List.mem_cons_self
  | false =>
    obtain ⟨first, others⟩ := n
    cases others with
    | nil =>
      have htext : written false ⟨first, []⟩ = first.text := List.append_nil _
      rw [htext, isKindWord, decide_eq_false_iff_not]
      rintro (hx | hx)
      · exact first.free "function" (by decide) hx
      · exact first.free "const" (by decide) hx
    | cons i others => exact isKindWord_of_backslash (by simp [written, text])

theorem stripLeading_written (n : QualifiedName) (rooted : Bool) :
    stripLeading (String.ofList (n.written rooted)) = String.ofList n.text := by
  cases rooted <;> simp [stripLeading, written, n.isName.stripLeading]

/-- A name is read to its end where it does not go on. -/
theorem qualifiedName?_written (n : QualifiedName) (rooted : Bool) (hrest : nameRest rest = 0)
    (B : List Char) :
    qualifiedName? ⟨B, n.written rooted ++ rest⟩ =
      some ⟨(n.written rooted).reverse ++ B, rest⟩ := by
  refine qualifiedName?_of_isPath ?_ hrest B
  cases rooted with
  | false => exact .inl n.isName
  | true => exact .inr ⟨n.text, rfl, n.isName⟩

end QualifiedName

theorem IsKindKeyword.isClauseChar (h : IsKindKeyword kind k) :
    ∀ c ∈ k, UseImports.isClauseChar c = true := by
  obtain ⟨w, hw, hfold⟩ := h
  cases kind with
  | cls => cases hw
  | function =>
    cases hw
    exact isClauseChar_of_folded (w := "function") (by decide) hfold
  | const =>
    cases hw
    exact isClauseChar_of_folded (w := "const") (by decide) hfold

theorem kindKeyword?_of_kindText (h : KindText (some kind) k) (B rest : List Char) :
    kindKeyword? ⟨B, k ++ rest⟩ = some (kind, skipBlanks ⟨k.reverse ++ B, rest⟩) := by
  cases h with
  | some hk hg hne =>
    rw [List.append_assoc, hk.kindKeyword?_eq hg.isBlank hne]

/-- Where a name stands, no keyword of a kind is read. -/
theorem kindKeyword?_eq_none (hx : ∀ c ∈ x, isBlank c = false ∧ c ≠ ',' ∧ c ≠ '{')
    (hword : isKindWord x = false) (hrest : ∀ c ∈ rest.head?, isBlank c = true ∨ c = ',' ∨ c = '{')
    (B : List Char) : kindKeyword? ⟨B, x ++ rest⟩ = none := by
  by_contra hne
  obtain ⟨⟨kind, d⟩, hread⟩ := Option.ne_none_iff_exists'.mp hne
  obtain ⟨k, g, hk, hgne, hg, htext, -⟩ := kindKeyword?_eq_some hread
  -- both words end at the first character that can be in none of them
  have hcut : ∀ {v w : List Char}, (∀ c ∈ v, isBlank c = false ∧ c ≠ ',' ∧ c ≠ '{') →
      (∀ c ∈ w.head?, isBlank c = true ∨ c = ',' ∨ c = '{') →
      (v ++ w).takeWhile (fun c => !isBlank c && c ≠ ',' && c ≠ '{') = v := by
    intro v w hv hw
    rw [List.takeWhile_append_of_pos fun c hc => by simp [hv c hc]]
    cases w with
    | nil => simp
    | cons c w =>
      have hc := hw c rfl
      rw [List.takeWhile_cons_of_neg, List.append_nil]
      rcases hc with hc | rfl | rfl <;> simp [*]
  have hkx : k = x := by
    rw [← hcut hx hrest, show x ++ rest = k ++ (g ++ d.after) from htext]
    refine (hcut (fun c hc => ⟨hk.not_isBlank c hc, ?_, ?_⟩) fun c hc => .inl ?_).symm
    · rintro rfl
      exact not_mem_of_isClauseChar hk.isClauseChar (by decide) hc
    · rintro rfl
      exact not_mem_of_isClauseChar hk.isClauseChar (by decide) hc
    · rw [List.head?_append_of_ne_nil _ hgne] at hc
      exact hg c (List.mem_of_mem_head? hc)
  rw [← hkx, isKindWord_iff.mpr ⟨kind, hk⟩] at hword
  cases hword

/-! ## Clauses are read as what they say -/

/-- What a clause says, as it is written. -/
def UseClause.content (c : UseClause) : Option ImportKind × List Char × Option (List Char) :=
  (c.kind, c.name.written c.rooted, c.aliasName.map Identifier.text)

/-- What was read off a clause. -/
def Clause.content (c : Clause) : Option ImportKind × List Char × Option (List Char) :=
  (c.kind, c.name, c.aliasName)

theorem nameRest_gap (hg : IsGap g) (hne : g ≠ []) (rest : List Char) :
    nameRest (g ++ rest) = 0 := by
  obtain ⟨c, g, rfl⟩ := List.exists_cons_of_ne_nil hne
  have hc : isBlank c = true := hg.isBlank c List.mem_cons_self
  have hslash : c ≠ '\\' := by
    rintro rfl
    rw [isBlank_backslash] at hc
    cases hc
  rw [List.cons_append, nameRest_cons, isWordChar_of_isBlank hc]
  simp [hslash]

theorem Identifier.head_visible (a : Identifier) :
    ∀ c ∈ a.text.head?, isBlank c = false := fun c hc =>
  isBlank_of_isWordChar (a.isIdent.word c (List.mem_of_mem_head? hc))

variable {a : Option Identifier}

/-- A name with its alias is read. -/
theorem readNamed?_written (n : QualifiedName) (rooted : Bool) (ha : AliasText a t)
    (kind : Option ImportKind) (B : List Char) :
    ∃ clause, readNamed? kind ⟨B, n.written rooted ++ t⟩ = some clause ∧
      clause.content = (kind, n.written rooted, a.map Identifier.text) := by
  cases ha with
  | none =>
    have hread := n.qualifiedName?_written rooted (show nameRest [] = 0 from rfl) B
    rw [List.append_nil] at hread ⊢
    simp [readNamed?, hread, upTo, Clause.content]
  | @some a g k g' hg hne hk hg' hne' =>
    have hread := n.qualifiedName?_written rooted (nameRest_gap hg hne (k ++ (g' ++ a.text))) B
    have hkne : k ≠ [] := by
      rintro rfl
      cases hk
    have hkvisible : ∀ c ∈ (k ++ (g' ++ a.text)).head?, isBlank c = false := by
      intro c hc
      rw [List.head?_append_of_ne_nil _ hkne] at hc
      exact (plain_of_folded (w := "as") (by decide) hk c (List.mem_of_mem_head? hc)).2
    have hkeyword : aliasKeyword? ⟨(n.written rooted).reverse ++ B, g ++ (k ++ (g' ++ a.text))⟩ =
        some ⟨g'.reverse ++ (k.reverse ++ (g.reverse ++ ((n.written rooted).reverse ++ B))),
          a.text⟩ := by
      unfold aliasKeyword?
      rw [blanks?_gap hg.isBlank hne, skipBlanks_of_visible hkvisible]
      simp only [Option.bind_eq_bind, Option.bind_some, folded?_append hk]
      rw [blanks?_gap hg'.isBlank hne', skipBlanks_of_visible a.head_visible]
    have hident := ident?_of_isIdent a.isIdent
      (g'.reverse ++ (k.reverse ++ (g.reverse ++ ((n.written rooted).reverse ++ B))))
    simp [readNamed?, hread, hkeyword, hident, hne, upTo, Clause.content]

theorem KindText.isClauseChar {kind : Option ImportKind} (h : KindText kind k) :
    ∀ c ∈ k, UseImports.isClauseChar c = true := by
  cases h with
  | none => simp
  | some hk hg _ =>
    intro c hc
    exact (List.mem_append.mp hc).elim (hk.isClauseChar c) (isClauseChar_of_gap hg c)

theorem KindText.head_visible {kind : Option ImportKind} (h : KindText kind k)
    (hx : kind = Option.none → ∀ c ∈ x.head?, isBlank c = false) :
    ∀ c ∈ (k ++ x).head?, isBlank c = false := by
  cases h with
  | none => exact hx rfl
  | some hk _ _ =>
    intro c hc
    rw [List.append_assoc, List.head?_append_of_ne_nil _ hk.ne_nil] at hc
    exact hk.not_isBlank c (List.mem_of_mem_head? hc)

theorem AliasText.isClauseChar (h : AliasText a t) : ∀ c ∈ t, UseImports.isClauseChar c = true := by
  cases h with
  | none => simp
  | @some a g k g' hg _ hk hg' _ =>
    intro c hc
    simp only [List.mem_append] at hc
    rcases hc with hc | hc | hc | hc
    · exact isClauseChar_of_gap hg c hc
    · exact isClauseChar_of_folded (w := "as") (by decide) hk c hc
    · exact isClauseChar_of_gap hg' c hc
    · exact isClauseChar_of_isName a.isIdent.isName c hc

theorem AliasText.head_blank (h : AliasText a t)
    (hx : ∀ c ∈ x.head?, isBlank c = true ∨ c = ',' ∨ c = '{') :
    ∀ c ∈ (t ++ x).head?, isBlank c = true ∨ c = ',' ∨ c = '{' := by
  cases h with
  | none => exact hx
  | some hg hne _ _ _ =>
    intro c hc
    rw [List.append_assoc, List.head?_append_of_ne_nil _ hne] at hc
    exact .inl (hg.isBlank c (List.mem_of_mem_head? hc))

theorem QualifiedName.head_visible (n : QualifiedName) (rooted : Bool) (x : List Char) :
    ∀ c ∈ (n.written rooted ++ x).head?, isBlank c = false := by
  intro c hc
  rw [List.head?_append_of_ne_nil _ (n.written_ne_nil rooted)] at hc
  exact n.not_isBlank rooted c (List.mem_of_mem_head? hc)

/-- A name is followed by no keyword of a kind. -/
theorem QualifiedName.kindKeyword?_written (n : QualifiedName) (rooted : Bool) (ha : AliasText a t)
    (hx : ∀ c ∈ x.head?, isBlank c = true ∨ c = ',' ∨ c = '{') (B : List Char) :
    kindKeyword? ⟨B, n.written rooted ++ (t ++ x)⟩ = none := by
  refine kindKeyword?_eq_none (fun c hc =>
    ⟨n.not_isBlank rooted c hc, ?_, ?_⟩) (n.not_isKindWord rooted) (ha.head_blank hx) B
  · rintro rfl
    exact not_mem_of_isClauseChar (n.isClauseChar_written rooted) (by decide) hc
  · rintro rfl
    exact not_mem_of_isClauseChar (n.isClauseChar_written rooted) (by decide) hc

/-- The front of a group begins with no keyword of a kind. -/
theorem QualifiedName.kindKeyword?_front (n : QualifiedName) (rooted : Bool) (hg : IsGap g)
    (x B : List Char) : kindKeyword? ⟨B, n.written rooted ++ '\\' :: (g ++ '{' :: x)⟩ = none := by
  have hchar : ∀ c ∈ n.written rooted ++ ['\\'], isClauseChar c = true ∧ isBlank c = false := by
    intro c hc
    rcases List.mem_append.mp hc with hc | hc
    · exact ⟨n.isClauseChar_written rooted c hc, n.not_isBlank rooted c hc⟩
    · rw [List.mem_singleton.mp hc]
      exact ⟨rfl, isBlank_backslash⟩
  rw [show n.written rooted ++ '\\' :: (g ++ '{' :: x) =
    (n.written rooted ++ ['\\']) ++ (g ++ '{' :: x) by simp]
  refine kindKeyword?_eq_none (fun c hc => ⟨(hchar c hc).2, ?_, ?_⟩)
    (isKindWord_of_backslash (List.mem_append_right _ List.mem_cons_self)) ?_ B
  · rintro rfl
    exact not_mem_of_isClauseChar (fun c hc => (hchar c hc).1) (by decide) hc
  · rintro rfl
    exact not_mem_of_isClauseChar (fun c hc => (hchar c hc).1) (by decide) hc
  · intro c hc
    cases g with
    | nil => exact .inr (.inr (Option.some.inj hc).symm)
    | cons y g => exact .inl (Option.some.inj hc ▸ hg.isBlank y List.mem_cons_self)

namespace ClauseText

variable {c : UseClause}

theorem isClauseChar (h : ClauseText c t) : ∀ x ∈ t, UseImports.isClauseChar x = true := by
  cases h with
  | mk hk ha =>
    intro x hx
    simp only [List.mem_append] at hx
    rcases hx with hx | hx | hx
    · exact hk.isClauseChar x hx
    · exact c.name.isClauseChar_written c.rooted x hx
    · exact ha.isClauseChar x hx

theorem ne_nil (h : ClauseText c t) : t ≠ [] := by
  cases h with
  | mk _ _ => simp [c.name.written_ne_nil]

/-- A clause has no white space at its ends. -/
theorem trimmed (h : ClauseText c t) : Trimmed t := by
  cases h with
  | @mk k a hk ha =>
    refine ⟨hk.head_visible fun _ => c.name.head_visible c.rooted a, fun x hx => ?_⟩
    -- the last character is one of the alias or of the name
    cases hal : c.aliasName with
    | none =>
      rw [hal] at ha
      cases ha
      rw [List.append_nil, List.getLast?_append_of_ne_nil _ (c.name.written_ne_nil c.rooted)] at hx
      exact c.name.not_isBlank c.rooted x (List.mem_of_getLast? hx)
    | some b =>
      rw [hal] at ha
      cases ha with
      | @some _ g w g' _ _ _ _ _ =>
        have hb := b.isIdent.isName
        have htext : k ++ (c.name.written c.rooted ++ (g ++ (w ++ (g' ++ b.text)))) =
            (k ++ (c.name.written c.rooted ++ (g ++ (w ++ g')))) ++ b.text := by
          simp only [List.append_assoc]
        rw [htext, List.getLast?_append_of_ne_nil _ hb.ne_nil] at hx
        exact hb.not_isBlank x (List.mem_of_getLast? hx)

end ClauseText

/-- **A clause is read as what it says.** -/
theorem readClause?_of_clauseText {c : UseClause} (h : ClauseText c t) :
    ∃ clause, readClause? t = some clause ∧ clause.content = c.content := by
  cases h with
  | @mk k a hk ha =>
    unfold readClause?
    dsimp only
    cases hkind : c.kind with
    | none =>
      rw [hkind] at hk
      cases hk
      obtain ⟨clause, hread, hcontent⟩ := readNamed?_written c.name c.rooted ha none []
      have hnone := c.name.kindKeyword?_written c.rooted (x := []) ha (by simp) []
      rw [List.append_nil] at hnone
      refine ⟨clause, ?_, by rw [hcontent, UseClause.content, hkind]⟩
      rw [List.nil_append, atStart, hnone]
      exact hread
    | some kind =>
      rw [hkind] at hk
      obtain ⟨clause, hread, hcontent⟩ :=
        readNamed?_written c.name c.rooted ha (some kind) (k.reverse ++ [])
      have hkeyword := kindKeyword?_of_kindText hk [] (c.name.written c.rooted ++ a)
      rw [skipBlanks_of_visible (c.name.head_visible c.rooted a)] at hkeyword
      refine ⟨clause, ?_, by rw [hcontent, UseClause.content, hkind]⟩
      rw [atStart, hkeyword, Option.bind_some]
      dsimp only
      rw [hread]

theorem ListEnd.mem (h : ListEnd e) : ∀ y ∈ e, isClauseChar y = true ∨ y = ',' := by
  cases h with
  | none => simp
  | comma hg =>
    exact fun y hy => (List.mem_cons.mp hy).elim .inr fun hy => .inl (isClauseChar_of_gap hg y hy)

namespace ClauseList

variable {cs : List UseClause}

/-- White space may stand in front of a list. -/
theorem gap (hg : IsGap g) (h : ClauseList cs t) : ClauseList cs (g ++ t) := by
  cases h with
  | last hg' hc hback =>
    rw [← List.append_assoc]
    exact .last (hg.append hg') hc hback
  | cons hg' hc hback hrest =>
    rw [← List.append_assoc, ← List.append_assoc]
    exact .cons (hg.append hg') hc hback hrest

/-- The white space in front of a list may be left out. -/
theorem dropBlanks (h : ClauseList cs t) : ClauseList cs (t.dropWhile isBlank) := by
  have hdrop : ∀ {c : UseClause} {g x y : List Char}, IsGap g → ClauseText c x →
      (g ++ (x ++ y)).dropWhile isBlank = [] ++ (x ++ y) := by
    intro c g x y hg hx
    rw [List.dropWhile_append_of_pos hg.isBlank, List.nil_append]
    refine dropWhile_of_head fun a ha => hx.trimmed.first a ?_
    rwa [List.head?_append_of_ne_nil _ hx.ne_nil] at ha
  cases h with
  | last hg hc hback =>
    rw [hdrop hg hc]
    exact .last isGap_nil hc hback
  | @cons c cs g x g' rest hg hc hback hrest =>
    have htext : g ++ (x ++ g') ++ ',' :: rest = g ++ (x ++ (g' ++ ',' :: rest)) := by simp
    rw [htext, hdrop hg hc, ← List.append_assoc, ← List.append_assoc, List.append_assoc []]
    exact .cons isGap_nil hc hback hrest

theorem padded_isClauseChar {c : UseClause} (hg : IsGap g) (hx : ClauseText c x) (hg' : IsGap g') :
    ∀ y ∈ g ++ (x ++ g'), isClauseChar y = true := by
  intro y hy
  simp only [List.mem_append] at hy
  rcases hy with hy | hy | hy
  · exact isClauseChar_of_gap hg y hy
  · exact hx.isClauseChar y hy
  · exact isClauseChar_of_gap hg' y hy

/-- A list is made of clause characters and commas. -/
theorem mem (h : ClauseList cs t) : ∀ y ∈ t, isClauseChar y = true ∨ y = ',' := by
  induction h with
  | last hg hc hback => exact fun y hy => .inl (padded_isClauseChar hg hc hback y hy)
  | cons hg hc hback _ ih =>
    intro y hy
    rcases List.mem_append.mp hy with hy | hy
    · exact .inl (padded_isClauseChar hg hc hback y hy)
    · exact (List.mem_cons.mp hy).elim .inr (ih y)

/-- The first clause of a list, with the list that it begins without its kind. -/
theorem split_first {c : UseClause} (h : ClauseList (c :: cs) t) :
    ∃ g k a rest, IsGap g ∧ KindText c.kind k ∧ AliasText c.aliasName a ∧
      t = g ++ (k ++ (c.name.written c.rooted ++ (a ++ rest))) ∧
      (∀ x ∈ rest.head?, isBlank x = true ∨ x = ',') ∧
      ClauseList ({ c with kind := none } :: cs) (c.name.written c.rooted ++ (a ++ rest)) := by
  have hunkinded : ∀ {a : List Char}, AliasText c.aliasName a →
      ClauseText { c with kind := none } ([] ++ (c.name.written c.rooted ++ a)) :=
        fun ha => .mk .none ha
  cases h with
  | @last _ g _ g' hg hc hg' =>
    cases hc with
    | @mk k a hk ha =>
      refine ⟨g, k, a, g', hg, hk,
        ha, by simp, fun x hx => .inl (hg'.isBlank x (List.mem_of_mem_head? hx)), ?_⟩
      rw [← List.append_assoc (c.name.written c.rooted)]
      exact .last isGap_nil (hunkinded ha) hg'
  | @cons _ _ g _ g' rest hg hc hg' hrest =>
    cases hc with
    | @mk k a hk ha =>
      refine ⟨g, k, a, g' ++ ',' :: rest, hg, hk, ha, by simp, ?_, ?_⟩
      · intro x hx
        cases g' with
        | nil => exact .inr (Option.some.inj hx).symm
        | cons y g' => exact .inl (Option.some.inj hx ▸ hg'.isBlank y List.mem_cons_self)
      · rw [← List.append_assoc (c.name.written c.rooted), ← List.append_assoc]
        exact .cons isGap_nil (hunkinded ha) hg' hrest

theorem readClauses?_end (he : ListEnd e) (offset : Nat) {p : List Char} (hp : ',' ∉ p)
    {clause : Clause} (hne : (trim p).isEmpty = false) (hread : readClause? (trim p) = some clause)
    :
    readClauses? offset (p ++ e) = some [(offset + byteLength (p.takeWhile isBlank), clause)] := by
  cases he with
  | none =>
    rw [List.append_nil, readClauses?_last hp, hne, hread]
    rfl
  | @comma g hg =>
    have hcomma : ',' ∉ g := not_mem_of_isClauseChar (isClauseChar_of_gap hg) (by decide)
    rw [readClauses?_comma hp, hne, hread, readClauses?_last hcomma, trim_of_isBlank hg.isBlank]
    rfl

/-- **The clauses of a list are read as what they say**, also with a comma behind the last one. -/
theorem exists_read (h : ClauseList cs t) (he : ListEnd e) (offset : Nat) :
    ∃ clauses, readClauses? offset (t ++ e) = some clauses ∧
      clauses.map (fun clause => clause.2.content) = cs.map UseClause.content := by
  have hpiece : ∀ {c : UseClause} {g x g' : List Char}, IsGap g → ClauseText c x → IsGap g' →
      ',' ∉ g ++ (x ++ g') ∧ trim (g ++ (x ++ g')) = x ∧ x.isEmpty = false := by
    intro c g x g' hg hx hg'
    refine ⟨not_mem_of_isClauseChar (padded_isClauseChar hg hx hg') (by decide),
      trim_append hg.isBlank hx.trimmed hg'.isBlank, ?_⟩
    simpa using hx.ne_nil
  induction h generalizing offset with
  | @last c g x g' hg hx hg' =>
    obtain ⟨hcomma, htrim, hne⟩ := hpiece hg hx hg'
    obtain ⟨clause, hread, hcontent⟩ := readClause?_of_clauseText hx
    refine ⟨_, readClauses?_end he offset hcomma (by rw [htrim, hne]) (by rw [htrim, hread]), ?_⟩
    simp [hcontent]
  | @cons c cs g x g' rest hg hx hg' _ ih =>
    obtain ⟨hcomma, htrim, hne⟩ := hpiece hg hx hg'
    obtain ⟨clause, hread, hcontent⟩ := readClause?_of_clauseText hx
    obtain ⟨clauses, hclauses, hcontents⟩ := ih (offset + byteLength (g ++ (x ++ g')) + 1)
    refine ⟨(offset + byteLength ((g ++ (x ++ g')).takeWhile isBlank), clause) :: clauses, ?_, ?_⟩
    · rw [List.append_assoc, List.cons_append, readClauses?_comma hcomma, htrim, hne,
        hread, hclauses]
      rfl
    · rw [List.map_cons, List.map_cons, hcontents, hcontent]

end ClauseList

/-! ## Bodies are read as what they say -/

/-- The declarations of a list of names. -/
theorem ClauseList.meanings_readSequence {cs : List UseClause} (h : ClauseList cs t)
    (doc : Document) (head : StatementHead) (offset : Nat) :
    (readSequence doc head offset t).map Declaration.meaning = cs.map
    (UseClause.meaning head.kind []) := by
  obtain ⟨clauses, hread, hcontents⟩ := h.exists_read .none offset
  rw [List.append_nil] at hread
  have hmeanings := congrArg (List.map fun c : Option ImportKind × List Char × Option (List Char) =>
    (stripLeading (String.ofList c.2.1), c.2.2.map String.ofList, c.1.getD head.kind)) hcontents
  unfold readSequence
  rw [hread]
  dsimp only
  rw [List.map_map]
  rw [List.map_map, List.map_map] at hmeanings
  refine hmeanings.trans (List.map_congr_left fun c _ => ?_)
  simp [UseClause.content, UseClause.meaning, QualifiedName.stripLeading_written, Function.comp_def]

/-- The front of a group is a name. -/
theorem groupName?_written (n : QualifiedName) (rooted : Bool) (hg : IsGap g) (hg' : IsGap g') :
    groupName? (g ++ (n.written rooted ++ '\\' :: g')) = some n.text := by
  have htrim : trim (g ++ (n.written rooted ++ '\\' :: g')) = n.written rooted ++ ['\\'] := by
    have hvisible : ∀ c ∈ n.written rooted ++ ['\\'], isBlank c = false := by
      intro c hc
      rcases List.mem_append.mp hc with hc | hc
      · exact n.not_isBlank rooted c hc
      · rw [List.mem_singleton.mp hc, isBlank_backslash]
    have := trim_append hg.isBlank (trimmed_of_not_isBlank hvisible) hg'.isBlank
    rwa [List.append_assoc, List.singleton_append] at this
  have hfront : (n.written rooted ++ ['\\']).dropWhile (· == '\\') = n.text ++ ['\\'] := by
    have hne : n.text.isEmpty = false := by simpa using n.isName.ne_nil
    have hdrop : (n.text ++ ['\\']).dropWhile (· == '\\') = n.text ++ ['\\'] := by
      rw [List.dropWhile_append, n.isName.stripLeading, hne, if_neg Bool.false_ne_true]
    cases rooted with
    | false => exact hdrop
    | true => exact hdrop
  have hback : dropEndWhile (· == '\\') (n.text ++ ['\\']) = n.text := by
    have hlast : n.text.reverse.dropWhile (· == '\\') = n.text.reverse := by
      have hne := n.isName.getLast?_ne
      rw [← List.head?_reverse] at hne
      cases hrev : n.text.reverse with
      | nil => rfl
      | cons c cs =>
        rw [hrev] at hne
        rw [List.dropWhile_cons_of_neg (by simpa using hne)]
    simp [dropEndWhile, hlast]
  have hread := qualifiedName?_of_isName n.isName (show nameRest [] = 0 from rfl) []
  rw [List.append_nil] at hread
  unfold groupName?
  dsimp only
  rw [htrim, hfront, hback, atStart, hread]
  rfl

/-- The declarations of a group. -/
theorem Members.meanings_readGroup (members : Members) (h : ClauseList members.clauses t)
    (he : ListEnd e) (n : QualifiedName) (rooted : Bool) (hg : IsGap g) (hg' : IsGap g')
    (doc : Document) (head : StatementHead) (offset : Nat) :
    (readGroup doc head offset (g ++ (n.written rooted ++ '\\' :: g')) (t ++ e)).map
      Declaration.meaning =
      members.clauses.map (UseClause.meaning head.kind (n.text ++ ['\\'])) := by
  obtain ⟨clauses, hread, hcontents⟩ :=
    h.exists_read he (offset + byteLength (g ++ (n.written rooted ++ '\\' :: g')) + 1)
  have hunrooted : ∀ c ∈ members.clauses, c.name.written c.rooted = c.name.text := by
    intro c hc
    rw [members.unrooted c hc]
    rfl
  have hany : (clauses.any fun clause => clause.2.name.head? == some '\\') = false := by
    rw [List.any_eq_false]
    intro clause hclause
    have hmem : clause.2.content ∈ members.clauses.map UseClause.content :=
      hcontents ▸ List.mem_map_of_mem (f := fun clause : Nat × Clause => clause.2.content) hclause
    obtain ⟨c, hc, heq⟩ := List.mem_map.mp hmem
    have hname : clause.2.name = c.name.text := by
      rw [← hunrooted c hc]
      exact (congrArg (fun content => content.2.1) heq).symm
    rw [hname]
    simpa using c.name.isName.head?_ne
  have hmeanings := congrArg (List.map fun c : Option ImportKind × List Char × Option (List Char) =>
    (String.ofList (n.text ++ '\\' :: c.2.1), c.2.2.map String.ofList,
      c.1.getD head.kind)) hcontents
  unfold readGroup
  rw [groupName?_written n rooted hg hg', hread]
  dsimp only
  rw [hany, if_neg Bool.false_ne_true, List.map_map]
  rw [List.map_map, List.map_map] at hmeanings
  refine hmeanings.trans (List.map_congr_left fun c hc => ?_)
  simp [UseClause.content, UseClause.meaning, hunrooted c hc, Function.comp_def]

/-- A kind at the start of a statement is that of the statement. -/
theorem statementStart_of_kindText (hg : IsGap g) (hk : KindText (some kind) k) (rest : List Char) :
    statementStart (g ++ (k ++ rest)) =
      (kind, skipBlanks ⟨k.reverse ++ (g.reverse ++ []), rest⟩) := by
  rw [statementStart, atStart, skipBlanks_gap hg.isBlank,
    skipBlanks_of_visible (hk.head_visible fun h => absurd h (by simp)),
    kindKeyword?_of_kindText hk]
  rfl

theorem statementStart_eq_cls (hg : IsGap g) (hx : ∀ c ∈ x.head?, isBlank c = false)
    (hnone : ∀ B, kindKeyword? ⟨B, x⟩ = none) :
    statementStart (g ++ x) = (.cls, atStart (g ++ x)) := by
  rw [statementStart, atStart, skipBlanks_gap hg.isBlank, skipBlanks_of_visible hx, hnone]
  rfl

section ReadBody

variable {doc : Document} {statement : Span} {offset : Nat} {start : Cursor}

theorem takeWhile_ne_of_not_mem {x : Char} {a : List Char} (h : x ∉ a) (b : List Char) :
    (a ++ x :: b).takeWhile (· ≠ x) = a ∧ (a ++ x :: b).dropWhile (· ≠ x) = x :: b := by
  have hall : ∀ c ∈ a, decide (c ≠ x) = true := fun c hc => by
    rw [decide_eq_true_eq]
    rintro rfl
    exact h hc
  constructor
  · rw [List.takeWhile_append_of_pos hall]
    simp
  · rw [List.dropWhile_append_of_pos hall]
    simp

/-- A body without braces is a list of names. -/
theorem readBody_of_sequence (hstart : statementStart body = (kind, start))
    (hbrace : '{' ∉ start.after) :
    doc.readBody statement offset body =
      readSequence doc ⟨statement, kind⟩ (offset + start.offset) start.after := by
  have hall : start.after.takeWhile (· ≠ '{') = start.after :=
    List.takeWhile_eq_self_iff.mpr fun c hc => by
      rw [decide_eq_true_eq]
      rintro rfl
      exact hbrace hc
  dsimp only [Document.readBody]
  rw [hstart, hall, List.drop_length]

/-- A body with one pair of braces at its end is a group. -/
theorem readBody_of_group {front inner tail : List Char}
    (hstart : statementStart body = (kind, start))
    (hafter : start.after = front ++ '{' :: (inner ++ '}' :: tail)) (hfront : '{' ∉ front)
    (hinner : '}' ∉ inner) (htail : ∀ c ∈ tail, isBlank c = true) :
    doc.readBody statement offset body =
      readGroup doc ⟨statement, kind⟩ (offset + start.offset) front inner := by
  obtain ⟨htake, hdrop⟩ := takeWhile_ne_of_not_mem hfront (inner ++ '}' :: tail)
  obtain ⟨htake', hdrop'⟩ := takeWhile_ne_of_not_mem hinner tail
  dsimp only [Document.readBody]
  rw [hstart]
  dsimp only
  rw [drop_length_takeWhile, hafter, htake, hdrop]
  dsimp only
  rw [drop_length_takeWhile, htake', hdrop']
  dsimp only
  rw [trim_of_isBlank htail]
  rfl

/-- The declarations of a list of names behind the start of a statement. -/
theorem ClauseList.meanings_readBody {cs : List UseClause}
    (hstart : statementStart body = (kind, start)) (h : ClauseList cs start.after) :
    (doc.readBody statement offset body).map Declaration.meaning = cs.map
    (UseClause.meaning kind []) := by
  have hbrace : '{' ∉ start.after := by
    intro hmem
    rcases h.mem '{' hmem with hc | hc
    · rw [not_isClauseChar (by decide)] at hc
      cases hc
    · cases hc
  rw [readBody_of_sequence hstart hbrace]
  exact h.meanings_readSequence doc ⟨statement, kind⟩ _

/-- The declarations of a group behind the start of a statement. -/
theorem Members.meanings_readBody {members : Members} {front : QualifiedName} {rooted : Bool}
    {g'' : List Char} (hstart : statementStart body = (kind, start)) (hafter : start.after =
      g ++ (front.written rooted ++ '\\' :: (g' ++ '{' :: (t ++ (e ++ '}' :: g''))))) (hg : IsGap g)
    (hg' : IsGap g') (ht : ClauseList members.clauses t) (he : ListEnd e) (hg'' : IsGap g'') :
    (doc.readBody statement offset body).map Declaration.meaning =
      members.clauses.map (UseClause.meaning kind (front.text ++ ['\\'])) := by
  have hfront : '{' ∉ g ++ (front.written rooted ++ '\\' :: g') := by
    refine not_mem_of_isClauseChar (fun c hc => ?_) (by decide)
    simp only [List.mem_append, List.mem_cons] at hc
    rcases hc with hc | hc | rfl | hc
    · exact isClauseChar_of_gap hg c hc
    · exact front.isClauseChar_written rooted c hc
    · rfl
    · exact isClauseChar_of_gap hg' c hc
  have hinner : '}' ∉ t ++ e := by
    intro hmem
    have hchar : isClauseChar '}' = true ∨ '}' = ',' :=
      (List.mem_append.mp hmem).elim (ht.mem '}') (he.mem '}')
    rcases hchar with hc | hc
    · cases hc
    · cases hc
  have hsplit : start.after =
      (g ++ (front.written rooted ++ '\\' :: g')) ++ '{' :: ((t ++ e) ++ '}' :: g'') := by
    rw [hafter]
    simp
  rw [readBody_of_group hstart hsplit hfront hinner hg''.isBlank]
  exact members.meanings_readGroup ht he front rooted hg hg' doc ⟨statement, kind⟩ _

end ReadBody

/-- **The body of a statement is read as what it says.** -/
theorem BodyText.meanings_readBody {s : UseStatement} (h : BodyText s body) (doc : Document)
    (statement : Span) (offset : Nat) :
    (doc.readBody statement offset body).map Declaration.meaning = s.meanings := by
  cases h with
  | @clauses kind first others g k t hg hk ht =>
    cases kind with
    | some kind =>
      exact ClauseList.meanings_readBody (statementStart_of_kindText hg hk t) ht.dropBlanks
    | none =>
      cases hk
      obtain ⟨g', k, a, rest, hg', hk, ha, rfl, hrest, hlist⟩ := ht.split_first
      have hgap : IsGap (g ++ g') := hg.append hg'
      rw [List.nil_append, ← List.append_assoc]
      cases hkind : first.kind with
      | some kind =>
        -- the kind of the first clause is taken for that of the statement
        rw [hkind] at hk
        have hstart :=
          statementStart_of_kindText hgap hk (first.name.written first.rooted ++ (a ++ rest))
        rw [ClauseList.meanings_readBody hstart hlist.dropBlanks]
        simp [UseStatement.meanings, UseStatement.meaningsWith, UseStatement.sharedKind,
          UseClause.meaning, hkind]
      | none =>
        rw [hkind] at hk
        cases hk
        have hstart := statementStart_eq_cls hgap (first.name.head_visible first.rooted (a ++ rest))
          fun B => first.name.kindKeyword?_written first.rooted ha (fun c hc =>
            (hrest c hc).imp_right .inl) B
        have hall : ClauseList (first :: others)
            ((g ++ g') ++ (first.name.written first.rooted ++ (a ++ rest))) := by
          have hsame : { first with kind := none } = first := by rw [← hkind]
          exact hsame ▸ hlist.gap hgap
        rw [List.nil_append, ClauseList.meanings_readBody hstart hall]
        simp [UseStatement.meanings, UseStatement.meaningsWith, UseStatement.sharedKind, hkind]
  | @group kind rooted front members g k g' t e g'' hg hk hg' ht he hg'' =>
    have hvisible := front.head_visible rooted ('\\' :: (g' ++ '{' :: (t ++ (e ++ '}' :: g''))))
    cases kind with
    | some kind =>
      exact Members.meanings_readBody (g := []) (statementStart_of_kindText hg hk _)
        (dropWhile_of_head hvisible)
        isGap_nil hg' ht he hg''
    | none =>
      cases hk
      have hnone := front.kindKeyword?_front rooted hg' (t ++ (e ++ '}' :: g''))
      exact Members.meanings_readBody (statementStart_eq_cls hg hvisible hnone) rfl
        hg hg' ht he hg''

end UseImports
