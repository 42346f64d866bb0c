import UseImports.Proofs.Code.Imports

/-!
# Runs of import statements

A run is a piece of code that is made of import statements and white space. All that is ever taken
out of a text, put into it or moved around in it is such a run, and the code around a run does not
see what it is. One statement that imports nothing counts with them: `use const as B;`, which has no
name.

* `StatementAt`, `IsStatement`: a piece of code that is one import statement.
* `NamelessAt`, `IsNameless`: a piece of code that is one statement without a name.
* `Run`: white space and statements of both kinds.
* `Run.importPlace`: a code can be cut behind a run.
-/

namespace UseImports

open Placed Cursor

variable {inBraces sawName : Bool} {c : Char} {body cs p s w x : List Char} {n o : Nat}
    {stop : Cursor}

/-! ## Statements -/

/-- The code `s` reaches from a `use` that ends at `stop` to the semicolon of its statement, and
`body` is what stands between them. -/
structure StatementText (s body : List Char) (stop : Cursor) : Prop where
  keyword : (atStart s).useKeyword? = some ((atStart s, stop), stop)
  after : stop.after = body ++ [';']
  length : statementLength? false false stop.after = some body.length

/-- The code `s` is one import statement: all its imports are those of its first keyword. -/
structure StatementAt (s body : List Char) (stop : Cursor) :
    Prop extends StatementText s body stop where
  imports : imports s = statementImports (atStart s) stop
  ne_nil : UseImports.imports s ≠ []

/-- The code is one import statement. -/
def IsStatement (s : List Char) : Prop :=
  ∃ body stop, StatementAt s body stop

theorem braceStep_of_scanStep {state : Bool × Bool} (h : scanStep inBraces sawName c = some state)
    (opens mark : Bool) (braces : List Bool) :
    ∃ mark', braceStep opens (if inBraces then mark :: braces else braces) c =
      if state.1 then mark' :: braces else braces := by
  unfold scanStep at h
  unfold braceStep
  by_cases hsemi : c = ';'
  · simp [hsemi] at h
  by_cases hopen : c = '{'
  · subst hopen
    cases inBraces with
    | true => simp at h
    | false =>
      simp only [Char.reduceEq, if_false, if_true, Bool.false_eq_true, Option.some.injEq] at h
      subst h
      exact ⟨opens, by simp⟩
  by_cases hclose : c = '}'
  · subst hclose
    cases inBraces with
    | false => simp at h
    | true =>
      simp only [Char.reduceEq, if_false, if_true, Option.some.injEq] at h
      subst h
      exact ⟨mark, by simp⟩
  · have hstate : state.1 = inBraces := by
      simp only [hsemi, hopen, hclose, if_false] at h
      split at h
      · cases h; rfl
      · split at h
        · cases h; rfl
        · cases h
    exact ⟨mark, by simp [hopen, hclose, hstate]⟩

/-- The scan of a statement leaves the braces as they were. -/
theorem openBraces_take (opens : Nat → Bool) (h : statementLength? inBraces sawName cs = some n)
    (offset : Nat) (mark : Bool) (braces : List Bool) :
    openBraces opens offset (if inBraces then mark :: braces else braces) (cs.take n) = braces := by
  induction cs generalizing inBraces sawName n offset mark with
  | nil => simp [statementLength?] at h
  | cons c cs ih =>
    rcases statementLength?_cases h with ⟨-, rfl, rfl⟩ | ⟨state, m, hstep, hm, rfl⟩
    · rfl
    · rw [List.take_succ_cons, openBraces_cons]
      obtain ⟨mark', hmark⟩ := braceStep_of_scanStep hstep (opens offset) mark braces
      rw [hmark]
      exact ih hm _ _

theorem openBraces_of_plain {opens : Nat → Bool} {a : List Char}
    (h : ∀ c ∈ a, c ≠ '{' ∧ c ≠ '}') (offset : Nat) (braces : List Bool) :
    openBraces opens offset braces a = braces := by
  induction a generalizing offset with
  | nil => rfl
  | cons c a ih =>
    obtain ⟨hopen, hclose⟩ := h c List.mem_cons_self
    rw [openBraces_cons, braceStep, if_neg hopen, if_neg hclose]
    exact ih (fun d hd => h d (List.mem_cons_of_mem c hd)) _

namespace StatementText

/-- The keyword, the body and the semicolon. -/
theorem split (h : StatementText s body stop) :
    ∃ w, w.length = 3 ∧ w.map foldLetter = ['u', 's', 'e'] ∧ s = w ++ (body ++ [';']) ∧
      stop = ⟨w.reverse, body ++ [';']⟩ := by
  obtain ⟨-, -, -, -, w, hlen, hw, hafter, hbefore⟩ := useKeyword?_eq_some h.keyword
  refine ⟨w, hlen, hw, ?_, ?_⟩
  · rw [h.after] at hafter
    exact hafter
  · have hb : stop.before = w.reverse := by simpa [atStart] using hbefore
    rw [← hb, ← h.after]

theorem stopped (h : StatementText s body stop) : Stopped s := by
  obtain ⟨w, -, -, rfl, -⟩ := h.split
  exact stopped_iff.mpr ⟨w ++ body, ';', by simp, by decide⟩

theorem statementBody (h : StatementText s body stop) : statementBody? stop = some body := by
  unfold statementBody?
  rw [h.length, h.after]
  simp

/-- The statement is the whole code. -/
theorem span_eq (h : StatementText s body stop) :
    (⟨(atStart s).offset, stop.offset + byteLength body + 1⟩ : Span) = ⟨0, byteLength s⟩ := by
  obtain ⟨w, -, -, rfl, rfl⟩ := h.split
  have hsemi : (';' : Char).utf8Size = 1 := by decide
  simp [offset, atStart, hsemi, Nat.add_assoc]

/-- The keyword has no braces. -/
theorem not_brace (hw : w.map foldLetter = ['u', 's', 'e']) : ∀ c ∈ w, c ≠ '{' ∧ c ≠ '}' := by
  intro c hc
  have hmem : foldLetter c ∈ ['u', 's', 'e'] := hw ▸ List.mem_map_of_mem hc
  constructor
  · rintro rfl
    exact absurd hmem (by decide)
  · rintro rfl
    exact absurd hmem (by decide)

/-- A statement leaves the braces as they were. -/
theorem openBraces_eq (h : StatementText s body stop) (opens : Nat → Bool) (offset : Nat)
    (braces : List Bool) : openBraces opens offset braces s = braces := by
  obtain ⟨w, -, hw, rfl, -⟩ := h.split
  have hscan := h.length
  rw [h.after] at hscan
  have hbody := openBraces_take opens hscan (offset + byteLength w) false braces
  simp only [Bool.false_eq_true, if_false, List.take_left'] at hbody
  rw [openBraces_append, openBraces_of_plain (not_brace hw), openBraces_append, hbody]
  rfl

/-- The semicolon stands behind every keyword of the statement. -/
theorem semicolon_mem (h : StatementText s body stop) {k t : Cursor} (hmem : (k, t) ∈ useStarts s) :
    ';' ∈ t.after := by
  obtain ⟨hk, hreach⟩ := mem_useStarts hmem
  obtain ⟨-, -, -, -, v, -, hv, hafter, -⟩ := useKeyword?_eq_some hk
  obtain ⟨w, -, -, hs, -⟩ := h.split
  have hlast : (k.before.reverse ++ (v ++ t.after)).getLast? = some ';' := by
    rw [← hafter, ← hreach.text_eq, hs, ← List.append_assoc]
    simp
  rw [List.getLast?_append, List.getLast?_append] at hlast
  cases ht : t.after.getLast? with
  | some c =>
    rw [ht] at hlast
    simp only [Option.some_or, Option.some.injEq] at hlast
    exact hlast ▸ List.mem_of_getLast? ht
  | none =>
    -- a keyword that ends the text would end in a semicolon
    exfalso
    rw [ht, Option.none_or] at hlast
    cases hvl : v.getLast? with
    | none =>
      rw [List.getLast?_eq_none_iff.mp hvl] at hv
      simp at hv
    | some c =>
      rw [hvl] at hlast
      simp only [Option.some_or, Option.some.injEq] at hlast
      subst hlast
      have : foldLetter ';' ∈ ['u', 's', 'e'] := hv ▸ List.mem_map_of_mem (List.mem_of_getLast? hvl)
      exact absurd this (by decide)

theorem importPlace (h : StatementText s body stop) : ImportPlace s where
  opens := h.stopped.opens
  level := by
    unfold importLevel bracesAt
    rw [h.openBraces_eq]
    rfl
  finished k t hmem _ := scanState_of_mem (h.semicolon_mem hmem)

end StatementText

/-- The declarations of a statement have the whole statement as theirs. -/
theorem StatementAt.statement_eq (h : StatementAt s body stop) {d : Declaration}
    (hd : d ∈ UseImports.imports s) : d.statement = ⟨0, byteLength s⟩ := by
  rw [h.imports, statementImports_eq, h.statementBody] at hd
  rw [statement_of_mem_readBody hd, h.span_eq]

theorem IsStatement.importPlace (h : IsStatement s) : ImportPlace s := by
  obtain ⟨body, stop, h⟩ := h
  exact h.importPlace

/-- Every character of a body is one that goes on a statement. -/
theorem scanStep_of_mem_take (h : statementLength? inBraces sawName cs = some n)
    (hc : c ∈ cs.take n) : ∃ b s state, scanStep b s c = some state := by
  induction cs generalizing inBraces sawName n with
  | nil => simp at hc
  | cons x cs ih =>
    rcases statementLength?_cases h with ⟨-, -, rfl⟩ | ⟨state, m, hstep, hm, rfl⟩
    · cases hc
    · rcases List.mem_cons.mp hc with rfl | hc
      · exact ⟨inBraces, sawName, state, hstep⟩
      · exact ih hm hc

/-- A character that neither goes on a statement nor is a letter of its keyword stands in none. -/
theorem StatementText.not_mem (h : StatementText s body stop) (hscan : ∀ b n, scanStep b n c = none)
    (hfold : foldLetter c ∉ ['u', 's', 'e']) (hsemi : c ≠ ';') : c ∉ s := by
  obtain ⟨w, -, hw, rfl, -⟩ := h.split
  have hlen := h.length
  rw [h.after] at hlen
  intro hmem
  rcases List.mem_append.mp hmem with hmem | hmem
  · exact hfold (hw ▸ List.mem_map_of_mem hmem)
  · rcases List.mem_append.mp hmem with hmem | hmem
    · obtain ⟨b, n, state, hstep⟩ := scanStep_of_mem_take hlen (c := c) (by simpa using hmem)
      rw [hscan] at hstep
      cases hstep
    · exact hsemi (List.mem_singleton.mp hmem)

theorem IsStatement.not_mem (h : IsStatement s) (hscan : ∀ b n, scanStep b n c = none)
    (hfold : foldLetter c ∉ ['u', 's', 'e']) (hsemi : c ≠ ';') : c ∉ s := by
  obtain ⟨body, stop, h⟩ := h
  exact h.not_mem hscan hfold hsemi

/-! ## Statements without a name -/

/-- The name is, up to case, the keyword of a kind. -/
def isKindWord (name : List Char) : Bool :=
  name.map foldLetter = "function".toList ∨ name.map foldLetter = "const".toList

/-- The code `s` is a `use` statement with the keyword `k` of a kind and the alias `a`, but without
a name. -/
structure NamelessAt (s k a : List Char) : Prop where
  text : s = 'u' :: 's' :: 'e' :: ' ' :: (k ++ (' ' :: 'a' :: 's' :: ' ' :: (a ++ [';'])))
  kind : isKindWord k = true
  word : ∀ c ∈ k ++ a, isWordChar c = true
  statement : ∃ body stop, StatementText s body stop

/-- The code is one statement without a name. -/
def IsNameless (s : List Char) : Prop :=
  ∃ k a, NamelessAt s k a

namespace IsNameless

variable (h : IsNameless s)
include h

theorem importPlace : ImportPlace s := by
  obtain ⟨k, a, h⟩ := h
  obtain ⟨body, stop, hst⟩ := h.statement
  exact hst.importPlace

/-- It is made of words, blanks and its semicolon. -/
theorem mem (hc : c ∈ s) : isWordChar c = true ∨ c = ' ' ∨ c = ';' := by
  obtain ⟨k, a, h⟩ := h
  rw [h.text] at hc
  simp only [List.mem_cons, List.mem_append, List.not_mem_nil, or_false] at hc
  rcases hc with rfl | rfl | rfl | rfl | hc | rfl | rfl | rfl | rfl | hc | rfl
  · exact .inl (by decide)
  · exact .inl (by decide)
  · exact .inl (by decide)
  · exact .inr (.inl rfl)
  · exact .inl (h.word c (List.mem_append_left a hc))
  · exact .inr (.inl rfl)
  · exact .inl (by decide)
  · exact .inl (by decide)
  · exact .inr (.inl rfl)
  · exact .inl (h.word c (List.mem_append_right k hc))
  · exact .inr (.inr rfl)

theorem not_mem (hword : isWordChar c = false) (hspace : c ≠ ' ') (hsemi : c ≠ ';') : c ∉ s := by
  intro hc
  rcases h.mem hc with hc | hc | hc
  · rw [hword] at hc
    cases hc
  · exact hspace hc
  · exact hsemi hc

end IsNameless

/-! ## Places in imports -/

theorem inImport_append (ds es : List Declaration) (o : Nat) :
    inImport (ds ++ es) o = (inImport ds o || inImport es o) :=
  List.any_append

theorem inImport_shift (ds : List Declaration) (n o : Nat) :
    inImport (ds.map (Declaration.shift n)) (n + o) = inImport ds o := by
  unfold inImport
  rw [List.any_map]
  refine congrArg (List.any ds) (funext fun d => ?_)
  simp [Declaration.shift, Span.shift, Span.contains]

theorem inImport_shift_of_lt (ds : List Declaration) (h : o < n) :
    inImport (ds.map (Declaration.shift n)) o = false := by
  unfold inImport
  rw [List.any_map, List.any_eq_false]
  intro d _
  rw [Function.comp_apply, Span.contains_iff]
  simp only [Declaration.shift, Span.shift]
  omega

theorem inImport_of_le {code : List Char} (h : byteLength code ≤ o) :
    inImport (imports code) o = false := by
  unfold inImport
  rw [List.any_eq_false]
  intro d hd
  have := statement_of_mem_imports hd
  rw [Span.contains_iff]
  omega

/-- In front of a place where a code is divided, what lies in an import is known from what stands
there. -/
theorem inImport_front (hp : Divides p x) (h : o < byteLength p) :
    inImport (imports (p ++ x)) o = inImport (imports p) o := by
  rw [hp.apart, inImport_append, inImport_shift_of_lt _ h, Bool.or_false]

/-- Behind such a place, what lies in an import is known from the rest. -/
theorem inImport_back (hp : Divides p x) (o : Nat) :
    inImport (imports (p ++ x)) (byteLength p + o) = inImport (imports x) o := by
  rw [hp.apart, inImport_append, inImport_shift, inImport_of_le (Nat.le_add_right _ _),
    Bool.false_or]

/-! ## Runs -/

/-- Every place of a statement lies in it. -/
theorem StatementAt.inImport_of_lt (h : StatementAt s body stop) (ho : o < byteLength s) :
    inImport (UseImports.imports s) o = true := by
  obtain ⟨d, hd⟩ := List.exists_mem_of_ne_nil _ h.ne_nil
  unfold inImport
  rw [List.any_eq_true]
  refine ⟨d, hd, ?_⟩
  rw [h.statement_eq hd, Span.contains_iff]
  exact ⟨Nat.zero_le _, ho⟩

/-- White space, import statements and statements without a name. -/
inductive Run : List Char → Prop
  | nil : Run []
  | space {c : Char} {u : List Char} : isSpace c = true → Run u → Run (c :: u)
  | statement {s u : List Char} : IsStatement s → Run u → Run (s ++ u)
  | nameless {s u : List Char} : IsNameless s → Run u → Run (s ++ u)

theorem importPlace_space (hc : isSpace c = true) : ImportPlace [c] where
  opens := opens_nil.cons_space hc
  level := by
    have hplain : ∀ x ∈ [c], x ≠ '{' ∧ x ≠ '}' := by
      intro x hx
      obtain rfl := List.mem_singleton.mp hx
      constructor
      · rintro rfl
        exact absurd hc (by decide)
      · rintro rfl
        exact absurd hc (by decide)
    unfold importLevel bracesAt
    rw [openBraces_of_plain hplain]
    rfl
  finished k s hmem _ := by
    unfold useStarts findAll atStart at hmem
    dsimp only at hmem
    rw [findFrom_zero_cons, located_useKeyword.atSpace hc] at hmem
    simp at hmem

theorem imports_space (hc : isSpace c = true) : imports [c] = [] := by
  rw [imports_eq]
  unfold useStarts findAll atStart
  dsimp only
  rw [findFrom_zero_cons, located_useKeyword.atSpace hc]
  rfl

theorem imports_of_isSpace (hw : ∀ c ∈ w, isSpace c = true) : imports w = [] := by
  induction w with
  | nil => rfl
  | cons c w ih =>
    have hc := hw c List.mem_cons_self
    rw [← List.singleton_append, imports_append (importPlace_space hc), imports_space hc,
      ih fun x hx => hw x (List.mem_cons_of_mem c hx)]
    rfl

namespace Run

variable {u : List Char}

theorem importPlace (h : Run u) : ImportPlace u := by
  induction h with
  | nil => exact importPlace_nil
  | @space c u hc _ ih => exact (importPlace_append_iff (importPlace_space hc) u).mpr ih
  | @statement s u hs _ ih => exact (importPlace_append_iff hs.importPlace u).mpr ih
  | @nameless s u hs _ ih => exact (importPlace_append_iff hs.importPlace u).mpr ih

theorem append {v : List Char} (hu : Run u) (hv : Run v) : Run (u ++ v) := by
  induction hu with
  | nil => exact hv
  | space hc _ ih => exact .space hc ih
  | statement hs _ ih =>
    rw [List.append_assoc]
    exact .statement hs ih
  | nameless hs _ ih =>
    rw [List.append_assoc]
    exact .nameless hs ih

theorem of_space (hw : ∀ c ∈ w, isSpace c = true) : Run w := by
  induction w with
  | nil => exact .nil
  | cons c w ih =>
    exact .space (hw c List.mem_cons_self) (ih fun d hd => hw d (List.mem_cons_of_mem c hd))

theorem of_statement (hs : IsStatement s) : Run s := by
  have := statement hs nil
  rwa [List.append_nil] at this

theorem of_nameless (hs : IsNameless s) : Run s := by
  have := nameless hs nil
  rwa [List.append_nil] at this

/-- What can stand in no statement and is no white space stands in no run. -/
theorem not_mem (h : Run u) (hscan : ∀ b n, scanStep b n c = none)
    (hfold : foldLetter c ∉ ['u', 's', 'e']) (hsemi : c ≠ ';') (hspace : isSpace c = false) :
    c ∉ u := by
  induction h with
  | nil => simp
  | @space x u hx _ ih =>
    intro hmem
    rcases List.mem_cons.mp hmem with rfl | hmem
    · rw [hspace] at hx
      cases hx
    · exact ih hmem
  | @statement s u hs _ ih =>
    intro hmem
    rcases List.mem_append.mp hmem with hmem | hmem
    · exact hs.not_mem hscan hfold hsemi hmem
    · exact ih hmem
  | @nameless s u hs _ ih =>
    obtain ⟨k, a, hs⟩ := hs
    obtain ⟨body, stop, hst⟩ := hs.statement
    intro hmem
    rcases List.mem_append.mp hmem with hmem | hmem
    · exact hst.not_mem hscan hfold hsemi hmem
    · exact ih hmem

end Run

end UseImports
