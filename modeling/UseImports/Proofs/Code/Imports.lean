import UseImports.Proofs.Code.Regions

/-!
# The imports of a piece of code

A code can be cut at an *import place*: a statement may begin there, all open braces are those of
namespaces, and every `use` statement in front is finished. What stands in front of such a place and
what stands behind it declare their imports independently (`parse_use_statements`).

* `imports`: the declarations of a code, without their lines.
* `ImportPlace`: where a code can be cut.
* `Divides`: where a code with a given rest can be cut.
* `imports_append`: **the imports of a code are those of its pieces.**
* `importPlace_append_iff`: a place behind an import place is one by what lies between them.
-/

namespace UseImports

open Placed Cursor

variable {c k s : Cursor} {d : Declaration} {a B body code p x : List Char}
    {inBraces sawName : Bool} {n : Nat}

/-! ## Declarations without lines -/

namespace Declaration

/-- The declaration with its line forgotten. -/
def unlined (d : Declaration) : Declaration :=
  { d with line := 0 }

/-- The declaration in a text with `n` more bytes in front. -/
def shift (n : Nat) (d : Declaration) : Declaration :=
  { d with span := d.span.shift n, statement := d.statement.shift n }

theorem shift_shift (m n : Nat) (d : Declaration) : (d.shift n).shift m = d.shift (m + n) := by
  simp [shift, Span.shift, Nat.add_assoc]

theorem map_shift_zero (ds : List Declaration) : ds.map (shift 0) = ds := by
  conv_rhs => rw [← List.map_id ds]
  refine List.map_congr_left fun d _ => ?_
  simp [shift, Span.shift]

theorem map_shift_shift (m n : Nat) (ds : List Declaration) :
    (ds.map (shift n)).map (shift m) = ds.map (shift (m + n)) := by
  rw [List.map_map]
  exact List.map_congr_left fun d _ => shift_shift m n d

@[simp] theorem meaning_unlined (d : Declaration) : d.unlined.meaning = d.meaning := rfl

@[simp] theorem meaning_shift (n : Nat) (d : Declaration) : (d.shift n).meaning = d.meaning := rfl

@[simp] theorem localName_shift (n : Nat) (d : Declaration) :
    (d.shift n).localName = d.localName := rfl

@[simp] theorem localName_unlined (d : Declaration) : d.unlined.localName = d.localName := rfl

end Declaration

/-- The declarations of one statement, without their lines. -/
def statementImports (keyword stop : Cursor) : List Declaration :=
  readStatement ⟨[], []⟩ keyword stop

/-- The declarations of a code, without their lines. -/
def imports (code : List Char) : List Declaration :=
  (Document.mk [] code).declarations

theorem lineOf_nil (n : Nat) : lineOf [] n = 0 := rfl

/-- The kind of a statement, and where its first name or group begins. -/
def statementStart (body : List Char) : ImportKind × Cursor :=
  (kindKeyword? (atStart body).skipBlanks).getD (.cls, atStart body)

/-- The declarations of a statement of the document with the given body, which begins at `offset`.
-/
def Document.readBody (d : Document) (statement : Span) (offset : Nat) (body : List Char) :
    List Declaration :=
  let start := statementStart body
  let front := start.2.after.takeWhile (· ≠ '{')
  match start.2.after.drop front.length with
  | [] => readSequence d ⟨statement, start.1⟩ (offset + start.2.offset) front
  | _ :: rest =>
    let inner := rest.takeWhile (· ≠ '}')
    match rest.drop inner.length with
    | [] => []
    | _ :: tail =>
      if (trim tail).isEmpty then
        readGroup d ⟨statement, start.1⟩ (offset + start.2.offset) front inner
      else []

theorem readStatement_eq (d : Document) (k s : Cursor) : readStatement d k s =
    match statementBody? s with
    | none => []
    | some body => d.readBody ⟨k.offset, s.offset + byteLength body + 1⟩ s.offset body := by
  unfold readStatement
  cases statementBody? s with
  | none => rfl
  | some body =>
    dsimp only [Document.readBody, statementStart]
    cases kindKeyword? (atStart body).skipBlanks <;> rfl

/-- The declarations of a statement with the given body, without their lines. -/
def readBody (statement : Span) (offset : Nat) (body : List Char) : List Declaration :=
  (Document.mk [] []).readBody statement offset body

theorem statementImports_eq (k s : Cursor) : statementImports k s =
    match statementBody? s with
    | none => []
    | some body => readBody ⟨k.offset, s.offset + byteLength body + 1⟩ s.offset body :=
  readStatement_eq ⟨[], []⟩ k s

theorem readBody_unlined (d : Document) (statement : Span) (offset : Nat) (body : List Char) :
    (d.readBody statement offset body).map Declaration.unlined =
      readBody statement offset body := by
  have hseq : ∀ head offset body, (readSequence d head offset body).map Declaration.unlined =
      readSequence ⟨[], []⟩ head offset body := by
    intro head offset body
    unfold readSequence
    cases readClauses? offset body with
    | none => rfl
    | some clauses =>
      rw [List.map_map]
      rfl
  have hgroup : ∀ head offset front inner,
      (readGroup d head offset front inner).map Declaration.unlined =
        readGroup ⟨[], []⟩ head offset front inner := by
    intro head offset front inner
    unfold readGroup
    split
    · split
      · rfl
      · rw [List.map_map]
        rfl
    · rfl
  dsimp only [readBody, Document.readBody]
  split
  · exact hseq ..
  · split
    · rfl
    · split
      · exact hgroup ..
      · rfl

theorem readBody_ne_nil {doc : Document} {statement : Span} {offset : Nat}
    (h : d ∈ doc.readBody statement offset body) : readBody statement offset body ≠ [] := by
  rw [← readBody_unlined doc]
  exact List.ne_nil_of_mem (List.mem_map_of_mem h)

theorem readStatement_unlined (d : Document) (keyword stop : Cursor) :
    (readStatement d keyword stop).map Declaration.unlined = statementImports keyword stop := by
  rw [readStatement_eq, statementImports_eq]
  cases statementBody? stop with
  | none => rfl
  | some body => exact readBody_unlined ..

/-- The declarations of a document depend on its code, and only their lines on its text. -/
theorem declarations_unlined (d : Document) :
    d.declarations.map Declaration.unlined = imports d.code := by
  unfold imports Document.declarations
  rw [List.map_flatMap]
  refine List.flatMap_congr fun ⟨keyword, stop⟩ _ => ?_
  dsimp only
  have hregions : d.importRegions = (Document.mk [] d.code).importRegions := rfl
  rw [hregions]
  split
  · exact readStatement_unlined d keyword stop
  · rfl

/-- What a document imports depends on its code. -/
theorem map_meaning_declarations (d : Document) :
    d.declarations.map Declaration.meaning = (imports d.code).map Declaration.meaning := by
  rw [← declarations_unlined, List.map_map]
  rfl

/-! ## The sites of imports -/

/-- The places of the keyword `use` in a code. -/
def useStarts (code : List Char) : List (Cursor × Cursor) :=
  (atStart code).findAll useKeyword?

/-- An import statement may begin at the place. -/
def isSite (code : List Char) (keyword : Cursor) : Bool :=
  importLevel code keyword.before.reverse && keyword.startsStatement

/-- What a place of the keyword `use` is. -/
theorem useKeyword?_eq_some {d : Cursor} (h : c.useKeyword? = some ((k, s), d)) :
    k = c ∧ s = d ∧ c.atWordStart = true ∧ d.atWordEnd = true ∧
      ∃ w, w.length = 3 ∧ w.map foldLetter = ['u', 's', 'e'] ∧ c.after = w ++ d.after ∧
        d.before = w.reverse ++ c.before := by
  obtain ⟨e, he, heq⟩ := Option.map_eq_some_iff.mp h
  cases heq
  obtain ⟨hk, hend⟩ := Option.filter_eq_some_iff.mp he
  unfold keyword? at hk
  split at hk
  · rename_i hstart
    obtain ⟨w, hmem, hw⟩ := List.exists_of_findSome?_eq_some hk
    obtain rfl := List.mem_singleton.mp hmem
    obtain ⟨u, hu, hm, hb⟩ := folded?_eq_some hw
    have hlen := congrArg List.length hm
    rw [List.length_map] at hlen
    exact ⟨rfl, rfl, hstart, hend, u, hlen, hm, hu, hb⟩
  · cases hk

theorem mem_useStarts (h : (k, s) ∈ useStarts code) :
    k.useKeyword? = some ((k, s), s) ∧ (atStart code).Reaches k := by
  obtain ⟨c, d, hc, hreach, -⟩ := mem_findAll h
  obtain ⟨rfl, rfl, -⟩ := useKeyword?_eq_some hc
  exact ⟨hc, hreach⟩

theorem Cursor.Reaches.text_eq (h : (atStart code).Reaches c) :
    code = c.before.reverse ++ c.after := by
  obtain ⟨u, hu, hb⟩ := h
  rw [hb]
  simpa [atStart] using hu

/-- The declarations of a document are those of its `use` statements at import level. -/
theorem Document.declarations_eq (d : Document) :
    d.declarations = (useStarts d.code).flatMap fun site =>
    if isSite d.code site.1 then readStatement d site.1 site.2 else [] := by
  unfold Document.declarations
  refine List.flatMap_congr fun ⟨k, s⟩ hmem => ?_
  have hmem' : (k, s) ∈ useStarts d.code := hmem
  obtain ⟨hk, hreach⟩ := mem_useStarts hmem'
  obtain ⟨-, -, -, -, w, hlen, hw, hafter, -⟩ := useKeyword?_eq_some hk
  match w, hlen with
  | [x, y, z], _ =>
    have hx : foldLetter x = 'u' := (List.cons.inj hw).1
    have hopen : x ≠ '{' := by
      rintro rfl
      exact absurd hx (by decide)
    have hcode : d.code = k.before.reverse ++ x :: (y :: z :: s.after) := by
      rw [hreach.text_eq, hafter]
      simp
    have hlevel := importRegions_contains d.text k.before.reverse hopen (y :: z :: s.after)
    rw [← hcode, byteLength_reverse] at hlevel
    have hsite : (d.importRegions.any (·.contains k.offset) && k.startsStatement) =
        isSite d.code k :=
      congrArg (· && k.startsStatement) hlevel
    dsimp only
    rw [hsite]

/-- **The imports of a code**: those of its `use` statements at import level. -/
theorem imports_eq (code : List Char) : imports code = (useStarts code).flatMap fun site =>
    if isSite code site.1 then statementImports site.1 site.2 else [] :=
  Document.declarations_eq ⟨[], code⟩

/-! ## Moving a statement -/

theorem trimmedPieces_add (n offset : Nat) (pieces : List (List Char)) :
    trimmedPieces (n + offset) pieces =
      (trimmedPieces offset pieces).map fun piece => (n + piece.1, piece.2) := by
  induction pieces generalizing offset with
  | nil => rfl
  | cons piece pieces ih =>
    unfold trimmedPieces
    have := ih (offset + byteLength piece + 1)
    rw [← Nat.add_assoc, ← Nat.add_assoc] at this
    dsimp only
    rw [this]
    split
    · rfl
    · simp [Nat.add_assoc]

theorem readClauses?_add (n offset : Nat) (cs : List Char) :
    readClauses? (n + offset) cs =
      (readClauses? offset cs).map (List.map fun clause => (n + clause.1, clause.2)) := by
  unfold readClauses?
  rw [trimmedPieces_add]
  induction trimmedPieces offset (splitOnChar (· == ',') cs) with
  | nil => rfl
  | cons piece pieces ih =>
    simp only [List.map_cons, List.mapM_cons, ih]
    cases readClause? piece.2 with
    | none => rfl
    | some clause =>
      generalize (List.mapM _ pieces : Option (List (Nat × Clause))) = clauses
      cases clauses <;> rfl

theorem readSequence_shift (n : Nat) (statement : Span) (kind : ImportKind) (offset : Nat)
    (body : List Char) :
    readSequence ⟨[], []⟩ ⟨statement.shift n, kind⟩ (n + offset) body =
      (readSequence ⟨[], []⟩ ⟨statement, kind⟩ offset body).map (Declaration.shift n) := by
  unfold readSequence
  rw [readClauses?_add]
  cases readClauses? offset body with
  | none => rfl
  | some clauses =>
    simp only [Option.map_some, List.length_map, List.map_map]
    refine List.map_congr_left fun clause _ => ?_
    simp only [Function.comp_apply, Declaration.shift, Document.lineOf, lineOf_nil]
    split <;> simp [Span.shift, Nat.add_assoc]

theorem readGroup_shift (n : Nat) (statement : Span) (kind : ImportKind) (offset : Nat)
    (front inner : List Char) :
    readGroup ⟨[], []⟩ ⟨statement.shift n, kind⟩ (n + offset) front inner =
      (readGroup ⟨[], []⟩ ⟨statement, kind⟩ offset front inner).map (Declaration.shift n) := by
  unfold readGroup
  rw [Nat.add_assoc n offset, Nat.add_assoc n, readClauses?_add]
  cases groupName? front with
  | none => rfl
  | some group =>
    cases readClauses? (offset + byteLength front + 1) inner with
    | none => rfl
    | some clauses =>
      simp only [Option.map_some, List.any_map, List.length_map, List.map_map, Function.comp_def]
      split
      · rfl
      · rw [List.map_map]
        refine List.map_congr_left fun clause _ => ?_
        simp [Declaration.shift, Document.lineOf, lineOf_nil, Span.shift, Nat.add_assoc]

theorem readBody_shift (n : Nat) (statement : Span) (offset : Nat) (body : List Char) :
    readBody (statement.shift n) (n + offset) body =
      (readBody statement offset body).map (Declaration.shift n) := by
  dsimp only [readBody, Document.readBody]
  split
  · rw [Nat.add_assoc, readSequence_shift]
  · split
    · rfl
    · split
      · rw [Nat.add_assoc, readGroup_shift]
      · rfl

/-- The declarations of a statement move with it. -/
theorem statementImports_within {X : List Char}
    (hbody : statementBody? (s.within B X) = statementBody? s) (k : Cursor) :
    statementImports (k.within B X) (s.within B X) =
      (statementImports k s).map (Declaration.shift (byteLength B)) := by
  rw [statementImports_eq, statementImports_eq, hbody, offset_within, offset_within]
  cases statementBody? s with
  | none => rfl
  | some body =>
    dsimp only
    rw [← readBody_shift]
    congr 1
    simp [Span.shift, Nat.add_assoc]

theorem statement_of_mem_readBody {statement : Span} {offset : Nat}
    (h : d ∈ readBody statement offset body) : d.statement = statement := by
  have hseq : ∀ kind o cs, d ∈ readSequence ⟨[], []⟩ ⟨statement, kind⟩ o cs →
      d.statement = statement := by
    intro kind o cs h
    unfold readSequence at h
    split at h
    · cases h
    · obtain ⟨clause, -, rfl⟩ := List.mem_map.mp h
      rfl
  have hgroup : ∀ kind o front inner,
      d ∈ readGroup ⟨[], []⟩ ⟨statement, kind⟩ o front inner → d.statement = statement := by
    intro kind o front inner h
    unfold readGroup at h
    split at h
    · split at h
      · cases h
      · obtain ⟨clause, -, rfl⟩ := List.mem_map.mp h
        rfl
    · cases h
  dsimp only [readBody, Document.readBody] at h
  split at h
  · exact hseq _ _ _ h
  · split at h
    · cases h
    · split at h
      · exact hgroup _ _ _ _ h
      · cases h

/-! ## Finished statements -/

/-- The state of the scan of a statement behind one more character, if the statement goes on. -/
def scanStep (inBraces sawName : Bool) (c : Char) : Option (Bool × Bool) :=
  if c = ';' then none
  else if c = '{' then if inBraces then none else some (true, sawName)
  else if c = '}' then if inBraces then some (false, sawName) else none
  else if c = ',' || c = '\\' || isSpace c then some (inBraces, sawName)
  else if isIdentChar c then some (inBraces, true)
  else none

/-- The state of the scan behind a text, if the statement is still unfinished there. -/
def scanState : (inBraces sawName : Bool) → List Char → Option (Bool × Bool)
  | inBraces, sawName, [] => some (inBraces, sawName)
  | inBraces, sawName, c :: cs =>
    (scanStep inBraces sawName c).bind fun state => scanState state.1 state.2 cs

theorem statementLength?_cons (inBraces sawName : Bool) (c : Char) (cs : List Char) :
    statementLength? inBraces sawName (c :: cs) =
      match scanStep inBraces sawName c with
      | some state => (statementLength? state.1 state.2 cs).map (· + 1)
      | none => if c = ';' ∧ inBraces = false ∧ sawName = true then some 0 else none := by
  unfold scanStep
  rw [statementLength?]
  by_cases hsemi : c = ';'
  · subst hsemi
    cases inBraces <;> cases sawName <;> rfl
  · simp only [hsemi, false_and, if_false]
    split
    · cases inBraces <;> rfl
    · split
      · cases inBraces <;> rfl
      · split
        · rfl
        · split <;> rfl

/-- A statement ends at its first character, or behind it. -/
theorem statementLength?_cases {ch : Char} {cs : List Char}
    (h : statementLength? inBraces sawName (ch :: cs) = some n) :
    (ch = ';' ∧ inBraces = false ∧ n = 0) ∨
      ∃ state m, scanStep inBraces sawName ch = some state ∧
        statementLength? state.1 state.2 cs = some m ∧ n = m + 1 := by
  rw [statementLength?_cons] at h
  cases hstep : scanStep inBraces sawName ch with
  | none =>
    rw [hstep] at h
    dsimp only at h
    split at h
    · rename_i hend
      exact .inl ⟨hend.1, hend.2.1, (Option.some.inj h).symm⟩
    · cases h
  | some state =>
    rw [hstep] at h
    obtain ⟨m, hm, rfl⟩ := Option.map_eq_some_iff.mp h
    exact .inr ⟨state, m, rfl, hm, rfl⟩

/-- A statement that is finished ends where it ends, whatever follows. -/
theorem statementLength?_append (h : scanState inBraces sawName a = none) (x : List Char) :
    statementLength? inBraces sawName (a ++ x) = statementLength? inBraces sawName a := by
  induction a generalizing inBraces sawName with
  | nil => simp [scanState] at h
  | cons c a ih =>
    rw [List.cons_append, statementLength?_cons, statementLength?_cons]
    rw [scanState] at h
    cases hstep : scanStep inBraces sawName c with
    | none => rfl
    | some state =>
      rw [hstep] at h
      dsimp only
      rw [ih h]

theorem scanState_append (h : scanState inBraces sawName a = none) (x : List Char) :
    scanState inBraces sawName (a ++ x) = none := by
  induction a generalizing inBraces sawName with
  | nil => simp [scanState] at h
  | cons c a ih =>
    rw [List.cons_append, scanState]
    rw [scanState] at h
    cases hstep : scanStep inBraces sawName c with
    | none => rfl
    | some state =>
      rw [hstep] at h
      exact ih h

/-- A semicolon finishes a statement. -/
theorem scanState_of_mem (h : ';' ∈ a) : scanState inBraces sawName a = none := by
  induction a generalizing inBraces sawName with
  | nil => simp at h
  | cons c a ih =>
    rw [scanState]
    rcases List.mem_cons.mp h with rfl | h
    · rfl
    · cases scanStep inBraces sawName c with
      | none => rfl
      | some state => exact ih h

theorem statementLength?_le (h : statementLength? inBraces sawName a = some n) : n < a.length := by
  induction a generalizing inBraces sawName n with
  | nil => simp [statementLength?] at h
  | cons c a ih =>
    rcases statementLength?_cases h with ⟨-, -, rfl⟩ | ⟨state, m, -, hm, rfl⟩
    · exact Nat.zero_lt_succ _
    · exact Nat.succ_lt_succ (ih hm)

/-- A statement ends in a semicolon. -/
theorem eq_of_statementLength? (h : statementLength? inBraces sawName a = some n) :
    a = a.take n ++ ';' :: a.drop (n + 1) := by
  induction a generalizing inBraces sawName n with
  | nil => simp [statementLength?] at h
  | cons c a ih =>
    rcases statementLength?_cases h with ⟨rfl, -, rfl⟩ | ⟨state, m, -, hm, rfl⟩
    · rfl
    · rw [List.take_succ_cons, List.drop_succ_cons, List.cons_append, ← ih hm]

theorem eq_of_statementBody? (h : statementBody? s = some body) :
    ∃ rest, s.after = body ++ ';' :: rest := by
  obtain ⟨n, hn, rfl⟩ := Option.map_eq_some_iff.mp h
  exact ⟨s.after.drop (n + 1), eq_of_statementLength? hn⟩

theorem statementBody?_within (B : List Char) (h : x = [] ∨ scanState false false s.after = none) :
    statementBody? (s.within B x) = statementBody? s := by
  unfold statementBody?
  rw [within_after]
  rcases h with rfl | h
  · rw [List.append_nil]
  · rw [statementLength?_append h]
    cases hn : statementLength? false false s.after with
    | none => rfl
    | some n =>
      have := statementLength?_le hn
      simp only [Option.map_some, Option.some.injEq]
      exact List.take_append_of_le_length (by omega)

/-! ## Import places -/

/-- A place where a code can be cut between statements. -/
structure ImportPlace (p : List Char) : Prop where
  /-- A statement may begin there. -/
  opens : Opens p.reverse
  /-- All open braces are those of namespaces. -/
  level : importLevel p p = true
  /-- Every import statement in front is finished. -/
  finished : ∀ k s, (k, s) ∈ useStarts p → isSite p k = true → scanState false false s.after = none

theorem startsStatement_within (hB : Opens B) (X : List Char) (c : Cursor) :
    (c.within B X).startsStatement = c.startsStatement := by
  unfold Opens startsStatement at hB
  unfold startsStatement
  rw [within_before, List.dropWhile_append]
  cases hd : c.before.dropWhile isSpace with
  | nil => simpa using hB
  | cons x xs => rfl

theorem Opens.append {b : List Char} (ha : Opens a) (hb : Opens b) : Opens (a ++ b) := by
  have := startsStatement_within hb [] ⟨a, []⟩
  unfold Opens at ha ⊢
  rw [← ha]
  exact this

theorem useStarts_append (hp : Opens p.reverse) (x : List Char) :
    useStarts (p ++ x) =
      (useStarts p).map (move [] x) ++ (useStarts x).map (move p.reverse []) :=
  findAll_append located_useKeyword hp x

theorem isSite_front (hp : Opens p.reverse) (x : List Char) (h : (k, s) ∈ useStarts p) :
    isSite (p ++ x) (k.within [] x) = isSite p k := by
  have hpre : k.before.reverse <+: p := ⟨k.after, (mem_useStarts h).2.text_eq.symm⟩
  unfold isSite
  rw [within_before, List.append_nil, importLevel_front hp x hpre, startsStatement_within opens_nil]

theorem isSite_back (hp : Opens p.reverse) (hlevel : importLevel p p = true) (x : List Char)
    (k : Cursor) : isSite (p ++ x) (k.within p.reverse []) = isSite x k := by
  unfold isSite
  rw [within_before, List.reverse_append, List.reverse_reverse, importLevel_back hp hlevel,
    startsStatement_within hp]

/-- The code is cut in front of `x` at a place where a statement may begin and all open braces are
those of namespaces, and the imports of the whole are those of the two pieces. -/
structure Divides (p x : List Char) : Prop where
  opens : Opens p.reverse
  level : importLevel p p = true
  apart : imports (p ++ x) = imports p ++ (imports x).map (Declaration.shift (byteLength p))

/-- A code is divided where each of its statements in front declares the same whatever is left out
behind. -/
theorem divides_of_sites (hopens : Opens p.reverse) (hlevel : importLevel p p = true)
    (hsites : ∀ k s, (k, s) ∈ useStarts p → isSite p k = true →
      statementImports (k.within [] x) (s.within [] x) = statementImports k s) : Divides p x where
  opens := hopens
  level := hlevel
  apart := by
    rw [imports_eq, imports_eq, imports_eq, useStarts_append hopens, List.flatMap_append,
      List.flatMap_map, List.flatMap_map, List.map_flatMap]
    congr 1
    · refine List.flatMap_congr fun ⟨k, s⟩ hmem => ?_
      simp only [move_prod, move_cursor]
      rw [isSite_front hopens x hmem]
      split
      · rename_i hsite
        exact hsites k s hmem hsite
      · rfl
    · refine List.flatMap_congr fun ⟨k, s⟩ _ => ?_
      simp only [move_prod, move_cursor]
      rw [isSite_back hopens hlevel]
      split
      · rw [statementImports_within (statementBody?_within _ (.inl rfl)), byteLength_reverse]
      · rfl

/-- Every code is divided at an import place. -/
theorem ImportPlace.divides (hp : ImportPlace p) (x : List Char) : Divides p x :=
  divides_of_sites hp.opens hp.level fun k s hmem hsite => by
    have hbody := statementBody?_within [] (.inr (hp.finished k s hmem hsite) : x = [] ∨ _)
    rw [statementImports_within hbody, byteLength_nil, Declaration.map_shift_zero]

/-- **The imports of a code are those of its pieces.** -/
theorem imports_append (hp : ImportPlace p) (x : List Char) :
    imports (p ++ x) = imports p ++ (imports x).map (Declaration.shift (byteLength p)) :=
  (hp.divides x).apart

/-- **A place behind an import place is one by what lies between the two.** -/
theorem importPlace_append_iff (hp : ImportPlace p) (x : List Char) :
    ImportPlace (p ++ x) ↔ ImportPlace x := by
  constructor
  · intro h
    refine ⟨?_, ?_, fun k s hmem hsite => ?_⟩
    · have := h.opens
      rw [List.reverse_append] at this
      exact this.of_append
    · rw [← importLevel_back hp.opens hp.level]
      exact h.level
    · have hmoved : (k.within p.reverse [], s.within p.reverse []) ∈ useStarts (p ++ x) := by
        rw [useStarts_append hp.opens]
        exact List.mem_append_right _ (List.mem_map_of_mem hmem)
      have := h.finished _ _ hmoved (by rw [isSite_back hp.opens hp.level]; exact hsite)
      rwa [within_after, List.append_nil] at this
  · intro h
    refine ⟨?_, ?_, fun k s hmem hsite => ?_⟩
    · rw [List.reverse_append]
      exact h.opens.append hp.opens
    · rw [importLevel_back hp.opens hp.level]
      exact h.level
    · rw [useStarts_append hp.opens, List.mem_append, List.mem_map, List.mem_map] at hmem
      rcases hmem with ⟨⟨k', s'⟩, hmem, heq⟩ | ⟨⟨k', s'⟩, hmem, heq⟩
      · cases heq
        simp only [move_cursor] at hsite
        rw [isSite_front hp.opens x hmem] at hsite
        exact scanState_append (hp.finished k' s' hmem hsite) x
      · cases heq
        simp only [move_cursor] at hsite
        rw [isSite_back hp.opens hp.level] at hsite
        rw [move_cursor, within_after, List.append_nil]
        exact h.finished k' s' hmem hsite

/-- Every import is read at a place where an import may stand. -/
theorem site_of_mem_imports (h : d ∈ imports code) :
    ∃ k s body, (k, s) ∈ useStarts code ∧ isSite code k = true ∧ statementBody? s = some body ∧
      d ∈ readBody ⟨k.offset, s.offset + byteLength body + 1⟩ s.offset body := by
  rw [imports_eq, List.mem_flatMap] at h
  obtain ⟨⟨k, s⟩, hmem, hd⟩ := h
  split at hd
  · rename_i hsite
    rw [statementImports_eq] at hd
    cases hbody : statementBody? s with
    | none =>
      rw [hbody] at hd
      cases hd
    | some body =>
      rw [hbody] at hd
      exact ⟨k, s, body, hmem, hsite, hbody, hd⟩
  · cases hd

/-- The statement of a declaration lies in the code. -/
theorem statement_of_mem_imports (h : d ∈ imports code) :
    d.statement.start < d.statement.stop ∧ d.statement.stop ≤ byteLength code := by
  obtain ⟨k, s, body, hmem, -, hbody, hd⟩ := site_of_mem_imports h
  obtain ⟨hk, hreach⟩ := mem_useStarts hmem
  obtain ⟨-, -, -, -, w, hlen, -, hafter, hbefore⟩ := useKeyword?_eq_some hk
  obtain ⟨rest, hrest⟩ := eq_of_statementBody? hbody
  rw [statement_of_mem_readBody hd]
  have hsemi : (';' : Char).utf8Size = 1 := by decide
  have hcode := congrArg byteLength hreach.text_eq
  have hoffset : s.offset = byteLength w + k.offset := by simp [offset, hbefore]
  rw [hafter, hrest] at hcode
  simp only [byteLength_append, byteLength_reverse, byteLength_cons, hsemi] at hcode
  dsimp only at hoffset ⊢
  unfold offset at hoffset ⊢
  omega

theorem importPlace_nil : ImportPlace [] :=
  ⟨opens_nil, rfl, fun _ _ hmem => absurd hmem (by simp [useStarts, atStart, findAll])⟩

end UseImports
