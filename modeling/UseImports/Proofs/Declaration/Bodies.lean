import UseImports.Proofs.Declaration.Clauses

/-!
# Declarations in their statement

What the declarations of one statement (`parse_statement`) have to do with its text: each names a
clause, they stand one behind the other, and a statement that declares anything has at most one pair
of braces, with nothing behind it.

* `Declaration.StandsIn`: where a declaration stands in the body of its statement.
* `ReadOff`, `readOff_readBody`: **the declarations of one statement.**
* `BodyShape`, `bodyShape_of_readBody`: **the statements that declare anything.**
-/

namespace UseImports

open Cursor

variable {doc : Document} {offset : Nat} {body : List Char}

/-! ## Declarations and names -/

/-- The declaration imports what is called `name` in its statement. -/
def Declaration.NamedBy (d : Declaration) (name : List Char) : Prop :=
  (d.groupPrefix = none ∧ d.fqn.toList = name.dropWhile (· == '\\')) ∨
    ∃ group, d.groupPrefix = some group ∧ d.fqn.toList = group.toList ++ '\\' :: name

/-- Where a declaration stands in the body of its statement, which begins at the offset: its name is
that of a clause, on whose line it is, and its place is the whole statement or a part of the body. A
declaration that has the statement to itself is the first in it. -/
structure Declaration.StandsIn (doc : Document) (offset : Nat) (body : List Char)
    (d : Declaration) : Prop where
  name : ∃ lead name tail, body = lead ++ (name ++ tail) ∧ name ≠ [] ∧
    (∀ c ∈ name, isBlank c = false) ∧
    d.NamedBy name ∧ d.line = doc.lineOf (offset + byteLength lead) ∧
    (d.span.start = offset + byteLength lead ∨ d.span = d.statement ∧ Lead lead)
  span : d.span = d.statement ∨ ∃ lead x tail, body = lead ++ (x ++ tail) ∧ x ≠ [] ∧ Trimmed x ∧
    d.span = ⟨offset + byteLength lead, offset + byteLength lead + byteLength x⟩

/-- The declarations of one statement. -/
structure ReadOff (doc : Document) (statement : Span) (offset : Nat) (body : List Char)
    (ds : List Declaration) : Prop where
  statement : ∀ d ∈ ds, d.statement = statement
  shares : ∀ d ∈ ds, d.sharesStatement = decide (1 < ds.length)
  stands : ∀ d ∈ ds, d.StandsIn doc offset body
  apart : ds.Pairwise fun d e => d.span.stop ≤ e.span.start

theorem readOff_nil (doc : Document) (statement : Span) (offset : Nat) (body : List Char) :
    ReadOff doc statement offset body [] :=
  ⟨by simp, by simp, by simp, .nil⟩

/-- A declaration that stands where a clause stands. -/
theorem ClausePlace.standsIn {lead : List Char} {clause : Nat × Clause} {d : Declaration}
    (h : ClausePlace offset body lead clause) (hname : d.NamedBy clause.2.name)
    (hline : d.line = doc.lineOf (clause.1 + clause.2.nameSpan.start))
    (hspan : d.span = d.statement ∧ Lead lead ∨
      d.span = ⟨clause.1 + clause.2.nameSpan.start, clause.1 + clause.2.nameSpan.stop⟩ ∨
      d.span = ⟨clause.1 + clause.2.nameSpan.start, clause.1 + clause.2.stop⟩) :
    d.StandsIn doc offset body := by
  obtain ⟨more, rest, hbody, htrim, hstop⟩ := h.whole
  refine ⟨⟨lead, clause.2.name,
    more ++ rest, by rw [hbody, List.append_assoc], h.visible.1, h.visible.2, hname,
    by rw [hline, h.start], ?_⟩, ?_⟩
  · rcases hspan with hspan | hspan | hspan
    · exact .inr hspan
    · exact .inl (by rw [hspan, h.start])
    · exact .inl (by rw [hspan, h.start])
  · rcases hspan with hspan | hspan | hspan
    · exact .inl hspan.1
    · refine .inr ⟨lead, clause.2.name, more ++ rest, by rw [hbody, List.append_assoc], h.visible.1,
        trimmed_of_not_isBlank h.visible.2, ?_⟩
      rw [hspan, h.start, h.nameStop]
    · refine .inr ⟨lead, clause.2.name ++ more, rest, hbody, ?_, htrim, ?_⟩
      · exact List.append_ne_nil_of_left_ne_nil h.visible.1 more
      · rw [hspan, h.start, hstop]

/-- The declarations of a statement without braces. -/
theorem readOff_readSequence {lead : List Char} (hlead : Lead lead) (doc : Document)
    (statement : Span) (kind : ImportKind) (offset : Nat) (front : List Char) :
    ReadOff doc statement offset (lead ++ front)
      (readSequence doc ⟨statement, kind⟩ (offset + byteLength lead) front) := by
  unfold readSequence
  cases hread : readClauses? (offset + byteLength lead) front with
  | none => exact readOff_nil ..
  | some clauses =>
    have hfrom := clausesFrom_of_readClauses? hread
    dsimp only
    refine ⟨?_, ?_, ?_, ?_⟩
    · intro d hd
      obtain ⟨clause, -, rfl⟩ := List.mem_map.mp hd
      rfl
    · intro d hd
      obtain ⟨clause, -, rfl⟩ := List.mem_map.mp hd
      rw [List.length_map]
    · intro d hd
      obtain ⟨clause, hmem, rfl⟩ := List.mem_map.mp hd
      have hname : clause.2.name.dropWhile (· == '\\') =
          (stripLeading (String.ofList clause.2.name)).toList := by simp [stripLeading]
      rw [← List.append_nil front]
      by_cases hshares : 1 < clauses.length
      · obtain ⟨pre, hplace⟩ := hfrom.exists_place hmem
        exact (hplace.within []).standsIn (.inl ⟨rfl, hname.symm⟩) rfl
          (.inr (.inr (by simp [hshares])))
      · -- a single clause stands for the statement
        obtain ⟨only, rfl⟩ : ∃ only, clauses = [only] := by
          refine List.length_eq_one_iff.mp ?_
          have := List.length_pos_of_mem hmem
          omega
        obtain rfl := List.mem_singleton.mp hmem
        obtain ⟨pre, hpre, hplace⟩ := hfrom.exists_place_single
        exact (hplace.within []).standsIn (.inl ⟨rfl, hname.symm⟩) rfl
          (.inl ⟨by simp, hlead.append hpre⟩)
    · by_cases hshares : 1 < clauses.length
      · simp only [hshares, decide_true, if_true]
        refine List.pairwise_map.mpr (hfrom.pairwise.imp fun {a b} hab => ?_)
        dsimp only
        omega
      · rcases clauses with _ | ⟨a, _ | ⟨b, rest⟩⟩
        · exact .nil
        · exact List.pairwise_singleton _ _
        · exact absurd (by simp) hshares

/-- The declarations of a group. -/
theorem readOff_readGroup {lead : List Char} (doc : Document) (statement : Span) (kind : ImportKind)
    (offset : Nat) (front inner tail : List Char) :
    ReadOff doc statement offset (lead ++ (front ++ '{' :: (inner ++ '}' :: tail)))
      (readGroup doc ⟨statement, kind⟩ (offset + byteLength lead) front inner) := by
  unfold readGroup
  split
  · rename_i group clauses hgroup hread
    split
    · exact readOff_nil ..
    · have hopen : ('{' : Char).utf8Size = 1 := by decide
      have hoffset : offset + byteLength lead + byteLength front + 1 =
          offset + byteLength (lead ++ (front ++ ['{'])) := by
        simp only [byteLength_append, byteLength_cons, byteLength_nil, hopen, Nat.add_assoc]
      have hbody : lead ++ (front ++ '{' :: (inner ++ '}' :: tail)) =
          (lead ++ (front ++ ['{'])) ++ (inner ++ '}' :: tail) := by simp
      have hfrom := clausesFrom_of_readClauses? hread
      have hplaces : ∀ clause ∈ clauses, ∃ pre,
          ClausePlace offset (lead ++ (front ++ '{' :: (inner ++ '}' :: tail))) pre clause := by
        intro clause hmem
        obtain ⟨pre, hplace⟩ := hfrom.exists_place hmem
        rw [hoffset] at hplace
        rw [hbody]
        exact ⟨_, hplace.within _⟩
      refine ⟨?_, ?_, ?_, ?_⟩
      · intro d hd
        obtain ⟨clause, -, rfl⟩ := List.mem_map.mp hd
        rfl
      · intro d hd
        obtain ⟨clause, -, rfl⟩ := List.mem_map.mp hd
        rw [List.length_map]
      · intro d hd
        obtain ⟨clause, hmem, rfl⟩ := List.mem_map.mp hd
        obtain ⟨pre, hplace⟩ := hplaces clause hmem
        exact hplace.standsIn (.inr ⟨_, rfl, by simp⟩) rfl (.inr (.inl rfl))
      · refine List.pairwise_map.mpr (hfrom.pairwise.imp_of_mem fun {a b} ha _ hab => ?_)
        obtain ⟨pre, hplace⟩ := hplaces a ha
        have := hplace.nameStop_le
        dsimp only
        omega
  · exact readOff_nil ..

/-! ## The body of a statement -/

/-- What stands in front of the first name or group of a statement: nothing, or the keyword of a
kind. -/
def StatementLead (lead : List Char) : Prop :=
  lead = [] ∨ ∃ g kind k g', lead = g ++ (k ++ g') ∧ (∀ c ∈ g, isBlank c = true) ∧
  IsKindKeyword kind k ∧
    g' ≠ [] ∧ ∀ c ∈ g', isBlank c = true

theorem StatementLead.lead {lead : List Char} (h : StatementLead lead) : Lead lead := by
  rcases h with rfl | ⟨g, kind, k, g', rfl, hg, hk, -, hg'⟩
  · exact .nil
  · exact (Lead.of_filler fun c hc => .inl (hg c hc)).append (.of_keyword hk hg')

theorem statementStart_split (body : List Char) :
    ∃ lead, StatementLead lead ∧ body = lead ++ (statementStart body).2.after ∧
      (statementStart body).2.offset = byteLength lead := by
  have hreach := statementStart_reaches body
  refine ⟨(statementStart body).2.before.reverse, ?_, hreach.text_eq, (byteLength_reverse _).symm⟩
  unfold statementStart
  cases hkind : kindKeyword? (atStart body).skipBlanks with
  | none => exact .inl rfl
  | some start =>
    obtain ⟨k, g, hk, hne, hg, -, hbefore⟩ := kindKeyword?_eq_some (d := start.2) hkind
    refine .inr ⟨body.takeWhile isBlank, start.1, k, g, ?_,
      fun c hc => List.mem_takeWhile_imp hc, hk, hne, hg⟩
    rw [Option.getD_some, hbefore, List.reverse_append, List.reverse_reverse]
    simp [skipBlanks, skipWhile, atStart]

/-- What the reader makes of the body of a statement. -/
theorem readBody_cases (doc : Document) (statement : Span) (offset : Nat) (body : List Char) :
    ∃ lead kind, StatementLead lead ∧
      ((∃ front, body = lead ++ front ∧ '{' ∉ front ∧
          doc.readBody statement offset body =
            readSequence doc ⟨statement, kind⟩ (offset + byteLength lead) front) ∨
        (∃ front inner tail, body = lead ++ (front ++ '{' :: (inner ++ '}' :: tail)) ∧
          '{' ∉ front ∧ '}' ∉ inner ∧
          (∀ c ∈ tail, isBlank c = true) ∧
          doc.readBody statement offset body =
            readGroup doc ⟨statement, kind⟩ (offset + byteLength lead) front inner) ∨
        doc.readBody statement offset body = []) := by
  obtain ⟨lead, hlead, hbody, hoffset⟩ := statementStart_split body
  refine ⟨lead, (statementStart body).1, hlead, ?_⟩
  have hnot : ∀ (x : Char) (cs : List Char), x ∉ cs.takeWhile (· ≠ x) := fun x cs hmem => by
    simpa using List.mem_takeWhile_imp hmem
  have hcut : ∀ {x y : Char} {cs rest : List Char}, cs.dropWhile (· ≠ x) = y :: rest →
      cs = cs.takeWhile (· ≠ x) ++ x :: rest := by
    intro x y cs rest hdrop
    obtain rfl : y = x := by
      have := List.head?_dropWhile_not (· ≠ x) cs
      rw [hdrop] at this
      simpa using this
    rw [← hdrop, List.takeWhile_append_dropWhile]
  rw [← hoffset]
  dsimp only [Document.readBody]
  generalize hafter : (statementStart body).2.after = after at hbody ⊢
  rw [drop_length_takeWhile]
  split
  · rename_i hdrop
    left
    have hall : after.takeWhile (· ≠ '{') = after := by
      have := List.takeWhile_append_dropWhile (p := (· ≠ '{')) (l := after)
      rwa [hdrop, List.append_nil] at this
    exact ⟨_, hbody.trans (by rw [hall]), hnot '{' after, rfl⟩
  · rename_i y rest hdrop
    rw [drop_length_takeWhile]
    split
    · exact .inr (.inr rfl)
    · rename_i z tail hdrop'
      split
      · rename_i hempty
        refine .inr (.inl ⟨_, _, tail, ?_, hnot '{' after, hnot '}' rest, ?_, rfl⟩)
        · rw [← hcut hdrop', ← hcut hdrop]
          exact hbody
        · obtain ⟨ws, hws, hblank⟩ := trim_split tail
          intro c hc
          rw [hws, List.isEmpty_iff.mp hempty, List.nil_append] at hc
          exact (List.mem_append.mp hc).elim (fun hc => List.mem_takeWhile_imp hc) (hblank c)
      · exact .inr (.inr rfl)

/-- **The declarations of one statement.** -/
theorem readOff_readBody (doc : Document) (statement : Span) (offset : Nat) (body : List Char) :
    ReadOff doc statement offset body (doc.readBody statement offset body) := by
  obtain ⟨lead, kind, hlead, hcases⟩ := readBody_cases doc statement offset body
  rcases hcases with ⟨front, hbody, -, hread⟩ | ⟨front, inner, tail, hbody, -, -, -, hread⟩ | hread
  · rw [hread, hbody]
    exact readOff_readSequence hlead.lead ..
  · rw [hread, hbody]
    exact readOff_readGroup ..
  · rw [hread]
    exact readOff_nil ..

/-- The body of a statement that declares something: without braces, or with one pair of them behind
which nothing is left. -/
inductive BodyShape (body : List Char) : Prop
  | sequence {lead front : List Char} : StatementLead lead → body = lead ++ front →
      '{' ∉ front → BodyShape body
  | group {lead front inner tail name : List Char} : StatementLead lead →
      body = lead ++ (front ++ '{' :: (inner ++ '}' :: tail)) → '{' ∉ front → '}' ∉ inner →
      (∀ c ∈ tail, isBlank c = true) → groupName? front = some name → BodyShape body

/-- **The statements that declare anything.** -/
theorem bodyShape_of_readBody {statement : Span} (h : doc.readBody statement offset body ≠ []) :
    BodyShape body := by
  obtain ⟨lead, kind, hlead, hcases⟩ := readBody_cases doc statement offset body
  rcases hcases with ⟨front, hbody, hopen, -⟩ |
      ⟨front, inner, tail, hbody, hopen, hclose, htail, hread⟩ | hread
  · exact .sequence hlead hbody hopen
  · cases hgroup : groupName? front with
    | some name => exact .group hlead hbody hopen hclose htail hgroup
    | none =>
      refine absurd ?_ h
      rw [hread, readGroup, hgroup]
  · exact absurd hread h

end UseImports
