import UseImports.Proofs.Declaration.Classes
import UseImports.Proofs.Declaration.Grammar

/-!
# What the searches for clauses find

Namespaces and classes (`namespace`, `declared_classes`) are searched for from left to right, and
the search goes on behind what it has found. Of namespaces nothing is lost by this: a clause ends at
the first semicolon or brace behind its keyword, and the last word in front of that is its name, so
no clause begins inside of another one. A class keyword can be the name in the clause of
another class keyword, and then it is found only if the other one is not.

* `NamespaceAt.exists_clause`, `mem_namespaceBraces_iff`: **every namespace clause is found**, and
  so is its brace.
* `NamespaceBegins`, `exists_ownNamespace_iff`: the namespace of a document is the first that begins
  a statement.
* `ClassFound`, `ClassAt.found_iff`: **a class keyword is found, unless the one in front of it is.**
* `mem_classSpans_iff`: the classes of a document.
-/

namespace UseImports

open Cursor

variable {c : Cursor} {code g g' k k' name P R R' : List Char} {e : Char}

/-! ## Namespaces -/

namespace NamespaceAt

variable {P' g₁ name' g₁' : List Char} {e' : Char}

theorem head_isBlank (h : NamespaceAt code P k g name g' e R) :
    ∀ c ∈ (name ++ (g' ++ e :: R)).head?, isBlank c = false := by
  intro c hc
  rw [List.head?_append_of_ne_nil _ h.path.ne_nil] at hc
  exact h.path.not_isBlank c (List.mem_of_mem_head? hc)

theorem delimiter_isBlank (h : NamespaceAt code P k g name g' e R) : isBlank e = false := by
  rcases h.ends with rfl | rfl <;> decide

/-- The name does not go on behind its end. -/
theorem nameRest_eq (h : NamespaceAt code P k g name g' e R) : nameRest (g' ++ e :: R) = 0 := by
  have hends : ∀ {c : Char} {cs : List Char}, isWordChar c = false → c ≠ '\\' →
      nameRest (c :: cs) = 0 := by
    intro c cs hword hslash
    rw [nameRest_cons, hword]
    simp [hslash]
  cases hg : g' with
  | nil => rcases h.ends with rfl | rfl <;> exact hends (by decide) (by decide)
  | cons c g' =>
    have hc := h.behind c (hg ▸ List.mem_cons_self)
    refine hends (isWordChar_of_isBlank hc) ?_
    rintro rfl
    rw [isBlank_backslash] at hc
    cases hc

/-- **What is written like a namespace clause is read as one.** -/
theorem exists_read (h : NamespaceAt code P k g name g' e R) : ∃ n,
    namespaceClause? ⟨P.reverse, k ++ (g ++ (name ++ g')) ++ e :: R⟩ = some (n, n.stop) ∧
      n.start = ⟨P.reverse, k ++ (g ++ (name ++ g')) ++ e :: R⟩ ∧
      n.delimiter = ⟨(P ++ (k ++ (g ++ (name ++ g')))).reverse, e :: R⟩ := by
  have hstart : atWordStart ⟨P.reverse, k ++ (g ++ (name ++ (g' ++ e :: R)))⟩ = true := by
    simpa [atWordStart, List.head?_reverse] using h.front
  have hkeyword : keyword? ["namespace"] ⟨P.reverse, k ++ (g ++ (name ++ (g' ++ e :: R)))⟩ =
      some ⟨k.reverse ++ P.reverse, g ++ (name ++ (g' ++ e :: R))⟩ := by
    rw [keyword?, if_pos hstart, oneOf?, List.findSome?_cons, folded?_append h.keyword]
  have hgap := blanks?_gap h.gap h.gap_ne (k.reverse ++ P.reverse) (name ++ (g' ++ e :: R))
  rw [skipBlanks_of_visible h.head_isBlank] at hgap
  have hname :=
    qualifiedName?_of_isPath h.path h.nameRest_eq (g.reverse ++ (k.reverse ++ P.reverse))
  have hskip : skipBlanks ⟨name.reverse ++ (g.reverse ++ (k.reverse ++ P.reverse)), g' ++ e :: R⟩ =
      ⟨g'.reverse ++ (name.reverse ++ (g.reverse ++ (k.reverse ++ P.reverse))), e :: R⟩ := by
    rw [skipBlanks_gap h.behind, skipBlanks_of_visible]
    simpa using h.delimiter_isBlank
  have hend : (e == ';' || e == '{') = true := by simpa using h.ends
  simp [namespaceClause?, hkeyword, hgap, hname, hskip, char?, hend, advance]

/-- No clause begins inside of another one: both would end at the same place, and with the same
name. -/
theorem eq_of_overlap (h : NamespaceAt code P k g name g' e R)
    (h' : NamespaceAt code P' k' g₁ name' g₁' e' R') (hle : P.length ≤ P'.length)
    (hle' : P'.length ≤ (P ++ (k ++ (g ++ (name ++ g')))).length) : P = P' := by
  have hstop : ∀ {c : Char}, c = ';' ∨ c = '{' → isStop c = true := by
    rintro c (rfl | rfl) <;> decide
  have htext : code = (P ++ (k ++ (g ++ (name ++ g')))) ++ e :: R := by simp [h.text]
  have htext' : code = (P' ++ (k' ++ (g₁ ++ (name' ++ g₁')))) ++ e' :: R' := by simp [h'.text]
  obtain ⟨z, hz⟩ : P <+: P' :=
    List.prefix_of_prefix_length_le ⟨_, h.text.symm⟩ ⟨_, h'.text.symm⟩ hle
  obtain ⟨z', hz'⟩ : P' <+: P ++ (k ++ (g ++ (name ++ g'))) :=
    List.prefix_of_prefix_length_le ⟨_, h'.text.symm⟩ ⟨_, htext.symm⟩ hle'
  have hsame : P ++ (k ++ (g ++ (name ++ g'))) = P' ++ (k' ++ (g₁ ++ (name' ++ g₁'))) := by
    rcases append_eq_append_cases (htext.symm.trans htext') with ⟨t, hbehind, hrest⟩ |
        ⟨x, t, hfront, hrest⟩
    · cases t with
      | nil => rw [hbehind, List.append_nil]
      | cons x t =>
        obtain rfl := (List.cons.inj hrest).1
        rw [← hz', List.append_assoc] at hbehind
        have hmem : e ∈ k' ++ (g₁ ++ (name' ++ g₁')) := by
          rw [List.append_cancel_left hbehind]
          simp
        have := h'.not_isStop e hmem
        rw [hstop h.ends] at this
        cases this
    · obtain rfl := (List.cons.inj hrest).1
      rw [← hz, List.append_assoc, List.append_assoc] at hfront
      have hmem : e' ∈ k ++ (g ++ (name ++ g')) := by rw [List.append_cancel_left hfront]; simp
      have := h.not_isStop e' hmem
      rw [hstop h'.ends] at this
      cases this
  have hbefore : ∀ {code P k g name g' R : List Char} {e : Char},
      NamespaceAt code P k g name g' e R →
      beforeLastWord (P ++ (k ++ (g ++ (name ++ g')))) = (P ++ k).reverse :=
        fun {_ P k g name g' R e} h => by
    rw [← List.append_assoc]
    refine beforeLastWord_append (fun c hc =>
      ?_) h.gap (.inl h.gap_ne) h.path.ne_nil h.path.not_isBlank h.behind
    have hne : k ≠ [] := by
      rintro rfl
      cases h.keyword
    rw [List.getLast?_append_of_ne_nil _ hne] at hc
    exact (plain_of_folded (by decide) h.keyword c (List.mem_of_getLast? hc)).2
  have hlength := congrArg List.length (h.keyword.trans h'.keyword.symm)
  rw [List.length_map, List.length_map] at hlength
  have hword := (hbefore h).symm.trans ((congrArg beforeLastWord hsame).trans (hbefore h'))
  exact (List.append_inj' (List.reverse_injective hword) hlength).1

theorem prefix_length (h : NamespaceAt code P k g name g' e R)
    (h' : NamespaceAt code P' k' g₁ name' g₁' e' R') (hlength : P.length = P'.length) : P = P' :=
  (List.append_inj (h.text.symm.trans h'.text) hlength).1

end NamespaceAt

theorem of_namespaceClause? {d : Cursor} {n : NamespaceClause}
    (h : namespaceClause? c = some (n, d)) : (n.start, n.stop) = (c, d) ∧ c.Reaches d := by
  obtain ⟨-, -, -, -, -, -, hstart, hstop⟩ := namespaceClause?_eq_some h
  exact ⟨Prod.ext hstart hstop, located_namespaceClause.forward h⟩

/-- **Every namespace clause is found.** -/
theorem NamespaceAt.exists_clause (h : NamespaceAt code P k g name g' e R) :
    ∃ n ∈ (atStart code).findAll namespaceClause?, n.start.before = P.reverse ∧
      n.delimiter = ⟨(P ++ (k ++ (g ++ (name ++ g')))).reverse, e :: R⟩ := by
  obtain ⟨n, hread, hstart, hdelimiter⟩ := h.exists_read
  have hcode : code = (Cursor.mk P.reverse (k ++ (g ++ (name ++ g')) ++ e :: R)).text := by
    simp [Cursor.text, h.text]
  rcases mem_findAll_or (p := fun n : NamespaceClause =>
      (n.start, n.stop)) of_namespaceClause? hread (by simp) hcode with
    hmem | ⟨x, hx, hlt, hlt'⟩
  · exact ⟨n, hmem, by rw [hstart], hdelimiter⟩
  · -- a clause that reaches over this one would be this one
    obtain ⟨k', g₁, name', g₁', e', hx'⟩ := exists_namespaceText hx
    dsimp only at hlt hlt'
    have hlength := congrArg List.length hx'.delimiter
    rw [List.length_reverse] at hlength hlt hlt'
    rw [hx'.stop, List.length_cons, hlength] at hlt'
    have heq := hx'.toNamespaceAt.eq_of_overlap h (by rw [List.length_reverse]; omega) (by omega)
    rw [← heq, List.length_reverse] at hlt
    exact absurd hlt (Nat.lt_irrefl _)

/-- The braces of namespaces are those of namespace clauses. -/
theorem mem_namespaceBraces_iff {o : Nat} : o ∈ namespaceBraces code ↔
    ∃ P k g name g' R, NamespaceAt code P k g name g' '{' R ∧
      o = byteLength (P ++ (k ++ (g ++ (name ++ g')))) := by
  constructor
  · intro h
    obtain ⟨n, hn, rfl⟩ := List.mem_map.mp h
    obtain ⟨hmem, hbraced⟩ := List.mem_filter.mp hn
    obtain ⟨k, g, name, g', e, hclause⟩ := exists_namespaceText hmem
    obtain rfl : e = '{' := by
      have htext : code = n.delimiter.before.reverse ++ n.delimiter.after :=
        (delimiter_of_mem hmem).1.text_eq
      have hafter : n.delimiter.after = e :: n.stop.after := by
        refine List.append_cancel_left (htext.symm.trans ?_)
        rw [hclause.delimiter, List.append_assoc]
        exact hclause.text
      rw [NamespaceClause.braced, hafter] at hbraced
      simpa using hbraced
    refine ⟨_, k, g, name, g', _, hclause.toNamespaceAt, ?_⟩
    rw [← hclause.delimiter, byteLength_reverse]
    rfl
  · rintro ⟨P, k, g, name, g', R, h, rfl⟩
    obtain ⟨n, hmem, -, hdelimiter⟩ := h.exists_clause
    refine List.mem_map.mpr ⟨n, List.mem_filter.mpr ⟨hmem, ?_⟩, ?_⟩
    · rw [NamespaceClause.braced, hdelimiter]
      rfl
    · rw [hdelimiter, offset, byteLength_reverse]

/-- A namespace clause begins a statement behind the text. -/
def NamespaceBegins (code P : List Char) : Prop :=
  Opens P.reverse ∧ ∃ k g name g' e R, NamespaceAt code P k g name g' e R

theorem startsStatement_of_opens (hstart : c.before = P.reverse) (h : Opens P.reverse) :
    c.startsStatement = true := by
  unfold startsStatement
  rw [hstart]
  exact h

/-- The first clause that begins a statement and is found is the first one there is. -/
theorem namespaceBegins_of_find? {c : NamespaceClause}
    (h : ((atStart code).findAll namespaceClause?).find? (·.start.startsStatement) = some c) :
    NamespaceBegins code c.start.before.reverse ∧
      ∀ P, NamespaceBegins code P → c.start.before.reverse.length ≤ P.length := by
  obtain ⟨hstarts, as, bs, hlist, has⟩ := List.find?_eq_some_iff_append.mp h
  have hmem : c ∈ (atStart code).findAll namespaceClause? := by rw [hlist]; simp
  obtain ⟨k, g, name, g', e, hclause⟩ := exists_namespaceText hmem
  have hopens : Opens c.start.before.reverse.reverse := by
    rw [List.reverse_reverse]
    exact hstarts
  refine ⟨⟨hopens, k, g, name, g', e, _, hclause.toNamespaceAt⟩, ?_⟩
  rintro P ⟨hopens, k', g₁, name', g₁', e', R', h'⟩
  obtain ⟨n, hn, hstart, -⟩ := h'.exists_clause
  have hpairs :=
    (@findFrom_pairwise NamespaceClause (fun n =>
    (n.start, n.stop)) _ of_namespaceClause? 0 [] code).2
  change ((atStart code).findAll namespaceClause?).Pairwise _ at hpairs
  rw [hlist] at hn hpairs
  rcases List.mem_append.mp hn with hn | hn
  · -- a clause in front begins no statement
    have hnot := has n hn
    rw [startsStatement_of_opens hstart hopens] at hnot
    cases hnot
  · have hlength := congrArg List.length hstart
    rw [List.length_reverse] at hlength
    rw [List.length_reverse, ← hlength]
    rcases List.mem_cons.mp hn with rfl | hn
    · exact Nat.le_refl _
    · have hbehind := (List.pairwise_cons.mp (List.pairwise_append.mp hpairs).2.1).1 n hn
      dsimp only at hbehind
      have hsize := congrArg List.length hclause.stop
      have hsize' := congrArg List.length hclause.delimiter
      simp only [List.length_reverse, List.length_cons, List.length_append] at hsize hsize'
      omega

/-- **The namespace of a document is the first clause that begins a statement.** -/
theorem exists_ownNamespace_iff {text code : List Char} {o : Nat} :
    (∃ n, (Document.mk text code).ownNamespace? = some n ∧ n.statement.start = o) ↔
      ∃ P, NamespaceBegins code P ∧ (∀ P', NamespaceBegins code P' → P.length ≤ P'.length) ∧
        o = byteLength P := by
  constructor
  · rintro ⟨n, hn, rfl⟩
    obtain ⟨c, hc, rfl⟩ := Option.map_eq_some_iff.mp hn
    obtain ⟨hbegins, hleast⟩ := namespaceBegins_of_find? hc
    exact ⟨_, hbegins, hleast, by rw [byteLength_reverse]; rfl⟩
  · rintro ⟨P, hbegins, hleast, rfl⟩
    obtain ⟨hopens, k, g, name, g', e, R, h⟩ := id hbegins
    obtain ⟨n, hmem, hstart, -⟩ := h.exists_clause
    have hsome :
        (((atStart code).findAll namespaceClause?).find? (·.start.startsStatement)).isSome = true :=
      List.find?_isSome.mpr ⟨n, hmem, startsStatement_of_opens hstart hopens⟩
    obtain ⟨c, hc⟩ := Option.isSome_iff_exists.mp hsome
    obtain ⟨hbegins', hleast'⟩ := namespaceBegins_of_find? hc
    refine ⟨_, Option.map_eq_some_iff.mpr ⟨c, hc, rfl⟩, ?_⟩
    have hlength := Nat.le_antisymm (hleast' P hbegins) (hleast _ hbegins')
    obtain ⟨-, k', g₁, name', g₁', e', R', h'⟩ := hbegins'
    rw [← h'.prefix_length h hlength, byteLength_reverse]
    rfl

/-! ## Classes -/

theorem oneOf?_append {words : List String} {w : String} {u : List Char} (hw : w ∈ words)
    (hfold : u.map foldLetter = w.toList) (hne : u ≠ [])
    (hheads : ∀ w' ∈ words, w' ≠ w → w'.toList.head? ≠ none ∧ w'.toList.head? ≠ w.toList.head?)
    (B rest : List Char) :
    oneOf? words ⟨B, u ++ rest⟩ = some ⟨u.reverse ++ B, rest⟩ := by
  unfold oneOf?
  induction words with
  | nil => cases hw
  | cons w' words ih =>
    rw [List.findSome?_cons]
    by_cases heq : w' = w
    · rw [heq, folded?_append hfold]
    · obtain ⟨hsome, hhead⟩ := hheads w' List.mem_cons_self heq
      have hnone : folded? w' ⟨B, u ++ rest⟩ = none := folded?_neg fun htake => by
        obtain ⟨c, u, rfl⟩ := List.exists_cons_of_ne_nil hne
        rw [← hfold, ← htake] at hhead
        cases hw' : w'.toList.length with
        | zero =>
          rw [List.length_eq_zero_iff.mp hw'] at hsome
          exact hsome rfl
        | succ n => simp [hw'] at hhead
      rw [hnone]
      exact ih ((List.mem_cons.mp hw).resolve_left (Ne.symm heq)) fun w'' hw'' =>
        hheads w'' (List.mem_cons_of_mem _ hw'')

/-- The place behind the text is found by the search for class keywords. -/
def ClassFound (code P : List Char) : Prop :=
  ∃ k g v R, ClassAt code P k g v R ∧ classPlace P k g v R ∈ (atStart code).findAll classClause?

/-- A class keyword and white space stand at the end of the text. -/
structure ClassLead (P P₀ k g : List Char) : Prop where
  text : P = P₀ ++ (k ++ g)
  front : P₀.getLast?.any isWordChar = false
  keyword : ∃ w ∈ classWords, k.map foldLetter = w.toList
  gap_ne : g ≠ []
  gap : ∀ c ∈ g, isBlank c = true

namespace ClassAt

variable {v v' P₀ k₀ g₀ : List Char}

theorem read (h : ClassAt code P k g v R) : classClause? ⟨P.reverse, k ++ (g ++ (v ++ R))⟩ =
    some (classPlace P k g v R, ⟨(P ++ (k ++ (g ++ v))).reverse, R⟩) := by
  have hstart : atWordStart ⟨P.reverse, k ++ (g ++ (v ++ R))⟩ = true := by
    simpa [atWordStart, List.head?_reverse] using h.front
  obtain ⟨w, hw, hfold⟩ := h.keyword
  have hheads : ∀ w ∈ classWords, ∀ w' ∈ classWords, w' ≠ w →
      w'.toList.head? ≠ none ∧ w'.toList.head? ≠ w.toList.head? := by decide
  have hkeyword : keyword? classWords ⟨P.reverse, k ++ (g ++ (v ++ R))⟩ =
      some ⟨k.reverse ++ P.reverse, g ++ (v ++ R)⟩ := by
    rw [keyword?, if_pos hstart, oneOf?_append hw hfold h.keyword_ne (hheads w hw)]
  have hvisible : ∀ c ∈ (v ++ R).head?, isBlank c = false := fun c hc => by
    rw [List.head?_append_of_ne_nil _ h.word.ne_nil] at hc
    exact isBlank_of_isWordChar (h.word.word c (List.mem_of_mem_head? hc))
  have hgap := blanks?_gap h.gap h.gap_ne (k.reverse ++ P.reverse) (v ++ R)
  rw [skipBlanks_of_visible hvisible] at hgap
  have hident : ident? ⟨g.reverse ++ (k.reverse ++ P.reverse), v ++ R⟩ =
      some ⟨v.reverse ++ (g.reverse ++ (k.reverse ++ P.reverse)), R⟩ := by
    have hstop : R.takeWhile isWordChar = [] ∧ R.dropWhile isWordChar = R := by
      cases hR : R with
      | nil => exact ⟨rfl, rfl⟩
      | cons c R =>
        have hc : isWordChar c = false := by simpa [hR] using h.rest
        simp [hc]
    rw [ident?, if_pos (beginsIdent_append h.word.begins R), skipWhile,
      List.takeWhile_append_of_pos h.word.word, List.dropWhile_append_of_pos h.word.word, hstop.1,
      hstop.2, List.append_nil]
  unfold classWords at hkeyword
  simp [classClause?, hkeyword, hgap, hident, classPlace]

/-- What stands behind a place is known. -/
theorem unique (h : ClassAt code P k g v R) (h' : ClassAt code P k' g' v' R') :
    k = k' ∧ g = g' ∧ v = v' ∧ R = R' := by
  have hblank : ∀ {g x : List Char}, g ≠ [] → (∀ c ∈ g, isBlank c = true) →
      (g ++ x).head?.any isWordChar = false :=
    fun {g x} hne hg => by
      obtain ⟨c, g, rfl⟩ := List.exists_cons_of_ne_nil hne
      simpa using isWordChar_of_isBlank (hg c List.mem_cons_self)
  have hword : ∀ {v x : List Char}, IsIdent v → (v ++ x).head?.any isBlank = false :=
    fun {v x} hv => by
    obtain ⟨c, v, rfl⟩ := List.exists_cons_of_ne_nil hv.ne_nil
    simpa using isBlank_of_isWordChar (hv.word c List.mem_cons_self)
  obtain ⟨rfl, hgap⟩ := eq_of_runs (List.append_cancel_left (h.text.symm.trans h'.text))
    h.isWordChar_keyword
    h'.isWordChar_keyword (hblank h.gap_ne h.gap) (hblank h'.gap_ne h'.gap)
  obtain ⟨rfl, hname⟩ := eq_of_runs hgap h.gap h'.gap (hword h.word) (hword h'.word)
  obtain ⟨rfl, rfl⟩ := eq_of_runs hname h.word.word h'.word.word h.rest h'.rest
  exact ⟨rfl, rfl, rfl, rfl⟩

/-- The keyword is the name for a class keyword in front of it. -/
theorem lead (h : ClassAt code P k g v R) (hlead : ClassLead P P₀ k₀ g₀) :
    ClassAt code P₀ k₀ g₀ k (g ++ (v ++ R)) := by
  refine ⟨?_, hlead.front, hlead.keyword, hlead.gap_ne, hlead.gap, h.isIdent_keyword, ?_⟩
  · rw [h.text, hlead.text]
    simp only [List.append_assoc]
  · obtain ⟨c, g, rfl⟩ := List.exists_cons_of_ne_nil h.gap_ne
    simpa using isWordChar_of_isBlank (h.gap c List.mem_cons_self)

/-- A place inside of a class keyword with its name, where a class keyword can stand, is that of the
name. -/
theorem lead_of_inside (h : ClassAt code P k g v R) (h' : ClassAt code P₀ k₀ g₀ v' R')
    (hlt : P₀.length < P.length) (hlt' : P.length < (P₀ ++ (k₀ ++ (g₀ ++ v'))).length) :
    ClassLead P P₀ k₀ g₀ := by
  obtain ⟨t, rfl⟩ : P₀ <+: P :=
    List.prefix_of_prefix_length_le ⟨_, h'.text.symm⟩ ⟨_, h.text.symm⟩ hlt.le
  have htext : t ++ (k ++ (g ++ (v ++ R))) = k₀ ++ (g₀ ++ (v' ++ R')) := by
    refine List.append_cancel_left (h'.text.symm.trans (h.text.trans ?_)).symm
    rw [List.append_assoc]
  have hlast : ∀ {x y : List Char}, t = x ++ y → y ≠ [] → ∃ c ∈ y, isWordChar c = false :=
    fun {x y} ht hne => by
    have hfront := h.front
    rw [ht, ← List.append_assoc, List.getLast?_append_of_ne_nil _ hne,
      List.getLast?_eq_some_getLast hne] at hfront
    exact ⟨_, List.getLast_mem hne, hfront⟩
  have hword : ∀ {x : Char}, isWordChar x = true → isWordChar x = false → False := fun hx hx' => by
    rw [hx] at hx'
    cases hx'
  have hne : t ≠ [] := by
    rintro rfl
    simp at hlt
  refine ⟨?_, h'.front, h'.keyword, h'.gap_ne, h'.gap⟩
  rcases append_eq_append_cases htext with ⟨z, hk, -⟩ | ⟨x, z, rfl, hrest⟩
  · -- inside of the keyword
    obtain ⟨c, hc, hnot⟩ := hlast (List.nil_append t).symm hne
    exact (hword (h'.isWordChar_keyword c (by rw [hk]; exact List.mem_append_left _ hc)) hnot).elim
  rcases append_eq_append_cases hrest.symm with ⟨z', hg, hbehind⟩ | ⟨y, z', hz, hbehind⟩
  · cases z' with
    | nil => rw [hg, List.append_nil]
    | cons c z' =>
      -- inside of the white space
      obtain ⟨c', k, rfl⟩ := List.exists_cons_of_ne_nil h.keyword_ne
      obtain rfl : c' = c := (List.cons.inj hbehind).1
      have hblank := h'.gap c' (by rw [hg]; simp)
      exact (hword (h.isWordChar_keyword c' List.mem_cons_self) (isWordChar_of_isBlank hblank)).elim
  · -- inside of the name
    rcases append_eq_append_cases hbehind with ⟨z'', hname, -⟩ | ⟨c', z'', hname, -⟩
    · rw [hz, hname] at hlt'
      simp only [List.length_append] at hlt'
      omega
    · obtain ⟨c, hc, hnot⟩ := hlast (x := k₀ ++ g₀) (y := y :: z') (by rw [hz, List.append_assoc])
        (List.cons_ne_nil y z')
      exact (hword (h'.word.word c (by rw [hname]; exact List.mem_append_left _ hc)) hnot).elim

/-- **A class keyword is found, unless it is the name of another one that is found.** -/
theorem found_iff (h : ClassAt code P k g v R) :
    ClassFound code P ↔ ∀ P₀ k₀ g₀, ClassLead P P₀ k₀ g₀ → ¬ ClassFound code P₀ := by
  have hplace : ∀ {c d : Cursor} {place : Cursor × Cursor × Cursor}, classClause? c =
      some (place, d) →
      (place.1, place.2.2) = (c, d) ∧ c.Reaches d := fun {c d place} hread => by
    refine ⟨?_, located_classClause.forward hread⟩
    simp only [classClause?, Option.bind_eq_bind, Option.bind_eq_some_iff] at hread
    obtain ⟨_, -, _, -, _, -, heq⟩ := hread
    cases heq
    rfl
  constructor
  · rintro ⟨k', g', v', R', h', hmem⟩ P₀ k₀ g₀ hlead ⟨k₁, g₁, v₁, R₁, h₁, hmem₁⟩
    obtain ⟨rfl, rfl, rfl, rfl⟩ := h₁.unique (h'.lead hlead)
    have hpairs := (@findFrom_pairwise _ (fun place : Cursor × Cursor × Cursor =>
      (place.1, place.2.2)) _ hplace 0 [] code).2
    have happart := List.Pairwise.forall_of_forall_of_flip
      (R := fun x y : Cursor × Cursor × Cursor => x = y ∨ x.2.2.before.length ≤ y.1.before.length ∨
        y.2.2.before.length ≤ x.1.before.length) (fun _ _ => .inl rfl) (hpairs.imp fun hle =>
          .inr (.inl hle))
      (hpairs.imp fun hle => .inr (.inr hle)) hmem₁ hmem
    have hlength := congrArg List.length hlead.text
    have hpos := List.length_pos_iff.mpr h'.keyword_ne
    have hpos' := List.length_pos_iff.mpr h₁.keyword_ne
    simp only [classPlace, List.length_reverse, List.length_append, Prod.mk.injEq, Cursor.mk.injEq,
      List.reverse_inj] at happart hlength
    rcases happart with ⟨⟨rfl, -⟩, -⟩ | hle | hle <;> omega
  · intro hfree
    have hcode : code = (Cursor.mk P.reverse (k ++ (g ++ (v ++ R)))).text := by
      simp [Cursor.text, h.text]
    rcases mem_findAll_or (p := fun place : Cursor × Cursor × Cursor =>
        (place.1, place.2.2)) hplace h.read
      (List.append_ne_nil_of_left_ne_nil h.keyword_ne _) hcode with hmem | ⟨x, hx, hlt, hlt'⟩
    · exact ⟨k, g, v, R, h, hmem⟩
    · obtain ⟨P₀, k₀, g₀, v₀, R₀, h₀, rfl⟩ := exists_classAt hx
      simp only [classPlace, List.length_reverse] at hlt hlt'
      exact absurd ⟨k₀, g₀, v₀, R₀, h₀, hx⟩ (hfree P₀ k₀ g₀ (h.lead_of_inside h₀ hlt hlt'))

end ClassAt

theorem classSpans_eq_filterMap (text code : List Char) : (Document.mk text code).classSpans =
    ((atStart code).findAll classClause?).filterMap fun place =>
      if place.1.before.take 2 == [':',
        ':'] || isReserved (String.ofList (place.2.1.upTo place.2.2)) then none
      else some (place.2.1.spanTo place.2.2) := by
  unfold Document.classSpans Document.classNames
  rw [List.map_filterMap]
  refine List.filterMap_congr fun place _ => ?_
  dsimp only
  split <;> rfl

theorem spanTo_classPlace (P k g v R : List Char) :
    (classPlace P k g v R).2.1.spanTo (classPlace P k g v R).2.2 =
    ⟨byteLength (P ++ (k ++ g)), byteLength (P ++ (k ++ (g ++ v)))⟩ := by
  simp only [classPlace, spanTo, offset, byteLength_reverse]

/-- **The classes of a document** are those whose keyword is found, without a double colon in front,
and whose name is not reserved. -/
theorem mem_classSpans_iff {text code : List Char} {span : Span} :
    span ∈ (Document.mk text code).classSpans ↔
    ∃ P k g v R, ClassAt code P k g v R ∧ ClassFound code P ∧
      (P.reverse.take 2 == [':', ':']) = false ∧
      isReserved (String.ofList v) = false ∧
        span = ⟨byteLength (P ++ (k ++ g)), byteLength (P ++ (k ++ (g ++ v)))⟩ := by
  rw [classSpans_eq_filterMap]
  constructor
  · intro h
    obtain ⟨place, hplace, hspan⟩ := List.mem_filterMap.mp h
    obtain ⟨P, k, g, v, R, hat, rfl⟩ := exists_classAt hplace
    rw [upTo_classPlace] at hspan
    split at hspan
    · cases hspan
    · rename_i hfree
      rw [Bool.not_eq_true, Bool.or_eq_false_iff] at hfree
      refine ⟨P, k, g, v, R, hat, ⟨k, g, v, R, hat, hplace⟩, hfree.1, hfree.2, ?_⟩
      rw [← Option.some.inj hspan, spanTo_classPlace]
  · rintro ⟨P, k, g, v, R, hat, ⟨k', g', v', R', hat', hfound⟩, hcolons, hfree, rfl⟩
    obtain ⟨rfl, rfl, rfl, rfl⟩ := hat'.unique hat
    refine List.mem_filterMap.mpr ⟨_, hfound, ?_⟩
    rw [upTo_classPlace, spanTo_classPlace, if_neg]
    · rw [Bool.not_eq_true, Bool.or_eq_false_iff]
      exact ⟨hcolons, hfree⟩

end UseImports
