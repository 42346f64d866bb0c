import UseImports.Proofs.Code.References

/-!
# Typed parameters around a run

The attribute in front of a typed parameter reaches up to the next closing bracket, so a phrase that
begins in front of a run of imports may end behind it. But no bracket stands in a run, so it does
not matter which run that is.

* `closeBracket?`: the place behind the bracket that closes an attribute.
* `findFrom_parameter`: the phrases in front of a run and behind it, whatever the run is.
* `aroundRuns_parameter`: **the typed parameters around a run.**
-/

namespace UseImports

open Placed Cursor

variable {before q y z : List Char} {c d : Cursor} {p : Phrase}

/-! ## Attributes -/

/-- The place behind the next closing bracket and the white space behind that. -/
def closeBracket? (c : Cursor) : Option Cursor :=
  ((c.skipWhile (· ≠ ']')).literal? "]").map skipBlanks

theorem attributeGroup?_eq (c : Cursor) :
    attributeGroup? c = (c.literal? "#[").bind closeBracket? := by
  unfold attributeGroup? closeBracket?
  cases c.literal? "#[" with
  | none => rfl
  | some d =>
    dsimp only [Option.bind_eq_bind, Option.bind_some]
    cases (d.skipWhile (· ≠ ']')).literal? "]" <;> rfl

theorem within_nil (c : Cursor) : c.within [] [] = c := by
  simp [within]

theorem skipWhile_front (p : Char → Bool) (B : List Char) (c : Cursor) :
    (c.within B []).skipWhile p = (c.skipWhile p).within B [] := by
  simp [skipWhile, within]

theorem literal?_front (s : String) (B : List Char) (c : Cursor) :
    (c.within B []).literal? s = (c.literal? s).map (within B []) := by
  unfold literal?
  rw [within_after, List.append_nil, within_advance (.inl rfl)]
  split <;> rfl

theorem closeBracket?_front (B : List Char) (c : Cursor) :
    closeBracket? (c.within B []) = (closeBracket? c).map (within B []) := by
  unfold closeBracket?
  rw [skipWhile_front, literal?_front]
  cases (c.skipWhile (· ≠ ']')).literal? "]" with
  | none => rfl
  | some d => exact congrArg some (skipWhile_front isBlank B d)

theorem attributeGroup?_front (B : List Char) (c : Cursor) :
    attributeGroup? (c.within B []) = (attributeGroup? c).map (within B []) := by
  rw [attributeGroup?_eq, attributeGroup?_eq, literal?_front]
  cases c.literal? "#[" with
  | none => rfl
  | some d => exact closeBracket?_front B d

/-- A text without a closing bracket is passed over. -/
theorem closeBracket?_skip (hy : ']' ∉ y) (before q : List Char) :
    closeBracket? ⟨before, y ++ q⟩ =
      (closeBracket? (atStart q)).map (within (y.reverse ++ before) []) := by
  have hall : ∀ c ∈ y, decide (c ≠ ']') = true := by
    intro c hc
    rw [decide_eq_true_eq]
    rintro rfl
    exact hy hc
  have hskip : (Cursor.mk before (y ++ q)).skipWhile (· ≠ ']') =
      ((atStart q).within (y.reverse ++ before) []).skipWhile (· ≠ ']') := by
    simp only [skipWhile, within, atStart, List.takeWhile_append_of_pos hall,
      List.dropWhile_append_of_pos hall, List.append_nil, List.nil_append, List.reverse_append,
      List.append_assoc]
  rw [← closeBracket?_front]
  unfold closeBracket?
  rw [hskip]

/-- A closing bracket in the piece is found there. -/
theorem closeBracket?_piece (hy : Stopped y) (hmem : ']' ∈ y) (before X : List Char) :
    closeBracket? ⟨before, y ++ X⟩ = (closeBracket? ⟨before, y⟩).map (within [] X) ∧
      ∀ d, closeBracket? ⟨before, y⟩ = some d → Fits X d := by
  have hfail : ∃ c ∈ y, decide (c ≠ ']') = false := ⟨']', hmem, by decide⟩
  have hskip : (Cursor.mk before (y ++ X)).skipWhile (· ≠ ']') =
      ((Cursor.mk before y).skipWhile (· ≠ ']')).within [] X := by
    simp only [skipWhile, within]
    rw [takeWhile_append_of_mem hfail, dropWhile_append_of_mem hfail]
    simp
  have hne : y.dropWhile (· ≠ ']') ≠ [] := by
    intro hnil
    have := List.dropWhile_eq_nil_iff.mp hnil ']' hmem
    exact absurd this (by decide)
  have hstop : Stopped ((Cursor.mk before y).skipWhile (· ≠ ']')).after :=
    hy.of_suffix (List.dropWhile_suffix _) hne
  have hlit : Confined (literal? "]") := confined_literal (by decide)
  unfold closeBracket?
  rw [hskip, hlit.within opens_nil (.inr hstop)]
  cases hd : ((Cursor.mk before y).skipWhile (· ≠ ']')).literal? "]" with
  | none => exact ⟨rfl, fun d h => by cases h⟩
  | some e =>
    have hfits : Fits X e := .inr (hlit.stopped hd hstop)
    refine ⟨congrArg some (within_skipBlanks hfits), fun d h => ?_⟩
    cases h
    exact fits_skipBlanks hfits

/-! ## Phrases without an attribute -/

/-- A typed parameter without an attribute. -/
def bareParameter? (c : Cursor) : Option (Phrase × Cursor) :=
  (c.char? fun d => d == '(' || d == ',').bind fun inner => parameterTail? inner.skipBlanks

theorem halts_parameter : Halts fun d => d == '(' || d == ',' :=
  halts_or_beq (by decide) (by decide)

theorem readsPhrase_bareParameter : ReadsPhrase bareParameter? :=
  .bind (confined_char halts_parameter) (.bind confined_skipBlanks readsPhrase_parameterTail)

theorem char?_atSpace {c : Char} (hc : isSpace c = true) (before after : List Char) :
    (Cursor.mk before (c :: after)).char? (fun d => d == '(' || d == ',') = none := by
  have : (c == '(' || c == ',') = false := by
    rcases isSpace_cases hc with rfl | rfl | rfl | rfl | rfl <;> decide
  simp [char?, this]

theorem located_bareParameter : Located bareParameter? :=
  readsPhrase_bareParameter.located fun hc => by
    rw [bareParameter?, char?_atSpace hc]
    rfl

theorem parameterPhrase?_atSpace {c : Char} (hc : isSpace c = true) (before after : List Char) :
    parameterPhrase? ⟨before, c :: after⟩ = none := by
  rw [parameterPhrase?_eq, char?_atSpace hc]
  rfl

theorem parameterPhrase?_front {B : List Char} (hB : Opens B) (c : Cursor) :
    parameterPhrase? (c.within B []) = (parameterPhrase? c).map (move B []) := by
  rw [parameterPhrase?_eq, parameterPhrase?_eq, within_char? (fits_nil c)]
  cases c.char? fun d => d == '(' || d == ',' with
  | none => rfl
  | some inner =>
    have hstart : ((inner.within B []).skipBlanks.optional attributeGroup?) =
        (inner.skipBlanks.optional attributeGroup?).within B [] := by
      unfold Cursor.optional
      rw [within_skipBlanks (fits_nil inner), attributeGroup?_front]
      cases attributeGroup? inner.skipBlanks <;> rfl
    dsimp only [Option.map_some, Option.bind_some]
    rw [hstart]
    exact readsPhrase_parameterTail.framed hB (fits_nil _)

/-- Where no attribute follows there is none to skip. -/
theorem parameterPhrase?_eq_bare
    (h : ∀ inner, c.char? (fun d => d == '(' || d == ',') = some inner →
      inner.skipBlanks.literal? "#[" = none) : parameterPhrase? c = bareParameter? c := by
  rw [parameterPhrase?_eq]
  unfold bareParameter?
  cases hc : c.char? fun d => d == '(' || d == ',' with
  | none => rfl
  | some inner =>
    dsimp only [Option.bind_some]
    unfold Cursor.optional
    rw [attributeGroup?_eq, h inner hc]
    rfl

theorem literal?_hash_of_head (h : c.after.head? ≠ some '#') : c.literal? "#[" = none := by
  cases ha : c.after with
  | nil => simp [literal?, ha]
  | cons x xs =>
    have hx : '#' ≠ x := by
      rintro rfl
      simp [ha] at h
    have hlit : ("#[" : String).toList = '#' :: ['['] := rfl
    have := literal?_cons_ne hlit hx c.before xs
    rw [← ha] at this
    exact this

/-- What follows an opening parenthesis or a comma of a piece, behind white space, stands in the
piece. -/
theorem inner_of_stopped (hz : Stopped z) {inner : Cursor}
    (h : (Cursor.mk before z).char? (fun d => d == '(' || d == ',') = some inner) :
    Stopped inner.skipBlanks.after := by
  have := (confined_char halts_parameter).stopped h hz
  exact this.dropWhile halts_isBlank

/-- In a piece without attributes the phrases are those without attributes. -/
theorem parameterPhrase?_piece (hz : Stopped z) (hhash : '#' ∉ z) (before X : List Char) :
    parameterPhrase? ⟨before, z ++ X⟩ = (bareParameter? ⟨before, z⟩).map (move [] X) := by
  have hpiece := located_bareParameter.piece (.inr hz) X before z hz.ne_nil (List.suffix_refl z)
  rw [← hpiece]
  refine parameterPhrase?_eq_bare fun inner hinner => literal?_hash_of_head ?_
  have hwithin : (Cursor.mk before (z ++ X)) = (Cursor.mk before z).within [] X := by simp [within]
  rw [hwithin, within_char? (.inr hz)] at hinner
  obtain ⟨inner', hinner', rfl⟩ := Option.map_eq_some_iff.mp hinner
  have hstop := inner_of_stopped hz hinner'
  have hfits : Fits X inner' := .inr ((confined_char halts_parameter).stopped hinner' hz)
  rw [within_skipBlanks hfits, within_after, head?_within (.inr hstop)]
  intro hhead
  refine hhash ?_
  have hreach := (reaches_of_char? hinner').trans inner'.reaches_skipBlanks
  exact hreach.suffix.subset (List.mem_of_head? hhead)

/-! ## Attributes that reach over a run -/

theorem parameterTail?_hash (before after : List Char) :
    parameterTail? ⟨before, '#' :: after⟩ = none := by
  have hmodifier : modifier? ⟨before, '#' :: after⟩ = none := by
    unfold modifier?
    rw [oneOf?_cons_none (by decide) (by decide)]
    rfl
  have htypes : types? ⟨before, '#' :: after⟩ = none := by
    have hparen : (Cursor.mk before ('#' :: after)).literal? "(" = none :=
      literal?_cons_ne (s := "(") rfl (by decide) before after
    have hmark : (Cursor.mk before ('#' :: after)).literal? "?" = none :=
      literal?_cons_ne (s := "?") rfl (by decide) before after
    have hblanks : (Cursor.mk before ('#' :: after)).skipBlanks = ⟨before, '#' :: after⟩ := by
      have : isBlank '#' = false := by decide
      simp [skipBlanks, skipWhile, this]
    unfold types? listOf? type?
    simp only [Cursor.optional, hparen, Option.getD_none, hblanks, hmark]
    rw [qualifiedName?_cons (by decide) (by decide)]
    rfl
  unfold parameterTail?
  dsimp only [List.length_cons]
  rw [modifiersThen?_succ, hmodifier]
  dsimp only
  rw [htypes]
  rfl

/-- The typed parameter behind the next closing bracket. -/
def parameterBehind? (q : List Char) : Option (Phrase × Cursor) :=
  (closeBracket? (atStart q)).bind parameterTail?

/-- A phrase that begins in a piece either ends there, whatever follows, or its attribute reaches
over the end of the piece. -/
theorem parameterPhrase?_stopped (hz : Stopped z) (before : List Char) :
    (∀ X, parameterPhrase? ⟨before, z ++ X⟩ = (parameterPhrase? ⟨before, z⟩).map (move [] X)) ∨
      ∀ m q, Opens (m.reverse ++ (z.reverse ++ before)) → ']' ∉ m →
        parameterPhrase? ⟨before, z ++ (m ++ q)⟩ =
          (parameterBehind? q).map (move (m.reverse ++ (z.reverse ++ before)) []) := by
  have hwithin : ∀ X, (Cursor.mk before (z ++ X)) = (Cursor.mk before z).within [] X := by
    intro X
    simp [within]
  cases hinner : (Cursor.mk before z).char? fun d => d == '(' || d == ',' with
  | none =>
    refine .inl fun X => ?_
    rw [hwithin, parameterPhrase?_eq, parameterPhrase?_eq, within_char? (.inr hz), hinner]
    rfl
  | some inner =>
    have hstop := inner_of_stopped hz hinner
    have hfits : ∀ X, Fits X inner := fun X =>
      .inr ((confined_char halts_parameter).stopped hinner hz)
    have hlit : Confined (literal? "#[") := confined_literal (by decide)
    have hparameter : ∀ X, parameterPhrase? ⟨before, z ++ X⟩ =
        parameterTail? ((inner.skipBlanks.within [] X).optional attributeGroup?) := by
      intro X
      rw [hwithin, parameterPhrase?_eq, within_char? (.inr hz), hinner]
      dsimp only [Option.map_some, Option.bind_some]
      rw [within_skipBlanks (hfits X)]
    have hstays : (∀ X, (inner.skipBlanks.within [] X).optional attributeGroup? =
          (inner.skipBlanks.optional attributeGroup?).within [] X ∧
          Fits X (inner.skipBlanks.optional attributeGroup?)) →
        ∀ X, parameterPhrase? ⟨before, z ++ X⟩ =
          (parameterPhrase? ⟨before, z⟩).map (move [] X) := by
      intro h X
      have hnil := hparameter []
      rw [List.append_nil, (h []).1, within_nil] at hnil
      rw [hparameter X, (h X).1, hnil]
      exact readsPhrase_parameterTail.framed opens_nil (h X).2
    cases hhash : inner.skipBlanks.literal? "#[" with
    | none =>
      refine .inl (hstays fun X => ?_)
      have hnone : attributeGroup? inner.skipBlanks = none := by
        rw [attributeGroup?_eq, hhash]
        rfl
      have hnone' : attributeGroup? (inner.skipBlanks.within [] X) = none := by
        rw [attributeGroup?_eq, hlit.within opens_nil (.inr hstop), hhash]
        rfl
      unfold Cursor.optional
      rw [hnone, hnone']
      exact ⟨rfl, .inr hstop⟩
    | some g =>
      have hg : Stopped g.after := hlit.stopped hhash hstop
      have hgroup : ∀ X, attributeGroup? (inner.skipBlanks.within [] X) =
          closeBracket? ⟨g.before, g.after ++ X⟩ := by
        intro X
        rw [attributeGroup?_eq, hlit.within opens_nil (.inr hstop), hhash]
        simp [within]
      by_cases hmem : ']' ∈ g.after
      · refine .inl (hstays fun X => ?_)
        obtain ⟨hclose, hfit⟩ := closeBracket?_piece hg hmem g.before X
        have hpiece : attributeGroup? inner.skipBlanks = closeBracket? g := by
          rw [attributeGroup?_eq, hhash]
          rfl
        unfold Cursor.optional
        rw [hgroup, hclose, hpiece]
        cases hd : closeBracket? g with
        | none => exact ⟨rfl, .inr hstop⟩
        | some d => exact ⟨rfl, hfit d hd⟩
      · refine .inr fun m q hopens hm => ?_
        have hnot : ']' ∉ g.after ++ m := by
          rw [List.mem_append, not_or]
          exact ⟨hmem, hm⟩
        have hfront : (g.after ++ m).reverse ++ g.before = m.reverse ++ (z.reverse ++ before) := by
          obtain ⟨u, hu, hb⟩ := (reaches_of_char? hinner).trans <|
            inner.reaches_skipBlanks.trans (hlit.forward hhash)
          have hz' : z = u ++ g.after := hu
          have hb' : g.before = u.reverse ++ before := hb
          rw [hz', hb']
          simp
        rw [hparameter, Cursor.optional, hgroup, ← List.append_assoc,
          closeBracket?_skip hnot, hfront]
        unfold parameterBehind?
        cases closeBracket? (atStart q) with
        | none =>
          -- nothing closes the attribute, so no type follows either
          obtain ⟨xs, hxs⟩ : ∃ xs, inner.skipBlanks.after = '#' :: xs := by
            cases ha : inner.skipBlanks.after with
            | nil => exact absurd ha hstop.ne_nil
            | cons x xs =>
              refine ⟨xs, ?_⟩
              by_contra hx
              have := literal?_hash_of_head (c := inner.skipBlanks) (by
                rw [ha]
                simpa using hx)
              rw [this] at hhash
              cases hhash
          have : inner.skipBlanks.within [] (m ++ q) =
              ⟨inner.skipBlanks.before, '#' :: (xs ++ (m ++ q))⟩ := by
            simp [within, hxs]
          dsimp only [Option.map_none, Option.getD_none, Option.bind_none]
          rw [this]
          exact parameterTail?_hash _ _
        | some d => exact readsPhrase_parameterTail.framed hopens (fits_nil d)

theorem reaches_closeBracket (h : closeBracket? c = some d) : c.Reaches d := by
  obtain ⟨e, he, rfl⟩ := Option.map_eq_some_iff.mp h
  have hlit : Confined (literal? "]") := confined_literal (by decide)
  exact (c.reaches_skipWhile _).trans <| (hlit.forward he).trans e.reaches_skipBlanks

theorem reaches_optional_attributeGroup (c : Cursor) : c.Reaches (c.optional attributeGroup?) := by
  unfold Cursor.optional
  cases h : attributeGroup? c with
  | none => exact .refl c
  | some d =>
    rw [attributeGroup?_eq] at h
    obtain ⟨g, hg, hd⟩ := Option.bind_eq_some_iff.mp h
    have hlit : Confined (literal? "#[") := confined_literal (by decide)
    exact (hlit.forward hg).trans (reaches_closeBracket hd)

theorem parameterPhrase?_between (h : parameterPhrase? c = some (p, d)) : p.Between c d := by
  rw [parameterPhrase?_eq] at h
  obtain ⟨inner, hinner, htail⟩ := Option.bind_eq_some_iff.mp h
  have hb := readsPhrase_parameterTail.between htail
  exact ⟨(reaches_of_char? hinner).trans <| inner.reaches_skipBlanks.trans <|
    (reaches_optional_attributeGroup _).trans hb.start, hb.names, hb.stop, hb.ne_nil⟩

theorem parameterBehind?_between (h : parameterBehind? q = some (p, d)) :
    p.Between (atStart q) d := by
  obtain ⟨e, he, htail⟩ := Option.bind_eq_some_iff.mp h
  have hb := readsPhrase_parameterTail.between htail
  exact ⟨(reaches_closeBracket he).trans hb.start, hb.names, hb.stop, hb.ne_nil⟩

/-- What a search over a text finds behind its first `n` characters, where these do not count. -/
theorem findFrom_skip {α : Type} (r : Cursor → Option (α × Cursor))
    (z q before : List Char) (n : Nat) :
    findFrom r (z.length + n) before (z ++ q) = findFrom r n (z.reverse ++ before) q := by
  induction z generalizing before with
  | nil => simp
  | cons c z ih =>
    have hlen : (c :: z).length + n = (z.length + n) + 1 := by simp; omega
    rw [hlen, List.cons_append, List.reverse_cons, List.append_assoc]
    exact ih (c :: before)

/-- The phrases of a run. -/
theorem findFrom_run {m : List Char} (hm : Run m) (hopens : Opens before) (q : List Char) :
    findFrom parameterPhrase? 0 before (m ++ q) =
      ((atStart m).findAll bareParameter?).map (move before q) ++
        (findFrom parameterPhrase? 0 [] q).map (move (m.reverse ++ before) []) := by
  have hopens' := hm.importPlace.opens
  have hhash : '#' ∉ m := hm.not_mem (by decide) (by decide) (by decide) (by decide)
  obtain ⟨m₀, w, rfl, h₀, hw⟩ := hopens'.split
  have hpiece : ∀ b z, z ≠ [] → z <:+ m₀ → parameterPhrase? ⟨b, z ++ (w ++ q)⟩ =
      (bareParameter? ⟨b, z⟩).map (move [] (w ++ q)) := by
    intro b z hne hs
    have hz : Stopped z := by
      rcases h₀ with rfl | h₀
      · exact absurd (List.suffix_nil.mp hs) hne
      · exact h₀.of_suffix hs hne
    exact parameterPhrase?_piece hz
      (fun hmem => hhash (List.mem_append_left _ (hs.subset hmem))) b (w ++ q)
  have hbare : findFrom bareParameter? 0 [] (m₀ ++ w) =
      (findFrom bareParameter? 0 [] m₀).map (move [] w) := by
    have hnil : findFrom bareParameter? 0 m₀.reverse w = [] := by
      have := findFrom_space located_bareParameter.atSpace hw m₀.reverse []
      rwa [List.append_nil, findFrom_nil] at this
    rw [findFrom_append (located_bareParameter.piece h₀ w) (Nat.zero_le _), List.append_nil, hnil,
      List.append_nil]
  have hfront : findFrom bareParameter? 0 before m₀ =
      (findFrom bareParameter? 0 [] m₀).map (move before []) :=
    findFrom_front (located_bareParameter.front hopens) 0 [] m₀
  have hback : findFrom parameterPhrase? 0 ((m₀ ++ w).reverse ++ before) q =
      (findFrom parameterPhrase? 0 [] q).map (move ((m₀ ++ w).reverse ++ before) []) :=
    findFrom_front (parameterPhrase?_front (hopens'.append hopens)) 0 [] q
  have hspace : findFrom parameterPhrase? 0 (m₀.reverse ++ before) (w ++ q) =
      findFrom parameterPhrase? 0 ((m₀ ++ w).reverse ++ before) q := by
    rw [findFrom_space (fun hc => parameterPhrase?_atSpace hc _ _) hw]
    simp
  unfold findAll atStart
  dsimp only
  rw [List.append_assoc, findFrom_append hpiece (Nat.zero_le _), hspace, hback, hfront, hbare,
    List.map_map, List.map_map]
  congr 1
  refine List.map_congr_left fun p _ => ?_
  rw [Function.comp_apply, Function.comp_apply, move_move, move_move]
  simp

/-- What is found around a run: phrases of the text `y` in front of it, phrases of the run, and
phrases of the text `q` behind it. Those in front and those behind are the same for every run. -/
def Surrounds (before y q : List Char) (found : List Char → List Phrase) : Prop :=
  ∃ A B : List Phrase,
    (∀ a ∈ A, (Cursor.mk before y).Reaches a.start ∧ a.start.after ≠ []) ∧
    (∀ b ∈ B, (atStart q).Reaches b.start) ∧
    ∀ m, Run m → ∃ M : List Phrase, (∀ a ∈ M, a ∈ (atStart m).findAll bareParameter?) ∧
      found m = A.map (move [] (m ++ q)) ++ M.map (move (y.reverse ++ before) q) ++
        B.map (move (m.reverse ++ (y.reverse ++ before)) [])

theorem Surrounds.cons {before y q : List Char} {c : Char} {found : List Char → List Phrase}
    (h : Surrounds (c :: before) y q found) : Surrounds before (c :: y) q found := by
  obtain ⟨A, B, hA, hB, hfound⟩ := h
  refine ⟨A, B, fun a ha => ?_, hB, fun m hm => ?_⟩
  · obtain ⟨hreach, hne⟩ := hA a ha
    exact ⟨.trans ⟨[c], rfl, rfl⟩ hreach, hne⟩
  · obtain ⟨M, hM, heq⟩ := hfound m hm
    refine ⟨M, hM, ?_⟩
    simpa using heq

theorem Surrounds.congr {found found' : List Char → List Phrase} (h : Surrounds before y q found)
    (heq : ∀ m, Run m → found' m = found m) : Surrounds before y q found' := by
  obtain ⟨A, B, hA, hB, hfound⟩ := h
  refine ⟨A, B, hA, hB, fun m hm => ?_⟩
  rw [heq m hm]
  exact hfound m hm

/-- **The phrases in front of a run and behind it**, whatever the run is. The induction is on the
text in front: a phrase of it ends in it, or its attribute reaches over the run and the rest of that
text is skipped. -/
theorem findFrom_parameter (q : List Char) (hy : y = [] ∨ Stopped y) {n : Nat} (hn : n ≤ y.length)
    (hopens : Opens (y.reverse ++ before)) :
    Surrounds before y q fun m => findFrom parameterPhrase? n before (y ++ (m ++ q)) := by
  induction y generalizing n before with
  | nil =>
    obtain rfl : n = 0 := by simpa using hn
    refine ⟨[], findFrom parameterPhrase? 0 [] q, by simp, fun b hb => ?_, fun m hm => ?_⟩
    · obtain ⟨c, d, hc, hreach, -⟩ := mem_findFrom hb
      exact .trans hreach (parameterPhrase?_between hc).start
    · refine ⟨_, fun a ha => ha, ?_⟩
      have := findFrom_run hm (by simpa using hopens) q
      simpa using this
  | cons c y ih =>
    have hs : Stopped (c :: y) := hy.resolve_left (by simp)
    have hy' : y = [] ∨ Stopped y := by
      by_cases h : y = []
      · exact .inl h
      · exact .inr (hs.of_suffix ⟨[c], rfl⟩ h)
    have hopens' : Opens (y.reverse ++ c :: before) := by simpa using hopens
    cases n with
    | succ n => exact (ih hy' (by simpa using hn) hopens').cons
    | zero =>
      rcases parameterPhrase?_stopped hs before with hstays | hcrosses
      · have hfind : ∀ m, findFrom parameterPhrase? 0 before (c :: y ++ (m ++ q)) =
            match parameterPhrase? ⟨before, c :: y⟩ with
            | some found => move [] (m ++ q) found.1 ::
                findFrom parameterPhrase? (y.length - found.2.after.length) (c :: before)
                  (y ++ (m ++ q))
            | none => findFrom parameterPhrase? 0 (c :: before) (y ++ (m ++ q)) := by
          intro m
          have := hstays (m ++ q)
          rw [List.cons_append] at this ⊢
          rw [findFrom_zero_cons, this]
          cases parameterPhrase? ⟨before, c :: y⟩ with
          | none => rfl
          | some found =>
            have hskip : (y ++ (m ++ q)).length - (found.2.after ++ (m ++ q)).length =
                y.length - found.2.after.length := by
              simp only [List.length_append]
              omega
            simp only [Option.map_some, move, within_after]
            rw [hskip]
        cases hp : parameterPhrase? ⟨before, c :: y⟩ with
        | none =>
          simp only [hfind, hp]
          exact (ih hy' (Nat.zero_le _) hopens').cons
        | some found =>
          simp only [hfind, hp]
          obtain ⟨A, B, hA, hB, hfound⟩ :=
            (ih hy' (n := y.length - found.2.after.length) (by omega) hopens').cons
          have hb := parameterPhrase?_between (p := found.1) (d := found.2) hp
          refine ⟨found.1 :: A, B, ?_, hB, fun m hm => ?_⟩
          · intro a ha
            rcases List.mem_cons.mp ha with rfl | ha
            · exact ⟨hb.start, hb.ne_nil⟩
            · exact hA a ha
          · obtain ⟨M, hM, heq⟩ := hfound m hm
            exact ⟨M, hM, congrArg (move [] (m ++ q) found.1 :: ·) heq⟩
      · have hopensm : ∀ m, Run m → Opens (m.reverse ++ ((c :: y).reverse ++ before)) :=
          fun m hm => hm.importPlace.opens.append hopens
        have hbracket : ∀ m, Run m → ']' ∉ m :=
          fun m hm => hm.not_mem (by decide) (by decide) (by decide) (by decide)
        cases hq : parameterBehind? q with
        | none =>
          refine (ih hy' (Nat.zero_le _) hopens').cons.congr fun m hm => ?_
          have := hcrosses m q (hopensm m hm) (hbracket m hm)
          rw [List.cons_append] at this ⊢
          rw [findFrom_zero_cons, this, hq]
          rfl
        | some found =>
          have hb := parameterBehind?_between (p := found.1) (d := found.2) hq
          refine ⟨[], found.1 ::
            findFrom parameterPhrase? (q.length - found.2.after.length) [] q, by simp, ?_, ?_⟩
          · intro b hmem
            rcases List.mem_cons.mp hmem with rfl | hmem
            · exact hb.start
            · obtain ⟨e, d, he, hreach, -⟩ := mem_findFrom hmem
              exact .trans hreach (parameterPhrase?_between he).start
          · intro m hm
            refine ⟨[], by simp, ?_⟩
            have hp := hcrosses m q (hopensm m hm) (hbracket m hm)
            have hlen := hb.reaches.length_le
            have hskip : (y ++ (m ++ q)).length - (found.2.after ++ []).length =
                (y ++ m).length + (q.length - found.2.after.length) := by
              simp only [atStart] at hlen
              simp only [List.length_append, List.append_nil]
              omega
            have hfront : (y ++ m).reverse ++ c :: before =
                m.reverse ++ ((c :: y).reverse ++ before) := by simp
            have hrest : findFrom parameterPhrase?
                ((y ++ m).length + (q.length - found.2.after.length)) (c :: before)
                (y ++ (m ++ q)) =
                (findFrom parameterPhrase? (q.length - found.2.after.length) [] q).map
                  (move (m.reverse ++ ((c :: y).reverse ++ before)) []) := by
              rw [← List.append_assoc y m q, findFrom_skip, hfront]
              exact findFrom_front (parameterPhrase?_front (hopensm m hm)) _ [] q
            dsimp only
            rw [List.cons_append] at hp ⊢
            rw [findFrom_zero_cons, hp, hq]
            simp only [Option.map_some, move, within_after]
            rw [hskip, hrest]
            rfl

/-! ## References -/

/-- No parameter is found inside a statement without a name. -/
theorem IsNameless.findAll_bareParameter {s : List Char} (hs : IsNameless s) :
    (atStart s).findAll bareParameter? = [] := by
  rw [List.eq_nil_iff_forall_not_mem]
  intro phrase hmem
  obtain ⟨c, d, hc, hreach, -⟩ := mem_findAll hmem
  obtain ⟨inner, hinner, -⟩ := Option.bind_eq_some_iff.mp hc
  obtain ⟨x, xs, hafter, hx, -⟩ := char?_eq_some hinner
  have hmem : x ∈ s := hreach.suffix.subset (by rw [hafter]; exact List.mem_cons_self)
  rcases Bool.or_eq_true_iff.mp hx with hx | hx
  · obtain rfl := eq_of_beq hx
    exact hs.not_mem (by decide) (by decide) (by decide) hmem
  · obtain rfl := eq_of_beq hx
    exact hs.not_mem (by decide) (by decide) (by decide) hmem

/-- What lies in an import lies in it behind a place where the code is divided. -/
theorem inImport_move {p x : List Char} (hp : Divides p x) {a : Phrase}
    (h : inImport (imports x) a.start.offset = true ∧ a.start.offset < byteLength x) :
    inImport (imports (p ++ x)) (move p.reverse [] a).start.offset = true ∧
      (move p.reverse [] a).start.offset < byteLength (p ++ x) := by
  show inImport _ (a.start.within p.reverse []).offset = true ∧
    (a.start.within p.reverse []).offset < _
  rw [offset_within, byteLength_reverse, inImport_back hp, byteLength_append]
  exact ⟨h.1, Nat.add_lt_add_left h.2 _⟩

/-- A phrase of a run lies in one of its statements. -/
theorem inImport_of_mem_bareParameter {u : List Char} (hu : Run u) {phrase : Phrase}
    (h : phrase ∈ (atStart u).findAll bareParameter?) :
    inImport (imports u) phrase.start.offset = true ∧ phrase.start.offset < byteLength u := by
  induction hu generalizing phrase with
  | nil => simp [atStart, findAll] at h
  | @space c u hc _ ih =>
    have happend := findAll_append located_bareParameter (importPlace_space hc).opens u
    rw [findAll_space located_bareParameter hc, List.map_nil, List.nil_append] at happend
    rw [← List.singleton_append, happend] at h
    obtain ⟨a, ha, rfl⟩ := List.mem_map.mp h
    exact inImport_move ((importPlace_space hc).divides u) (ih ha)
  | @statement s u hs _ ih =>
    obtain ⟨body, stop, hst⟩ := id hs
    rw [findAll_append located_bareParameter hs.importPlace.opens, List.mem_append] at h
    rcases h with h | h
    · obtain ⟨a, ha, rfl⟩ := List.mem_map.mp h
      obtain ⟨c, d, hc, hreach, -⟩ := mem_findAll ha
      have hb := readsPhrase_bareParameter.between hc
      have hlt := (hreach.trans hb.start).offset_lt hb.ne_nil
      show inImport _ (a.start.within [] u).offset = true ∧ (a.start.within [] u).offset < _
      rw [offset_within, byteLength_nil, Nat.zero_add,
        inImport_front (hs.importPlace.divides u) hlt, byteLength_append]
      exact ⟨hst.inImport_of_lt hlt, by omega⟩
    · obtain ⟨a, ha, rfl⟩ := List.mem_map.mp h
      exact inImport_move (hs.importPlace.divides u) (ih ha)
  | @nameless s u hs _ ih =>
    rw [findAll_append located_bareParameter hs.importPlace.opens,
      hs.findAll_bareParameter, List.map_nil, List.nil_append] at h
    obtain ⟨a, ha, rfl⟩ := List.mem_map.mp h
    exact inImport_move (hs.importPlace.divides u) (ih ha)

/-- **The typed parameters around a run** are the same for every run. -/
theorem aroundRuns_parameter {p : List Char} (hp : Opens p.reverse) (q : List Char) :
    AroundRuns p q fun u => ruleReferences (p ++ (u ++ q)) .parameterHint := by
  obtain ⟨p₀, w, hsplit, h₀, hw⟩ := hp.split
  have hopens₀ : Opens (p₀.reverse ++ []) := by
    rw [List.append_nil]
    rcases h₀ with rfl | h₀
    · exact opens_nil
    · exact h₀.opens
  obtain ⟨A, B, hA, hB, hfound⟩ := findFrom_parameter q h₀ (Nat.zero_le _) hopens₀
  have hbegins : ∀ phrase : Phrase, phrase.Begins .parameterHint := fun _ h => by cases h
  have hreachA : ∀ a ∈ A, (atStart p).Reaches (a.start.within [] w) ∧
      (a.start.within [] w).after ≠ [] := by
    intro a ha
    obtain ⟨⟨z, hz, hb⟩, hne⟩ := hA a ha
    refine ⟨⟨z, ?_, ?_⟩, by simp [hne]⟩
    · simp only [atStart, within_after, hsplit]
      dsimp only at hz
      rw [hz, List.append_assoc]
    · simpa [atStart] using hb
  refine aroundRuns_of_parts (A.flatMap fun a => gather p .parameterHint (move [] w a))
    (B.flatMap (gather q .parameterHint)) (fun r hr => ?_) fun u hbetween => ?_
  · obtain ⟨a, ha, hgather⟩ := List.mem_flatMap.mp hr
    exact start_lt_of_mem_gather (hreachA a ha).1 hgather
  · obtain ⟨hu, hdivides⟩ := hbetween
    have hm : Run (w ++ u) := (Run.of_space hw).append hu
    obtain ⟨M, hM, heq⟩ := hfound (w ++ u) hm
    have hcode : p ++ (u ++ q) = p₀ ++ ((w ++ u) ++ q) := by rw [hsplit]; simp
    have hfind : (atStart (p ++ (u ++ q))).findAll (Rule.phrase? .parameterHint) =
        A.map (move [] (w ++ u ++ q)) ++ M.map (move p₀.reverse q) ++
          B.map (move (p ++ u).reverse []) := by
      have hrev : (w ++ u).reverse ++ p₀.reverse = (p ++ u).reverse := by rw [hsplit]; simp
      simp only [List.append_nil] at heq
      rw [hcode, ← hrev]
      exact heq
    have hfront : ∀ a ∈ A, gather (p ++ (u ++ q)) .parameterHint (move [] (w ++ u ++ q) a) =
        gather p .parameterHint (move [] w a) := by
      intro a ha
      obtain ⟨hreach, hne⟩ := hreachA a ha
      have hgather := gather_front hdivides hreach hne (hbegins (move [] w a))
      rw [move_move, List.append_nil] at hgather
      rw [List.append_assoc w u q]
      exact hgather
    have hrun : ∀ a ∈ M, gather (p ++ (u ++ q)) .parameterHint (move p₀.reverse q a) = [] := by
      intro a ha
      have hnil : (atStart w).findAll bareParameter? = [] := by
        have := findFrom_space located_bareParameter.atSpace hw [] []
        rwa [List.append_nil, findFrom_nil] at this
      have hmem := hM a ha
      rw [findAll_append located_bareParameter (Run.of_space hw).importPlace.opens, hnil,
        List.map_nil, List.nil_append] at hmem
      obtain ⟨b, hb, rfl⟩ := List.mem_map.mp hmem
      obtain ⟨hin, hlt⟩ := inImport_of_mem_bareParameter hu hb
      refine gather_inImport ?_
      show inImport _ ((b.start.within w.reverse []).within p₀.reverse q).offset = true
      rw [offset_within, offset_within, ← Nat.add_assoc, byteLength_reverse, byteLength_reverse,
        ← byteLength_append, ← hsplit, inImport_back hdivides,
        inImport_front (hu.importPlace.divides q) hlt]
      exact hin
    have hback : ∀ b ∈ B, gather (p ++ (u ++ q)) .parameterHint (move (p ++ u).reverse [] b) =
        (gather q .parameterHint b).map (Reference.shift (byteLength p + byteLength u)) := by
      intro b hb
      -- the phrase is moved behind the run first, and then with the run
      have hreach : (atStart (u ++ q)).Reaches (move u.reverse [] b).start := by
        obtain ⟨z, hz, hbefore⟩ := hB b hb
        refine ⟨u ++ z, ?_, ?_⟩
        · simp only [atStart] at hz
          simp [atStart, move, hz]
        · simp only [atStart] at hbefore
          simp [atStart, move, hbefore]
      have hrest := gather_back hdivides hreach (hbegins (move u.reverse [] b))
      rw [gather_back (hu.importPlace.divides q) (hB b hb) (hbegins b), move_move, List.append_nil,
        ← List.reverse_append, List.map_map] at hrest
      rw [hrest]
      refine List.map_congr_left fun r _ => ?_
      simp [Reference.shift, Span.shift, Nat.add_assoc]
    show ((atStart (p ++ (u ++ q))).findAll (Rule.phrase? .parameterHint)).flatMap
      (gather (p ++ (u ++ q)) .parameterHint) = _
    rw [hfind, List.flatMap_append, List.flatMap_append, List.flatMap_map, List.flatMap_map,
      List.flatMap_map, List.flatMap_congr hfront, List.flatMap_congr hback,
      List.flatMap_eq_nil_iff.mpr hrun, List.append_nil, List.map_flatMap]

end UseImports
