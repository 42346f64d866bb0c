import UseImports.Proofs.Declaration.Names

/-!
# Clauses in their places

The reader of a statement cuts it at its commas (`split_trimmed`) and reads each piece as a clause
(`parse_sequence`, `parse_group`). Here is where the pieces stand: one behind the other, with
nothing but white space, commas and the keywords of kinds between them.

* `Lead`: what may stand in front of the name of a clause.
* `readClauses?_comma`, `readClauses?_last`: the clauses of a text, from its first comma on.
* `Clause.Lies`, `readClause?_lies`: where the parts of a clause stand.
* `ClausesFrom`, `clausesFrom_of_readClauses?`: **where the clauses of a text stand.**
-/

namespace UseImports

open Cursor

variable {c : Char} {cs g k name p rest u : List Char} {w : String} {kind : ImportKind} {d : Cursor}
    {clause : Clause} {offset : Nat} {clauses : List (Nat × Clause)}

/-! ## Words and white space -/

theorem isBlank_of_isWordChar (h : isWordChar c = true) : isBlank c = false := by
  by_contra hblank
  rw [isWordChar_of_isBlank (by simpa using hblank)] at h
  cases h

theorem isBlank_backslash : isBlank '\\' = false := by decide

theorem IsPath.not_isBlank (h : IsPath name) : ∀ c ∈ name, isBlank c = false := by
  intro c hc
  rcases h.mem c hc with hword | rfl
  · exact isBlank_of_isWordChar hword
  · exact isBlank_backslash

theorem IsName.not_isBlank (h : IsName name) : ∀ c ∈ name, isBlank c = false :=
  IsPath.not_isBlank (.inl h)

theorem isIdentStart_of_foldLetter (h : (foldLetter c).isLower = true) : isIdentStart c = true := by
  by_cases hc : c.toNat < 0x80
  · have hall : ∀ n < 0x80, (foldLetter (Char.ofNat n)).isLower = true →
        isIdentStart (Char.ofNat n) = true := by
      decide
    have := hall c.toNat hc
    rw [Char.ofNat_toNat] at this
    exact this h
  · unfold foldLetter at h
    split at h
    · subst_vars
      decide +kernel
    split at h
    · subst_vars
      decide +kernel
    -- outside ASCII only these two are letters of a word
    exfalso
    have hsame : c.toLower = c := by
      unfold Char.toLower
      rw [dif_neg]
      intro hupper
      have : c.toNat ≤ 90 := hupper.2
      omega
    rw [hsame] at h
    have : c.toNat ≤ 122 := of_decide_eq_true (Bool.and_eq_true_iff.mp h).2
    omega

theorem isWordChar_of_foldLetter (h : (foldLetter c).isLower = true) : isWordChar c = true :=
  isWordChar_of_isIdentStart (isIdentStart_of_foldLetter h)

/-- The characters of a word in any case are word characters. -/
theorem isWordChar_of_folded (hw : ∀ x ∈ w.toList, x.isLower = true)
    (h : u.map foldLetter = w.toList) : ∀ c ∈ u, isWordChar c = true :=
  fun _ hc => isWordChar_of_foldLetter (hw _ (h ▸ List.mem_map_of_mem hc))

/-- A word in any case is an identifier. -/
theorem isIdent_of_folded (hne : w.toList ≠ []) (hw : ∀ x ∈ w.toList, x.isLower = true)
    (h : u.map foldLetter = w.toList) : IsIdent u := by
  refine ⟨?_, isWordChar_of_folded hw h⟩
  cases u with
  | nil => exact absurd h.symm hne
  | cons c u => exact isIdentStart_of_foldLetter (hw _ (h ▸ List.mem_cons_self))

/-- A text without white space at its ends. -/
structure Trimmed (cs : List Char) : Prop where
  first : ∀ c ∈ cs.head?, isBlank c = false
  last : ∀ c ∈ cs.getLast?, isBlank c = false

theorem head?_trimStart (cs : List Char) : ∀ c ∈ (trimStart cs).head?, isBlank c = false := by
  intro c hc
  have := List.head?_dropWhile_not isBlank cs
  rw [show (cs.dropWhile isBlank).head? = some c from hc] at this
  simpa using this

theorem trimmed_trim (cs : List Char) : Trimmed (trim cs) where
  first := by
    intro c hc
    obtain ⟨ws, hws⟩ : trim cs <+: trimStart cs := dropEndWhile_isPrefix isBlank (trimStart cs)
    refine head?_trimStart cs c ?_
    rw [← hws, List.head?_append, Option.mem_def.mp hc]
    rfl
  last := by
    intro c hc
    rw [trim, trimEnd, dropEndWhile, List.getLast?_reverse] at hc
    have := List.head?_dropWhile_not isBlank (trimStart cs).reverse
    rw [Option.mem_def.mp hc] at this
    simpa using this

theorem dropWhile_of_head (h : ∀ c ∈ cs.head?, isBlank c = false) : cs.dropWhile isBlank = cs := by
  cases cs with
  | nil => rfl
  | cons c cs => rw [List.dropWhile_cons_of_neg (by rw [h c rfl]; exact Bool.false_ne_true)]

/-- White space around a text without any at its ends is taken off. -/
theorem trim_append {g' : List Char} (hg : ∀ c ∈ g, isBlank c = true) (hcs : Trimmed cs)
    (hg' : ∀ c ∈ g', isBlank c = true) : trim (g ++ (cs ++ g')) = cs := by
  have hstart : trimStart (g ++ (cs ++ g')) = cs ++ g' ∨ cs = [] := by
    cases cs with
    | nil => exact .inr rfl
    | cons c cs =>
      left
      rw [trimStart, List.dropWhile_append_of_pos hg]
      exact dropWhile_of_head hcs.first
  have hend : trimEnd (cs ++ g') = cs := by
    have hlast : cs.reverse.dropWhile isBlank = cs.reverse :=
      dropWhile_of_head fun c hc => hcs.last c (List.head?_reverse ▸ hc)
    rw [trimEnd, dropEndWhile, List.reverse_append,
      List.dropWhile_append_of_pos fun c hc => hg' c (List.mem_reverse.mp hc), hlast,
      List.reverse_reverse]
  rcases hstart with hstart | rfl
  · rw [trim, hstart, hend]
  · rw [trim, trimStart, List.nil_append, List.dropWhile_append_of_pos hg,
      List.dropWhile_eq_nil_iff.mpr hg']
    rfl

/-! ## Keywords of kinds -/

/-- The text is the keyword of the kind, in any case. -/
def IsKindKeyword (kind : ImportKind) (k : List Char) : Prop :=
  ∃ w ∈ kind.keyword?, k.map foldLetter = w.toList

theorem IsKindKeyword.isWordChar (h : IsKindKeyword kind k) :
    ∀ c ∈ k, UseImports.isWordChar c = true := by
  obtain ⟨w, hw, hfold⟩ := h
  refine isWordChar_of_folded ?_ hfold
  cases kind with
  | cls => cases hw
  | function =>
    cases hw
    decide
  | const =>
    cases hw
    decide

theorem IsKindKeyword.not_isBlank (h : IsKindKeyword kind k) : ∀ c ∈ k, isBlank c = false :=
  fun c hc => isBlank_of_isWordChar (h.isWordChar c hc)

theorem IsKindKeyword.ne_nil (h : IsKindKeyword kind k) : k ≠ [] := by
  rintro rfl
  obtain ⟨w, hw, hfold⟩ := h
  cases kind <;> cases hw <;> cases hfold

/-- What is read as white space. -/
theorem blanks?_eq_some {c : Cursor} (h : c.blanks? = some d) :
    ∃ g, g ≠ [] ∧ (∀ x ∈ g, isBlank x = true) ∧ c.after = g ++ d.after ∧
      d.before = g.reverse ++ c.before := by
  unfold blanks? at h
  split at h
  · rename_i hhead
    cases h
    refine ⟨c.after.takeWhile isBlank, ?_, fun x hx => List.mem_takeWhile_imp hx,
      List.takeWhile_append_dropWhile.symm, rfl⟩
    cases hc : c.after with
    | nil =>
      rw [hc] at hhead
      cases hhead
    | cons x cs =>
      have hx : isBlank x = true := by simpa [hc] using hhead
      rw [List.takeWhile_cons_of_pos hx]
      exact List.cons_ne_nil _ _
  · cases h

/-- What is read as the keyword of a kind. -/
theorem kindKeyword?_eq_some {c : Cursor} (h : kindKeyword? c = some (kind, d)) :
    ∃ k g, IsKindKeyword kind k ∧ g ≠ [] ∧ (∀ x ∈ g, isBlank x = true) ∧
      c.after = k ++ (g ++ d.after) ∧
      d.before = (k ++ g).reverse ++ c.before := by
  have hread : ∀ {w : String} {k : Cursor}, kind.keyword? = some w → c.folded? w = some k →
      k.blanks? = some d →
      ∃ k g, IsKindKeyword kind k ∧ g ≠ [] ∧ (∀ x ∈ g, isBlank x = true) ∧
        c.after = k ++ (g ++ d.after) ∧
        d.before = (k ++ g).reverse ++ c.before := by
    intro w k hw hk hd
    obtain ⟨u, hu, hfold, hbefore⟩ := folded?_eq_some hk
    obtain ⟨g, hne, hg, hafter, hbefore'⟩ := blanks?_eq_some hd
    refine ⟨u, g, ⟨w, hw, hfold⟩, hne, hg, by rw [hu, hafter], ?_⟩
    rw [hbefore', hbefore, List.reverse_append, List.append_assoc]
  unfold kindKeyword? at h
  split at h
  · rename_i k hk
    obtain ⟨e, he, heq⟩ := Option.map_eq_some_iff.mp h
    cases heq
    exact hread rfl hk he
  · obtain ⟨e, he, heq⟩ := Option.map_eq_some_iff.mp h
    cases heq
    obtain ⟨k, hk, he⟩ := Option.bind_eq_some_iff.mp he
    exact hread rfl hk he

/-- White space is moved over. -/
theorem blanks?_gap (hg : ∀ c ∈ g, isBlank c = true) (hne : g ≠ []) (B rest : List Char) :
    blanks? ⟨B, g ++ rest⟩ = some (skipBlanks ⟨g.reverse ++ B, rest⟩) := by
  obtain ⟨c, g, rfl⟩ := List.exists_cons_of_ne_nil hne
  rw [blanks?, if_pos (by simp [hg c List.mem_cons_self]), skipBlanks_gap hg]

theorem folded?_append (h : u.map foldLetter = w.toList) (B rest : List Char) :
    folded? w ⟨B, u ++ rest⟩ = some ⟨u.reverse ++ B, rest⟩ := by
  have hlen : w.toList.length = u.length := by rw [← h, List.length_map]
  rw [folded?_pos (by simpa [hlen] using h)]
  simp [advance, hlen]

/-- **The keyword of a kind is read**, with the white space behind it. -/
theorem IsKindKeyword.kindKeyword?_eq (hk : IsKindKeyword kind k) (hg : ∀ c ∈ g, isBlank c = true)
    (hne : g ≠ []) (B rest : List Char) :
    kindKeyword? ⟨B, k ++ (g ++ rest)⟩ = some (kind, skipBlanks ⟨(k ++ g).reverse ++ B, rest⟩) := by
  obtain ⟨w, hw, hfold⟩ := hk
  have hgap := blanks?_gap hg hne (k.reverse ++ B) rest
  rw [List.reverse_append, List.append_assoc]
  unfold kindKeyword?
  cases kind with
  | cls => cases hw
  | function =>
    cases hw
    rw [folded?_append hfold]
    dsimp only
    rw [hgap]
    rfl
  | const =>
    cases hw
    have hother : folded? "function" ⟨B, k ++ (g ++ rest)⟩ = none := by
      refine folded?_neg fun hm => ?_
      cases k with
      | nil => cases hfold
      | cons c k =>
        have hc : foldLetter c = 'c' := (List.cons.inj hfold).1
        have hf : foldLetter c = 'f' := (List.cons.inj hm).1
        rw [hc] at hf
        exact absurd hf (by decide)
    rw [hother, folded?_append hfold]
    dsimp only
    rw [Option.bind_some, hgap]
    rfl

theorem isKindWord_iff : isKindWord k = true ↔ ∃ kind, IsKindKeyword kind k := by
  rw [isKindWord, decide_eq_true_eq]
  constructor
  · rintro (h | h)
    · exact ⟨.function, _, rfl, h⟩
    · exact ⟨.const, _, rfl, h⟩
  · rintro ⟨kind, w, hw, h⟩
    cases kind with
    | cls => cases hw
    | function =>
      cases hw
      exact .inl h
    | const =>
      cases hw
      exact .inr h

/-- What may stand in front of the name of a clause: white space, commas and keywords of kinds. -/
inductive Lead : List Char → Prop
  | nil : Lead []
  | gap {c : Char} {cs : List Char} : isBlank c = true ∨ c = ',' → Lead cs → Lead (c :: cs)
  | keyword {kind : ImportKind} {k cs : List Char} : IsKindKeyword kind k → Lead cs → Lead (k ++ cs)

namespace Lead

theorem append {a b : List Char} (ha : Lead a) (hb : Lead b) : Lead (a ++ b) := by
  induction ha with
  | nil => exact hb
  | gap hc _ ih => exact .gap hc ih
  | keyword hk _ ih =>
    rw [List.append_assoc]
    exact .keyword hk ih

theorem of_filler (hg : ∀ c ∈ g, isBlank c = true ∨ c = ',') : Lead g := by
  induction g with
  | nil => exact .nil
  | cons c g ih =>
    exact .gap (hg c List.mem_cons_self) (ih fun x hx => hg x (List.mem_cons_of_mem c hx))

theorem of_keyword (hk : IsKindKeyword kind k) (hg : ∀ c ∈ g, isBlank c = true) : Lead (k ++ g) :=
  .keyword hk (of_filler fun c hc => .inl (hg c hc))

end Lead

/-! ## The parts of a clause -/

/-- Where the parts of a clause stand in the text that it was read off: its name stands behind
keywords, and name and alias reach to the end of the text. -/
structure Clause.Lies (cs : List Char) (clause : Clause) : Prop where
  name : ∃ lead tail, cs = lead ++ (clause.name ++ tail) ∧ Lead lead ∧
    clause.nameSpan = ⟨byteLength lead, byteLength lead + byteLength clause.name⟩
  stop : clause.stop = byteLength cs

theorem readNamed?_lies {kind : Option ImportKind} {c : Cursor} (hc : (atStart cs).Reaches c)
    (hlead : Lead c.before.reverse) (h : readNamed? kind c = some clause) : clause.Lies cs := by
  obtain ⟨stop, hstop, h⟩ := Option.bind_eq_some_iff.mp h
  have hreach := confined_qualifiedName.forward hstop
  have htext : cs = c.before.reverse ++ (c.upTo stop ++ stop.after) := by
    rw [← hreach.upTo_eq]
    exact hc.text_eq
  have hspan : c.spanTo stop =
      ⟨byteLength c.before.reverse, byteLength c.before.reverse + byteLength (c.upTo stop)⟩ := by
    rw [spanTo, hreach.offset_eq, byteLength_reverse]
    rfl
  -- where nothing is left to read, the offset is that of the end
  have hend : ∀ e : Cursor, c.Reaches e → e.after.isEmpty = true → e.offset = byteLength cs := by
    intro e he hempty
    have := (hc.trans he).text_eq
    rw [List.isEmpty_iff.mp hempty, List.append_nil] at this
    rw [offset, ← byteLength_reverse, ← this]
  split at h
  · rename_i hempty
    cases h
    exact ⟨⟨_, _, htext, hlead, hspan⟩, hend stop hreach hempty⟩
  · obtain ⟨second, hsecond, h⟩ := Option.bind_eq_some_iff.mp h
    obtain ⟨last, hlast, h⟩ := Option.bind_eq_some_iff.mp h
    split at h
    · rename_i hempty
      cases h
      have hgap : stop.Reaches second := by
        obtain ⟨g, hg, hrest⟩ := Option.bind_eq_some_iff.mp hsecond
        obtain ⟨k, hk, hk'⟩ := Option.bind_eq_some_iff.mp hrest
        exact (confined_blanks.forward hg).trans (((confined_folded (by decide)).forward hk).trans
          (confined_blanks.forward hk'))
      refine ⟨⟨_, _, htext, hlead, hspan⟩, hend last ?_ hempty⟩
      exact hreach.trans (hgap.trans (confined_ident.forward hlast))
    · cases h

/-- **The parts of a clause that can be read stand in the text.** -/
theorem readClause?_lies (h : readClause? cs = some clause) : clause.Lies cs := by
  unfold readClause? at h
  dsimp only at h
  split at h
  · rename_i clause' hkind
    cases h
    obtain ⟨⟨kind, c⟩, hc, hread⟩ := Option.bind_eq_some_iff.mp hkind
    obtain ⟨k, g, hk, -, hg, -, hbefore⟩ := kindKeyword?_eq_some hc
    refine readNamed?_lies (kindKeyword?_reaches hc) ?_ hread
    have hempty : (atStart cs).before = [] := rfl
    rw [hbefore, hempty, List.append_nil, List.reverse_reverse]
    exact .of_keyword hk hg
  · exact readNamed?_lies (Reaches.refl _) .nil h

/-! ## Clauses between commas -/

theorem beq_comma_of_not_mem (h : ',' ∉ cs) : ∀ c ∈ cs, (c == ',') = false :=
  fun _ hc => beq_false_of_ne (ne_of_mem_of_not_mem hc h)

/-- The clauses of a text, the first of which is read off the piece in front of a comma. -/
theorem readClauses?_comma (hp : ',' ∉ p) (rest : List Char) (offset : Nat) :
    readClauses? offset (p ++ ',' :: rest) =
      if (trim p).isEmpty then readClauses? (offset + byteLength p + 1) rest
      else (readClause? (trim p)).bind fun clause =>
        (readClauses? (offset + byteLength p + 1) rest).map
          ((offset + byteLength (p.takeWhile isBlank), clause) :: ·) := by
  unfold readClauses?
  rw [splitOnChar_append (beq_comma_of_not_mem hp) rfl, trimmedPieces]
  dsimp only
  split
  · rfl
  · rw [List.mapM_cons]
    cases readClause? (trim p) <;> simp [Option.map_eq_bind]

theorem readClauses?_last (hp : ',' ∉ p) (offset : Nat) :
    readClauses? offset p =
      if (trim p).isEmpty then some []
      else (readClause? (trim p)).map fun clause =>
        [(offset + byteLength (p.takeWhile isBlank), clause)] := by
  unfold readClauses?
  rw [splitOnChar_of_forall (beq_comma_of_not_mem hp), trimmedPieces, trimmedPieces]
  dsimp only
  split
  · rfl
  · cases hread : readClause? (trim p) <;> simp [hread]

/-- The clauses stand in the text, which begins at the offset, one behind the other with nothing but
white space and commas between them. -/
inductive ClausesFrom : Nat → List Char → List (Nat × Clause) → Prop
  | none {offset : Nat} {g : List Char} : (∀ c ∈ g, isBlank c = true ∨ c = ',') →
      ClausesFrom offset g []
  | cons {offset : Nat} {g piece rest : List Char} {clause : Clause}
      {clauses : List (Nat × Clause)} :
      (∀ c ∈ g, isBlank c = true ∨ c = ',') → Trimmed piece → readClause? piece = some clause →
      ClausesFrom (offset + byteLength g + byteLength piece) rest clauses →
      ClausesFrom offset (g ++ (piece ++ rest)) ((offset + byteLength g, clause) :: clauses)

/-- White space and commas may stand in front. -/
theorem ClausesFrom.filler (hg : ∀ c ∈ g, isBlank c = true ∨ c = ',')
    (h : ClausesFrom (offset + byteLength g) cs clauses) :
    ClausesFrom offset (g ++ cs) clauses := by
  have happend : ∀ {g' : List Char}, (∀ c ∈ g', isBlank c = true ∨ c = ',') →
      ∀ c ∈ g ++ g', isBlank c = true ∨ c = ',' := fun hg' c hc =>
    (List.mem_append.mp hc).elim (hg c) (hg' c)
  cases h with
  | none hg' => exact .none (happend hg')
  | @cons _ g' piece rest clause clauses hg' htrim hread hrest =>
    rw [← List.append_assoc, Nat.add_assoc, ← byteLength_append]
    refine .cons (happend hg') htrim hread ?_
    rwa [byteLength_append, ← Nat.add_assoc]

/-- A piece between commas is white space, or a clause with white space around it. -/
theorem ClausesFrom.piece (h : ClausesFrom (offset + byteLength p) rest clauses) :
    ((trim p).isEmpty = true → ClausesFrom offset (p ++ rest) clauses) ∧
    (∀ clause, readClause? (trim p) = some clause →
      ClausesFrom offset (p ++ rest) ((offset + byteLength (p.takeWhile isBlank),
        clause) :: clauses)) := by
  obtain ⟨ws, hws, hblank⟩ := trim_split p
  have hlead : ∀ c ∈ p.takeWhile isBlank, isBlank c = true ∨ c = ',' := fun c hc =>
    .inl (List.mem_takeWhile_imp hc)
  constructor
  · intro hempty
    refine .filler (fun c hc => ?_) h
    rw [hws, List.isEmpty_iff.mp hempty, List.nil_append] at hc
    exact (List.mem_append.mp hc).elim (hlead c) fun hc => .inl (hblank c hc)
  · intro clause hread
    have htext : p ++ rest = p.takeWhile isBlank ++ (trim p ++ (ws ++ rest)) := by
      conv_lhs => rw [hws, List.append_assoc, List.append_assoc]
    have hlen := congrArg byteLength hws
    rw [byteLength_append, byteLength_append] at hlen
    rw [htext]
    refine .cons hlead (trimmed_trim p) hread ?_
    refine .filler (fun c hc => .inl (hblank c hc)) ?_
    rwa [Nat.add_assoc, Nat.add_assoc, ← hlen]

/-- **Where the clauses of a text stand.** -/
theorem clausesFrom_of_readClauses? (h : readClauses? offset cs = some clauses) :
    ClausesFrom offset cs clauses := by
  -- from comma to comma
  induction hn : cs.length using Nat.strong_induction_on generalizing offset cs clauses with
  | _ n ih =>
    by_cases hcomma : ',' ∈ cs
    · obtain ⟨p, rest, rfl, hp⟩ := List.eq_append_cons_of_mem hcomma
      have hsize : (',' : Char).utf8Size = 1 := by decide
      have hrest : ∀ {clauses}, readClauses? (offset + byteLength p + 1) rest = some clauses →
          ClausesFrom (offset + byteLength p) (',' :: rest) clauses := by
        intro clauses hread
        refine ClausesFrom.filler (g := [',']) (by simp) ?_
        rw [byteLength_cons, byteLength_nil, hsize]
        exact ih rest.length (by rw [← hn, List.length_append, List.length_cons]; omega) hread rfl
      rw [readClauses?_comma hp] at h
      split at h
      · rename_i hempty
        exact (hrest h).piece.1 hempty
      · obtain ⟨clause, hclause, h⟩ := Option.bind_eq_some_iff.mp h
        obtain ⟨others, hothers, rfl⟩ := Option.map_eq_some_iff.mp h
        exact (hrest hothers).piece.2 clause hclause
    · rw [readClauses?_last hcomma] at h
      have hnil : ClausesFrom (offset + byteLength cs) [] [] := .none (by simp)
      rw [← List.append_nil cs]
      split at h
      · rename_i hempty
        cases h
        exact hnil.piece.1 hempty
      · obtain ⟨clause, hclause, rfl⟩ := Option.map_eq_some_iff.mp h
        simpa using hnil.piece.2 clause hclause

/-- The name of a clause is not empty and has no white space. -/
theorem Clause.Sound.visible (h : clause.Sound cs) :
    clause.name ≠ [] ∧ ∀ c ∈ clause.name, isBlank c = false := by
  obtain ⟨name, hname, heq⟩ := h.name
  rcases heq with heq | heq
  · exact heq ▸ ⟨hname.ne_nil, hname.not_isBlank⟩
  · refine heq ▸ ⟨List.cons_ne_nil _ _, fun c hc => ?_⟩
    rcases List.mem_cons.mp hc with rfl | hc
    · exact isBlank_backslash
    · exact hname.not_isBlank c hc

theorem trimmed_of_not_isBlank {x : List Char} (h : ∀ c ∈ x, isBlank c = false) : Trimmed x :=
  ⟨fun c hc => h c (List.mem_of_mem_head? hc), fun c hc => h c (List.mem_of_getLast? hc)⟩

/-- Where a clause stands in a text that begins at the offset: behind `lead`, and from its name to
`more`. -/
structure ClausePlace (offset : Nat) (cs lead : List Char) (clause : Nat × Clause) : Prop where
  start : clause.1 + clause.2.nameSpan.start = offset + byteLength lead
  nameStop : clause.1 + clause.2.nameSpan.stop = offset + byteLength lead + byteLength clause.2.name
  visible : clause.2.name ≠ [] ∧ ∀ c ∈ clause.2.name, isBlank c = false
  whole : ∃ more rest, cs = lead ++ (clause.2.name ++ more ++ rest) ∧
    Trimmed (clause.2.name ++ more) ∧
    clause.1 + clause.2.stop = offset + byteLength lead + byteLength (clause.2.name ++ more)

namespace ClausePlace

variable {lead : List Char} {clause : Nat × Clause}

/-- A clause stands in a longer text where it stands in a part of it. -/
theorem within {A : List Char} (h : ClausePlace (offset + byteLength A) cs lead clause)
    (Z : List Char) :
    ClausePlace offset (A ++ (cs ++ Z)) (A ++ lead) clause := by
  have hlen : offset + byteLength (A ++ lead) = offset + byteLength A + byteLength lead := by
    rw [byteLength_append, Nat.add_assoc]
  obtain ⟨hstart, hnameStop, hvisible, more, rest, rfl, htrim, hstop⟩ := h
  refine ⟨by rw [hstart, hlen], by rw [hnameStop,
    hlen], hvisible, more, rest ++ Z, ?_, htrim, by rw [hstop, hlen]⟩
  simp only [List.append_assoc]

theorem nameStop_le (h : ClausePlace offset cs lead clause) :
    clause.2.nameSpan.stop ≤ clause.2.stop := by
  obtain ⟨more, rest, -, -, hstop⟩ := h.whole
  have := h.nameStop
  rw [byteLength_append] at hstop
  omega

end ClausePlace

/-- A clause stands in the piece that it was read off. -/
theorem clausePlace_of_readClause? {piece : List Char} (offset : Nat) (htrim : Trimmed piece)
    (hread : readClause? piece = some clause) :
    ∃ lead, Lead lead ∧
      ClausePlace offset (g ++ (piece ++ rest)) (g ++ lead) (offset + byteLength g, clause) := by
  have hlies := readClause?_lies hread
  obtain ⟨lead, more, hpiece, hlead, hspan⟩ := hlies.name
  have hvisible := (readClause?_sound hread).visible
  refine ⟨lead, hlead, ?_⟩
  have hplace : ClausePlace (offset + byteLength g) piece lead (offset + byteLength g, clause) := by
    refine ⟨by rw [hspan], ?_, hvisible, more, [], by rw [List.append_nil, ← hpiece], ?_, ?_⟩
    · rw [hspan, Nat.add_assoc _ (byteLength lead)]
    · refine ⟨fun c hc => ?_, fun c hc => htrim.last c ?_⟩
      · rw [List.head?_append_of_ne_nil _ hvisible.1] at hc
        exact hvisible.2 c (List.mem_of_mem_head? hc)
      · rw [hpiece, List.getLast?_append, Option.mem_def.mp hc]
        rfl
    · rw [hlies.stop, hpiece, byteLength_append lead, Nat.add_assoc _ (byteLength lead)]
  exact hplace.within rest

namespace ClausesFrom

/-- Every clause stands in the text. -/
theorem exists_place (h : ClausesFrom offset cs clauses) {clause : Nat × Clause}
    (hc : clause ∈ clauses) :
    ∃ lead, ClausePlace offset cs lead clause := by
  induction h with
  | none => cases hc
  | @cons offset g piece rest first clauses hg htrim hread _ ih =>
    rcases List.mem_cons.mp hc with rfl | hc
    · obtain ⟨lead, -, hplace⟩ := clausePlace_of_readClause? offset htrim hread
      exact ⟨_, hplace⟩
    · obtain ⟨lead, hplace⟩ := ih hc
      rw [Nat.add_assoc, ← byteLength_append] at hplace
      have := hplace.within []
      rw [List.append_nil, List.append_assoc] at this
      exact ⟨_, this⟩

/-- A single clause has nothing in front of it but white space, commas and keywords. -/
theorem exists_place_single {clause : Nat × Clause} (h : ClausesFrom offset cs [clause]) :
    ∃ lead, Lead lead ∧ ClausePlace offset cs lead clause := by
  cases h with
  | @cons _ g piece rest _ _ hg htrim hread _ =>
    obtain ⟨lead, hlead, hplace⟩ := clausePlace_of_readClause? offset htrim hread
    exact ⟨_, (Lead.of_filler hg).append hlead, hplace⟩

theorem start_le (h : ClausesFrom offset cs clauses) : ∀ clause ∈ clauses, offset ≤ clause.1 := by
  induction h with
  | none => simp
  | cons _ _ _ _ ih =>
    intro clause hc
    rcases List.mem_cons.mp hc with rfl | hc
    · exact Nat.le_add_right _ _
    · have := ih clause hc
      omega

/-- The clauses stand one behind the other. -/
theorem pairwise (h : ClausesFrom offset cs clauses) :
    clauses.Pairwise fun a b => a.1 + a.2.stop ≤ b.1 := by
  induction h with
  | none => exact .nil
  | @cons offset g piece rest first clauses hg htrim hread hrest ih =>
    refine List.pairwise_cons.mpr ⟨fun clause hc => ?_, ih⟩
    have hstop : first.stop = byteLength piece := (readClause?_lies hread).stop
    have := hrest.start_le clause hc
    dsimp only
    omega

end ClausesFrom

end UseImports
