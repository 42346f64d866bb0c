import UseImports.Proofs.Edit.NameOrder
import UseImports.Proofs.Edit.Sorting

/-!
# Sorted imports are in order

When the lines of the import block have changed places, the block is found again at the same place:
what stands in front of it did not begin a block before and does not do so now, each of its lines
still has a statement to itself, and what stands behind it does not go on with it. So its names are
those of its lines, and they are in order.

* `heads`: the first declarations of the statements of a code, found piece by piece.
* `Stacked.blockFrom_eq`: lines one below the other are found one after the other.
* `FoundAt`: the place where the import block is found, and what stands around it.
* `BlockAt.importBlock_keys`: **the block is found again.**
* `SortsInto.inOrder_again`: **sorted imports are in order.**
-/

namespace UseImports

variable {ds : List Declaration} {es : List BlockEntry} {d : Declaration}
    {A B cs P p Q q S T W X x X' x' Y : List Char} {l : Line} {line : Option Nat}
    {ls ls' : List Line} {doc : Document} {m : Mode} {mode : SortMode}

/-! ## The statements of a code -/

theorem firstDeclarations_map {f : Declaration → Declaration} {g : Span → Span}
    (hf : ∀ d, (f d).statement = g d.statement) (hg : Function.Injective g)
    (ds : List Declaration) :
    firstDeclarations (ds.map f) = (firstDeclarations ds).map f := by
  induction ds with
  | nil => rfl
  | cons d ds ih =>
    rw [List.map_cons, firstDeclarations_cons, firstDeclarations_cons, ih, List.map_cons]
    congr 1
    cases firstDeclarations ds with
    | nil => rfl
    | cons e es =>
      simp only [List.map_cons, hf, hg.eq_iff]
      split <;> rfl

theorem firstDeclarations_append {es : List Declaration}
    (h : ∀ d ∈ ds, ∀ e ∈ es, d.statement ≠ e.statement) :
    firstDeclarations (ds ++ es) = firstDeclarations ds ++ firstDeclarations es := by
  induction ds with
  | nil => rfl
  | cons d ds ih =>
    rw [List.cons_append, firstDeclarations_cons, firstDeclarations_cons,
      ih fun d hd => h d (List.mem_cons_of_mem _ hd), List.cons_append]
    congr 1
    cases hfirst : firstDeclarations ds with
    | cons f fs =>
      simp only [List.cons_append]
      split <;> rfl
    | nil =>
      cases hrest : firstDeclarations es with
      | nil => rfl
      | cons e fs =>
        have hmem : e ∈ es :=
          (firstDeclarations_sublist es).subset (by rw [hrest]; exact List.mem_cons_self)
        simp only [List.nil_append, if_neg (h d List.mem_cons_self e hmem)]

/-- The declarations of one statement have one first declaration. -/
theorem firstDeclarations_of_same (h : ∀ e ∈ ds, e.statement = d.statement) :
    firstDeclarations (d :: ds) = [d] := by
  induction ds generalizing d with
  | nil => rfl
  | cons e ds ih =>
    have hsame := h e List.mem_cons_self
    rw [firstDeclarations_cons, ih fun f hf => (h f (List.mem_cons_of_mem e hf)).trans hsame.symm]
    simp only [if_pos hsame.symm]

/-- The first declaration of each statement of a code, without their lines. -/
def heads (code : List Char) : List Declaration :=
  firstDeclarations (imports code)

theorem mem_imports_of_mem_heads {code : List Char} (h : d ∈ heads code) : d ∈ imports code :=
  (firstDeclarations_sublist _).subset h

theorem heads_of_isSpace {w : List Char} (hw : ∀ c ∈ w, isSpace c = true) : heads w = [] := by
  rw [heads, imports_of_isSpace hw]
  rfl

/-- **The statements of a code are those of its pieces.** -/
theorem heads_append (hp : Divides p x) :
    heads (p ++ x) = heads p ++ (heads x).map (Declaration.shift (byteLength p)) := by
  have hinjective : Function.Injective (Span.shift (byteLength p)) := fun s t hst => by
    simp only [Span.shift, Span.mk.injEq, Nat.add_left_cancel_iff] at hst
    cases s
    cases t
    simp_all
  rw [heads, hp.apart, firstDeclarations_append, firstDeclarations_map (fun d =>
    rfl) hinjective, heads, heads]
  intro d hd e he hsame
  obtain ⟨e, -, rfl⟩ := List.mem_map.mp he
  have hin := statement_of_mem_imports hd
  rw [hsame] at hin
  simp only [Declaration.shift, Span.shift] at hin
  omega

/-- A statement has one first declaration. -/
theorem IsStatement.exists_heads {s : List Char} (h : IsStatement s) :
    ∃ d, heads s = [d] ∧ d.statement = ⟨0, byteLength s⟩ ∧ sortKey d = viewKey s := by
  obtain ⟨body, stop, hstatement⟩ := h
  obtain ⟨d, ds, hd⟩ := List.exists_cons_of_ne_nil hstatement.ne_nil
  have hspan : ∀ e ∈ d :: ds, e.statement = ⟨0, byteLength s⟩ := fun e he =>
    hstatement.statement_eq (hd ▸ he)
  refine ⟨d, ?_, hspan d List.mem_cons_self, ?_⟩
  · rw [heads, hd]
    exact firstDeclarations_of_same fun e he =>
      (hspan e (List.mem_cons_of_mem d he)).trans (hspan d List.mem_cons_self).symm
  · rw [viewKey, hd]
    rfl

theorem Line.Sound.exists_heads (h : l.Sound) :
    ∃ d, heads l.code = [d] ∧ sortKey d = viewKey l.view ∧
      d.statement = ⟨byteLength l.indent, byteLength l.indent + byteLength l.statement⟩ := by
  obtain ⟨d, hd, hspan, hkey⟩ := h.isStatement.exists_heads
  refine ⟨d.shift (byteLength l.indent), ?_, hkey, ?_⟩
  · rw [Line.code, heads_append ((Run.of_space h.indent.isSpace).importPlace.divides _),
      heads_of_isSpace h.indent.isSpace, heads_append (h.isStatement.importPlace.divides _),
      heads_of_isSpace h.tail.isSpace, hd]
    rfl
  · simp [Declaration.shift, Span.shift, hspan, h.settles.byteLength_eq]

/-! ## Finding a block again -/

theorem blockFrom_unlined (T : List Char) (line : Option Nat) (ds : List Declaration) :
    blockFrom T line (ds.map Declaration.unlined) = blockFrom T line ds := by
  induction ds generalizing line with
  | nil => cases line <;> rfl
  | cons d ds ih =>
    have hstatement : d.unlined.statement = d.statement := rfl
    have hentry : blockEntry T d.unlined = blockEntry T d := rfl
    cases line <;> simp only [List.map_cons, blockFrom, hstatement, hentry, ih]

theorem importBlock_eq (doc : Document) :
    importBlock doc.text doc.declarations = blockFrom doc.text none (heads doc.code) := by
  have hfirst : firstDeclarations (doc.declarations.map Declaration.unlined) =
      (firstDeclarations doc.declarations).map Declaration.unlined :=
    firstDeclarations_map (fun _ => rfl) Function.injective_id _
  rw [heads, ← declarations_unlined, hfirst, blockFrom_unlined]
  rfl

/-- A statement that is alone on its lines goes on the block, if they are the next ones. -/
theorem blockFrom_alone (h : Stretch T d.statement A S Y) (hlead : isBlankText (lead A) = true)
    (hline : isBlankText (firstLine Y) = true) (hnext : ∀ k ∈ line, breaks A = k + 1)
    (ds : List Declaration) :
    blockFrom T line (d :: ds) = blockEntry T d :: blockFrom T (some (breaks (A ++ S))) ds := by
  have halone : isAlone T d.statement = true := by
    rw [h.text, h.span, isAlone_append h.last, hlead, hline]
    rfl
  have hextent : lineExtent T d.statement = (breaks A, breaks (A ++ S)) := by
    rw [h.text, h.span, lineExtent_append h.last]
  cases line with
  | none => rw [blockFrom, if_pos halone, hextent]
  | some k =>
    rw [blockFrom, hextent]
    dsimp only
    rw [if_pos]
    rw [halone, hnext k rfl]
    exact beq_self_eq_true _

/-- A statement behind a text goes on the block that ends there or not, whatever the text is. -/
theorem blockFrom_behind_eq_nil (hlast : S.getLast? = some ';') (A Y : List Char) (B : List Char)
    (hd : d.statement = ⟨byteLength (B ++ A), byteLength (B ++ A) + byteLength S⟩)
    (ds : List Declaration) :
    blockFrom (B ++ (A ++ (S ++ Y))) (some (breaks B)) (d :: ds) = [] ↔
      (breaks A == 1 && isBlankText (lead A) && isBlankText (firstLine Y)) = false := by
  have hcond :
      (isBlankText (lead (B ++ A)) && isBlankText (firstLine Y) &&
      breaks (B ++ A) == breaks B + 1) =
      (breaks A == 1 && isBlankText (lead A) && isBlankText (firstLine Y)) := by
    by_cases hone : breaks A = 1
    · have hmem : '\n' ∈ A := List.count_pos_iff.mp (by rw [← breaks, hone]; exact Nat.one_pos)
      simp [hone, (lead_append_of_mem hmem B).1]
    · have hne : breaks B + breaks A ≠ breaks B + 1 := fun h => hone (Nat.add_left_cancel h)
      rw [breaks_append, beq_eq_false_iff_ne.mpr hne, beq_eq_false_iff_ne.mpr hone, Bool.and_false,
        Bool.false_and, Bool.false_and]
  rw [← List.append_assoc, blockFrom, hd, isAlone_append hlast, lineExtent_append hlast]
  dsimp only
  rw [hcond]
  split
  · rename_i hgoes
    simp [hgoes]
  · rename_i hends
    simpa using hends

/-- White space up to the end of the line is a blank line. -/
theorem IsWhite.blank_firstLine (hW : IsWhite W) (hQ : BreakFirst Q) :
    isBlankText (firstLine (W ++ Q)) = true := by
  rw [isBlankText_iff]
  intro c hc
  have hmem := firstLine_subset _ hc
  rw [List.takeWhile_append_of_pos (fun c hc => by simpa using (hW c hc).2)] at hmem
  rcases List.mem_append.mp hmem with hmem | hmem
  · exact (hW c hmem).1
  · rcases hQ with rfl | ⟨_, R, rfl | rfl, rfl⟩
    · cases hmem
    · simp at hmem
    · have : c = '\r' := by simpa using hmem
      rw [this]
      decide

theorem BreakFirst.blank_firstLine (h : BreakFirst Q) : isBlankText (firstLine Q) = true :=
  IsWhite.blank_firstLine (W := []) (fun _ hc => by cases hc) h

/-- So is white space in front of a blank line. -/
theorem IsWhite.blank_firstLine_of_blank (hW : IsWhite W) (hQ : isBlankText (firstLine Q) = true) :
    isBlankText (firstLine (W ++ Q)) = true := by
  obtain ⟨R, hsplit, hR⟩ := exists_breakFirst Q
  have hwhite : IsWhite (W ++ firstLine Q) := fun c hc =>
    (List.mem_append.mp hc).elim (hW c) (isWhite_firstLine hQ c)
  rw [hsplit, ← List.append_assoc]
  exact hwhite.blank_firstLine hR

/-- The statement of a line at the start of a line goes on the block. -/
theorem Line.Sound.blockFrom_eq (h : l.Sound) (hT : T = B ++ (l.text ++ Q)) (hB : AtLineStart B)
    (hQ : isBlankText (firstLine Q) = true) (hnext : ∀ k ∈ line, breaks B = k + 1)
    (ds : List Declaration) :
    ∃ e, e.key = viewKey l.view ∧
      blockFrom T line ((heads l.code).map (Declaration.shift (byteLength B)) ++ ds) =
      e :: blockFrom T (some (breaks (B ++ l.text))) ds := by
  obtain ⟨d, hheads, hkey, hspan⟩ := h.exists_heads
  have hstretch :
      Stretch T (d.shift (byteLength B)).statement (B ++ l.indent) l.statement (l.tail ++ Q) := by
    refine ⟨?_, ?_, h.first, h.last⟩
    · rw [hT, Line.text]
      simp only [List.append_assoc]
    · simp only [Declaration.shift, Span.shift, hspan, byteLength_append, Nat.add_assoc]
  have hlead : isBlankText (lead (B ++ l.indent)) = true := by
    rw [(lead_of_split hB h.indent.not_mem).1]
    exact isBlankText_iff.mpr fun c hc => isBlank_of_isSpace (h.indent.isSpace c hc)
  have hbreaks : breaks (B ++ l.indent) = breaks B := by
    rw [breaks_append, breaks_eq_zero h.indent.not_mem, Nat.add_zero]
  have hstop : breaks (B ++ l.indent ++ l.statement) = breaks (B ++ l.text) := by
    simp only [Line.text, breaks_append, breaks_eq_zero h.tail.not_mem, Nat.add_zero, Nat.add_assoc]
  refine ⟨blockEntry T (d.shift (byteLength B)), hkey, ?_⟩
  rw [hheads, List.map_singleton, List.singleton_append,
    blockFrom_alone hstretch hlead (h.blank.blank_firstLine_of_blank hQ) (by rwa [hbreaks]), hstop]

theorem none_next {n : Nat} : ∀ k ∈ (none : Option Nat), n = k + 1 :=
  fun _ hk => by cases hk

/-- **Lines one below the other are found one after the other.** -/
theorem Stacked.blockFrom_eq (h : Stacked ls X x) (hls : ∀ l ∈ ls, l.Sound) (hT : T = B ++ (X ++ Q))
    (hB : AtLineStart B) (hQ : isBlankText (firstLine Q) = true)
    (hnext : ∀ k ∈ line, breaks B = k + 1) (ds : List Declaration) :
    ∃ es, es.map (·.key) = ls.map (viewKey ·.view) ∧
      blockFrom T line ((heads x).map (Declaration.shift (byteLength B)) ++ ds) =
        es ++ blockFrom T (some (breaks (B ++ X))) ds := by
  induction h generalizing B line with
  | single l =>
    obtain ⟨e, hkey, hblock⟩ := (hls l List.mem_cons_self).blockFrom_eq hT hB hQ hnext ds
    exact ⟨[e], by rw [List.map_singleton, hkey]; rfl, hblock⟩
  | @cons l nl ls X x hnl _ ih =>
    have hl := hls l List.mem_cons_self
    have hsettled := hl.settles_code.byteLength_eq
    -- the next line begins behind the line end
    have hnext' : ∀ k ∈ some (breaks (B ++ l.text)), breaks (B ++ l.text ++ nl) =
        k + 1 := fun k hk => by
      obtain rfl := Option.some.inj hk
      rw [breaks_append, hnl.breaks_eq]
    obtain ⟨es, hkeys, hrest⟩ := ih (fun k hk => hls k (List.mem_cons_of_mem l hk))
      (by rw [hT]; simp only [List.append_assoc]) (hnl.atLineStart (B ++ l.text)) hnext'
    obtain ⟨e, hkey, hblock⟩ := hl.blockFrom_eq (T := T) (B := B) (Q := nl ++ (X ++ Q))
      (by rw [hT]; simp only [List.append_assoc]) hB
      (BreakFirst.blank_firstLine (.inr ⟨nl, _, hnl, rfl⟩)) hnext
      ((heads x).map (Declaration.shift (byteLength (B ++ l.text ++ nl))) ++ ds)
    refine ⟨e :: es, by rw [List.map_cons, List.map_cons, hkey, hkeys], ?_⟩
    rw [heads_append (hl.run.importPlace.divides _),
      heads_append ((Run.of_space hnl.isSpace).importPlace.divides _), heads_of_isSpace hnl.isSpace,
      List.nil_append,
      List.map_append, Declaration.map_shift_shift, Declaration.map_shift_shift, List.append_assoc]
    have hoffset : byteLength B + byteLength l.code + byteLength nl =
        byteLength (B ++ l.text ++ nl) := by
      rw [hsettled, byteLength_append, byteLength_append]
    rw [hoffset, hblock, hrest, List.cons_append]
    simp only [List.append_assoc]

/-! ## The block after sorting -/

theorem firstLine_append_of_mem {M : List Char} (h : '\n' ∈ M) (Z : List Char) :
    firstLine (M ++ Z) = firstLine M := by
  rcases throughBreak_cases M with ⟨-, hnot⟩ | ⟨x, hx, -, hM⟩
  · exact absurd h hnot
  have htake : ∀ R, (x ++ '\n' :: R).takeWhile (· ≠ '\n') = x := fun R => by
    have hall : ∀ c ∈ x, decide (c ≠ '\n') = true := fun c hc =>
      decide_eq_true fun heq => hx (heq ▸ hc)
    rw [List.takeWhile_append_of_pos hall]
    simp
  have hlength : ∀ R, x.length < (x ++ '\n' :: R).length := fun R => by simp
  rw [hM, List.append_assoc, List.cons_append]
  unfold firstLine
  simp only [htake, hlength, decide_true, Bool.true_and]

/-- A statement in front of the start of a line is alone on its lines whatever follows. -/
theorem Stretch.isAlone_front {Z : List Char} {s : Span} (h : Stretch (P ++ Z) s A S Y)
    (hP : AtLineStart P) (hle : s.stop ≤ byteLength P) (Z' : List Char) :
    isAlone (P ++ Z') s = isAlone (P ++ Z) s := by
  have hsplit : (A ++ S) ++ Y = P ++ Z := by
    rw [h.text, List.append_assoc]
  obtain ⟨M, rfl, rfl⟩ := append_eq_append_of_le hsplit (by
    rw [h.span] at hle
    rwa [byteLength_append])
  -- the statement ends in a semicolon, so its line ends behind it
  have hmem : '\n' ∈ M := by
    rcases hP with hnil | hbreak
    · exact absurd (List.append_eq_nil_iff.mp (List.append_eq_nil_iff.mp hnil).1).2 h.ne_nil
    · rw [List.getLast?_append, List.getLast?_append, h.last] at hbreak
      cases hend : M.getLast? with
      | none =>
        rw [hend] at hbreak
        cases hbreak
      | some c =>
        rw [hend] at hbreak
        obtain rfl := Option.some.inj hbreak
        exact List.mem_of_getLast? hend
  rw [List.append_assoc, List.append_assoc, List.append_assoc, List.append_assoc, h.span,
    isAlone_append h.last, isAlone_append h.last, firstLine_append_of_mem hmem,
    firstLine_append_of_mem hmem]

/-- The search passes over statements that share their lines, or ends at one of the others. -/
theorem blockFrom_none_append (cs : List Char) (ds es : List Declaration) :
    (∀ d ∈ ds, isAlone cs d.statement = false) ∨
      ∃ d ∈ ds, (blockFrom cs none (ds ++ es)).head? = some (blockEntry cs d) := by
  induction ds with
  | nil => exact .inl (by simp)
  | cons d ds ih =>
    rw [List.cons_append, blockFrom]
    cases halone : isAlone cs d.statement with
    | true => exact .inr ⟨d, List.mem_cons_self, rfl⟩
    | false =>
      rcases ih with hall | ⟨e, he, hhead⟩
      · exact .inl (List.forall_mem_cons.mpr ⟨halone, hall⟩)
      · exact .inr ⟨e, List.mem_cons_of_mem d he, hhead⟩

theorem blockFrom_none_of_shared (h : ∀ d ∈ ds, isAlone cs d.statement = false)
    (es : List Declaration) : blockFrom cs none (ds ++ es) = blockFrom cs none es := by
  induction ds with
  | nil => rfl
  | cons d ds ih =>
    rw [List.cons_append, blockFrom, h d List.mem_cons_self, if_neg Bool.false_ne_true]
    exact ih fun e he => h e (List.mem_cons_of_mem d he)

theorem importRow_imports (hview : viewFrom [] m doc.text = .ok doc.code) :
    ImportRow doc.text (imports doc.code) := by
  have h := importRow_declarations hview
  rw [← declarations_unlined]
  refine ⟨fun d hd => ?_, ?_⟩
  · obtain ⟨e, he, rfl⟩ := List.mem_map.mp hd
    exact h.stretch e he
  · rw [List.pairwise_map]
    exact h.ordered

/-- The import block of the document is found where the lines `ls` stand, and nothing but white
space stands behind them on their last line. -/
structure FoundAt (m : Mode) (doc : Document) (ls : List Line) (P X R p x r : List Char) :
    Prop where
  text : doc.text = P ++ (X ++ R)
  code : doc.code = p ++ (x ++ r)
  settles : Settles m P p .code
  blank : isBlankText (firstLine R) = true
  atLineStart : AtLineStart P
  opens : Opens p.reverse
  level : importLevel p p = true
  stacked : Stacked ls X x
  sound : ∀ l ∈ ls, l.Sound
  start : ∀ e ∈ (importBlock doc.text doc.declarations).head?, e.span.start = byteLength P
  length : (importBlock doc.text doc.declarations).length = ls.length

theorem FairBlockAt.start (h : FairBlockAt m doc es ls P X Q p x q) :
    ∀ e ∈ es.head?, e.span.start = byteLength P := by
  intro e he
  have hspan := h.span
  rw [blockSpan?, Option.mem_def.mp he] at hspan
  simp only [Option.bind_eq_bind, Option.bind_some] at hspan
  obtain ⟨last, -, hspan⟩ := Option.bind_eq_some_iff.mp hspan
  exact congrArg Span.start (Option.some.inj hspan)

theorem FairBlockAt.length (h : FairBlockAt m doc es ls P X Q p x q) : es.length = ls.length := by
  simpa only [List.length_map] using congrArg List.length h.entries

namespace FoundAt

variable {R R' r r' : List Char} (h : FoundAt m doc ls P X R p x r)
    (hview : viewFrom [] m doc.text = .ok doc.code)

include h in
theorem heads_eq (hls' : ∀ l ∈ ls', l.Sound) (h' : Stacked ls' X' x') (r' : List Char) :
    heads (p ++ (x' ++ r')) = heads p ++ ((heads x').map (Declaration.shift (byteLength P)) ++
      (heads r').map (Declaration.shift (byteLength (P ++ X')))) := by
  have hbetween := runBetween_of_stacked h.opens h.level hls' h' r'
  rw [heads_append hbetween.divides, heads_append (hbetween.run.importPlace.divides r'),
    List.map_append,
    Declaration.map_shift_shift, h.settles.byteLength_eq,
    (h'.settles (Line.fair_of_sound hls')).byteLength_eq,
    byteLength_append]

include h hview

/-- No statement in front of the block is alone on its lines. -/
theorem isAlone_front (hd : d ∈ heads p) (Z : List Char) :
    isAlone (P ++ Z) d.statement = false := by
  have hin := statement_of_mem_imports (mem_imports_of_mem_heads hd)
  have hmem : ∀ e ∈ heads p, e ∈ imports doc.code := fun e he => by
    rw [h.code, (runBetween_of_stacked h.opens h.level h.sound h.stacked r).divides.apart]
    exact List.mem_append_left _ (mem_imports_of_mem_heads he)
  have hblock := importBlock_eq doc
  rw [h.code, h.heads_eq h.sound h.stacked] at hblock
  rcases blockFrom_none_append doc.text (heads p) _ with hall | ⟨e, he, hhead⟩
  · obtain ⟨A, S, Y, hstretch⟩ := (importRow_imports hview).stretch d (hmem d hd)
    rw [h.text] at hstretch hall
    rw [hstretch.isAlone_front h.atLineStart (by rw [← h.settles.byteLength_eq]; exact hin.2)]
    exact hall d hd
  · -- else the block would begin in front of where it begins
    rw [← hblock] at hhead
    have hstart := h.start _ hhead
    obtain ⟨A, S, Y, hstretch⟩ := (importRow_imports hview).stretch e (hmem e he)
    have hfront := hstretch.blockEntry_span.2.2.1
    have hin' := statement_of_mem_imports (mem_imports_of_mem_heads he)
    have hlen := h.settles.byteLength_eq
    omega

/-- The statements behind the block do not go on with it. -/
theorem ends : blockFrom doc.text (some (breaks (P ++ X)))
    ((heads r).map (Declaration.shift (byteLength (P ++ X)))) = [] := by
  obtain ⟨es, hkeys, hes⟩ := h.stacked.blockFrom_eq h.sound h.text h.atLineStart h.blank
    none_next ((heads r).map (Declaration.shift (byteLength (P ++ X))))
  have hblock := importBlock_eq doc
  have hfront : ∀ d ∈ heads p, isAlone doc.text d.statement = false := fun d hd => by
    rw [h.text]
    exact h.isAlone_front hview hd _
  rw [h.code, h.heads_eq h.sound h.stacked, blockFrom_none_of_shared hfront, hes] at hblock
  have hlength := h.length
  rw [hblock, List.length_append] at hlength
  have hsame := congrArg List.length hkeys
  rw [List.length_map, List.length_map] at hsame
  exact List.eq_nil_of_length_eq_zero (by omega)

/-- Nor do they in another text. -/
theorem ends_behind (B : List Char) :
    blockFrom (B ++ R) (some (breaks B)) ((heads r).map (Declaration.shift (byteLength B))) =
      [] := by
  have hends := h.ends hview
  cases hr : heads r with
  | nil => rfl
  | cons e es =>
    have hmem : e.shift (byteLength (P ++ X)) ∈ imports doc.code := by
      have hbetween := runBetween_of_stacked h.opens h.level h.sound h.stacked r
      have he : e ∈ imports r := mem_imports_of_mem_heads (by rw [hr]; exact List.mem_cons_self)
      rw [h.code, hbetween.divides.apart, imports_append hbetween.run.importPlace, List.map_append,
        Declaration.map_shift_shift, h.settles.byteLength_eq,
        (h.stacked.settles (Line.fair_of_sound h.sound)).byteLength_eq, ← byteLength_append]
      exact List.mem_append_right _ (List.mem_append_right _ (List.mem_map_of_mem he))
    obtain ⟨A, S, Y, hstretch⟩ := (importRow_imports hview).stretch _ hmem
    have hstart : byteLength (P ++ X) + e.statement.start = byteLength A :=
      congrArg Span.start hstretch.span
    have hstop : byteLength (P ++ X) + e.statement.stop = byteLength A + byteLength S :=
      congrArg Span.stop hstretch.span
    have hsplit : (P ++ X) ++ R = A ++ (S ++ Y) := by
      rw [← hstretch.text, h.text, List.append_assoc]
    obtain ⟨A, rfl, rfl⟩ := append_eq_append_of_le hsplit (by omega)
    rw [byteLength_append (P ++ X) A] at hstart hstop
    have hspan : ∀ C : List Char, (e.shift (byteLength C)).statement =
        ⟨byteLength (C ++ A), byteLength (C ++ A) + byteLength S⟩ := fun C => by
      simp only [Declaration.shift, Span.shift, byteLength_append C A, Span.mk.injEq]
      omega
    rw [hr, h.text, ← List.append_assoc] at hends
    rw [List.map_cons] at hends ⊢
    rw [blockFrom_behind_eq_nil hstretch.last A Y _ (hspan _)] at hends ⊢
    exact hends

/-- **Other lines are found at the place of the block**, if the statements behind them do not go on
with it. -/
theorem importBlock_keys (hls' : ∀ l ∈ ls', l.Sound) (h' : Stacked ls' X' x')
    (hblank : isBlankText (firstLine R') = true)
    (hends : blockFrom (P ++ (X' ++ R')) (some (breaks (P ++ X')))
      ((heads r').map (Declaration.shift (byteLength (P ++ X')))) = []) :
    (importBlock (P ++ (X' ++ R'))
      (Document.mk (P ++ (X' ++ R')) (p ++ (x' ++ r'))).declarations).map (·.key) =
      ls'.map (viewKey ·.view) := by
  obtain ⟨es, hkeys, hes⟩ := h'.blockFrom_eq hls' rfl h.atLineStart hblank
    none_next ((heads r').map (Declaration.shift (byteLength (P ++ X'))))
  rw [importBlock_eq ⟨P ++ (X' ++ R'), p ++ (x' ++ r')⟩, h.heads_eq hls' h',
    blockFrom_none_of_shared fun d hd => h.isAlone_front hview hd _, hes, hends,
    List.append_nil, hkeys]

end FoundAt

section BlockAt

variable (h : BlockAt m doc (importBlock doc.text doc.declarations) ls P X Q p x q)
include h

theorem BlockAt.foundAt : FoundAt m doc ls P X Q p x q :=
  ⟨h.text, h.code, h.settles, h.breakFirst.blank_firstLine, h.atLineStart, h.opens, h.level,
    h.stacked, h.sound, h.start,
    h.length⟩

/-- **The block is found again.** -/
theorem BlockAt.importBlock_keys (hview : viewFrom [] m doc.text = .ok doc.code)
    (hperm : ls'.Perm ls) (h' : Stacked ls' X' x') :
    (importBlock (P ++ (X' ++ Q)) (Document.mk (P ++ (X' ++ Q)) (p ++ (x' ++ q))).declarations).map
    (·.key) =
      ls'.map (viewKey ·.view) := by
  have hends := h.foundAt.ends_behind hview (P ++ X')
  rw [List.append_assoc] at hends
  exact h.foundAt.importBlock_keys hview (fun l hl =>
    h.sound l (hperm.subset hl)) h' h.breakFirst.blank_firstLine hends

end BlockAt

/-- The entries are in order. -/
theorem pairwise_sortEntries (mode : SortMode) (es : List BlockEntry) :
    ((sortEntries mode es).map (·.key)).Pairwise fun a b => mode.le a b = true := by
  rw [List.pairwise_map]
  exact @List.pairwise_mergeSort _ (fun a b => mode.le a.key b.key) (fun _ _ _ => mode.le_trans)
    (fun a b => mode.le_total a.key b.key) es

theorem planSort_eq_none_of_pairwise {a : Analysis}
    (h : ((importBlock cs a.declarations).map (·.key)).Pairwise fun a b => mode.le a b = true) :
    planSort cs a mode = none := by
  rw [List.pairwise_map] at h
  exact if_pos (List.mergeSort_of_pairwise h)

/-- **Sorted imports are in order.** -/
theorem SortsInto.inOrder_again {doc' : Document} (h : SortsInto mode doc doc')
    (hview : codeView doc.text = .ok doc.code) : planSort doc'.text doc'.analyze mode = none := by
  cases h with
  | inOrder hnone => exact hnone
  | moved hblock hperm hstacked hkeys =>
    refine planSort_eq_none_of_pairwise ?_
    have hfound := hblock.importBlock_keys hview hperm hstacked
    rw [← hkeys] at hfound
    exact hfound ▸ pairwise_sortEntries mode _

end UseImports
