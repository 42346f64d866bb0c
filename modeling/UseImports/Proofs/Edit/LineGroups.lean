import UseImports.Proofs.Edit.Idempotence

/-!
# Sorting moves whole statements

A sorting edit (`plan_sort`) covers whole lines: those of at least two import statements, one below
the other, each with nothing but white space beside it. It puts the same lines in another order, by
the keys of their statements, and lines with the same key stay as they stood.

* `HasLines`: a statement and the lines that it has to itself.
* `LinesBelow`: the lines of several statements, one below the other, and the text that they make
  up.
* `exists_importLines`: **the import block is made up of such lines.**
* `SortsBlock`, `sorting_permutes`: **sorting permutes the lines of the block.**
-/

namespace UseImports

variable {es : List BlockEntry} {block : List (Declaration × List Char)}
    {A cs P Q S X Y : List Char} {ds : List Declaration} {d : Declaration}

/-! ## Lines of statements -/

/-- The line with the text `X` ends in front of `Q`: the text is over, or its line end follows. A
carriage return in front of a line feed belongs to the line end. -/
def EndsLine (X Q : List Char) : Prop :=
  Q = [] ∨ (∃ R, Q = '\r' :: '\n' :: R) ∨ ∃ R, Q = '\n' :: R ∧ X.getLast? ≠ some '\r'

/-- The statement of `d` has the lines `g` to itself, between `P` and `Q`. -/
structure HasLines (d : Declaration) (P g Q : List Char) : Prop where
  atLineStart : AtLineStart P
  endsLine : EndsLine g Q
  alone : ∃ indent S tail, g = indent ++ (S ++ tail) ∧ IsWhite indent ∧ IsWhite tail ∧
    d.statement = ⟨byteLength (P ++ indent), byteLength (P ++ indent) + byteLength S⟩

/-- The statements have the lines that stand beside them, one below the other; they make up the text
`X` between `P` and `Q`. -/
inductive LinesBelow : (P : List Char) → List (Declaration × List Char) → (X Q : List Char) → Prop
  | last {d : Declaration} {P g Q : List Char} : HasLines d P g Q → LinesBelow P [(d, g)] g Q
  | cons {d : Declaration} {P g nl X Q : List Char} {rest : List (Declaration × List Char)} :
      IsBreak nl →
      HasLines d P g (nl ++ (X ++ Q)) → LinesBelow (P ++ (g ++ nl)) rest X Q →
      LinesBelow P ((d, g) :: rest) (g ++ (nl ++ X)) Q

namespace LinesBelow

theorem atLineStart (h : LinesBelow P block X Q) : AtLineStart P := by
  cases h with
  | last hd => exact hd.atLineStart
  | cons _ hd _ => exact hd.atLineStart

/-- The last of the lines ends where the text ends that they make up. -/
theorem endsLine (h : LinesBelow P block X Q) : EndsLine X Q := by
  induction h with
  | last hd => exact hd.endsLine
  | @cons d P g nl X Q rest hnl _ _ ih =>
    refine ih.imp id (Or.imp id ?_)
    rintro ⟨R, rfl, hlast⟩
    refine ⟨R, rfl, ?_⟩
    rw [List.getLast?_append, List.getLast?_append, hnl.getLast?_eq]
    cases hend : X.getLast? with
    | none => simp
    | some c => simpa [hend] using hlast

end LinesBelow

/-- The entries are those of the statements that stand in `block`, beside their lines. The lines
make up the text `X` between `P` and `Q`, up to the end of the last entry. -/
structure LineBlock (cs : List Char) (es : List BlockEntry) (block : List (Declaration × List Char))
    (P X Q : List Char) : Prop where
  text : cs = P ++ (X ++ Q)
  below : LinesBelow P block X Q
  entries : es = block.map fun x => blockEntry cs x.1
  lines : ∀ x ∈ block, (blockEntry cs x.1).lines = x.2
  stop : ∀ e ∈ es.getLast?, e.span.stop = byteLength P + byteLength X

namespace Stretch

variable (h : Stretch cs d.statement A S Y)
include h

theorem blockEntry_eq : blockEntry cs d =
    ⟨sortKey d, ⟨byteLength (upToLead A), byteLength A + byteLength S + byteLength (firstLine Y)⟩,
      lead A ++ (S ++ firstLine Y)⟩ := by
  rw [h.text, blockEntry_append h.last A Y h.span]

/-- The lines of a statement that is alone on them. -/
theorem exists_hasLines (hlead : isBlankText (lead A) = true)
    (hline : isBlankText (firstLine Y) = true) :
    ∃ Q, cs = upToLead A ++ ((lead A ++ (S ++ firstLine Y)) ++ Q) ∧
      HasLines d (upToLead A) (lead A ++ (S ++ firstLine Y)) Q := by
  obtain ⟨Q, hY, hQ⟩ := exists_firstLine Y
  refine ⟨Q, ?_, atLineStart_upToLead A, ?_, lead A, S, firstLine Y, rfl, isWhite_lead hlead,
    isWhite_firstLine hline, ?_⟩
  · simp only [List.append_assoc, ← hY]
    rw [← append_eq_lead, h.text]
  · refine hQ.imp id (Or.imp id ?_)
    rintro ⟨R, rfl, hlast⟩
    refine ⟨R, rfl, ?_⟩
    rw [List.getLast?_append, List.getLast?_append, h.last]
    cases hend : (firstLine Y).getLast? with
    | none => simp
    | some c => simpa [hend] using hlast
  · rw [upToLead_append_lead, h.span]

/-- The block may end with the statement. -/
theorem exists_lineBlock (hlead : isBlankText (lead A) = true)
    (hline : isBlankText (firstLine Y) = true) :
    ∃ Q, LineBlock cs [blockEntry cs d] [(d, lead A ++ (S ++ firstLine Y))] (upToLead A)
      (lead A ++ (S ++ firstLine Y)) Q := by
  obtain ⟨Q, htext, hlines⟩ := h.exists_hasLines hlead hline
  refine ⟨Q, htext, .last hlines, rfl, fun x hx => ?_, fun e he => ?_⟩
  · rw [List.mem_singleton.mp hx, h.blockEntry_eq]
  · rw [List.getLast?_singleton] at he
    obtain rfl := Option.some.inj he
    have hlen := byteLength_upToLead A
    rw [h.blockEntry_eq]
    simp only [byteLength_append]
    omega

/-- The block may go on with a statement on the next line. -/
theorem lineBlock_cons {t : Span} {A' S' Y' : List Char} (h' : Stretch cs t A' S' Y')
    (hle : d.statement.stop ≤ t.start) (hnext : breaks A' = breaks (A ++ S) + 1)
    (hlead : isBlankText (lead A) = true) (hline : isBlankText (firstLine Y) = true)
    (hrest : LineBlock cs es block (upToLead A') X Q) (hne : es ≠ []) :
    ∃ nl, LineBlock cs (blockEntry cs d :: es)
      ((d, lead A ++ (S ++ firstLine Y)) :: block) (upToLead A)
      ((lead A ++ (S ++ firstLine Y)) ++ (nl ++ X)) Q := by
  obtain ⟨nl, hnl, hup, -⟩ := h.exists_next h' hle hnext
  obtain ⟨R, htext, hlines⟩ := h.exists_hasLines hlead hline
  have hup' : upToLead A' = upToLead A ++ ((lead A ++ (S ++ firstLine Y)) ++ nl) := by
    rw [hup, append_eq_lead]
    simp only [List.append_assoc]
  obtain ⟨htext', hbelow, rfl, htexts, hstop⟩ := hrest
  rw [hup'] at htext' hbelow hstop
  -- what follows the lines is known twice
  obtain rfl : R = nl ++ (X ++ Q) := by
    rw [htext'] at htext
    simpa only [List.append_assoc, List.append_cancel_left_eq, eq_comm] using htext
  refine ⟨nl, ?_, .cons hnl hlines hbelow, rfl, fun x hx => ?_, fun e he => ?_⟩
  · rw [htext]
    simp only [List.append_assoc]
  · rcases List.mem_cons.mp hx with rfl | hx
    · rw [h.blockEntry_eq]
    · exact htexts x hx
  · rw [List.getLast?_cons, List.getLast?_eq_some_getLast hne] at he
    rw [hstop e (by rw [List.getLast?_eq_some_getLast hne]; exact he)]
    simp only [byteLength_append]
    omega

end Stretch

/-- **The import block is made up of the lines of its statements**, from one of them on. -/
theorem exists_lineBlock (hds : ∀ e ∈ ds, IsStretch cs e.statement)
    (hordered : ds.Pairwise fun d e => d.statement.stop ≤ e.statement.start)
    (h : Stretch cs d.statement A S Y) (hbehind : ∀ e ∈ ds, d.statement.stop ≤ e.statement.start)
    (hlead : isBlankText (lead A) = true) (hline : isBlankText (firstLine Y) = true) :
    ∃ block X Q, block.map Prod.fst <+: d :: ds ∧
      LineBlock cs (blockEntry cs d :: blockFrom cs (some (breaks (A ++ S))) ds) block
        (upToLead A) X Q := by
  induction ds generalizing d A S Y with
  | nil =>
    obtain ⟨Q, hdone⟩ := h.exists_lineBlock hlead hline
    exact ⟨_, _, Q, List.prefix_refl _, hdone⟩
  | cons e ds ih =>
    obtain ⟨A', S', Y', h'⟩ := hds e List.mem_cons_self
    obtain ⟨hbehind', hordered'⟩ := List.pairwise_cons.mp hordered
    rw [blockFrom, h'.lineExtent_eq, h'.isAlone_eq]
    dsimp only
    split
    · rename_i hnext
      simp only [Bool.and_eq_true_iff, beq_iff_eq] at hnext
      obtain ⟨⟨hlead', hline'⟩, hnext⟩ := hnext
      obtain ⟨block, X, Q, hpre, hrest⟩ := ih (fun c hc =>
        hds c (List.mem_cons_of_mem e hc)) hordered' h' hbehind'
        hlead' hline'
      obtain ⟨nl, hblock⟩ := h.lineBlock_cons h' (hbehind e List.mem_cons_self) hnext
        hlead hline hrest (List.cons_ne_nil _ _)
      exact ⟨(d, _) :: block, _, Q, (List.prefix_cons_inj d).mpr hpre, hblock⟩
    · obtain ⟨Q, hdone⟩ := h.exists_lineBlock hlead hline
      exact ⟨_, _, Q, ⟨e :: ds, rfl⟩, hdone⟩

/-- The import block of a text, if it has one. -/
theorem exists_importLines (hrow : ImportRow cs ds) :
    importBlock cs ds = [] ∨ ∃ block P X Q, block.map Prod.fst <:+: firstDeclarations ds ∧
      LineBlock cs (importBlock cs ds) block P X Q ∧ blockSpan? (importBlock cs ds) =
        some ⟨byteLength P, byteLength P + byteLength X⟩ := by
  have hordered := hrow.pairwise_firstDeclarations
  unfold importBlock
  rcases blockFrom_none_cases cs (firstDeclarations ds) with hnil |
      ⟨front, d, rest, hfirst, halone, hblock⟩
  · exact .inl hnil
  have hmem : ∀ e ∈ d :: rest, IsStretch cs e.statement := fun e he => by
    refine hrow.stretch e ((firstDeclarations_sublist ds).subset ?_)
    rw [hfirst]
    exact List.mem_append_right front he
  rw [hfirst] at hordered
  obtain ⟨hbehind, hordered⟩ := List.pairwise_cons.mp (List.pairwise_append.mp hordered).2.1
  obtain ⟨A, S, Y, hstretch⟩ := hmem d List.mem_cons_self
  rw [hstretch.isAlone_eq, Bool.and_eq_true_iff] at halone
  rw [hstretch.lineExtent_eq] at hblock
  obtain ⟨block, X, Q, hpre, hlines⟩ := exists_lineBlock (fun e he =>
    hmem e (List.mem_cons_of_mem d he)) hordered
    hstretch hbehind halone.1 halone.2
  rw [hblock]
  refine .inr ⟨block, upToLead A, X, Q, ?_, hlines, ?_⟩
  · rw [hfirst]
    exact hpre.isInfix.trans (List.suffix_append front _).isInfix
  · have hlast := List.getLast?_eq_some_getLast
      (List.cons_ne_nil (blockEntry cs d) (blockFrom cs (some (breaks (A ++ S))) rest))
    have hstart : (blockEntry cs d).span.start = byteLength (upToLead A) := by
      rw [hstretch.blockEntry_eq]
    have hstop := hlines.stop _ hlast
    rw [blockSpan?, List.head?_cons, hlast]
    simp only [Option.pure_def, Option.bind_eq_bind, Option.bind_some, hstart, hstop]

/-! ## Sorting -/

theorem hasCarriageReturns_iff : hasCarriageReturns cs = true ↔ ['\r', '\n'] <:+: cs := by
  fun_induction hasCarriageReturns cs with
  | case1 cs => exact iff_of_true rfl ⟨[], cs, rfl⟩
  | case2 c cs hno ih =>
    rw [ih, List.infix_cons_iff]
    refine (or_iff_right fun hpre => ?_).symm
    obtain ⟨R, hR⟩ := hpre
    obtain ⟨rfl, rfl⟩ := List.cons.inj hR
    exact hno R rfl rfl
  | case3 => simp

/-- What stands in a key in front of the name. -/
def kindMark : ImportKind → String
  | .cls => ""
  | .function => "~function "
  | .const => "~const "

theorem sortKey_eq (d : Declaration) : sortKey d = kindMark d.kind ++ d.groupPrefix.getD d.fqn := by
  cases hkind : d.kind <;> simp [sortKey, hkind, ImportKind.keyword?, kindMark]

/-- The edit sorts the import block of the text: it replaces the lines of the block by the same
lines in another order. -/
structure SortsBlock (mode : SortMode) (cs : List Char) (ds : List Declaration) (edit : Edit)
    (P X Q : List Char) (block sorted : List (Declaration × List Char)) (newline : String) :
    Prop where
  /-- The edit covers `X`, which begins with a line and ends with the text of a line. -/
  text : cs = P ++ (X ++ Q)
  span : edit.span = ⟨byteLength P, byteLength P + byteLength X⟩
  atLineStart : AtLineStart P
  endsLine : EndsLine X Q
  /-- `X` is made up of the lines of two or more import statements, which follow each other in the
  text. -/
  several : 2 ≤ block.length
  statements : block.map Prod.fst <:+: firstDeclarations ds
  below : LinesBelow P block X Q
  /-- The same lines stand in the replacement, with the line ends of the text between them. -/
  perm : sorted.Perm block
  replacement : edit.replacement = String.intercalate newline (sorted.map fun x =>
    String.ofList x.2)
  newline : newline = "\r\n" ∧ ['\r', '\n'] <:+: cs ∨ newline = "\n" ∧ ¬ ['\r', '\n'] <:+: cs
  /-- They are in order, and those with the same key stand as they did. -/
  keys : ∀ x ∈ block, sortKey x.1 = kindMark x.1.kind ++ x.1.groupPrefix.getD x.1.fqn
  ordered : sorted.Pairwise fun x y => mode.compare (sortKey x.1) (sortKey y.1) ≠ .gt
  stable : ∀ key, sorted.filter (sortKey ·.1 = key) = block.filter (sortKey ·.1 = key)

/-- The statements of the block in order. -/
theorem LineBlock.sortEntries_eq (h : LineBlock cs es block P X Q) (mode : SortMode) :
    sortEntries mode es =
      (block.mergeSort fun x y => mode.le (sortKey x.1) (sortKey y.1)).map fun x =>
        blockEntry cs x.1 := by
  rw [sortEntries, h.entries, List.map_mergeSort]
  exact fun x _ y _ => rfl

/-- **Sorting permutes the lines of the import block.** -/
theorem sorting_permutes {text : String} {a : Analysis} (hanalyzed : analyze text = .ok a)
    {mode : SortMode} {edit : Edit} (hplan : planSort text.toList a mode = some edit) :
    ∃ P X Q block sorted newline,
      SortsBlock mode text.toList a.declarations edit P X Q block sorted newline := by
  obtain ⟨doc, hdoc, rfl⟩ := map_ok_iff.mp hanalyzed
  obtain ⟨code, hcode, rfl⟩ := map_ok_iff.mp hdoc
  have hrow := @importRow_declarations ⟨text.toList, code⟩ _ hcode
  unfold planSort at hplan
  dsimp only [Document.analyze] at hplan
  split at hplan
  · cases hplan
  rename_i hunsorted
  obtain ⟨span, hspan, rfl⟩ := Option.map_eq_some_iff.mp hplan
  rcases exists_importLines hrow with hnil | ⟨block, P, X, Q, hinfix, hblock, hcovered⟩
  · rw [hnil] at hspan
    cases hspan
  obtain rfl := Option.some.inj (hcovered.symm.trans hspan)
  have hsorted := hblock.sortEntries_eq mode
  have hperm := List.mergeSort_perm block fun x y => mode.le (sortKey x.1) (sortKey y.1)
  have htrans : ∀ x y z : Declaration × List Char, mode.le (sortKey x.1) (sortKey y.1) →
      mode.le (sortKey y.1) (sortKey z.1) → mode.le (sortKey x.1) (sortKey z.1) :=
        fun _ _ _ => mode.le_trans
  have htotal : ∀ x y : Declaration × List Char, (mode.le (sortKey x.1) (sortKey y.1) ||
      mode.le (sortKey y.1) (sortKey x.1)) = true := fun _ _ => mode.le_total _ _
  refine ⟨P, X, Q, block, _, lineBreak text.toList, hblock.text, rfl, hblock.below.atLineStart,
    hblock.below.endsLine, ?_, hinfix, hblock.below, hperm, ?_, ?_, fun x _ => sortKey_eq x.1, ?_,
    fun key => ?_⟩
  · -- fewer lines would be in order
    by_contra hlt
    refine hunsorted (List.mergeSort_of_pairwise ?_)
    rw [hblock.entries, List.pairwise_map]
    match block, hlt with
    | [], _ => exact .nil
    | [_], _ => exact List.pairwise_singleton _ _
    | _ :: _ :: _, hlt => exact absurd (Nat.le_add_left 2 _) hlt
  · dsimp only
    rw [hsorted, List.map_map]
    refine congrArg _ (List.map_congr_left fun x hx => ?_)
    rw [Function.comp_apply, hblock.lines x (hperm.subset hx)]
  · unfold lineBreak
    split
    · rename_i hbreak
      exact .inl ⟨rfl, hasCarriageReturns_iff.mp hbreak⟩
    · rename_i hbreak
      exact .inr ⟨rfl, fun hin => hbreak (hasCarriageReturns_iff.mpr hin)⟩
  · refine (List.pairwise_mergeSort htrans htotal block).imp fun hle => ?_
    exact Ordering.isLE_iff_ne_gt.mp (SortMode.le_iff.mp hle)
  · refine filter_mergeSort htrans htotal (fun x y hx hy => ?_) block
    rw [of_decide_eq_true hx, of_decide_eq_true hy]
    exact (Bool.or_self _).symm.trans (mode.le_total key key)

/-- A function and a group on two lines, with carriage returns. -/
def stackedText : String :=
  "<?php\r\nuse function B\\f;\r\n use A\\\x7bC,\r\n  D\x7d; \r\nnew C;"

/-- Its code view. -/
def stackedCode : String :=
  "     \r\nuse function B\\f;\r\n use A\\\x7bC,\r\n  D\x7d; \r\nnew C;"

theorem sorting_permutes_group : ∃ a edit P X Q block sorted newline, analyze stackedText = .ok a ∧
    planSort stackedText.toList a .alphabetical = some edit ∧
    edit = ⟨⟨7, 44⟩, " use A\\\x7bC,\r\n  D\x7d; \r\nuse function B\\f;"⟩ ∧
    SortsBlock .alphabetical stackedText.toList a.declarations edit P X Q block sorted newline := by
  have hcode : codeView stackedText.toList = .ok stackedCode.toList := by decide +kernel
  have hentries : importBlock stackedText.toList
      (Document.mk stackedText.toList stackedCode.toList).analyze.declarations =
        [⟨"~function B\\f", ⟨7, 24⟩, "use function B\\f;".toList⟩,
          ⟨"A", ⟨26, 44⟩, " use A\\\x7bC,\r\n  D\x7d; ".toList⟩] := by decide +kernel
  have hplan :
      planSort stackedText.toList (Document.mk stackedText.toList stackedCode.toList).analyze
      .alphabetical =
      some ⟨⟨7, 44⟩, " use A\\\x7bC,\r\n  D\x7d; \r\nuse function B\\f;"⟩ := by
    unfold planSort
    dsimp only
    rw [hentries, sortEntries_pair (by decide +kernel)]
    decide +kernel
  obtain ⟨P, X, Q, block, sorted, newline, hsorts⟩ := sorting_permutes (analyze_eq hcode) hplan
  exact ⟨_, _, P, X, Q, block, sorted, newline, analyze_eq hcode, hplan, rfl, hsorts⟩

end UseImports
