import UseImports.Proofs.Code.Runs
import UseImports.Proofs.Code.Visible

/-!
# The layout of a text

A text is laid out in gaps and import statements: every statement is preceded by a gap behind which
a statement may begin, and what stands behind the last statement imports nothing. Text and code view
are cut at the same places.

* `importsFinished`: no import begins inside another statement that has not come to its end.
* `Tidy`: every import stands at an import place.
* `OutsideHeredocs`, `NotBehindTag`: where an import can be told from the text in front of it.
* `Gap`, `Piece`, `Layout`: the layout of a text.
* `exists_layout`: **every tidy text has a layout.**
-/

namespace UseImports

open Placed Cursor

variable {body s Y y : List Char} {stop : Cursor} {m : Mode}

/-! ## Tidy codes -/

/-- The import statements of the code have come to their ends. -/
def allFinished (p : List Char) : Bool :=
  (useStarts p).all fun site => !isSite p site.1 || (scanState false false site.2.after).isNone

/-- Where an import begins, the import statements in front of it have come to their ends. -/
def importsFinished (code : List Char) : Bool :=
  (imports code).all fun d =>
    match splitAtByte d.statement.start code with
    | some (p, _) => allFinished p
    | none => true

/-- Every import of the code stands at an import place. -/
def Tidy (code : List Char) : Prop :=
  ∀ d ∈ imports code, ∀ p x, code = p ++ x → byteLength p = d.statement.start → ImportPlace p

theorem tidy_of_importsFinished {code : List Char} (h : importsFinished code = true) :
    Tidy code := by
  intro d hd p x hcode hlen
  have hfinished : allFinished p = true := by
    have := List.all_eq_true.mp h d hd
    rwa [← hlen, hcode, splitAtByte_append] at this
  obtain ⟨k, s, body, hmem, hsite, -, hbody⟩ := site_of_mem_imports hd
  obtain ⟨-, hreach⟩ := mem_useStarts hmem
  -- the place of the import is that of its keyword
  have hstart : d.statement.start = k.offset := by rw [statement_of_mem_readBody hbody]
  obtain ⟨rfl, -⟩ : p = k.before.reverse ∧ x = k.after := by
    refine append_eq_append_of_eq (hcode.symm.trans hreach.text_eq) ?_
    rw [hlen, hstart, byteLength_reverse, offset]
  obtain ⟨hlevel, hopens⟩ := Bool.and_eq_true_iff.mp hsite
  have hopens' : Opens k.before.reverse.reverse := by rwa [List.reverse_reverse]
  refine ⟨hopens', ?_, fun k' s' hmem' hsite' => ?_⟩
  · rw [← importLevel_front hopens' x (List.prefix_refl _), ← hcode]
    exact hlevel
  · have := List.all_eq_true.mp hfinished (k', s') hmem'
    rw [hsite'] at this
    simpa using this

/-- What follows an import place in a tidy code is tidy. -/
theorem Tidy.of_append {p x : List Char} (h : Tidy (p ++ x)) (hp : ImportPlace p) : Tidy x := by
  intro d hd q y hx hlen
  have hmem : d.shift (byteLength p) ∈ imports (p ++ x) := by
    rw [imports_append hp]
    exact List.mem_append_right _ (List.mem_map_of_mem hd)
  have hplace : ImportPlace (p ++ q) := by
    refine h _ hmem (p ++ q) y (by rw [hx, List.append_assoc]) ?_
    rw [byteLength_append, hlen]
    rfl
  exact (importPlace_append_iff hp q).mp hplace

/-- What stands in front of an import place in a tidy code is tidy. -/
theorem Tidy.front {p x : List Char} (h : Tidy (p ++ x)) (hp : ImportPlace p) : Tidy p := by
  intro d hd q y hx hlen
  refine h d ?_ q (y ++ x) (by rw [hx, List.append_assoc]) hlen
  rw [imports_append hp]
  exact List.mem_append_left _ hd

/-! ## The first statement -/

/-- A `use` whose statement comes to its end, cut out of the code behind it. -/
theorem exists_statementText {r : List Char}
    (hkeyword : (atStart r).useKeyword? = some ((atStart r, stop), stop))
    (hbody : statementBody? stop = some body) :
    ∃ s x stop', r = s ++ x ∧ StatementText s body stop' := by
  obtain ⟨-, -, -, -, w, hlen, hw, hafter, hbefore⟩ := useKeyword?_eq_some hkeyword
  obtain ⟨x, hx⟩ := eq_of_statementBody? hbody
  have hr : r = (w ++ (body ++ [';'])) ++ x := by
    have : r = w ++ stop.after := hafter
    rw [this, hx]
    simp
  refine ⟨w ++ (body ++ [';']), x, ⟨w.reverse, body ++ [';']⟩, hr, ?_, rfl, ?_⟩
  · have hstopped : Stopped (w ++ (body ++ [';'])) :=
      stopped_iff.mpr ⟨w ++ body, ';', by simp, by decide⟩
    have hwithin := located_useKeyword.within (c := atStart (w ++ (body ++ [';'])))
      (X := x) opens_nil (.inr hstopped)
    have hstart : (atStart (w ++ (body ++ [';']))).within [] x = atStart r := by
      rw [hr]
      simp [atStart, Cursor.within]
    rw [hstart, hkeyword] at hwithin
    obtain ⟨⟨⟨k, t⟩, e⟩, he, heq⟩ := Option.map_eq_some_iff.mp hwithin.symm
    obtain ⟨rfl, rfl, -⟩ := useKeyword?_eq_some he
    have hstop : t.within [] x = stop := congrArg Prod.snd heq
    have ht : t = ⟨w.reverse, body ++ [';']⟩ := by
      have hb := congrArg Cursor.before hstop
      have ha := congrArg Cursor.after hstop
      rw [hbefore] at hb
      rw [hx] at ha
      simp only [within_before, within_after, List.append_nil, atStart] at hb ha
      have ha' : t.after = body ++ [';'] := by
        have : t.after ++ x = (body ++ [';']) ++ x := by simpa using ha
        exact List.append_cancel_right this
      rw [← hb, ← ha']
    rw [he, ht]
  · obtain ⟨n, hn, htake⟩ := Option.map_eq_some_iff.mp hbody
    have hle := congrArg List.length (eq_of_statementLength? hn)
    rw [List.length_append, List.length_cons, List.length_take, List.length_drop] at hle
    have hlen : body.length = n := by
      rw [← htake, List.length_take]
      omega
    have hscan : scanState false false (body ++ [';']) = none := scanState_of_mem (by simp)
    rw [hx, show body ++ ';' :: x =
      (body ++ [';']) ++ x by simp, statementLength?_append hscan] at hn
    rw [hn, hlen]

namespace StatementText

theorem isSite_atStart (s : List Char) : isSite s (atStart s) = true := rfl

/-- The keyword comes first. -/
theorem useStarts_eq (h : StatementText s body stop) :
    ∃ rest, useStarts s = (atStart s, stop) :: rest ∧ ∀ k t, (k, t) ∈ rest → k.before ≠ [] := by
  obtain ⟨w, hlen, -, hs, -⟩ := h.split
  obtain ⟨c, s', rfl⟩ : ∃ c s', s = c :: s' := by
    cases s with
    | nil =>
      have := congrArg List.length hs
      simp only [List.length_nil, List.length_append, hlen] at this
      omega
    | cons c s' => exact ⟨c, s', rfl⟩
  refine ⟨findFrom useKeyword? (s'.length - stop.after.length) [c] s', ?_, fun k t hmem => ?_⟩
  · have hkeyword : useKeyword? ⟨[], c :: s'⟩ = some ((atStart (c :: s'), stop), stop) := h.keyword
    show findFrom useKeyword? 0 [] (c :: s') = _
    rw [findFrom_zero_cons, hkeyword]
  · obtain ⟨e, f, he, ⟨z, -, hbefore⟩, -⟩ := mem_findFrom hmem
    obtain ⟨rfl, -⟩ := useKeyword?_eq_some he
    rw [hbefore]
    simp

/-- In a tidy statement no import begins behind the keyword. -/
theorem start_eq_zero (h : StatementText s body stop) (htidy : Tidy s) {d : Declaration}
    (hd : d ∈ imports s) : d.statement.start = 0 := by
  obtain ⟨k, t, body', hmem, hsite, -, hbody⟩ := site_of_mem_imports hd
  obtain ⟨hk, hreach⟩ := mem_useStarts hmem
  have hstart : d.statement.start = k.offset := by rw [statement_of_mem_readBody hbody]
  have hs : s = k.before.reverse ++ k.after := hreach.text_eq
  have hplace : ImportPlace k.before.reverse :=
    htidy d hd _ _ hs (by rw [hstart, byteLength_reverse, offset])
  by_contra hne
  have hbefore : k.before ≠ [] := by
    intro hnil
    exact hne (by rw [hstart, offset, hnil, byteLength_nil])
  -- the first keyword stands in front of the import, and its statement would be unfinished there
  obtain ⟨rest, hstarts, -⟩ := h.useStarts_eq
  have hfirst : (atStart s, stop) ∈ useStarts (k.before.reverse ++ k.after) := by
    rw [← hs, hstarts]
    exact List.mem_cons_self
  rw [useStarts_append hplace.opens, List.mem_append, List.mem_map, List.mem_map] at hfirst
  rcases hfirst with ⟨⟨k', t'⟩, hmem', heq⟩ | ⟨⟨k', t'⟩, -, heq⟩
  · obtain ⟨hk', ht'⟩ := Prod.mk.inj heq
    have hk'' : k'.before = [] := by simpa [atStart] using congrArg Cursor.before hk'
    have hsite' : isSite k.before.reverse k' = true := by
      unfold isSite startsStatement
      rw [hk'']
      rfl
    have hfinished := hplace.finished k' t' hmem' hsite'
    have hafter : t'.after ++ k.after = body ++ [';'] := by
      rw [← h.after, ← ht']
      rfl
    have hlength := h.length
    rw [h.after, ← hafter, statementLength?_append hfinished] at hlength
    have hle := congrArg List.length (eq_of_statementLength? hlength)
    have hlen := congrArg List.length hafter
    obtain ⟨-, -, -, -, w, hw, -, hkafter, -⟩ := useKeyword?_eq_some hk
    have hklen := congrArg List.length hkafter
    simp only [List.length_append, List.length_cons, List.length_take, List.length_drop,
      List.length_nil] at hle hlen hklen
    omega
  · have := congrArg Cursor.before (Prod.mk.inj heq).1
    simp [atStart] at this
    exact hbefore this.2

/-- **A tidy statement is an import statement**, if it imports something. -/
theorem statementAt (h : StatementText s body stop) (htidy : Tidy s) (hne : imports s ≠ []) :
    StatementAt s body stop := by
  refine ⟨h, ?_, hne⟩
  obtain ⟨rest, hstarts, hrest⟩ := h.useStarts_eq
  have hnil : (rest.flatMap fun site =>
      if isSite s site.1 then statementImports site.1 site.2 else []) = [] := by
    rw [List.flatMap_eq_nil_iff]
    rintro ⟨k, t⟩ hmem
    by_contra hsome
    obtain ⟨d, hd⟩ := List.exists_mem_of_ne_nil _ hsome
    have hdmem : d ∈ imports s := by
      rw [imports_eq, hstarts, List.flatMap_cons]
      exact List.mem_append_right _ (List.mem_flatMap.mpr ⟨(k, t), hmem, hd⟩)
    have hzero := h.start_eq_zero htidy hdmem
    dsimp only at hd
    split at hd
    · rw [statementImports_eq] at hd
      cases hbody : statementBody? t with
      | none =>
        rw [hbody] at hd
        cases hd
      | some body' =>
        rw [hbody] at hd
        rw [statement_of_mem_readBody hd] at hzero
        exact hrest k t hmem (byteLength_eq_zero.mp hzero)
    · cases hd
  rw [imports_eq, hstarts, List.flatMap_cons, hnil, List.append_nil, isSite_atStart, if_pos rfl]

end StatementText

/-- **A tidy code with imports begins with a gap and an import statement.** -/
theorem Tidy.exists_statement (h : Tidy y) (hne : imports y ≠ []) :
    ∃ g s x, y = g ++ (s ++ x) ∧ ImportPlace g ∧ imports g = [] ∧ IsStatement s := by
  obtain ⟨d, ds, hds⟩ := List.exists_cons_of_ne_nil hne
  have hd : d ∈ imports y := by
    rw [hds]
    exact List.mem_cons_self
  obtain ⟨k, t, body, hmem, -, hbody, hread⟩ := site_of_mem_imports hd
  obtain ⟨hk, hreach⟩ := mem_useStarts hmem
  have hstart : d.statement.start = byteLength k.before.reverse := by
    rw [statement_of_mem_readBody hread, byteLength_reverse, offset]
  have hy : y = k.before.reverse ++ k.after := hreach.text_eq
  have hg : ImportPlace k.before.reverse := h d hd _ _ hy hstart.symm
  have himports := imports_append hg k.after
  rw [← hy, hds] at himports
  have hnone : imports k.before.reverse = [] := by
    cases hfront : imports k.before.reverse with
    | nil => rfl
    | cons e es =>
      rw [hfront, List.cons_append] at himports
      obtain rfl := (List.cons.inj himports).1
      have := statement_of_mem_imports (hfront ▸ List.mem_cons_self : d ∈ imports k.before.reverse)
      omega
  rw [hnone, List.nil_append] at himports
  obtain ⟨d', hd', hshift⟩ : ∃ d' ∈ imports k.after,
      d'.shift (byteLength k.before.reverse) = d := by
    have : d ∈ (imports k.after).map (Declaration.shift (byteLength k.before.reverse)) := by
      rw [← himports]
      exact List.mem_cons_self
    exact List.mem_map.mp this
  have hzero : d'.statement.start = 0 := by
    rw [← hshift] at hstart
    simp only [Declaration.shift, Span.shift] at hstart
    omega
  -- the first keyword of the rest is that of the import
  obtain ⟨k', t', body', hmem', -, hbody', hread'⟩ := site_of_mem_imports hd'
  obtain ⟨hk', hreach'⟩ := mem_useStarts hmem'
  have hatStart : k' = atStart k.after := by
    have hoffset : k'.offset = 0 := by rw [← hzero, statement_of_mem_readBody hread']
    have hbefore : k'.before = [] := byteLength_eq_zero.mp hoffset
    have hafter := hreach'.text_eq
    rw [hbefore] at hafter
    cases k'
    simp_all [atStart]
  rw [hatStart] at hk'
  obtain ⟨s, x, stop, hsx, hst⟩ := exists_statementText hk' hbody'
  have htidy : Tidy (s ++ x) := by
    rw [← hsx]
    exact Tidy.of_append (hy ▸ h) hg
  refine ⟨k.before.reverse, s, x, by rw [hy, hsx], hg, hnone, body', stop, ?_⟩
  refine hst.statementAt (htidy.front hst.importPlace) fun hnil => ?_
  rw [hsx, imports_append hst.importPlace, hnil, List.nil_append] at hd'
  obtain ⟨e, -, rfl⟩ := List.mem_map.mp hd'
  have hpos : byteLength s ≠ 0 := fun h => hst.stopped.ne_nil (byteLength_eq_zero.mp h)
  simp only [Declaration.shift, Span.shift] at hzero
  omega

/-! ## Layouts -/

/-- Text behind which a statement may begin, whatever follows, and which imports nothing. -/
structure Gap (m : Mode) (G g : List Char) : Prop where
  walk : ∀ R, Walk R [] m G g [] .code
  place : ImportPlace g
  none : imports g = []
  closed : G.getLast? ≠ some '<'

theorem Gap.settles {G g : List Char} (h : Gap m G g) : Settles m G g .code :=
  fun R => (h.walk R).viewFrom_eq

/-- A gap and the import statement behind it, with their views. -/
structure Piece where
  gap : List Char
  gapView : List Char
  statement : List Char
  view : List Char

/-- The views are those of the texts, and the statement is one. -/
structure Piece.Sound (m : Mode) (p : Piece) : Prop where
  gap : Gap m p.gap p.gapView
  settles : Settles .code p.statement p.view .code
  isStatement : IsStatement p.view
  first : ∃ x S, p.statement = x :: S ∧ isBlank x = false
  last : p.statement.getLast? = some ';'

/-- The text `Y` with the view `y` is laid out in pieces. -/
inductive Layout : Mode → List Char → List Char → List Piece → Prop
  | last {m : Mode} {Y y : List Char} : viewFrom [] m Y = .ok y → imports y = [] → Layout m Y y []
  | cons {m : Mode} {p : Piece} {Y y : List Char} {ps : List Piece} : p.Sound m →
      Layout .code Y y ps →
      Layout m (p.gap ++ (p.statement ++ Y)) (p.gapView ++ (p.view ++ y)) (p :: ps)

/-- The declarations of the pieces, of which the first begins at the offset. -/
def declarationsAt : Nat → List Piece → List Declaration
  | _, [] => []
  | n, p :: ps =>
    (imports p.view).map (Declaration.shift (n + byteLength p.gap)) ++
      declarationsAt (n + byteLength p.gap + byteLength p.statement) ps

namespace Layout

variable {ps : List Piece}

theorem viewFrom_eq (h : Layout m Y y ps) : viewFrom [] m Y = .ok y := by
  induction h with
  | last h _ => exact h
  | cons hp _ ih =>
    rw [hp.gap.settles, hp.settles, ih]
    rfl

/-- **The imports of a text are those of its pieces.** -/
theorem imports_eq (h : Layout m Y y ps) (n : Nat) :
    (imports y).map (Declaration.shift n) = declarationsAt n ps := by
  induction h generalizing n with
  | last _ h => rw [h]; rfl
  | @cons m p Y y ps hp _ ih =>
    rw [imports_append hp.gap.place, hp.gap.none, List.nil_append, Declaration.map_shift_shift,
      imports_append hp.isStatement.importPlace, List.map_append, Declaration.map_shift_shift, ih,
      hp.gap.settles.byteLength_eq, hp.settles.byteLength_eq]
    rfl

end Layout

/-- A statement begins with its keyword. -/
theorem IsStatement.exists_letter (h : IsStatement s) :
    ∃ x s', s = x :: s' ∧ foldLetter x = 'u' := by
  obtain ⟨body, stop, hst⟩ := h
  obtain ⟨w, hlen, hw, rfl, -⟩ := hst.split
  match w, hlen with
  | [x, b, c], _ => exact ⟨x, b :: c :: (body ++ [';']), rfl, (List.cons.inj hw).1⟩

/-- The keyword of an import can be seen. -/
theorem visible_of_foldLetter {x : Char} (h : foldLetter x = 'u') :
    isBlank x = false ∧ isSpace x = false ∧ x ∉ quotes ∧ x ≠ '<' := by
  have hblank : isBlank x = false := by
    by_contra hblank
    have hne : foldLetter x ≠ 'u' :=
      of_isBlank (p := fun c => foldLetter c ≠ 'u') (by decide +kernel) (by simpa using hblank)
    exact hne h
  refine ⟨hblank, ?_, ?_, ?_⟩
  · by_contra hspace
    rw [isBlank_of_isSpace (by simpa using hspace)] at hblank
    cases hblank
  · intro hquote
    simp only [quotes, List.mem_cons, List.not_mem_nil, or_false] at hquote
    rcases hquote with rfl | rfl | rfl <;> exact absurd h (by decide)
  · rintro rfl
    exact absurd h (by decide)

/-- The text is settled behind a stop that can be seen, if no heredoc reaches over the stop. -/
theorem exists_walk_of_stop {T a b : List Char} {e : Char} (hm : m.Proper)
    (hno : '<' ∉ a ∨ ¬ InHeredoc m T (byteLength a)) (hview : viewFrom [] m T = .ok (a ++ e :: b))
    (he : isStop e = true) :
    ∃ A B, T = A ++ e :: B ∧ (∀ R, Walk R [] m (A ++ [e]) (a ++ [e]) [] .code) ∧
      viewFrom [] .code B = .ok b := by
  have hvisible : isSpace e = false ∧ isPlain e = true ∧ e ∉ quotes ∧ e ≠ '<' := by
    rcases isStop_cases he with rfl | rfl | rfl <;> decide
  obtain ⟨hspace, hplain, hquote, hbracket⟩ := hvisible
  obtain ⟨A, B, known, m', rfl, hwalk, hrest⟩ := exists_split_of_visible hview hspace
  obtain ⟨rfl, rfl⟩ : known = [] ∧ m' = .code := by
    rcases hno with hnot | hout
    · refine (hwalk.cases_of_stop hm hrest he).resolve_right ?_
      rintro ⟨A₁, a₁, V, -, rfl, -⟩
      exact hnot (by simp)
    · exact hwalk.code_of_visible hm hrest hspace hquote hbracket (hwalk.byteLength_eq ▸ hout)
  have hstep : ∀ R, Mode.step e R .code = .ok ⟨.keep, [], .code⟩ := stepCode_of_isPlain hplain
  refine ⟨A, B, rfl,
    fun R => (hwalk.independent_of_stop he R).trans (.step (hstep R) (.done _ _)), ?_⟩
  rw [viewFrom_step, hstep] at hrest
  obtain ⟨b', hb', heq⟩ := map_ok_iff.mp hrest
  obtain rfl : b' = b := (List.cons.inj heq).2
  exact hb'

/-- The import statement at the start of a text that is read as code. -/
theorem exists_statement_walk {Z : List Char} (hview : viewFrom [] .code Z = .ok (s ++ y))
    (hs : IsStatement s) :
    ∃ S Y, Z = S ++ Y ∧ (∀ R, Walk R [] .code S s [] .code) ∧ viewFrom [] .code Y = .ok y ∧
      S.getLast? = some ';' := by
  have hbracket : '<' ∉ s := hs.not_mem (by decide) (by decide) (by decide)
  obtain ⟨body, stop, hst⟩ := hs
  obtain ⟨w, -, -, hsplit, -⟩ := hst.split
  have hno : '<' ∉ w ++ body := fun hmem => hbracket (by
    rw [hsplit, ← List.append_assoc]
    exact List.mem_append_left _ hmem)
  have hview' : viewFrom [] .code Z = .ok ((w ++ body) ++ ';' :: y) := by
    rw [hview, hsplit]
    simp
  obtain ⟨S, Y, hZ, hwalk, hrest⟩ :=
    exists_walk_of_stop Mode.proper_code (.inl hno) hview' (by decide)
  refine ⟨S ++ [';'], Y, by rw [hZ]; simp, ?_, hrest, by simp⟩
  rw [hsplit]
  simpa using hwalk

/-- No import stands directly behind an open tag that may be longer. -/
def NotBehindTag (Y y : List Char) : Prop :=
  ∀ d ∈ imports y, ∀ G Z, Y = G ++ Z → byteLength G = d.statement.start → ¬ ['<', '?'] <:+ G

/-- No import stands inside a heredoc. -/
def OutsideHeredocs (m : Mode) (Y y : List Char) : Prop :=
  ∀ d ∈ imports y, ¬ InHeredoc m Y d.statement.start

/-- **Every tidy text has a layout**, if no heredoc reaches over its imports. -/
theorem exists_layout (hview : viewFrom [] m Y = .ok y) (hm : m.Proper) (htidy : Tidy y)
    (houtside : OutsideHeredocs m Y y) (htag : NotBehindTag Y y) : ∃ ps, Layout m Y y ps := by
  induction hn : Y.length using Nat.strongRecOn generalizing m Y y with
  | ind n ih =>
    by_cases hne : imports y = []
    · exact ⟨[], .last hview hne⟩
    obtain ⟨g, s, y', rfl, hplace, hnone, hs⟩ := htidy.exists_statement hne
    -- the keyword of the statement can be seen
    obtain ⟨x, s', rfl, hx⟩ := hs.exists_letter
    obtain ⟨hblank, hspace, hquote, hbracket⟩ := visible_of_foldLetter hx
    obtain ⟨G, B, known, m', rfl, hwalk, hrest⟩ := exists_split_of_visible hview hspace
    have hlen := hwalk.byteLength_eq
    obtain ⟨d, hd, hstart⟩ : ∃ d ∈ imports (g ++ (x :: s' ++ y')), byteLength G =
        d.statement.start := by
      obtain ⟨body, stop, hst⟩ := id hs
      obtain ⟨d, hd⟩ := List.exists_mem_of_ne_nil _ hst.ne_nil
      refine ⟨d.shift (byteLength g), ?_, ?_⟩
      · rw [imports_append hplace, imports_append hs.importPlace]
        exact List.mem_append_right _ (List.mem_map_of_mem (List.mem_append_left _ hd))
      · rw [← hlen]
        simp [Declaration.shift, Span.shift, hst.statement_eq hd]
    obtain ⟨rfl, rfl⟩ :=
      hwalk.code_of_visible hm hrest hspace hquote hbracket (hstart ▸ houtside d hd)
    have hG : Gap m G g := by
      have hne : x :: B ≠ [] := List.cons_ne_nil x B
      exact ⟨hwalk.independent_of_opens hne hplace.opens (htag d hd G _ rfl hstart), hplace, hnone,
        hwalk.getLast?_ne hm hne hplace.opens.endsPlain⟩
    obtain ⟨S, Y', hsplit, hwalkS, hview', hlast⟩ := exists_statement_walk hrest hs
    have hfirst : ∃ z S', S = z :: S' ∧ isBlank z = false := by
      cases S with
      | nil => cases hlast
      | cons z S' =>
        obtain rfl : x = z := (List.cons.inj hsplit).1
        exact ⟨x, S', rfl, hblank⟩
    rw [hsplit] at hn houtside htag ⊢
    have hshorter : Y'.length < n := by
      obtain ⟨z, S', rfl, -⟩ := hfirst
      simp only [List.length_append, List.length_cons] at hn
      omega
    -- the imports of the rest are imports of the text
    have hrestmem : ∀ d ∈ imports y', ∃ e ∈ imports (g ++ (x :: s' ++ y')),
        e.statement.start = byteLength G + (byteLength S + d.statement.start) := by
      intro d hd
      refine ⟨(d.shift (byteLength (x :: s'))).shift (byteLength g), ?_, ?_⟩
      · rw [imports_append hplace, imports_append hs.importPlace]
        exact List.mem_append_right _
          (List.mem_map_of_mem (List.mem_append_right _ (List.mem_map_of_mem hd)))
      · have hS := (hwalkS Y').byteLength_eq
        simp only [Declaration.shift, Span.shift]
        omega
    have houtsideY : OutsideHeredocs .code Y' y' := by
      intro d hd hin
      obtain ⟨e, he, hstart⟩ := hrestmem d hd
      refine houtside e he ?_
      rw [hstart]
      exact (hin.append (hwalkS Y')).append (hsplit ▸ hwalk)
    have htagY : NotBehindTag Y' y' := by
      intro d hd G' Z hY' hlen' htag'
      obtain ⟨e, he, hstart⟩ := hrestmem d hd
      refine htag e he (G ++ (S ++ G')) Z (by simp [hY']) ?_
        (htag'.trans ((List.suffix_append _ _).trans (List.suffix_append _ _)))
      rw [hstart, byteLength_append, byteLength_append, hlen']
    obtain ⟨ps, hps⟩ := ih Y'.length hshorter hview' Mode.proper_code
      ((htidy.of_append hplace).of_append hs.importPlace) houtsideY htagY rfl
    exact ⟨_, .cons (p := ⟨G, g, S, x :: s'⟩) ⟨hG,
      fun R => (hwalkS R).viewFrom_eq, hs, hfirst, hlast⟩ hps⟩

end UseImports
