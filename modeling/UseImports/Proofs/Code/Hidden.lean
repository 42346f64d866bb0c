import UseImports.Analysis
import UseImports.Proofs.Code.Heredoc
import UseImports.Proofs.Code.View

/-!
# Hidden text

Comments, the contents of string literals and inline HTML are hidden: what they say has no influence
on what is found in a document. Two texts are compared that differ in a stretch of words and spaces
which the walk reaches in the same mode, outside of code.

* `Settles.filler`: outside of code, words and spaces are blanked and nothing else happens.
* `Walk.view_unique`: two walks to the same place outside of code give the same view.
* `Document.analyze_congr`: of its text, an analysis depends on the lines alone.
* `analyze_eq_of_hidden`: **what is hidden has no influence on the analysis.**
-/

namespace UseImports

variable {c c' x : Char} {m μ : Mode} {A a a' b b' code t t' X X' : List Char}
    {known : List Verdict}

/-! ## Words and spaces -/

/-- An ASCII letter, a digit, an underscore or a space. -/
def isFiller (c : Char) : Bool :=
  c.isAlphanum || c == '_' || c == ' '

theorem isFiller_ne (h : isFiller c = true) (hx : isFiller x = false) : c ≠ x := by
  rintro rfl
  rw [h] at hx
  cases hx

theorem toNat_lt_of_isFiller (h : isFiller c = true) : c.toNat < 0x80 := by
  have hcases :
      (((decide (c.val ≥ 'A'.val ∧ c.val ≤ 'Z'.val) || (c.val ≥ 'a'.val && c.val ≤ 'z'.val)) ||
      (c.val ≥ '0'.val && c.val ≤ '9'.val)) || c == '_' || c == ' ') = true := h
  simp only [Bool.or_eq_true, Bool.and_eq_true, decide_eq_true_eq, beq_iff_eq] at hcases
  rcases hcases with ((((h | h) | h) | rfl) | rfl)
  · exact Nat.lt_of_le_of_lt (UInt32.le_iff_toNat_le.mp h.2) (by decide)
  · exact Nat.lt_of_le_of_lt (UInt32.le_iff_toNat_le.mp h.2) (by decide)
  · exact Nat.lt_of_le_of_lt (UInt32.le_iff_toNat_le.mp h.2) (by decide)
  · decide
  · decide

theorem utf8Size_of_isFiller (h : isFiller c = true) : c.utf8Size = 1 := by
  have := toNat_lt_of_isFiller h
  rw [Char.utf8Size_eq_one_iff, UInt32.le_iff_toNat_le]
  exact Nat.le_of_lt_succ this

theorem render_filler (h : isFiller c = true) : Verdict.blank.render c = [' '] := by
  have hbreak : ¬ (c = '\n' ∨ c = '\r') := by
    rintro (rfl | rfl) <;> exact absurd h (by decide)
  rw [Verdict.render, if_neg hbreak, utf8Size_of_isFiller h]
  rfl

/-- Outside of code a word character or a space is blanked, and nothing else happens. -/
theorem Mode.step_filler (hm : m ≠ .code) (hproper : m.Proper) (hc : isFiller c = true)
    (rest : List Char) : m.step c rest = .ok ⟨.blank, [], m⟩ := by
  have hne : ∀ x, isFiller x = false → c ≠ x := fun x hx => isFiller_ne hc hx
  cases m with
  | html => rw [Mode.step, if_neg fun h => hne '<' (by decide) h.1]
  | code => exact absurd rfl hm
  | lineComment =>
    rw [Mode.step, if_neg (hne '\n' (by decide)), if_neg fun h => hne '?' (by decide) h.1]
  | blockComment => rw [Mode.step, if_neg fun h => hne '*' (by decide) h.1]
  | quoted q =>
    have hq : isFiller q = false := by
      have := hproper q rfl
      simp only [quotes, List.mem_cons, List.not_mem_nil, or_false] at this
      rcases this with rfl | rfl | rfl <;> decide
    rw [Mode.step, if_neg (hne '\\' (by decide)), if_neg (hne q hq)]

/-- **Outside of code, words and spaces are blanked, and nothing else happens.** -/
theorem Settles.filler (hm : m ≠ .code) (hproper : m.Proper) (hb : ∀ c ∈ b, isFiller c = true) :
    Settles m b (List.replicate b.length ' ') m := by
  induction b with
  | nil => exact Settles.nil m
  | cons c b ih =>
    have hc := hb c List.mem_cons_self
    have hone : Settles m [c] [' '] m := by
      intro R
      rw [List.singleton_append, viewFrom_step, Mode.step_filler hm hproper hc]
      dsimp only
      rw [render_filler hc]
    exact hone.append (ih fun x hx => hb x (List.mem_cons_of_mem c hx))

/-! ## Two walks to one place -/

/-- A walk that carries out known verdicts up to its end stays in its mode. -/
theorem Walk.mode_of_length {B : List Char} {m' : Mode} (h : Walk B known m A a [] m')
    (hlen : known.length = A.length) : m' = m := by
  induction A generalizing known a with
  | nil => exact h.eq_of_nil.2.1.symm
  | cons c A ih =>
    cases h with
    | known h => exact ih h (Nat.succ.inj hlen)
    | step _ _ => cases hlen

section TwoWalks

variable {d d' : Decision}

/-- How long an open tag is does not depend on the words that follow a walk behind it. -/
theorem tagRest_filler (hc : isFiller c = true) (hc' : isFiller c' = true) (hA : A ≠ [])
    (h : tagRest (A ++ c :: X) ≤ A.length) (h' : tagRest (A ++ c' :: X') ≤ A.length) :
    tagRest (A ++ c :: X) = tagRest (A ++ c' :: X') := by
  have hecho : (A ++ c :: X).take 2 = "?=".toList ↔ (A ++ c' :: X').take 2 = "?=".toList := by
    match A, hA with
    | [y], _ =>
      have hne : c ≠ '=' := isFiller_ne hc (by decide)
      have hne' : c' ≠ '=' := isFiller_ne hc' (by decide)
      simp [hne, hne']
    | y :: z :: A, _ => rfl
  by_cases hfour : 4 ≤ A.length
  · simp only [tagRest, List.take_append_of_le_length hfour, hecho]
  · -- a long tag would reach over the end of `A`
    have hshort : ∀ Y, tagRest Y ≤ A.length → eqIgnoreCase (Y.take 4) "?php".toList = false := by
      intro Y hY
      by_contra hlong
      rw [tagRest, if_pos (by simpa using hlong)] at hY
      exact hfour hY
    simp only [tagRest, hshort _ h, hshort _ h', hecho]

/-- What a step in code decides does not depend on the words that follow two walks which end outside
of code. -/
theorem stepCode_filler (hc : isFiller c = true) (hc' : isFiller c' = true) (hμ : μ ≠ .code)
    (hstep : stepCode x (A ++ c :: X) = .ok d) (hstep' : stepCode x (A ++ c' :: X') = .ok d')
    (hwalk : Walk (c :: X) d.further d.mode A a [] μ)
    (hwalk' : Walk (c' :: X') d'.further d'.mode A a' [] μ) :
    d = d' := by
  have hne : ∀ y, isFiller y = false → c ≠ y := fun y hy => isFiller_ne hc hy
  have hne' : ∀ y, isFiller y = false → c' ≠ y := fun y hy => isFiller_ne hc' hy
  have hplain : ∀ e, stepCode x (A ++ c :: X) = e → stepCode x (A ++ c' :: X') = e → d = d' := by
    intro e he he'
    rw [hstep] at he
    rw [hstep', ← he] at he'
    exact (Except.ok.inj he').symm
  match A with
  | [] =>
    have hhead : ∀ y, isFiller y = false → c ≠ y ∧ c' ≠ y := fun y hy => ⟨hne y hy, hne' y hy⟩
    refine hplain _ rfl ?_
    rw [stepCode_eq, stepCode_eq]
    simp [hhead '>' (by decide), hhead '/' (by decide), hhead '*' (by decide),
      hhead '[' (by decide), (hhead '<' (by decide)).1, (hhead '<' (by decide)).2]
  | [y] =>
    refine hplain _ rfl ?_
    rw [stepCode_eq, stepCode_eq]
    simp [hne '<' (by decide), hne' '<' (by decide)]
  | y :: z :: A =>
    by_cases hopen : x = '<' ∧ (y :: z :: (A ++ c :: X)).take 2 = ['<', '<']
    · obtain ⟨rfl, htake⟩ := hopen
      have hstart : ∀ Y, stepCode '<' (y :: z :: (A ++ Y)) =
          (heredoc (A ++ Y)).map fun further => ⟨.keep, .keep :: .keep :: further, .code⟩ := by
        intro Y
        rw [stepCode_eq]
        simp [show [y, z] = ['<', '<'] from htake]
      rw [List.cons_append, List.cons_append, hstart, map_ok_iff] at hstep hstep'
      obtain ⟨f, hf, rfl⟩ := hstep
      obtain ⟨f', hf', rfl⟩ := hstep'
      -- each heredoc is closed before the end of `A`, for else the walk would end in code
      have hlen : f.length < A.length := by
        refine Nat.lt_of_le_of_ne (by simpa using hwalk.length_le) fun heq => hμ ?_
        exact hwalk.mode_of_length (by simp [heq])
      have hlen' : f'.length < A.length := by
        refine Nat.lt_of_le_of_ne (by simpa using hwalk'.length_le) fun heq => hμ ?_
        exact hwalk'.mode_of_length (by simp [heq])
      have heq : f = f' := by
        by_cases hnil : f = []
        · by_contra hdiff
          have := heredoc_append hf' (fun h => hdiff (hnil.trans h.symm)) hlen' (c :: X)
          exact hdiff (Except.ok.inj (hf.symm.trans this))
        · exact Except.ok.inj ((heredoc_append hf hnil hlen (c' :: X')).symm.trans hf')
      rw [heq]
    · refine hplain _ rfl ?_
      exact @stepCode_congr x y (z :: (A ++ c' :: X')) (z :: (A ++ c :: X)) hopen hopen

theorem Mode.step_filler_unique (hc : isFiller c = true) (hc' : isFiller c' = true) (hμ : μ ≠ .code)
    (hstep : m.step x (A ++ c :: X) = .ok d) (hstep' : m.step x (A ++ c' :: X') = .ok d')
    (hwalk : Walk (c :: X) d.further d.mode A a [] μ)
    (hwalk' : Walk (c' :: X') d'.further d'.mode A a' [] μ) :
    d = d' := by
  have hne : ∀ y, isFiller y = false → c ≠ y ∧ c' ≠ y := fun y hy =>
    ⟨isFiller_ne hc hy, isFiller_ne hc' hy⟩
  have hsame : m.step x (A ++ c :: X) = m.step x (A ++ c' :: X') → d = d' := fun h =>
    Except.ok.inj (hstep.symm.trans (h.trans hstep'))
  have hascii := toNat_lt_of_isFiller hc
  have hascii' := toNat_lt_of_isFiller hc'
  cases m with
  | html =>
    cases A with
    | nil =>
      refine hsame ?_
      simp only [Mode.step, List.nil_append, List.head?_cons, Option.some.injEq,
        (hne '?' (by decide)).1, (hne '?' (by decide)).2, and_false, if_false]
    | cons y A =>
      by_cases htag : x = '<' ∧ (y :: A ++ c :: X).head? = some '?'
      · rw [Mode.step, if_pos htag] at hstep
        rw [Mode.step,
          if_pos (show x = '<' ∧ (y :: A ++ c' :: X').head? = some '?' from htag)] at hstep'
        cases hstep
        cases hstep'
        have hlen := hwalk.length_le
        have hlen' := hwalk'.length_le
        rw [List.length_replicate] at hlen hlen'
        rw [tagRest_filler hc hc' (List.cons_ne_nil y A) hlen hlen']
      · refine hsame ?_
        rw [Mode.step, if_neg htag, Mode.step,
          if_neg (show ¬ (x = '<' ∧ (y :: A ++ c' :: X').head? = some '?')
          from htag)]
  | code => exact stepCode_filler hc hc' hμ hstep hstep' hwalk hwalk'
  | lineComment =>
    refine hsame ?_
    cases A with
    | nil => simp [Mode.step, hne '>' (by decide)]
    | cons y A => rfl
  | blockComment =>
    refine hsame ?_
    cases A with
    | nil => simp [Mode.step, hne '/' (by decide)]
    | cons y A => rfl
  | quoted q =>
    refine hsame ?_
    cases A with
    | nil => simp [Mode.step, hascii, hascii']
    | cons y A => rfl

end TwoWalks

/-- **Two walks to the same place outside of code give the same view**, if only words and spaces in
which the texts differ follow there. -/
theorem Walk.view_unique (hc : isFiller c = true) (hc' : isFiller c' = true) (hμ : μ ≠ .code)
    (h : Walk (c :: X) known m A a [] μ) (h' : Walk (c' :: X') known m A a' [] μ) : a = a' := by
  induction A generalizing known m a a' with
  | nil => rw [h.eq_of_nil.2.2, h'.eq_of_nil.2.2]
  | cons x A ih =>
    cases h with
    | known h =>
      cases h' with
      | known h' => rw [ih h h']
    | step hstep h =>
      cases h' with
      | step hstep' h' =>
        obtain rfl := Mode.step_filler_unique hc hc' hμ hstep hstep' h h'
        rw [ih h h']

/-! ## Documents with the same code and the same lines -/

theorem hasOpenTag_filler (hb : ∀ c ∈ b, isFiller c = true) : hasOpenTag b = false := by
  induction b with
  | nil => rfl
  | cons c b ih =>
    have hne : c ≠ '<' := isFiller_ne (hb c List.mem_cons_self) (by decide)
    rw [← List.singleton_append, hasOpenTag_append, ih fun x hx => hb x (List.mem_cons_of_mem c hx)]
    simp [hasOpenTag, hne]

/-- Whether a text begins in code does not depend on the words in it. -/
theorem startMode_filler (hb : ∀ c ∈ b, isFiller c = true) (hb' : ∀ c ∈ b', isFiller c = true)
    (hne : b ≠ []) (hne' : b' ≠ []) (pre post : List Char) :
    startMode (pre ++ (b ++ post)) = startMode (pre ++ (b' ++ post)) := by
  have htag : ∀ w : List Char, (∀ c ∈ w, isFiller c = true) → w ≠ [] →
      hasOpenTag (pre ++ (w ++ post)) = (hasOpenTag pre || hasOpenTag post) := by
    intro w hw hnil
    have hhead : ∀ c ∈ (w ++ post).head?, c ≠ '?' := by
      rw [List.head?_append_of_ne_nil _ hnil]
      exact fun c hc => isFiller_ne (hw c (List.mem_of_mem_head? hc)) (by decide)
    have hlast : ∀ c ∈ w.getLast?, c ≠ '<' := fun c hc =>
      isFiller_ne (hw c (List.mem_of_getLast? hc)) (by decide)
    have hfirst : ((w ++ post).head? == some '?') = false :=
      beq_eq_false_iff_ne.mpr fun h => hhead '?' h rfl
    have hend : (w.getLast? == some '<') = false :=
      beq_eq_false_iff_ne.mpr fun h => hlast '<' h rfl
    rw [hasOpenTag_append, hasOpenTag_append w, hasOpenTag_filler hw, hfirst, hend]
    simp
  rw [startMode, startMode, htag b hb hne, htag b' hb' hne']

/-- Words of the same length do not change the lines of a text. -/
theorem lineOf_filler (hb : ∀ c ∈ b, isFiller c = true) (hb' : ∀ c ∈ b', isFiller c = true)
    (hlen : b.length = b'.length) (pre post : List Char) (n : Nat) :
    lineOf (pre ++ (b ++ post)) n = lineOf (pre ++ (b' ++ post)) n := by
  induction pre generalizing n with
  | cons x pre ih => simp only [List.cons_append, lineOf, ih]
  | nil =>
    rw [List.nil_append, List.nil_append]
    induction b generalizing b' n with
    | nil =>
      obtain rfl : b' = [] := List.eq_nil_of_length_eq_zero hlen.symm
      rfl
    | cons c b ih =>
      cases b' with
      | nil => cases hlen
      | cons c' b' =>
        have hc := hb c List.mem_cons_self
        have hc' := hb' c' List.mem_cons_self
        have hrest := ih (fun x hx => hb x (List.mem_cons_of_mem c hx))
          (fun x hx => hb' x (List.mem_cons_of_mem c' hx)) (Nat.succ.inj hlen)
        simp only [List.cons_append, lineOf, utf8Size_of_isFiller hc,
          utf8Size_of_isFiller hc', hrest,
          if_neg (isFiller_ne hc (show isFiller '\n' = false by decide)),
          if_neg (isFiller_ne hc' (show isFiller '\n' = false by decide))]

/-- The declarations of a document depend on its code and its lines. -/
theorem Document.declarations_congr (h : ∀ n, UseImports.lineOf t n = UseImports.lineOf t' n) :
    (Document.mk t code).declarations = (Document.mk t' code).declarations := by
  have hread : ∀ keyword stop, readStatement ⟨t, code⟩ keyword stop =
      readStatement ⟨t', code⟩ keyword stop := by
    intro keyword stop
    simp only [readStatement, readSequence, readGroup, Document.lineOf, h]
  simp only [Document.declarations, hread]
  rfl

/-- **Of its text, the analysis of a document depends on the lines alone.** -/
theorem Document.analyze_congr (h : ∀ n, UseImports.lineOf t n = UseImports.lineOf t' n) :
    (Document.mk t code).analyze = (Document.mk t' code).analyze := by
  have hrefs : ∀ ds table, references ⟨t, code⟩ ds table = references ⟨t', code⟩ ds table :=
    fun _ _ => rfl
  have hunimported : ∀ rs table declared,
      findUnimported ⟨t, code⟩ rs table declared = findUnimported ⟨t', code⟩ rs table declared := by
    intro rs table declared
    simp only [findUnimported, Document.lineOf, h]
  have hnamespace : (Document.mk t code).ownNamespace? = (Document.mk t' code).ownNamespace? := by
    simp only [Document.ownNamespace?, Document.lineOf, h]
    rfl
  have hclasses : (Document.mk t code).declaredClasses = (Document.mk t' code).declaredClasses :=
    rfl
  simp only [Document.analyze, Document.declarations_congr h, hrefs, hunimported,
    hnamespace, hclasses]

/-! ## Hidden text -/

/-- **What is hidden has no influence.** Two texts differ in words and spaces, as many in the one as
in the other; if the walk over both comes to the place where they differ in the same mode, outside
of code, then they have the same code view and the same analysis. -/
theorem analyze_eq_of_hidden {pre post b b' a a' : List Char} {m : Mode}
    (hb : ∀ c ∈ b, isFiller c = true) (hb' : ∀ c ∈ b', isFiller c = true)
    (hlen : b.length = b'.length) (hm : m ≠ .code)
    (h : Walk (b ++ post) [] (startMode (pre ++ (b ++ post))) pre a [] m)
    (h' : Walk (b' ++ post) [] (startMode (pre ++ (b' ++ post))) pre a' [] m) :
    codeView (pre ++ (b ++ post)) = codeView (pre ++ (b' ++ post)) ∧
      analyze (String.ofList (pre ++ (b ++ post))) =
        analyze (String.ofList (pre ++ (b' ++ post))) := by
  have hview : codeView (pre ++ (b ++ post)) = codeView (pre ++ (b' ++ post)) := by
    cases b with
    | nil =>
      obtain rfl : b' = [] := List.eq_nil_of_length_eq_zero hlen.symm
      rfl
    | cons c b =>
      cases b' with
      | nil => cases hlen
      | cons c' b' =>
        have hproper := h.proper (Mode.proper_startMode _)
        rw [← startMode_filler hb hb' (List.cons_ne_nil c b) (List.cons_ne_nil c' b')] at h'
        obtain rfl := Walk.view_unique (hb c List.mem_cons_self) (hb' c' List.mem_cons_self) hm h h'
        rw [codeView_eq, codeView_eq,
          ← startMode_filler hb hb' (List.cons_ne_nil c b) (List.cons_ne_nil c' b'),
          h.viewFrom_eq, h'.viewFrom_eq, Settles.filler hm hproper hb,
          Settles.filler hm hproper hb', hlen]
  refine ⟨hview, ?_⟩
  unfold analyze Document.ofString Document.ofText
  rw [String.toList_ofList, String.toList_ofList, hview]
  cases codeView (pre ++ (b' ++ post)) with
  | error e => rfl
  | ok code =>
    exact congrArg Except.ok (Document.analyze_congr (lineOf_filler hb hb' hlen pre post))

/-- A comment may name one class or another. -/
theorem analyze_eq_of_comment :
    analyze "<?php #new Foo\nnew Bar;" = analyze "<?php #use Qux\nnew Bar;" := by
  have hwalk : ∀ c ∈ ['n', 'u'], ∀ B,
      Walk (c :: B) [] .html "<?php #".toList "       ".toList [] .lineComment := by
    intro c hc B
    simp only [List.mem_cons, List.not_mem_nil, or_false] at hc
    rcases hc with rfl | rfl
    all_goals
      refine .step (d := ⟨.blank, [.blank, .blank, .blank, .blank], .code⟩) rfl ?_
      refine .known (.known (.known (.known ?_)))
      refine .step (d := ⟨.keep, [], .code⟩) rfl ?_
      refine .step (d := ⟨.blank, [], .lineComment⟩) rfl ?_
      exact .done _ _
  have hfirst : Walk ("new Foo".toList ++ "\nnew Bar;".toList) []
      (startMode ("<?php #".toList ++ ("new Foo".toList ++ "\nnew Bar;".toList))) "<?php #".toList
      "       ".toList [] .lineComment := by
    rw [show startMode ("<?php #".toList ++ ("new Foo".toList ++ "\nnew Bar;".toList)) =
      .html by decide]
    exact hwalk 'n' (by decide) "ew Foo\nnew Bar;".toList
  have hsecond : Walk ("use Qux".toList ++ "\nnew Bar;".toList) []
      (startMode ("<?php #".toList ++ ("use Qux".toList ++ "\nnew Bar;".toList))) "<?php #".toList
      "       ".toList [] .lineComment := by
    rw [show startMode ("<?php #".toList ++ ("use Qux".toList ++ "\nnew Bar;".toList)) =
      .html by decide]
    exact hwalk 'u' (by decide) "se Qux\nnew Bar;".toList
  have h := (analyze_eq_of_hidden (by decide) (by decide) (by decide) (by decide) hfirst hsecond).2
  rwa [show String.ofList ("<?php #".toList ++ ("new Foo".toList ++ "\nnew Bar;".toList)) =
      "<?php #new Foo\nnew Bar;" by decide,
    show String.ofList ("<?php #".toList ++ ("use Qux".toList ++ "\nnew Bar;".toList)) =
      "<?php #use Qux\nnew Bar;" by decide] at h

end UseImports
