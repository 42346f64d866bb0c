import UseImports.Proofs.Code.Passage
import UseImports.Proofs.Code.Rewording

/-!
# What can be seen around heredocs

A semicolon or a brace that can be seen is read as code, or it stands in the first line of a
heredoc, which stays in the view as a whole. Where it is read as code, the walk to it is the same
whatever follows it: no mark of the language holds a stop, and a heredoc in front of it has been
closed. The same holds of every place where a statement may begin: a heredoc ends with its
identifier, and there a stop or the start of the text comes before.

White space at the start of a line is kept where the word behind it can be seen. Only in front of
the identifier that closes a heredoc it is blanked, and there it is made of spaces and tabs. The
identifier may begin with white space, if that is not ASCII.

The first line of a heredoc may hold a line end after all: the character behind a quoted identifier
counts for the quote, whatever it is.

* `heredoc_append_of_stop`: a heredoc that is over at a stop is so whatever follows.
* `heredoc_keep_of_stop`: a stop that can be seen in a heredoc stands in its first line.
* `Walk.code_of_visible`: **what can be seen outside of heredocs is read as code.**
* `Walk.cases_of_stop`: **a stop is read as code, or in the first line of a heredoc.**
* `Walk.independent_of_stop`: **a walk to a stop is the same whatever follows it.**
* `Walk.independent_of_opens`, `Walk.getLast?_ne`: **walks to places where a statement may begin.**
* `Walk.exists_indent`: **the white space in front of a word that can be seen.**
-/

namespace UseImports

variable {A a B b L label q V v X Z : List Char} {c e x : Char} {f g known known' : List Verdict}
    {n : Nat} {m m' : Mode} {atStart : Bool}

/-! ## Cuts of a text -/

section Cuts

variable {p : List Char}

/-- A character that does not stand in front of a cut stands behind it. -/
theorem exists_behind_of_not_mem (h : a ++ x :: b = p ++ q) (hx : x ∉ p) :
    ∃ t, a = p ++ t ∧ q = t ++ x :: b := by
  rcases List.append_eq_append_iff.mp h with ⟨t, hp, hq⟩ | ⟨t, ha, hq⟩
  · cases t with
    | nil => exact ⟨[], by simpa using hp.symm, by simpa using hq.symm⟩
    | cons y t =>
      obtain rfl : x = y := (List.cons.inj hq).1
      exact absurd (by rw [hp]; simp) hx
  · exact ⟨t, ha, hq⟩

/-- A character that does not stand behind a cut stands in front of it. -/
theorem exists_front_of_not_mem (h : a ++ x :: b = p ++ q) (hx : x ∉ q) :
    ∃ t, p = a ++ x :: t ∧ b = t ++ q := by
  rcases List.append_eq_append_iff.mp h with ⟨t, hp, hq⟩ | ⟨t, -, hq⟩
  · cases t with
    | nil => exact absurd (by rw [← List.nil_append q, ← hq]; simp) hx
    | cons y t =>
      obtain ⟨rfl, hb⟩ := List.cons.inj hq
      exact ⟨t, hp, hb⟩
  · exact absurd (by rw [hq]; simp) hx

end Cuts

/-! ## Stops in heredocs -/

/-- A stop neither belongs to the identifier of a heredoc nor stands in front of it. -/
theorem not_opener_of_isStop (he : isStop e = true) :
    isIndent e = false ∧ quoteLength [e] = 0 ∧ isIdentChar e = false := by
  rcases isStop_cases he with rfl | rfl | rfl <;> decide

/-- **A heredoc that is over at a stop** is so whatever follows. -/
theorem heredoc_append_of_stop (h : heredoc (V ++ e :: B) = .ok f) (he : isStop e = true)
    (hlen : f.length ≤ V.length) (R : List Char) : heredoc (V ++ e :: R) = .ok f := by
  have hsplit : ∀ X, V ++ e :: X = (V ++ [e]) ++ X := fun X => by simp
  rw [hsplit] at h ⊢
  refine heredoc_append_of_mem h (List.mem_append_right V List.mem_cons_self)
    (not_opener_of_isStop he) ?_ R
  rw [List.length_append, List.length_singleton]
  omega

theorem not_mem_opener {ws : List Char} (hindent : ∀ c ∈ ws, isIndent c = true)
    (hquote : ∀ c ∈ q, c = '\x27' ∨ c = '\x22') (hlabel : ∀ c ∈ label, isIdentChar c = true)
    (hc : isIndent c = false ∧ quoteLength [c] = 0 ∧ isIdentChar c = false) :
    c ∉ ws ++ (q ++ label) := by
  obtain ⟨hnotIndent, hnotQuote, hnotIdent⟩ := hc
  intro hmem
  rcases List.mem_append.mp hmem with hmem | hmem
  · rw [hindent c hmem] at hnotIndent
    cases hnotIndent
  rcases List.mem_append.mp hmem with hmem | hmem
  · rcases hquote c hmem with rfl | rfl <;> cases hnotQuote
  · rw [hlabel c hmem] at hnotIdent
    cases hnotIdent

/-- What follows the three angle brackets: white space, a quote, the identifier and the rest. -/
theorem Opener.read_text (rest : List Char) :
    ∃ ws q, rest = ws ++ (q ++ ((read rest).label ++ (read rest).tail)) ∧
    ws.length = (read rest).lead ∧ q.length = (read rest).quote ∧ (read rest).quote ≤ 1 ∧
    (∀ c ∈ ws, isIndent c = true) ∧ (∀ c ∈ q, c = '\x27' ∨ c = '\x22') ∧ ∀ c ∈ (read rest).label,
    isIdentChar c = true := by
  have hparts := List.takeWhile_append_dropWhile (p := isIndent) (l := rest)
  have hlength := congrArg List.length hparts
  rw [List.length_append] at hlength
  unfold read
  dsimp only
  generalize rest.dropWhile isIndent = O at *
  refine ⟨rest.takeWhile isIndent, O.take (quoteLength O), ?_, by omega, ?_, quoteLength_le O,
    fun c hc => List.mem_takeWhile_imp hc, fun c hc => ?_, fun c hc => List.mem_takeWhile_imp hc⟩
  · rw [drop_length_takeWhile, List.takeWhile_append_dropWhile, List.take_append_drop, hparts]
  · rw [List.length_take]
    cases O with
    | nil => rfl
    | cons c O => exact Nat.min_eq_left ((quoteLength_le (c :: O)).trans (Nat.le_add_left 1 _))
  · cases O with
    | nil => simp at hc
    | cons x O =>
      unfold quoteLength at hc
      split at hc
      · rename_i hquote
        rw [List.take_one, List.head?_cons, Option.toList_some, List.mem_singleton] at hc
        subst hc
        simpa using hquote
      · simp at hc

/-- A heredoc whose first line ends inside the text `t`: behind that line come the verdicts on the
other lines. -/
theorem exists_heredocBody {lead quote : Nat} {label t : List Char} (hlabel : label ≠ [])
    (hbreak : '\n' ∈ t.drop quote) :
    ∃ head X, '\n' :: X <:+ t ∧ head + X.length = lead + quote + label.length + t.length ∧
      ∀ Z, heredocLabelled lead quote label (t ++ Z) =
        .ok (List.replicate head .keep ++ bodyVerdicts label (X ++ Z)) := by
  obtain ⟨line, X, hdrop, hline⟩ := List.eq_append_cons_of_mem hbreak
  have hsize := congrArg List.length hdrop
  rw [List.length_drop, List.length_append, List.length_cons] at hsize
  have hsuffix : '\n' :: X <:+ t :=
    List.IsSuffix.trans ⟨line, hdrop.symm⟩ (List.drop_suffix quote t)
  refine ⟨lead + quote + label.length + quote + line.length + 1, X, hsuffix, by omega, fun Z => ?_⟩
  have hsplit : (t ++ Z).drop quote = line ++ '\n' :: (X ++ Z) := by
    rw [List.drop_append_of_le_length (by omega), hdrop, List.append_assoc, List.cons_append]
  have hne : t ≠ [] := fun hnil => by
    rw [hnil] at hbreak
    simp at hbreak
  rw [heredocLabelled_eq hlabel (List.append_ne_nil_of_left_ne_nil hne Z) hsplit hline (by simp),
    List.drop_one, List.tail_cons]

/-- A heredoc whose first line does not end inside the text `t` keeps that text, and what follows it
on the line. -/
theorem exists_keep_of_not_break {lead quote : Nat} {t : List Char} (hlabel : label ≠ [])
    (h : heredocLabelled lead quote label (t ++ (L ++ Z)) = .ok f) (hbreak : '\n' ∉ t.drop quote)
    (hL : '\n' ∉ L) (hquote : quote ≤ t.length ∨ L = []) :
    ∃ g, f = List.replicate (lead + quote + label.length + t.length + L.length) .keep ++ g := by
  refine exists_keep_of_heredocLabelled h hlabel ?_
  have hkeep : ∀ c ∈ t.drop quote ++ L, decide (c ≠ '\n') = true := fun c hc =>
    (List.mem_append.mp hc).elim (fun hc => decide_eq_true (ne_of_mem_of_not_mem hc hbreak))
      fun hc => decide_eq_true (ne_of_mem_of_not_mem hc hL)
  have hinitial : t.drop quote ++ L <+: ((t ++ (L ++ Z)).drop quote).takeWhile (· ≠ '\n') := by
    rcases hquote with hle | rfl
    · rw [List.drop_append_of_le_length hle, ← List.append_assoc,
        List.takeWhile_append_of_pos hkeep]
      exact List.prefix_append _ _
    · rw [List.append_nil] at hkeep ⊢
      rw [List.drop_append, List.takeWhile_append_of_pos hkeep]
      exact List.prefix_append _ _
  have := hinitial.length_le
  rw [List.length_append, List.length_drop] at this
  omega

/-- The identifier that closes a heredoc holds no stop. -/
theorem bodyVerdicts_ne_keep (hlabel : ∀ c ∈ label, isIdentChar c = true) (he : isStop e = true) :
    (bodyVerdicts label (X ++ e :: B))[X.length]? ≠ some .keep := by
  intro hkeep
  unfold bodyVerdicts at hkeep
  split at hkeep
  · rename_i n hclosing
    obtain ⟨Y, t, htext, rfl⟩ := closingLine_split hclosing
    have hle : Y.length ≤ X.length := by
      by_contra hlt
      rw [List.getElem?_append_left (by simp; omega),
        List.getElem?_replicate_of_lt (by omega)] at hkeep
      cases hkeep
    rw [List.getElem?_append_right (by simpa using hle), List.length_replicate,
      List.getElem?_replicate] at hkeep
    split at hkeep
    · rename_i hlt
      have hget : (X ++ e :: B)[X.length]? = some e := by simp
      rw [htext, List.getElem?_append_right hle, List.getElem?_append_left hlt] at hget
      have := hlabel e (List.mem_of_getElem? hget)
      rw [(not_opener_of_isStop he).2.2] at this
      cases this
    · cases hkeep
  · rw [List.getElem?_replicate_of_lt (by simp)] at hkeep
    cases hkeep

/-- **A stop that can be seen in a heredoc stands in its first line.** If a line ends in front of
it, then directly behind the identifier. -/
theorem heredoc_keep_of_stop (h : heredoc (V ++ e :: B) = .ok f) (he : isStop e = true)
    (hkeep : f[V.length]? = some .keep) :
    (∃ g, f = List.replicate V.length .keep ++ g) ∧
      ∀ P Q, V = P ++ '\n' :: Q → ∃ y ∈ P.getLast?, isIdentChar y = true := by
  rw [heredoc_eq_labelled] at h
  obtain ⟨ws, q, htext, hws, hq, hone, hindent, hquote, hlabel⟩ := Opener.read_text (V ++ e :: B)
  generalize Opener.read (V ++ e :: B) = o at *
  obtain ⟨lead, quote, label, tail⟩ := o
  dsimp only at *
  subst hws hq
  have hne : label ≠ [] := by
    rintro rfl
    rw [heredocLabelled_eq_nil_iff.mpr rfl] at h
    cases h
    cases hkeep
  -- the stop comes behind the identifier
  have hfront := not_mem_opener hindent hquote hlabel (not_opener_of_isStop he)
  obtain ⟨t, rfl, rfl⟩ := exists_behind_of_not_mem (p := ws ++ (q ++ label)) (q := tail)
    (by rw [htext]; simp) hfront
  have hlength : (ws ++ (q ++ label) ++ t).length =
      ws.length + q.length + label.length + t.length := by
    simp only [List.length_append]
    omega
  rw [hlength] at hkeep
  have hline : '\n' ∉ t.drop q.length := fun hbreak => by
    obtain ⟨head, X, -, hhead, hverdicts⟩ := @exists_heredocBody ws.length _ _ _ hne hbreak
    obtain rfl := Except.ok.inj ((hverdicts _).symm.trans h)
    rw [← hhead, List.getElem?_append_right (by simp), List.length_replicate,
      Nat.add_sub_cancel_left] at hkeep
    exact bodyVerdicts_ne_keep hlabel he hkeep
  constructor
  · rw [hlength]
    exact exists_keep_of_not_break (L := []) hne h hline (by simp) (.inr rfl)
  · intro P Q hV
    have hnot : '\n' ∉ ws ++ (q ++ label) := not_mem_opener hindent hquote hlabel (by decide)
    obtain ⟨y, hy⟩ : ∃ y, label.getLast? = some y := ⟨_, List.getLast?_eq_some_getLast hne⟩
    obtain ⟨z, hP, ht⟩ := exists_behind_of_not_mem hV.symm hnot
    -- the line end is the first character behind the identifier
    cases z with
    | nil =>
      refine ⟨y, ?_, hlabel y (List.mem_of_getLast? hy)⟩
      rw [hP, List.append_nil, List.getLast?_append, List.getLast?_append, hy]
      rfl
    | cons x z =>
      refine absurd ?_ hline
      have hmem : '\n' ∈ t.drop 1 := by rw [ht]; simp
      rw [← Nat.add_sub_cancel' hone, ← List.drop_drop] at hmem
      exact List.mem_of_mem_drop hmem

/-! ## Walks to a stop -/

/-- What is known to stay is seen. -/
theorem Walk.eq_of_keep (h : Walk B (List.replicate n .keep ++ g) m A a known' m')
    (hn : A.length ≤ n) : a = A := by
  induction A generalizing n a with
  | nil => exact h.eq_of_nil.2.2
  | cons c A ih =>
    obtain ⟨n, rfl⟩ : ∃ k, n = k + 1 := Nat.exists_eq_add_one_of_ne_zero (by simp at hn; omega)
    rw [List.replicate_succ, List.cons_append] at h
    cases h with
    | known h =>
      rw [ih h (Nat.le_of_succ_le_succ hn)]
      rfl

/-- What is known to stay is seen, and so is what follows it in code. -/
theorem Walk.eq_of_kept (h : Walk B (List.replicate n .keep ++ g) .code A a known' m')
    (hA : ∀ c ∈ A, isPlain c = true) (hn : A.length ≤ n ∨ g = []) : a = A := by
  by_cases hle : A.length ≤ n
  · exact h.eq_of_keep hle
  obtain rfl := hn.resolve_left hle
  rw [← List.take_append_drop n A] at h
  obtain ⟨a₁, a₂, known₁, m₁, rfl, h₁, h₂⟩ := h.split
  have hlength : (A.take n).length = n := List.length_take_of_le (by omega)
  obtain ⟨rfl, rfl⟩ := h₁.drop_known (by simp [hlength])
  rw [hlength, List.append_nil, List.drop_replicate, Nat.sub_self] at h₂
  rw [h₁.eq_of_keep hlength.le, h₂.eq_of_isPlain fun c hc => hA c (List.mem_of_mem_drop hc),
    List.take_append_drop]

/-- **What can be seen is read as code, or a heredoc reaches over it.** -/
theorem Walk.cases_of_visible (h : Walk (x :: B) [] m A a known m') (hm : m.Proper)
    (hview : viewFrom known m' (x :: B) = .ok (x :: b)) (hspace : isSpace x = false)
    (hquote : x ∉ quotes) (hbracket : x ≠ '<') :
    (known = [] ∧ m' = .code) ∨ ∃ A₁ a₁ V v f, A = A₁ ++ '<' :: '<' :: '<' :: V ∧
    a = a₁ ++ '<' :: '<' :: '<' :: v ∧
      Walk ('<' :: '<' :: '<' :: (V ++ x :: B)) [] m A₁ a₁ [] .code ∧
      heredoc (V ++ x :: B) = .ok f ∧
      f[V.length]? = some .keep ∧ Walk (x :: B) f .code V v known m' := by
  by_cases hknown : known = []
  · subst hknown
    exact .inl ((steady_nil (h.proper hm) _).code_of_visible hview hspace hquote)
  right
  obtain hlt | ⟨A₁, a₁, m₁, c, A₂, d, rfl, hfirst, hd, hlt⟩ := h.exists_step hknown
  · exact absurd hlt (Nat.not_lt_zero _)
  -- the walk behind the step that knows the verdict on the character
  obtain ⟨b₁, b₂, known₁, m₂, rfl, hwalk₁, hwalk₂⟩ := h.split
  obtain ⟨heq, rfl, rfl⟩ := hwalk₁.unique hfirst
  subst heq
  cases hwalk₂ with
  | step hd' hrest =>
    obtain rfl := Except.ok.inj (hd.symm.trans hd')
    have hseen := hrest.ne_blank hview hspace
    have hget : d.further[A₂.length]? = some .keep := by
      rw [List.getElem?_eq_getElem hlt] at hseen ⊢
      cases hv : d.further[A₂.length] with
      | keep => rfl
      | blank => exact absurd (congrArg some hv) hseen
    by_cases hopens : m₁ = .code ∧ ['<', '<', '<'] <+: c :: (A₂ ++ x :: B)
    · obtain ⟨rfl, R, hR⟩ := hopens
      obtain ⟨rfl, hrest'⟩ := List.cons.inj hR
      obtain ⟨V, rfl⟩ :=
        exists_brackets hbracket (show (A₂ ++ x :: B).take 2 = ['<', '<'] by rw [← hrest']; rfl)
      obtain ⟨f, hf, rfl⟩ := map_ok_iff.mp hd
      cases hrest with
      | known hrest =>
        cases hrest with
        | @known _ _ _ _ _ v _ _ hrest =>
          exact ⟨A₁, a₁, V, v, f, rfl, rfl, hfirst, hf, by simpa using hget, hrest⟩
    · have hsteady := Steady.step (steady_nil (hfirst.proper hm) _) (fun hcode hin =>
        hopens ⟨hcode, hin⟩) hd
      have := hsteady.blank _ (List.mem_of_getElem? hget)
      cases this

/-- **What can be seen outside of heredocs is read as code.** -/
theorem Walk.code_of_visible (h : Walk (x :: B) [] m A a known m') (hm : m.Proper)
    (hview : viewFrom known m' (x :: B) = .ok (x :: b)) (hspace : isSpace x = false)
    (hquote : x ∉ quotes) (hbracket : x ≠ '<') (hno : ¬ InHeredoc m (A ++ x :: B) (byteLength A)) :
    known = [] ∧ m' = .code := by
  refine (h.cases_of_visible hm hview hspace hquote hbracket).resolve_right ?_
  rintro ⟨A₁, a₁, V, v, f, rfl, -, hopened, hf, hget, -⟩
  have hlt : V.length < f.length := (List.getElem?_eq_some_iff.mp hget).choose
  have hsize : ('<' : Char).utf8Size = 1 := by decide
  refine hno ⟨A₁, V, x :: B, ⟨by simp, ⟨a₁, hopened⟩, f, hf, hlt⟩, ?_⟩
  simp only [byteLength_append, byteLength_cons, hsize]
  omega

/-- **A stop that can be seen is read as code, or it stands in the first line of a heredoc.** In the
second case the text from the angle brackets on is kept, and if a line ends between the brackets and
the stop, then directly behind an identifier. -/
theorem Walk.cases_of_stop (h : Walk (e :: B) [] m A a known m') (hm : m.Proper)
    (hview : viewFrom known m' (e :: B) = .ok (e :: b)) (he : isStop e = true) :
    (known = [] ∧ m' = .code) ∨ ∃ A₁ a₁ V, A = A₁ ++ '<' :: '<' :: '<' :: V ∧
    a = a₁ ++ '<' :: '<' :: '<' :: V ∧
      ∀ P Q, V = P ++ '\n' :: Q → ∃ y ∈ P.getLast?, isIdentChar y = true := by
  have hvisible : isSpace e = false ∧ e ∉ quotes ∧ e ≠ '<' := by
    rcases isStop_cases he with rfl | rfl | rfl <;> decide
  obtain ⟨hspace, hquote, hbracket⟩ := hvisible
  refine (h.cases_of_visible hm hview hspace hquote hbracket).imp_right ?_
  rintro ⟨A₁, a₁, V, v, f, rfl, rfl, -, hf, hget, hrest⟩
  obtain ⟨⟨g, rfl⟩, hbreak⟩ := heredoc_keep_of_stop hf he hget
  rw [hrest.eq_of_keep (Nat.le_refl _)]
  exact ⟨A₁, a₁, V, rfl, rfl, hbreak⟩

/-- **A walk to a stop is the same whatever follows it**, if it is in code there and nothing is
known ahead. -/
theorem Walk.independent_of_stop (h : Walk (e :: B) known m A a [] .code) (he : isStop e = true)
    (R : List Char) :
    Walk (e :: R) known m A a [] .code := by
  have hvisible : isPlain e = true ∧ e ≠ '?' := by
    rcases isStop_cases he with rfl | rfl | rfl <;> decide
  obtain ⟨hplain, htag⟩ := hvisible
  induction A generalizing known m a with
  | nil =>
    obtain ⟨rfl, rfl, rfl⟩ := h.eq_of_nil
    exact .done _ _
  | cons c A ih =>
    cases h with
    | known h => exact .known (ih h)
    | @step _ _ _ d a _ _ hstep h =>
      refine .step ?_ (ih h)
      by_cases hopens : m = .code ∧ ['<', '<', '<'] <+: c :: (A ++ e :: B)
      · obtain ⟨rfl, hopens⟩ := hopens
        obtain ⟨V, v, f, rfl, rfl, rfl, hf, rfl, hover⟩ := exists_heredoc_of_step hstep hopens h
        exact map_ok_iff.mpr ⟨f, heredoc_append_of_stop hf he hover.length_le R, rfl⟩
      · -- the stop is the last character in front of which the step is compared
        have hlast : ∀ X : List Char, (X ++ [e]).getLast? = some e := fun X => by simp
        have hstop : Mode.step e B .code = .ok ⟨.keep, [], .code⟩ := stepCode_of_isPlain hplain B
        have hwalk : Walk B d.further d.mode (A ++ [e]) (a ++ ([e] ++ [])) [] .code :=
          h.trans (.step hstop (.done _ _))
        have hsame := Mode.step_congr (A := A ++ [e]) (by simpa using hstep) hwalk
          (fun hm hin => hopens ⟨hm, by simpa using hin⟩)
          (fun x hx => by
            rw [List.append_nil, ← List.append_assoc, hlast] at hx
            cases hx
            exact .inr he)
          (not_tag_suffix (hlast (c :: A)) htag) R
        simpa using hsame

/-! ## Walks to places where a statement may begin -/

/-- What can be seen of a text stands in it. -/
theorem Walk.mem_of_visible (h : Walk B known m A a known' m') (hx : x ∈ a)
    (hspace : isSpace x = false) : x ∈ A := by
  induction h with
  | done => cases hx
  | known _ ih =>
    rcases List.mem_append.mp hx with hx | hx
    · rw [(keep_of_mem_render hx hspace).2]
      exact List.mem_cons_self
    · exact List.mem_cons_of_mem _ (ih hx)
  | step _ _ ih =>
    rcases List.mem_append.mp hx with hx | hx
    · rw [(keep_of_mem_render hx hspace).2]
      exact List.mem_cons_self
    · exact List.mem_cons_of_mem _ (ih hx)

/-- A heredoc in front of a place where a statement may begin is over there, whatever follows. -/
theorem heredoc_append_of_opens (h : heredoc (V ++ B) = .ok f) (hwalk : Walk B f .code V v [] .code)
    (hB : B ≠ []) (hopens : Opens ('<' :: '<' :: '<' :: v).reverse) (R : List Char) :
    heredoc (V ++ R) = .ok f := by
  -- the last character in front of the place is a stop, and so none of the brackets
  obtain ⟨y, e, ws, hv, he, hws⟩ :=
    Opens.exists_stop (S := []) hopens ⟨'<', List.mem_cons_self, by decide⟩
  have hstop := not_opener_of_isStop he
  have hmem : e ∈ V := by
    have hin : e ∈ '<' :: '<' :: '<' :: v := by rw [hv]; simp
    have hne : e ≠ '<' := by rintro rfl; exact absurd he (by decide)
    simp only [List.mem_cons, hne, false_or] at hin
    refine hwalk.mem_of_visible hin ?_
    rcases isStop_cases he with rfl | rfl | rfl <;> decide
  refine heredoc_append_of_mem h hmem hstop (Nat.lt_of_le_of_ne hwalk.length_le fun heq => ?_) R
  -- otherwise the identifier that closes the heredoc stands directly in front of the place
  obtain ⟨hkeep, c, hc, hident⟩ := heredoc_last h hmem hstop hB heq
  rw [List.getLast?_eq_getElem?, heq] at hkeep
  have hlast := hwalk.getLast?_of_keep hc hkeep
  have hends : EndsPlain v := EndsPlain.of_append (a := ['<', '<', '<']) hopens.endsPlain
  rcases hends c hlast with hspace | hc
  · rw [(of_isIdentChar hident).2.1] at hspace
    cases hspace
  · rw [(not_opener_of_isStop hc).2.2] at hident
    cases hident

/-- What a step decides does not depend on what follows a place where a statement may begin. -/
theorem Mode.step_congr_of_opens {d : Decision} (hstep : m.step c (A ++ B) = .ok d)
    (hwalk : Walk B d.further d.mode A a [] .code) (hB : B ≠ [])
    (hopens : Opens (d.verdict.render c ++ a).reverse) (htag : ¬ ['<', '?'] <:+ c :: A)
    (R : List Char) : m.step c (A ++ R) = .ok d := by
  by_cases hbrackets : m = .code ∧ ['<', '<', '<'] <+: c :: (A ++ B)
  · obtain ⟨rfl, hbrackets⟩ := hbrackets
    obtain ⟨V, v, f, rfl, rfl, rfl, hf, rfl, hover⟩ := exists_heredoc_of_step hstep hbrackets hwalk
    exact map_ok_iff.mpr ⟨f, heredoc_append_of_opens hf hover hB hopens R, rfl⟩
  · exact Mode.step_congr hstep hwalk (fun hm hin => hbrackets ⟨hm, hin⟩) hopens.endsPlain htag R

/-- **A walk to a place where a statement may begin is the same whatever follows**, if it is in code
there and nothing is known ahead. -/
theorem Walk.independent_of_opens (h : Walk B known m A a [] .code) (hB : B ≠ [])
    (hopens : Opens a.reverse) (htag : ¬ ['<', '?'] <:+ A) (R : List Char) :
    Walk R known m A a [] .code := by
  induction A generalizing known m a with
  | nil =>
    obtain ⟨rfl, rfl, rfl⟩ := h.eq_of_nil
    exact .done _ _
  | cons c A ih =>
    have htag' : ¬ ['<', '?'] <:+ A := fun hs => htag (hs.trans (List.suffix_cons _ _))
    have htail : ∀ {r t : List Char}, Opens (r ++ t).reverse → Opens t.reverse := fun h => by
      rw [List.reverse_append] at h
      exact h.of_append
    cases h with
    | known h => exact .known (ih h (htail hopens) htag')
    | step hstep h =>
      exact .step (Mode.step_congr_of_opens hstep h hB hopens htag R) (ih h (htail hopens) htag')

/-- A bracket that is decided by itself does not lead to a place where a statement may begin. -/
theorem Walk.ne_bracket (h : Walk B [] m [x] a [] .code) (hm : m.Proper) (hlast : EndsPlain a) :
    x ≠ '<' := by
  rintro rfl
  cases h with
  | step hstep h =>
    obtain ⟨hfurther, hmode, rfl⟩ := h.eq_of_nil
    rw [List.append_nil] at hlast
    cases m with
    | html =>
      rw [Mode.step] at hstep
      split at hstep
      · cases hstep
        exact tagRest_ne_zero _ ((List.replicate_eq_nil_iff _).mp hfurther)
      · cases hstep
        cases hmode
    | code =>
      obtain ⟨-, hplain⟩ := plain_of_stepCode hstep hfurther hmode hlast
      exact absurd hplain (by decide)
    | lineComment =>
      cases hstep
      cases hmode
    | blockComment =>
      cases hstep
      cases hmode
    | quoted q =>
      have hq : '<' ≠ q := by
        rintro rfl
        exact absurd (hm '<' rfl) (by decide)
      rw [Mode.step, if_neg (by decide), if_neg hq] at hstep
      cases hstep
      cases hmode

/-- A heredoc that ends directly in front of a place where a statement may begin does not end in a
bracket. -/
theorem heredoc_getLast?_ne (h : heredoc (V ++ B) = .ok f) (hwalk : Walk B f .code V v [] .code)
    (hlen : f.length = V.length) (hB : B ≠ []) (hlast : EndsPlain ('<' :: '<' :: v)) :
    ('<' :: '<' :: V).getLast? ≠ some '<' := by
  intro hV
  cases V with
  | nil =>
    obtain ⟨-, -, rfl⟩ := hwalk.eq_of_nil
    exact absurd (hlast '<' (by simp)) (by decide)
  | cons y V =>
    rw [List.getLast?_cons_cons, List.getLast?_cons_cons] at hV
    obtain ⟨-, x, hx, hident⟩ := heredoc_last h (List.mem_of_getLast? hV) (by decide) hB hlen
    obtain rfl : x = '<' := Option.some.inj (hx.symm.trans hV)
    exact absurd hident (by decide)

/-- **No bracket stands directly in front of a place where a statement may begin.** -/
theorem Walk.getLast?_ne (h : Walk B [] m A a [] .code) (hm : m.Proper) (hB : B ≠ [])
    (hlast : EndsPlain a) :
    A.getLast? ≠ some '<' := by
  intro hA
  obtain ⟨A, rfl⟩ := List.getLast?_eq_some_iff.mp hA
  obtain ⟨a₁, a₂, known, m', rfl, hfront, hend⟩ := h.split
  by_cases hknown : known = []
  · subst hknown
    exact hend.ne_bracket (hfront.proper hm) hlast.of_append rfl
  obtain hlt | ⟨A₁, b₁, m₁, c, A₂, d, rfl, hfirst, hd, hlt⟩ := hfront.exists_step hknown
  · exact absurd hlt (Nat.not_lt_zero _)
  obtain ⟨b₂, b₃, known₁, m₂, rfl, hwalk₁, hwalk₂⟩ := hfront.split
  obtain ⟨-, rfl, rfl⟩ := hwalk₁.unique hfirst
  cases hwalk₂ with
  | @step _ _ _ _ b₃ _ _ hd' hrest =>
    obtain rfl := Except.ok.inj (hd.symm.trans hd')
    have hwhole := hrest.trans hend
    rw [← List.append_assoc] at hd
    -- the bracket is the last character on which a verdict is known
    have hlen : d.further.length = (A₂ ++ ['<']).length := by
      have := hwhole.length_le
      rw [List.length_append, List.length_singleton] at this ⊢
      omega
    by_cases hbrackets : m₁ = .code ∧ ['<', '<', '<'] <+: c :: ((A₂ ++ ['<']) ++ B)
    · obtain ⟨rfl, hbrackets⟩ := hbrackets
      obtain ⟨V, v, f, rfl, hV, hv, hf, rfl, hover⟩ := exists_heredoc_of_step hd hbrackets hwhole
      rw [List.append_assoc, List.append_assoc, hv] at hlast
      rw [hV] at hlen
      refine heredoc_getLast?_ne hf hover (by simpa using hlen) hB hlast.of_append.of_append ?_
      rw [← hV, List.getLast?_concat]
    · have hsteady := Steady.step (steady_nil (hfirst.proper hm) _) (fun hcode hin =>
        hbrackets ⟨hcode, hin⟩) hd
      have hmode := (hwhole.drop_known hlen.ge).2
      refine (hsteady.pending hmode.symm '<' ?_).2 rfl
      rw [hlen, List.take_left]
      simp

/-! ## White space at the start of a line -/

/-- On the line that closes a heredoc, only spaces and tabs stand in front of the identifier. -/
theorem isIndent_of_closingLine {cs : List Char} (h : closingLine label atStart cs = some n)
    (hn : '\n' ∉ cs.take n) : atStart = true ∧ ∀ c ∈ cs.take n, isIndent c = true := by
  induction cs generalizing atStart n with
  | nil => cases h
  | cons c cs ih =>
    rw [closingLine] at h
    split at h
    · rename_i hclose
      cases h
      simp only [Bool.and_eq_true] at hclose
      exact ⟨hclose.1.1, by simp⟩
    · obtain ⟨k, hk, rfl⟩ := Option.map_eq_some_iff.mp h
      rw [List.take_succ_cons, List.mem_cons, not_or] at hn
      obtain ⟨hstart, hindent⟩ := ih hk hn.2
      have hc : atStart = true ∧ isIndent c = true := by simpa [Ne.symm hn.1] using hstart
      refine ⟨hc.1, fun y hy => ?_⟩
      rw [List.take_succ_cons] at hy
      exact (List.mem_cons.mp hy).elim (fun heq => heq ▸ hc.2) (hindent y)

/-- A heredoc is closed in front of the start of a line, or it is closed as if that were its start.
-/
theorem closingLine_behind {Y : List Char} (h : closingLine label atStart (X ++ Y) = some n)
    (hX : X = [] ∧ atStart = true ∨ X.getLast? = some '\n') :
    n < X.length ∨ ∃ k, closingLine label true Y = some k ∧ n = X.length + k := by
  induction X generalizing atStart n with
  | nil =>
    obtain ⟨-, rfl⟩ := hX.resolve_right (by simp)
    exact .inr ⟨n, h, (Nat.zero_add n).symm⟩
  | cons c X ih =>
    rw [List.cons_append, closingLine] at h
    split at h
    · cases h
      exact .inl (Nat.succ_pos _)
    · obtain ⟨k, hk, rfl⟩ := Option.map_eq_some_iff.mp h
      have hlast := hX.resolve_left (by simp)
      refine (ih hk ?_).imp Nat.succ_lt_succ ?_
      · cases X with
        | nil =>
          obtain rfl : c = '\n' := Option.some.inj hlast
          exact .inl ⟨rfl, rfl⟩
        | cons d X => exact .inr (by rwa [List.getLast?_cons_cons] at hlast)
      · rintro ⟨k', hk', rfl⟩
        exact ⟨k', hk', by simp; omega⟩

/-- A heredoc that reaches over the start of a line on which a word can be seen is closed on that
line. -/
theorem exists_closingLine_lead (hident : ∀ c ∈ label, isIdentChar c = true) (hX : AtLineStart X)
    (hreach : X.length < (bodyVerdicts label (X ++ (L ++ x :: Z))).length)
    (hseen : (bodyVerdicts label (X ++ (L ++ x :: Z)))[X.length + L.length]? ≠ some .blank) :
    ∃ k ≤ L.length, closingLine label true (L ++ x :: Z) = some k ∧
      closingLine label true (X ++ (L ++ x :: Z)) = some (X.length + k) := by
  unfold bodyVerdicts at hreach hseen
  cases hclosing : closingLine label true (X ++ (L ++ x :: Z)) with
  | none =>
    rw [hclosing] at hseen
    exact absurd (List.getElem?_replicate_of_lt (by simp)) hseen
  | some n =>
    rw [hclosing] at hseen hreach
    simp only [List.length_append, List.length_replicate] at hreach
    rcases closingLine_behind hclosing (hX.imp_left fun hnil => ⟨hnil, rfl⟩) with hlt | ⟨k, hk, rfl⟩
    · -- the identifier would hold the line end in front of the line
      exfalso
      obtain ⟨Y, T, htext, rfl⟩ := closingLine_split hclosing
      have hget := hX.resolve_left fun hnil => by
        rw [hnil] at hlt
        cases hlt
      have hi : X.length - 1 < X.length := Nat.sub_one_lt_of_lt hlt
      have hkept : (X ++ (L ++ x :: Z))[X.length - 1]? = X[X.length - 1]? :=
        List.getElem?_append_left hi
      rw [List.getLast?_eq_getElem?, ← hkept, htext,
        List.getElem?_append_right (by omega), List.getElem?_append_left (by omega)] at hget
      exact absurd (hident _ (List.mem_of_getElem? hget)) (by decide)
    · refine ⟨k, ?_, hk, rfl⟩
      by_contra hlt
      refine hseen ?_
      rw [List.getElem?_append_left (by simp; omega), List.getElem?_replicate_of_lt (by omega)]

/-- The white space in front of a word that can be seen at the start of a line: a heredoc that
reaches into the line keeps it, but for spaces and tabs in front of the identifier that closes it.
-/
theorem heredoc_lead {R : List Char} (h : heredoc (R ++ (L ++ x :: Z)) = .ok f)
    (hlast : R.getLast? = some '\n') (hL : '\n' ∉ L) (hreach : R.length < f.length)
    (hseen : f[R.length + L.length]? ≠ some .blank) :
    ∃ I K n g, L = I ++ K ∧ (∀ c ∈ I, isIndent c = true) ∧ R.length + I.length ≤ f.length ∧
      f.drop (R.length + I.length) = List.replicate n .keep ++ g ∧ (K.length ≤ n ∨ g = []) := by
  obtain ⟨lead, quote, label, t, hlength, hone, hsuffix, hne, hident, heredoc_eq⟩ :=
    exists_heredocLabelled (List.mem_of_getLast? hlast) (by decide)
  rw [heredoc_eq] at h
  have hlabel : label ≠ [] := by
    rintro rfl
    rw [heredocLabelled_eq_nil_iff.mpr rfl] at h
    cases h
    cases hreach
  have hend : t.getLast? = some '\n' := by
    obtain ⟨V, rfl⟩ := hsuffix
    rwa [List.getLast?_append_of_ne_nil _ hne] at hlast
  by_cases hbreak : '\n' ∈ t.drop quote
  · obtain ⟨head, X, hbody, hhead, hverdicts⟩ := @exists_heredocBody lead _ _ _ hlabel hbreak
    obtain rfl := Except.ok.inj ((hverdicts _).symm.trans h)
    have hX : AtLineStart X := by
      obtain ⟨V, rfl⟩ := hbody
      cases X with
      | nil => exact .inl rfl
      | cons c X => exact .inr (by simpa [List.getLast?_append] using hend)
    rw [← hlength, ← hhead] at hseen hreach ⊢
    rw [Nat.add_assoc, List.getElem?_append_right (by simp), List.length_replicate,
      Nat.add_sub_cancel_left] at hseen
    rw [List.length_append, List.length_replicate, Nat.add_lt_add_iff_left] at hreach
    obtain ⟨k, hle, hk, hclosing⟩ := exists_closingLine_lead hident hX hreach hseen
    have hindent := (isIndent_of_closingLine hk fun hmem => hL (by
      rw [List.take_append_of_le_length hle] at hmem
      exact List.mem_of_mem_take hmem)).2
    rw [List.take_append_of_le_length hle] at hindent
    rw [bodyVerdicts, hclosing]
    dsimp only
    rw [← List.append_assoc]
    refine ⟨L.take k, L.drop k, label.length, [], (List.take_append_drop k L).symm, hindent,
      ?_, ?_, .inr rfl⟩
    · simp only [List.length_append, List.length_replicate, List.length_take_of_le hle]
      omega
    · rw [List.append_nil]
      exact List.drop_left' (by rw [List.length_take_of_le hle]; simp; omega)
  · have hquote : quote ≤ t.length := hone.trans (List.length_pos_iff.mpr hne)
    obtain ⟨g, rfl⟩ := exists_keep_of_not_break hlabel h hbreak hL (.inl hquote)
    refine ⟨[], L, L.length, g, rfl, by simp, hreach.le, ?_, .inl (Nat.le_refl _)⟩
    rw [hlength, List.replicate_add, List.append_assoc]
    exact List.drop_left' (by simp)

/-- **At the start of a line, what is known ahead is the rest of a heredoc.** -/
theorem Walk.exists_heredoc_of_lineStart (h : Walk B [] m A a known m') (hA : AtLineStart A)
    (hne : known ≠ []) :
    ∃ A₁ R f, A = A₁ ++ '<' :: '<' :: '<' :: R ∧ heredoc (R ++ B) = .ok f ∧ R.getLast? = some '\n' ∧
      R.length < f.length ∧ known = f.drop R.length ∧ m' = .code := by
  obtain ⟨A₁, R, B₁, ⟨htext, ⟨a₁, hopened⟩, f, hf, hlt⟩, hlen⟩ := inHeredoc_of_walk h hA hne
  have hsize : byteLength ['<', '<', '<'] = 3 := by decide
  obtain ⟨rfl, rfl⟩ :=
    append_eq_append_of_eq (htext.trans (by simp) : _ = (A₁ ++ (['<', '<', '<'] ++ R)) ++ B₁) (by
    simp only [byteLength_append, hsize]
    omega)
  have hlast : R.getLast? = some '\n' := by
    have hend := hA.resolve_left (by simp)
    rw [List.getLast?_append_of_ne_nil _ (by simp)] at hend
    cases R with
    | nil => cases hend
    | cons c R => rwa [List.getLast?_append_of_ne_nil _ (by simp)] at hend
  obtain ⟨b₁, b₂, known₁, m₁, rfl, hfirst, hrest⟩ := h.split
  obtain ⟨-, rfl, rfl⟩ := hopened.unique (by simpa using hfirst)
  cases hrest with
  | step hstep hrest =>
    obtain ⟨f', hf', rfl⟩ := map_ok_iff.mp hstep
    obtain rfl := Except.ok.inj (hf.symm.trans hf')
    obtain ⟨rfl, rfl⟩ := hrest.drop_known (by simp; omega)
    exact ⟨A₁, R, f, rfl, hf, hlast, hlt, rfl, rfl⟩

/-- A heredoc that is over inside a line ends with its identifier there, so it does not end in the
white space in front of the first word. -/
theorem Walk.known_eq_nil_of_lead {l : List Char} (h : Walk (L ++ B) [] m A a known m')
    (hA : AtLineStart A) (hlead : Walk B known m' L l [] .code) (hB : B ≠ [])
    (hL : ∀ c ∈ L, isIdentChar c = false) : known = [] := by
  by_contra hne
  obtain ⟨A₁, R, f, rfl, hf, hlast, hlt, rfl, rfl⟩ := h.exists_heredoc_of_lineStart hA hne
  have hle := hlead.length_le
  rw [List.length_drop] at hle
  have hlen : (L.take (f.length - R.length)).length = f.length - R.length :=
    List.length_take_of_le hle
  rw [← List.take_append_drop (f.length - R.length) L, List.append_assoc, ← List.append_assoc] at hf
  obtain ⟨-, c, hc,
      hident⟩ := heredoc_last hf (List.mem_append_left _ (List.mem_of_getLast? hlast)) (by decide)
    (List.append_ne_nil_of_right_ne_nil _ hB) (by rw [List.length_append, hlen]; omega)
  rw [List.getLast?_append_of_ne_nil _ (List.ne_nil_of_length_pos (by omega))] at hc
  rw [hL c (List.mem_of_mem_take (List.mem_of_getLast? hc))] at hident
  cases hident

/-- **The white space in front of a word that can be seen at the start of a line** is kept, but for
spaces and tabs. -/
theorem Walk.exists_indent {z : List Char} (h : Walk (x :: Z) [] m (A ++ L) a known m')
    (hm : m.Proper) (hview : viewFrom known m' (x :: Z) = .ok (x :: z)) (hspace : isSpace x = false)
    (hquote : x ∉ quotes) (hA : AtLineStart A) (hL : ∀ c ∈ L, isBlank c = true ∧ c ≠ '\n') :
    ∃ I K b, L = I ++ K ∧ (∀ c ∈ I, isIndent c = true) ∧ a = b ++ K := by
  have hplain : ∀ c ∈ L, isPlain c = true := fun c hc =>
    of_isBlank (p := fun c => isPlain c = true) (by decide +kernel) (hL c hc).1
  have hbreak : '\n' ∉ L := fun hmem => (hL _ hmem).2 rfl
  obtain ⟨a₀, l, known₀, m₀, rfl, h₀, hlead⟩ := h.split
  by_cases hknown : known₀ = []
  · -- the line is read as code
    subst hknown
    obtain ⟨w, hblanks⟩ := Walk.of_blanks (h₀.proper hm) hL (x :: Z)
    obtain ⟨rfl, rfl, rfl⟩ := hlead.unique hblanks
    obtain ⟨-, rfl⟩ := (steady_nil (h₀.proper hm) _).code_of_visible hview hspace hquote
    obtain rfl := hlead.eq_of_isPlain hplain
    exact ⟨[], w, a₀, rfl, by simp, rfl⟩
  · obtain ⟨A₁, R, f, rfl, hf, hlast, hlt, rfl, rfl⟩ := h₀.exists_heredoc_of_lineStart hA hknown
    have hseen := hlead.ne_blank hview hspace
    rw [List.getElem?_drop] at hseen
    obtain ⟨I, K, n, g, rfl, hindent, hle, hdrop, hn⟩ := heredoc_lead hf hlast hbreak hlt hseen
    obtain ⟨l₁, l₂, known₁, m₁, rfl, hwalk₁, hwalk₂⟩ := hlead.split
    obtain ⟨rfl, rfl⟩ := hwalk₁.drop_known (by rw [List.length_drop]; omega)
    rw [List.drop_drop, hdrop] at hwalk₂
    obtain rfl := hwalk₂.eq_of_kept (fun c hc => hplain c (List.mem_append_right I hc)) hn
    exact ⟨I, l₂, _, rfl, hindent, (List.append_assoc _ _ _).symm⟩

end UseImports
