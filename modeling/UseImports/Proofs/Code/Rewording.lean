import UseImports.Proofs.Code.HeredocNames
import UseImports.Proofs.Code.View

/-!
# Rewording the code

Where a word of the code is replaced by an absolute name, the text is read as before: each step
decides the same in front of the word and in front of the name, since neither takes part in a mark
of the language. The two walks differ only in the verdicts that are known ahead where a heredoc
opens in front of the word, and in those only by its length. So the view of the new text is the old
view with the word replaced. This is so for one word, and then, from the last one to the first, for
any number of them.

* `Rewording`: a word and the name that takes its place.
* `Mode.step_reword`, `exists_step_reword`: what a step decides.
* `Walk.reword`: **one word is replaced in the view as it is in the text.**
* `weave`, `fronts`: a text as pieces with a word behind each of them.
* `codeView_weave`: **any number of words are replaced in the view as they are in the text**, if
  none of them is an identifier of a heredoc.
-/

namespace UseImports

variable {c x : Char} {A a B b R s v w X : List Char} {m m' : Mode} {cs gs : List (List Char)}
    {d : Decision} {known known' : List Verdict}

/-! ## Characters of words -/

theorem of_isIdentChar (h : isIdentChar c = true) :
    isPlain c = true ∧ isSpace c = false ∧ c ∉ ['>', '*', '[', '\n'] := by
  refine ⟨?_, ?_, ?_⟩
  · by_contra hplain
    simp only [isPlain, List.mem_cons, List.not_mem_nil, or_false, decide_eq_true_eq,
      not_not] at hplain
    rcases hplain with rfl | rfl | rfl | rfl | rfl | rfl | rfl <;> (revert h; decide)
  · by_contra hspace
    rcases isSpace_cases (by simpa using hspace) with rfl | rfl | rfl | rfl | rfl <;>
      (revert h; decide)
  · intro hmem
    simp only [List.mem_cons, List.not_mem_nil, or_false] at hmem
    rcases hmem with rfl | rfl | rfl | rfl <;> (revert h; decide)

namespace Walk

/-- A walk uses up the verdicts that are known. -/
theorem drop_known (h : Walk B known m A a known' m') (hle : A.length ≤ known.length) :
    known' = known.drop A.length ∧ m' = m := by
  induction h with
  | done => exact ⟨rfl, rfl⟩
  | known _ ih => exact ih (Nat.le_of_succ_le_succ hle)
  | step => exact absurd hle (Nat.not_succ_le_zero _)

/-- The verdict on a character that can be seen is not known to be blank. -/
theorem ne_blank (h : Walk (x :: B) known m A a known' m')
    (hview : viewFrom known' m' (x :: B) = .ok (x :: b)) (hx : isSpace x = false) :
    known[A.length]? ≠ some .blank := by
  intro hblank
  obtain ⟨hlt, hget⟩ := List.getElem?_eq_some_iff.mp hblank
  obtain ⟨rfl, -⟩ := h.drop_known hlt.le
  rw [List.drop_eq_getElem_cons hlt, hget, viewFrom_known, map_ok_iff] at hview
  obtain ⟨rest, -, hrest⟩ := hview
  cases keep_of_render hrest hx

/-- A character that is known to stay is seen. -/
theorem getLast?_of_keep (h : Walk B known m A a known' m') {y : Char} (hy : A.getLast? = some y)
    (hkeep : known[A.length - 1]? = some .keep) : a.getLast? = some y := by
  obtain ⟨A, rfl⟩ := List.getLast?_eq_some_iff.mp hy
  rw [List.length_append, List.length_singleton, Nat.add_sub_cancel] at hkeep
  obtain ⟨hlt, hget⟩ := List.getElem?_eq_some_iff.mp hkeep
  obtain ⟨a₁, a₂, known₁, m₁, rfl, h₁, h₂⟩ := h.split
  obtain ⟨rfl, -⟩ := h₁.drop_known hlt.le
  rw [List.drop_eq_getElem_cons hlt, hget] at h₂
  cases h₂ with
  | known h₂ =>
    obtain ⟨-, -, rfl⟩ := h₂.eq_of_nil
    simp [Verdict.render]

end Walk

/-! ## One step -/

/-- How long an open tag is that ends in front of a word depends on the text in front of the word
only. -/
theorem tagRest_reword (hne : A ≠ []) (h : tagRest (A ++ B) ≤ A.length) :
    tagRest (A ++ '\\' :: R) = tagRest (A ++ B) := by
  by_cases hfour : 4 ≤ A.length
  · have htwo : 2 ≤ A.length := by omega
    simp only [tagRest, List.take_append_of_le_length hfour, List.take_append_of_le_length htwo]
  have hB : ¬ eqIgnoreCase ((A ++ B).take 4) "?php".toList = true := fun hphp => by
    rw [tagRest, if_pos hphp] at h
    exact hfour h
  have hR : ¬ eqIgnoreCase ((A ++ '\\' :: R).take 4) "?php".toList = true := fun hphp => by
    have hmap : ((A ++ '\\' :: R).take 4).map Char.toLower = ['?', 'p', 'h', 'p'] := by
      simpa [eqIgnoreCase] using hphp
    have hmem : '\\' ∈ (A ++ '\\' :: R).take 4 := by
      rw [List.mem_take_iff_getElem]
      exact ⟨A.length, by simp; omega, by simp⟩
    have := hmap ▸ List.mem_map_of_mem (f := Char.toLower) hmem
    revert this
    decide
  rw [tagRest, tagRest, if_neg hB, if_neg hR]
  rw [tagRest, if_neg hB] at h
  by_cases htwo : 2 ≤ A.length
  · rw [List.take_append_of_le_length htwo, List.take_append_of_le_length htwo]
  · have hpos := List.length_pos_iff.mpr hne
    obtain ⟨y, rfl⟩ : ∃ y, A = [y] := List.length_eq_one_iff.mp (by omega)
    rw [if_neg, if_neg]
    · intro hecho
      rw [if_pos hecho] at h
      simp at h
    · simp

/-- Three brackets in front of a word stand in front of it whole. -/
theorem exists_brackets (hx : x ≠ '<') (h : (A ++ x :: R).take 2 = ['<', '<']) :
    ∃ V, A = '<' :: '<' :: V := by
  match A with
  | [] => exact absurd (List.cons.inj h).1 hx
  | [_] => exact absurd (List.cons.inj (List.cons.inj h).2).1 hx
  | y :: z :: V =>
    obtain ⟨rfl, htail⟩ := List.cons.inj h
    obtain ⟨rfl, -⟩ := List.cons.inj htail
    exact ⟨V, rfl⟩

/-- A step that opens no heredoc decides the same in front of a word that can be seen and in front
of a backslash. -/
theorem Mode.step_reword (hm : m.Proper) (hx : isIdentChar x = true)
    (hno : m = .code → ¬ (c = '<' ∧ (A ++ x :: B).take 2 = ['<', '<']))
    (hstep : m.step c (A ++ x :: B) = .ok d) (hwalk : Walk (x :: B) d.further d.mode A a known m')
    (hview : viewFrom known m' (x :: B) = .ok (x :: b)) :
    m.step c (A ++ '\\' :: R) = .ok d ∧ d.further.length ≤ A.length := by
  obtain ⟨hplain, hspace, hother⟩ := of_isIdentChar hx
  have hseen := hwalk.ne_blank hview hspace
  have hblank : ∀ v ∈ d.further, v = .blank :=
    (Steady.step (steady_nil hm _) (fun hcode hopens => by
    obtain ⟨T, hT⟩ := hopens
    obtain ⟨rfl, htail⟩ := List.cons.inj hT
    exact hno hcode ⟨rfl, by rw [← htail]; rfl⟩) hstep).blank
  have hlength : d.further.length ≤ A.length := by
    by_contra hlt
    have hget : A.length < d.further.length := by omega
    exact hseen (by rw [List.getElem?_eq_getElem hget, hblank _ (List.getElem_mem hget)])
  refine ⟨?_, hlength⟩
  have hmarks : x ≠ '?' ∧ x ≠ '/' ∧ x ≠ '<' ∧ x ∉ quotes := by
    simp only [isPlain, List.mem_cons, List.not_mem_nil, or_false, decide_eq_true_eq,
      not_or] at hplain
    simp [hplain, quotes]
  simp only [List.mem_cons, List.not_mem_nil, or_false, not_or] at hother
  cases A with
  | nil =>
    -- neither the word nor the backslash takes part in a decision on the character in front of it
    rw [List.nil_append] at hstep ⊢
    cases m with
    | html => simpa [Mode.step, hmarks] using hstep
    | code => simpa [Mode.step, stepCode_eq, hmarks, hother] using hstep
    | lineComment => simpa [Mode.step, hother] using hstep
    | blockComment => simpa [Mode.step, hmarks] using hstep
    | quoted q =>
      rw [Mode.step] at hstep ⊢
      split at hstep
      · -- behind a backslash, the word would belong to the string literal
        exfalso
        split at hstep
        · cases hstep
          exact absurd hlength (Nat.not_succ_le_zero 0)
        · cases hstep
          obtain ⟨rfl, rfl, -⟩ := hwalk.eq_of_nil
          cases ((steady_nil hm _).code_of_visible hview hspace hmarks.2.2.2).2
      · rename_i hc
        rwa [if_neg hc]
  | cons y A =>
    cases m with
    | html =>
      rw [Mode.step] at hstep ⊢
      split at hstep
      · rename_i htag
        cases hstep
        rw [List.length_replicate] at hlength
        rw [if_pos (show c = '<' ∧ (y :: A ++ '\\' :: R).head? = some '?' from htag),
          tagRest_reword (List.cons_ne_nil y A) hlength]
      · rename_i htag
        rw [if_neg (show ¬ (c = '<' ∧ (y :: A ++ '\\' :: R).head? = some '?') from htag)]
        exact hstep
    | code =>
      have hno' : ¬ (c = '<' ∧ (y :: A ++ '\\' :: R).take 2 = ['<', '<']) := by
        rintro ⟨rfl, htake⟩
        obtain ⟨V, hV⟩ := exists_brackets (by decide) htake
        rw [hV] at hno
        exact hno rfl ⟨rfl, rfl⟩
      exact (stepCode_congr hno' (hno rfl)).trans hstep
    | lineComment => exact hstep
    | blockComment => exact hstep
    | quoted q => exact hstep

/-! ## One replacement -/

namespace Refit

variable {n k l : Nat} {v : Verdict}

theorem cons (h : Refit n k l known known') : Refit (n + 1) k l (v :: known) (v :: known') := by
  cases h with
  | ended hle => exact .ended (Nat.succ_le_succ hle)
  | @across f g hf => exact @across (n + 1) k l (v :: f) g (congrArg Nat.succ hf)

theorem eq_nil (h : Refit (n + 1) k l known known') (hnil : known = []) : known' = [] := by
  cases h with
  | ended => exact hnil
  | across hf =>
    obtain ⟨rfl, -⟩ := List.append_eq_nil_iff.mp hnil
    cases hf

theorem exists_cons (h : Refit (n + 1) k l (v :: known) known') :
    ∃ known'', known' = v :: known'' ∧ Refit n k l known known'' := by
  generalize hcons : v :: known = known₀ at h
  cases h with
  | ended hle =>
    subst hcons
    exact ⟨known, rfl, .ended (Nat.le_of_succ_le_succ hle)⟩
  | @across f g hf =>
    cases f with
    | nil => cases hf
    | cons w f =>
      obtain ⟨rfl, rfl⟩ := List.cons.inj hcons
      exact ⟨_, rfl, .across (Nat.succ.inj hf)⟩

end Refit

/-- A word and the absolute name that takes its place. -/
structure Rewording (s w : List Char) : Prop where
  ne_nil : s ≠ []
  ident : ∀ c ∈ s, isIdentChar c = true
  absolute : ∃ r, w = '\\' :: r
  parts : ∀ c ∈ w, isIdentChar c = true ∨ c = '\\'

namespace Rewording

variable (h : Rewording s w)
include h

theorem isPlain_of_mem (hc : c ∈ s ∨ c ∈ w) : isPlain c = true := by
  rcases hc with hc | hc
  · exact (of_isIdentChar (h.ident c hc)).1
  · rcases h.parts c hc with hc | rfl
    · exact (of_isIdentChar hc).1
    · decide

theorem not_mem_break : '\n' ∉ w := by
  intro hmem
  rcases h.parts _ hmem with hc | hc
  · exact absurd hc (by decide)
  · cases hc

end Rewording

/-- Characters that are known to stay are seen as they are. -/
theorem viewFrom_keep (w : List Char) (known : List Verdict) (m : Mode) (B : List Char) :
    viewFrom (List.replicate w.length .keep ++ known) m (w ++ B) =
      (viewFrom known m B).map (w ++ ·) := by
  induction w with
  | nil =>
    show viewFrom known m B = _
    cases viewFrom known m B <;> rfl
  | cons c w ih =>
    rw [List.length_cons, List.replicate_succ, List.cons_append, List.cons_append,
      viewFrom_known, ih]
    cases viewFrom known m B <;> simp [Except.map, Verdict.render]

theorem labelsFrom_step {cs : List Char} (h : m.step c cs = .ok d) :
    labelsFrom [] m (c :: cs) =
      openedLabels m c cs ++ (labelsFrom d.further d.mode cs).map (· + 1) := by
  rw [labelsFrom, h]

section Walk

variable {known₁ : List Verdict} {m₁ : Mode}

/-- **A word is replaced where the walk stands in front of it.** -/
theorem viewFrom_reword_here (h : Rewording s w) (hm : m.Proper)
    (hview : viewFrom known m (s ++ B) = .ok (s ++ b))
    (hfit : Refit 0 s.length w.length known known') :
    viewFrom known' m (w ++ B) = .ok (w ++ b) := by
  have hcancel : ∀ {y : Except MaskError (List Char)}, y.map (s ++ ·) = .ok (s ++ b) →
      y = .ok b := fun hy => by
    obtain ⟨t, ht, heq⟩ := map_ok_iff.mp hy
    rw [ht, List.append_cancel_left heq]
  cases hfit with
  | ended hle =>
    obtain rfl := List.eq_nil_of_length_eq_zero (Nat.le_zero.mp hle)
    obtain ⟨x, s', rfl⟩ := List.exists_cons_of_ne_nil h.ne_nil
    obtain ⟨hplain, hspace, -⟩ := of_isIdentChar (h.ident x List.mem_cons_self)
    have hquote : x ∉ quotes := fun hmem => by
      simp only [quotes, List.mem_cons, List.not_mem_nil, or_false] at hmem
      rcases hmem with rfl | rfl | rfl <;> (revert hplain; decide)
    obtain rfl := ((steady_nil hm _).code_of_visible hview hspace hquote).2
    rw [settles_of_isPlain (fun c hc => h.isPlain_of_mem (.inl hc)) B] at hview
    rw [settles_of_isPlain (fun c hc => h.isPlain_of_mem (.inr hc)) B, hcancel hview]
    rfl
  | @across f g hf =>
    obtain rfl := List.eq_nil_of_length_eq_zero hf
    rw [List.nil_append, viewFrom_keep] at hview
    rw [List.nil_append, viewFrom_keep, hcancel hview]
    rfl

/-- **What a step decides in front of a word** that can be seen, it decides in front of the other
word: only the verdicts on the word itself are replaced, and the identifiers of heredocs in front of
the word stay. -/
theorem exists_step_reword (h : Rewording s w) (hm : m.Proper)
    (hstep : m.step c (A ++ (s ++ B)) = .ok d)
    (hwalk : Walk (s ++ B) d.further d.mode A a known₁ m₁)
    (hview : viewFrom known₁ m₁ (s ++ B) = .ok (s ++ b))
    (hlast : ∀ y ∈ a.getLast?, isIdentChar y = false)
    (hplace : A.length + 1 ∉ openedLabels m c (A ++ (s ++ B))) :
    ∃ further, m.step c (A ++ (w ++ B)) = .ok ⟨d.verdict, further, d.mode⟩ ∧
      Refit A.length s.length w.length d.further further ∧
      ∀ k < A.length + 1, k ∈ openedLabels m c (A ++ (w ++ B)) →
        k ∈ openedLabels m c (A ++ (s ++ B)) := by
  obtain ⟨x, s', hs⟩ := List.exists_cons_of_ne_nil h.ne_nil
  obtain ⟨r, hr⟩ := h.absolute
  have hx : isIdentChar x = true := h.ident x (hs ▸ List.mem_cons_self)
  have hspace := (of_isIdentChar hx).2.1
  have hangle : x ≠ '<' := by
    rintro rfl
    exact absurd hx (by decide)
  by_cases hopens : m = .code ∧ c = '<' ∧ (A ++ (s ++ B)).take 2 = ['<', '<']
  · -- a heredoc opens in front of the word
    obtain ⟨rfl, rfl, htake⟩ := hopens
    obtain ⟨V, rfl⟩ : ∃ V, A = '<' :: '<' :: V := by
      rw [hs] at htake
      exact exists_brackets hangle htake
    have hlabels : ∀ X, openedLabels .code '<' ('<' :: '<' :: V ++ X) =
        (labelPlaces (V ++ X)).map (· + 3) :=
      fun X => rfl
    obtain ⟨f, hf, rfl⟩ := map_ok_iff.mp hstep
    cases hwalk with
    | known hwalk =>
      cases hwalk with
      | @known _ _ _ _ _ a' _ _ hwalk =>
        have hseen : f[V.length]? ≠ some .blank := by
          rw [hs] at hwalk hview
          exact hwalk.ne_blank hview hspace
        have hlast' : ∀ y ∈ V.getLast?, f[V.length - 1]? = some .keep → isIdentChar y = false :=
          fun y hy hkeep => by
          refine hlast y ?_
          rw [List.getLast?_append, List.getLast?_append, hwalk.getLast?_of_keep hy hkeep]
          rfl
        have hplace' : V.length ∉ labelPlaces (V ++ (s ++ B)) := fun hmem =>
          hplace (hlabels _ ▸ List.mem_map_of_mem (f := (· + 3)) hmem)
        obtain ⟨f', hf', hfit, hplaces⟩ :=
          heredoc_reword (r := w) h.ne_nil h.ident h.not_mem_break hf hseen hlast' hplace'
        refine ⟨.keep :: .keep :: f', map_ok_iff.mpr ⟨f', hf', rfl⟩, hfit.cons.cons,
          fun k hk hmem => ?_⟩
        rw [hlabels, List.mem_map] at hmem ⊢
        obtain ⟨k, hmem, rfl⟩ := hmem
        simp only [List.length_cons] at hk
        exact ⟨k, hplaces k (by omega) hmem, rfl⟩
  · have hopens' : ¬ (m = .code ∧ c = '<' ∧ (A ++ (w ++ B)).take 2 = ['<', '<']) := by
      rintro ⟨rfl, rfl, htake⟩
      rw [hr] at htake
      obtain ⟨V, rfl⟩ := exists_brackets (by decide) htake
      exact hopens ⟨rfl, rfl, rfl⟩
    rw [hs] at hstep hwalk hview hopens
    obtain ⟨hstep', hlength⟩ :=
      Mode.step_reword (R := r ++ B) hm hx (fun hcode hopen =>
        hopens ⟨hcode, hopen⟩) hstep hwalk hview
    refine ⟨d.further, ?_, .ended hlength, fun k _ hmem => ?_⟩
    · rw [hr]
      exact hstep'
    · rw [openedLabels, if_neg hopens'] at hmem
      cases hmem

/-- **A word that can be seen is replaced in the view as it is in the text**, if nothing that
belongs to an identifier can be seen in front of it, and it is no identifier of a heredoc. -/
theorem Walk.reword (h : Rewording s w) (hwalk : Walk (s ++ B) known m A a known₁ m₁)
    (hm : m.Proper) (hview : viewFrom known₁ m₁ (s ++ B) = .ok (s ++ b))
    (hlast : ∀ y ∈ a.getLast?, isIdentChar y = false)
    (hplace : A.length ∉ labelsFrom known m (A ++ (s ++ B)))
    (hfit : Refit A.length s.length w.length known known') :
    viewFrom known' m (A ++ (w ++ B)) = .ok (a ++ (w ++ b)) ∧
      ∀ k < A.length, k ∈ labelsFrom known' m (A ++ (w ++ B)) →
        k ∈ labelsFrom known m (A ++ (s ++ B)) := by
  induction A generalizing known known' m a with
  | nil =>
    obtain ⟨rfl, rfl, rfl⟩ := hwalk.eq_of_nil
    exact ⟨@viewFrom_reword_here B b s w m known known' h hm hview hfit,
      fun k hk => absurd hk (Nat.not_lt_zero k)⟩
  | cons c A ih =>
    have htail : ∀ {t a' : List Char}, a = t ++ a' → ∀ y ∈ a'.getLast?, isIdentChar y = false := by
      rintro t a' rfl y hy
      refine hlast y ?_
      rw [List.getLast?_append, Option.mem_def.mp hy]
      rfl
    generalize ha : a = a₀ at hwalk
    cases hwalk with
    | @known v known m c A a' _ _ hwalk =>
      obtain ⟨known'', rfl, hfit'⟩ := hfit.exists_cons
      rw [List.cons_append, labelsFrom] at hplace
      obtain ⟨hreworded, hlabels⟩ :=
        ih hwalk hm (htail ha) (fun hmem => hplace (List.mem_map_of_mem hmem)) hfit'
      subst ha
      refine ⟨?_, fun k hk hmem => ?_⟩
      · rw [List.cons_append, viewFrom_known, hreworded, List.append_assoc]
        rfl
      · rw [List.cons_append, labelsFrom, List.mem_map] at hmem ⊢
        obtain ⟨k, hmem, rfl⟩ := hmem
        exact ⟨k, hlabels k (Nat.lt_of_succ_lt_succ hk) hmem, rfl⟩
    | @step m c A d a' _ _ hstep hwalk =>
      obtain rfl := hfit.eq_nil rfl
      rw [List.cons_append, labelsFrom_step hstep, List.mem_append, not_or] at hplace
      -- what the step decides in front of the other word
      obtain ⟨further, hstep', hfit', hopened⟩ :=
        exists_step_reword h hm hstep hwalk hview (htail ha) hplace.1
      obtain ⟨hreworded, hlabels⟩ := ih hwalk (Mode.proper_step hm hstep) (htail ha)
        (fun hmem => hplace.2 (List.mem_map_of_mem hmem)) hfit'
      subst ha
      refine ⟨?_, fun k hk hmem => ?_⟩
      · rw [List.cons_append, viewFrom_step, hstep']
        dsimp only
        rw [hreworded, List.append_assoc]
        rfl
      · rw [List.cons_append, labelsFrom_step hstep', List.mem_append] at hmem
        rw [List.cons_append, labelsFrom_step hstep, List.mem_append]
        refine hmem.imp (hopened k hk) fun hlater => ?_
        obtain ⟨k', hin, rfl⟩ := List.mem_map.mp hlater
        exact List.mem_map_of_mem (hlabels k' (Nat.lt_of_succ_lt_succ hk) hin)

end Walk

/-! ## Many replacements -/

/-- The pieces of a text with a word behind each of them, and the rest of the text. -/
def weave (w : List Char) : List (List Char) → List Char → List Char
  | [], X => X
  | g :: gs, X => g ++ (w ++ weave w gs X)

/-- What stands in front of each of the words, if the first piece stands behind `P`. -/
def fronts (w : List Char) : (P : List Char) → List (List Char) → List (List Char)
  | _, [] => []
  | P, g :: gs => (P ++ g) :: fronts w (P ++ (g ++ w)) gs

/-- The pieces are as long as each other. -/
def Aligned (gs cs : List (List Char)) : Prop :=
  List.Forall₂ (fun g c => byteLength g = byteLength c) gs cs

/-- The words of a view stand in the text. -/
theorem exists_weave_of_visible (hne : s ≠ []) (hs : ∀ c ∈ s, isSpace c = false) {T x : List Char}
    (h : viewFrom known m T = .ok (weave s cs x)) : ∃ gs X, T = weave s gs X ∧ Aligned gs cs := by
  induction cs generalizing known m T with
  | nil => exact ⟨[], T, rfl, .nil⟩
  | cons c cs ih =>
    rw [weave] at h
    obtain ⟨g, B, rfl, hlen⟩ := exists_word_of_visible h hne hs
    rw [← List.append_assoc, ← List.append_assoc] at h
    obtain ⟨known', m', -, hrest⟩ :=
      exists_walk_to h (by rw [byteLength_append, byteLength_append, hlen])
    obtain ⟨gs, X, rfl, haligned⟩ := ih hrest
    exact ⟨g :: gs, X, rfl, .cons hlen haligned⟩

/-- **Any number of words that can be seen are replaced in the view as they are in the text**, if
none of them goes on with an identifier that can be seen, and none is an identifier of a heredoc. -/
theorem viewFrom_weave (h : Rewording s w) (hm : m.Proper) {gs cs : List (List Char)}
    (haligned : Aligned gs cs) {P p X x : List Char} (hP : byteLength P = byteLength p)
    (hview : viewFrom [] m (P ++ weave s gs X) = .ok (p ++ weave s cs x))
    (hlast : ∀ q ∈ fronts s p cs, ∀ y ∈ q.getLast?, isIdentChar y = false)
    (hplace : ∀ Q ∈ fronts s P gs, Q.length ∉ labelsFrom [] m (P ++ weave s gs X)) :
    viewFrom [] m (P ++ weave w gs X) = .ok (p ++ weave w cs x) ∧
      ∀ k < P.length, k ∈ labelsFrom [] m (P ++ weave w gs X) →
        k ∈ labelsFrom [] m (P ++ weave s gs X) := by
  induction haligned generalizing P p with
  | nil => exact ⟨hview, fun k _ hk => hk⟩
  | @cons g c gs cs hgap _ ih =>
    -- the later words are replaced first
    have hsame : ∀ U u v : List Char, U ++ (u ++ s) ++ v = (U ++ u) ++ (s ++ v) := fun U u v => by
      simp only [List.append_assoc]
    obtain ⟨hlater, hlabels⟩ := @ih (P ++ (g ++ s)) (p ++ (c ++ s))
      (by simp only [byteLength_append, hP, hgap])
      (by simpa only [weave, List.append_assoc] using hview)
      (fun q hq => hlast q (List.mem_cons_of_mem _ hq))
      (fun Q hQ => by simpa only [weave,
        List.append_assoc] using hplace Q (List.mem_cons_of_mem _ hQ))
    rw [hsame, hsame] at hlater
    rw [hsame, hsame] at hlabels
    have hwhole : ∀ v : List Char, P ++ weave v (g :: gs) X = (P ++ g) ++ (v ++ weave v gs X) :=
      fun v => by
      simp only [weave, List.append_assoc]
    have hpos := List.length_pos_iff.mpr h.ne_nil
    obtain ⟨known, m', hwalk, hrest⟩ :=
      exists_walk_to hlater (by rw [byteLength_append, byteLength_append, hP, hgap])
    have hfree : (P ++ g).length ∉ labelsFrom [] m ((P ++ g) ++ (s ++ weave w gs X)) :=
      fun hmem => by
      refine hplace (P ++ g) List.mem_cons_self ?_
      rw [hwhole]
      exact hlabels _ (by simp only [List.length_append]; omega) hmem
    obtain ⟨hreworded, hlabels'⟩ :=
      hwalk.reword h hm hrest (hlast _ List.mem_cons_self) hfree (.ended (Nat.zero_le _))
    rw [hwhole, hwhole]
    refine ⟨?_, fun k hk hmem => hlabels k ?_ (hlabels' k ?_ hmem)⟩
    · rw [hreworded, weave, List.append_assoc]
    · simp only [List.length_append]
      omega
    · rw [List.length_append]
      omega

/-- The open tags of a text are found whatever words without marks are put between its pieces. -/
theorem hasOpenTag_weave (hne : v ≠ []) (hv : ∀ c ∈ v, isPlain c = true) (gs : List (List Char))
    (X : List Char) : hasOpenTag (weave v gs X) = (gs.any hasOpenTag || hasOpenTag X) := by
  have hmarks : '<' ∉ v ∧ '?' ∉ v :=
    ⟨fun hmem => absurd (hv _ hmem) (by decide), fun hmem => absurd (hv _ hmem) (by decide)⟩
  have hword : hasOpenTag v = false := by
    clear hne
    induction v with
    | nil => rfl
    | cons c v ih =>
      have hc : c ≠ '<' := fun heq => hmarks.1 (heq ▸ List.mem_cons_self)
      have htail := ih (fun x hx => hv x (List.mem_cons_of_mem c hx))
        ⟨fun hmem => hmarks.1 (List.mem_cons_of_mem c hmem),
          fun hmem => hmarks.2 (List.mem_cons_of_mem c hmem)⟩
      simpa [hasOpenTag, hc] using htail
  have hend : (v.getLast? == some '<') = false :=
    beq_eq_false_iff_ne.mpr fun hlast => hmarks.1 (List.mem_of_getLast? hlast)
  have hbegin : (v.head? == some '?') = false :=
    beq_eq_false_iff_ne.mpr fun hhead => hmarks.2 (List.mem_of_mem_head? hhead)
  induction gs with
  | nil => rfl
  | cons g gs ih =>
    rw [weave, hasOpenTag_append, hasOpenTag_append, ih, hword, List.head?_append_of_ne_nil _ hne]
    simp [hend, hbegin, Bool.or_assoc]

theorem fronts_initial {P Q : List Char} (h : Q ∈ fronts v P gs) : Q <+: P ++ weave v gs X := by
  induction gs generalizing P with
  | nil => cases h
  | cons g gs ih =>
    rcases List.mem_cons.mp h with rfl | h
    · exact ⟨v ++ weave v gs X, by simp only [weave, List.append_assoc]⟩
    · simpa only [weave, List.append_assoc] using ih h

/-- **Words of the code are replaced in the view as they are in the text.** -/
theorem codeView_weave (h : Rewording s w) (haligned : Aligned gs cs) {x : List Char}
    (hview : codeView (weave s gs X) = .ok (weave s cs x))
    (hlast : ∀ q ∈ fronts s [] cs, ∀ y ∈ q.getLast?, isIdentChar y = false)
    (hplace : ∀ Q ∈ fronts s [] gs, byteLength Q ∉ heredocNames (weave s gs X)) :
    codeView (weave w gs X) = .ok (weave w cs x) := by
  have hw : w ≠ [] := by
    obtain ⟨r, rfl⟩ := h.absolute
    exact List.cons_ne_nil _ _
  have hstart : startMode (weave w gs X) = startMode (weave s gs X) := by
    rw [startMode, startMode, hasOpenTag_weave hw fun c hc => h.isPlain_of_mem (.inr hc),
      hasOpenTag_weave h.ne_nil fun c hc => h.isPlain_of_mem (.inl hc)]
  rw [codeView_eq, hstart]
  have hfree : ∀ Q ∈ fronts s [] gs,
      Q.length ∉ labelsFrom [] (startMode (weave s gs X)) (weave s gs X) := by
    intro Q hQ hmem
    have hfront : Q <+: weave s gs X := fronts_initial hQ
    refine hplace Q hQ (List.mem_map.mpr ⟨Q.length, hmem, ?_⟩)
    rw [← List.prefix_iff_eq_take.mp hfront]
  exact (@viewFrom_weave s w _ h (Mode.proper_startMode _) gs cs haligned []
    [] X x rfl hview hlast hfree).1

end UseImports
