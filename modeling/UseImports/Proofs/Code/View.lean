import UseImports.CodeView
import UseImports.Proofs.Text.Window

/-!
# The code view in pieces

The walk over a text looks ahead, but never far: where a statement has ended or may begin, what has
been read is decided whatever follows. Such a piece of text has a view of its own, and the rest of
the text is read as code from there on.

* `viewFrom`: the view of a text, read from some mode on.
* `Settles`: a piece of text that has the same view whatever follows, and that ends in code.
* `Walk`: a walk over a piece of text in front of a given rest.
* `exists_split_of_visible`: what can be seen in the view stands in the text.
* `Mode.step_congr`: **what is decided in front of a place where a statement may begin**, whatever
  follows.
* `Mode.Proper`, `Walk.proper`: the quotes at which the string literals of a walk end.
-/

namespace UseImports

variable {α β ε : Type} {known known' known'' : List Verdict} {m m' m'' : Mode}
    {A a A' a' B b P p rest T t V : List Char} {c x : Char} {v : Verdict} {d : Decision}

/-! ## Views -/

/-- The characters with their verdicts carried out. -/
def rendered (cs : List Char) (vs : List Verdict) : List Char :=
  (List.zipWith (fun c v => Verdict.render c v) cs vs).flatten

/-- The view of a text that is read from a mode on, with some verdicts already known. -/
def viewFrom (known : List Verdict) (m : Mode) (cs : List Char) : Except MaskError (List Char) :=
  (verdictsFrom known m cs).map (rendered cs)

theorem codeView_eq (cs : List Char) : codeView cs = viewFrom [] (startMode cs) cs := rfl

@[simp] theorem viewFrom_nil (known : List Verdict) (m : Mode) : viewFrom known m [] = .ok [] := by
  cases known <;> rfl

theorem viewFrom_known (v : Verdict) (known : List Verdict) (m : Mode) (c : Char) (cs : List Char) :
    viewFrom (v :: known) m (c :: cs) = (viewFrom known m cs).map (v.render c ++ ·) := by
  unfold viewFrom
  rw [verdictsFrom]
  cases verdictsFrom known m cs <;> rfl

theorem viewFrom_step (m : Mode) (c : Char) (cs : List Char) :
    viewFrom [] m (c :: cs) =
      match m.step c cs with
      | .ok d => (viewFrom d.further d.mode cs).map (d.verdict.render c ++ ·)
      | .error e => .error e := by
  unfold viewFrom
  rw [verdictsFrom]
  cases m.step c cs with
  | error e => rfl
  | ok d =>
    show Except.map _ (verdictsFrom d.further d.mode cs >>= _) = _
    dsimp only
    cases verdictsFrom d.further d.mode cs <;> rfl

theorem byteLength_render (c : Char) (v : Verdict) : byteLength (v.render c) = c.utf8Size := by
  cases v with
  | keep => rfl
  | blank =>
    by_cases hc : c = '\n' ∨ c = '\r'
    · rw [Verdict.render, if_pos hc]
      rfl
    · rw [Verdict.render, if_neg hc, byteLength_replicate, show (' ' : Char).utf8Size = 1 from rfl,
        Nat.mul_one]

theorem map_ok_iff {x : Except ε α} {f : α → β} {b : β} :
    x.map f = .ok b ↔ ∃ a, x = .ok a ∧ f a = b := by
  cases x with
  | error e => simp [Except.map]
  | ok a => simp [Except.map]

theorem toOption_eq_some_iff {x : Except ε α} {a : α} : x.toOption = some a ↔ x = .ok a := by
  cases x <;> simp [Except.toOption]

theorem bind_ok_iff {x : Except ε α} {f : α → Except ε β} {b : β} :
    x >>= f = .ok b ↔ ∃ a, x = .ok a ∧ f a = .ok b := by
  cases x with
  | error e =>
    constructor
    · intro h
      cases h
    · rintro ⟨a, h, -⟩
      cases h
  | ok a =>
    constructor
    · exact fun h => ⟨a, rfl, h⟩
    · rintro ⟨a', h, hf⟩
      cases h
      exact hf

/-- The view of a text is as long as the text. -/
theorem byteLength_viewFrom {cs : List Char} (h : viewFrom known m cs = .ok t) :
    byteLength t = byteLength cs := by
  induction cs generalizing known m t with
  | nil =>
    rw [viewFrom_nil] at h
    cases h
    rfl
  | cons c cs ih =>
    cases known with
    | cons v known =>
      rw [viewFrom_known, map_ok_iff] at h
      obtain ⟨t, ht, rfl⟩ := h
      rw [byteLength_append, byteLength_render, ih ht, byteLength_cons]
    | nil =>
      rw [viewFrom_step] at h
      split at h
      · rw [map_ok_iff] at h
        obtain ⟨t, ht, rfl⟩ := h
        rw [byteLength_append, byteLength_render, ih ht, byteLength_cons]
      · cases h

/-! ## Settled pieces -/

/-- Whatever follows the text `P`, it is read from `m` on with the view `p`, and what follows is
read from `m'` on. -/
def Settles (m : Mode) (P p : List Char) (m' : Mode) : Prop :=
  ∀ R, viewFrom [] m (P ++ R) = (viewFrom [] m' R).map (p ++ ·)

namespace Settles

variable {Q q : List Char}

theorem nil (m : Mode) : Settles m [] [] m := by
  intro R
  show viewFrom [] m R = _
  cases viewFrom [] m R <;> rfl

theorem append (h : Settles m P p m') (h' : Settles m' Q q m'') :
    Settles m (P ++ Q) (p ++ q) m'' := by
  intro R
  rw [List.append_assoc, h, h']
  cases viewFrom [] m'' R with
  | error e => rfl
  | ok r => simp [Except.map]

theorem viewFrom_eq (h : Settles m P p m') : viewFrom [] m P = .ok p := by
  have := h []
  rwa [List.append_nil, viewFrom_nil, Except.map, List.append_nil] at this

theorem byteLength_eq (h : Settles m P p m') : byteLength p = byteLength P :=
  byteLength_viewFrom h.viewFrom_eq

/-- What follows a settled piece in a settled piece is settled. -/
theorem cancel {r : List Char} (h : Settles m (P ++ Q) r m'') (hP : Settles m P p m') :
    ∃ q, r = p ++ q ∧ Settles m' Q q m'' := by
  have hview := h.viewFrom_eq
  rw [hP, map_ok_iff] at hview
  obtain ⟨q, -, rfl⟩ := hview
  refine ⟨q, rfl, fun R => ?_⟩
  have hR := h R
  rw [List.append_assoc, hP] at hR
  cases hQ : viewFrom [] m' (Q ++ R) <;> cases hrest : viewFrom [] m'' R <;>
    rw [hQ, hrest] at hR <;>
    simp_all [Except.map]

end Settles

/-- What can be seen of a character is the character itself, or white space. -/
theorem keep_of_mem_render (hx : x ∈ v.render c) (hspace : isSpace x = false) :
    v = .keep ∧ x = c := by
  cases v with
  | keep => exact ⟨rfl, List.mem_singleton.mp hx⟩
  | blank =>
    exfalso
    by_cases hc : c = '\n' ∨ c = '\r'
    · rw [Verdict.render, if_pos hc, List.mem_singleton] at hx
      rcases hc with rfl | rfl <;> (subst hx; revert hspace; decide)
    · rw [Verdict.render, if_neg hc] at hx
      rw [List.eq_of_mem_replicate hx] at hspace
      revert hspace
      decide

/-- The verdict on a character that can be seen. -/
theorem keep_of_render (h : v.render x ++ rest = x :: b) (hspace : isSpace x = false) :
    v = .keep := by
  cases hr : v.render x with
  | nil =>
    have hlen := byteLength_render x v
    have hpos := x.utf8Size_pos
    rw [hr, byteLength_nil] at hlen
    omega
  | cons y ys =>
    rw [hr] at h
    obtain rfl : y = x := (List.cons.inj h).1
    exact (keep_of_mem_render (hr ▸ List.mem_cons_self) hspace).1

/-! ## Walks -/

/-- The walk over a text in front of the text `B`, from a mode with known verdicts to another: with
the view of the text. -/
inductive Walk (B : List Char) :
    List Verdict → Mode → List Char → List Char → List Verdict → Mode → Prop
  | done (known : List Verdict) (m : Mode) : Walk B known m [] [] known m
  | known {v : Verdict} {known : List Verdict} {m : Mode} {c : Char} {A a : List Char}
      {known' : List Verdict} {m' : Mode} : Walk B known m A a known' m' →
      Walk B (v :: known) m (c :: A) (v.render c ++ a) known' m'
  | step {m : Mode} {c : Char} {A : List Char} {d : Decision} {a : List Char}
      {known' : List Verdict} {m' : Mode} : m.step c (A ++ B) = .ok d →
      Walk B d.further d.mode A a known' m' →
      Walk B [] m (c :: A) (d.verdict.render c ++ a) known' m'

namespace Walk

theorem viewFrom_eq (h : Walk B known m A a known' m') :
    viewFrom known m (A ++ B) = (viewFrom known' m' B).map (a ++ ·) := by
  induction h with
  | done known m =>
    rw [List.nil_append]
    cases viewFrom known m B <;> rfl
  | known _ ih =>
    rw [List.cons_append, viewFrom_known, ih]
    cases viewFrom _ _ B <;> simp [Except.map]
  | step hstep _ ih =>
    rw [List.cons_append, viewFrom_step, hstep]
    dsimp only
    rw [ih]
    cases viewFrom _ _ B <;> simp [Except.map]

theorem byteLength_eq (h : Walk B known m A a known' m') : byteLength a = byteLength A := by
  induction h with
  | done => rfl
  | known _ ih => rw [byteLength_append, byteLength_render, ih, byteLength_cons]
  | step _ _ ih => rw [byteLength_append, byteLength_render, ih, byteLength_cons]

theorem trans (h : Walk (A' ++ B) known m A a known' m') (h' : Walk B known' m' A' a' known'' m'') :
    Walk B known m (A ++ A') (a ++ a') known'' m'' := by
  induction h with
  | done => exact h'
  | known _ ih =>
    rw [List.cons_append, List.append_assoc]
    exact .known (ih h')
  | step hstep _ ih =>
    rw [List.cons_append, List.append_assoc]
    exact .step (by rwa [List.append_assoc]) (ih h')

theorem split (h : Walk B known m (A ++ A') a known' m') :
    ∃ a₁ a₂ known₁ m₁, a = a₁ ++ a₂ ∧ Walk (A' ++ B) known m A a₁ known₁ m₁ ∧
      Walk B known₁ m₁ A' a₂ known' m' := by
  induction A generalizing known m a with
  | nil => exact ⟨[], a, known, m, rfl, .done _ _, h⟩
  | cons c A ih =>
    rw [List.cons_append] at h
    cases h with
    | known h =>
      obtain ⟨a₁, a₂, known₁, m₁, rfl, h₁, h₂⟩ := ih h
      exact ⟨_, a₂, known₁, m₁, (List.append_assoc _ _ _).symm, .known h₁, h₂⟩
    | step hstep h =>
      obtain ⟨a₁, a₂, known₁, m₁, rfl, h₁, h₂⟩ := ih h
      rw [List.append_assoc] at hstep
      exact ⟨_, a₂, known₁, m₁, (List.append_assoc _ _ _).symm, .step hstep h₁, h₂⟩

/-- There is one walk over a text. -/
theorem unique (h : Walk B known m A a known' m') (h' : Walk B known m A a' known'' m'') :
    a' = a ∧ known'' = known' ∧ m'' = m' := by
  induction h generalizing a' with
  | done =>
    cases h'
    exact ⟨rfl, rfl, rfl⟩
  | known _ ih =>
    cases h' with
    | known h' =>
      obtain ⟨rfl, rfl, rfl⟩ := ih h'
      exact ⟨rfl, rfl, rfl⟩
  | step hstep _ ih =>
    cases h' with
    | step hstep' h' =>
      obtain rfl := Except.ok.inj (hstep.symm.trans hstep')
      obtain ⟨rfl, rfl, rfl⟩ := ih h'
      exact ⟨rfl, rfl, rfl⟩

end Walk

/-- A text with a view is walked over as far as one likes. -/
theorem exists_walk (h : viewFrom known m (A ++ B) = .ok t) :
    ∃ a known' m', Walk B known m A a known' m' := by
  induction A generalizing known m t with
  | nil => exact ⟨[], known, m, .done _ _⟩
  | cons c A ih =>
    cases known with
    | cons v known =>
      rw [List.cons_append, viewFrom_known, map_ok_iff] at h
      obtain ⟨t, ht, -⟩ := h
      obtain ⟨a, known', m', hwalk⟩ := ih ht
      exact ⟨_, known', m', .known hwalk⟩
    | nil =>
      rw [List.cons_append, viewFrom_step] at h
      split at h
      · rename_i d hd
        obtain ⟨t, ht, -⟩ := map_ok_iff.mp h
        obtain ⟨a, known', m', hwalk⟩ := ih ht
        exact ⟨_, known', m', .step hd hwalk⟩
      · cases h

/-- The walk to a place that the text and the view have in common. -/
theorem exists_walk_to (h : viewFrom known m (A ++ B) = .ok (a ++ b))
    (hlen : byteLength a = byteLength A) :
    ∃ known' m', Walk B known m A a known' m' ∧ viewFrom known' m' B = .ok b := by
  obtain ⟨a', known', m', hwalk⟩ := exists_walk h
  rw [hwalk.viewFrom_eq, map_ok_iff] at h
  obtain ⟨b', hb, heq⟩ := h
  obtain ⟨rfl, rfl⟩ := append_eq_append_of_eq heq (hwalk.byteLength_eq.trans hlen.symm)
  exact ⟨known', m', hwalk, hb⟩

/-- **What can be seen in the view stands in the text**, and the walk leads up to it. -/
theorem exists_split_of_visible (h : viewFrom known m T = .ok (a ++ x :: b))
    (hx : isSpace x = false) :
    ∃ A B known' m', T = A ++ x :: B ∧ Walk (x :: B) known m A a known' m' ∧
      viewFrom known' m' (x :: B) = .ok (x :: b) := by
  induction T generalizing known m a with
  | nil =>
    rw [viewFrom_nil] at h
    simp at h
  | cons c T ih =>
    -- either `x` is the first character, or the first character belongs to `a`
    have hhead : ∀ (v : Verdict) (rest : List Char), v.render c ++ rest = a ++ x :: b →
        (a = [] ∧ c = x) ∨ ∃ a', a = v.render c ++ a' ∧ rest = a' ++ x :: b := by
      intro v rest heq
      rcases List.append_eq_append_iff.mp heq with ⟨a', ha, hrest⟩ | ⟨z, hz, hrest⟩
      · exact .inr ⟨a', ha, hrest⟩
      · cases z with
        | nil => exact .inr ⟨[], by simpa using hz.symm, by simpa using hrest.symm⟩
        | cons y z =>
          obtain rfl : x = y := (List.cons.inj hrest).1
          have hmem : x ∈ v.render c := hz ▸ List.mem_append_right a List.mem_cons_self
          obtain ⟨rfl, rfl⟩ := keep_of_mem_render hmem hx
          have hlen := congrArg List.length hz
          simp only [Verdict.render, List.length_append, List.length_cons, List.length_nil] at hlen
          exact .inl ⟨List.eq_nil_of_length_eq_zero (by omega), rfl⟩
    cases known with
    | cons v known =>
      have hview := h
      rw [viewFrom_known, map_ok_iff] at h
      obtain ⟨rest, hrest, heq⟩ := h
      rcases hhead v rest heq with ⟨rfl, rfl⟩ | ⟨a', rfl, rfl⟩
      · exact ⟨[], T, v :: known, m, rfl, .done _ _, hview⟩
      · obtain ⟨A, B, known', m', rfl, hwalk, hb⟩ := ih hrest
        exact ⟨c :: A, B, known', m', rfl, .known hwalk, hb⟩
    | nil =>
      have hview := h
      rw [viewFrom_step] at h
      split at h
      · rename_i d hd
        rw [map_ok_iff] at h
        obtain ⟨rest, hrest, heq⟩ := h
        rcases hhead d.verdict rest heq with ⟨rfl, rfl⟩ | ⟨a', rfl, rfl⟩
        · exact ⟨[], T, [], m, rfl, .done _ _, hview⟩
        · obtain ⟨A, B, known', m', rfl, hwalk, hb⟩ := ih hrest
          exact ⟨c :: A, B, known', m', rfl, .step hd hwalk, hb⟩
      · cases h

/-- A word that can be seen stands in the text. -/
theorem exists_word_of_visible {x : List Char} (h : viewFrom known m T = .ok (a ++ (x ++ b)))
    (hne : x ≠ []) (hx : ∀ c ∈ x, isSpace c = false) :
    ∃ A B, T = A ++ (x ++ B) ∧ byteLength A = byteLength a := by
  induction x generalizing known m T a with
  | nil => exact absurd rfl hne
  | cons c x ih =>
    obtain ⟨A, B, known', m', rfl, hwalk, hrest⟩ :=
      exists_split_of_visible h (hx c List.mem_cons_self)
    by_cases hnil : x = []
    · exact ⟨A, B, by rw [hnil]; rfl, hwalk.byteLength_eq.symm⟩
    · obtain ⟨A', B', hT, hlen⟩ := ih (a := [c]) hrest hnil fun d hd =>
        hx d (List.mem_cons_of_mem c hd)
      obtain ⟨-, rfl⟩ := append_eq_append_of_eq (a := [c]) (b := B) hT hlen.symm
      exact ⟨A, B', rfl, hwalk.byteLength_eq.symm⟩

theorem mem_of_visible {y : List Char} (h : viewFrom known m T = .ok y) (hmem : x ∈ y)
    (hx : isSpace x = false) : x ∈ T := by
  obtain ⟨a, b, rfl⟩ := List.append_of_mem hmem
  obtain ⟨A, B, -, -, rfl, -⟩ := exists_split_of_visible h hx
  simp

/-! ## Where the walk is in code -/

/-- The quotes in which string literals stand. -/
def quotes : List Char :=
  ['\x27', '\x22', '\x60']

/-- The string literals of the mode end at one of the quotes. -/
def Mode.Proper (m : Mode) : Prop :=
  ∀ q, m = .quoted q → q ∈ quotes

theorem Mode.proper_code : Mode.code.Proper :=
  fun _ h => absurd h (by simp)

/-- The text opens no heredoc. -/
def NoHeredoc (T : List Char) : Prop :=
  ¬ ['<', '<', '<'] <:+: T

theorem NoHeredoc.of_suffix {S : List Char} (h : NoHeredoc T) (hs : S <:+ T) : NoHeredoc S :=
  fun hin => h (hin.trans hs.isInfix)

/-- How a walk without heredocs stands in front of a text: all known verdicts are to blank, string
literals have their own quotes, and verdicts known in code are those on the end of a tag or of a
comment. -/
structure Steady (known : List Verdict) (m : Mode) (rest : List Char) : Prop where
  blank : ∀ v ∈ known, v = .blank
  quote : ∀ q, m = .quoted q → q ∈ quotes
  pending : m = .code → ∀ c ∈ rest.take known.length, isSpace c = false ∧ c ≠ '<'

theorem steady_nil (hm : ∀ q, m = .quoted q → q ∈ quotes) (rest : List Char) : Steady [] m rest :=
  ⟨by simp, hm, by simp⟩

/-- The characters of a tag behind its first one are neither white space nor angle brackets. -/
theorem of_mem_take_tagRest (h : rest.head? = some '?') :
    ∀ c ∈ rest.take (tagRest rest), isSpace c = false ∧ c ≠ '<' := by
  have hlower : ∀ {c : Char} {x : Char}, c.toLower = x → x ∈ ['?', 'p', 'h'] →
      isSpace c = false ∧ c ≠ '<' := by
    intro c x hc hx
    constructor
    · by_contra hspace
      rcases isSpace_cases (by simpa using hspace) with rfl | rfl | rfl | rfl | rfl <;>
        (subst hc; revert hx; decide)
    · rintro rfl
      subst hc
      revert hx
      decide
  intro c hc
  unfold tagRest at hc
  split at hc
  · rename_i hphp
    have hmap : (rest.take 4).map Char.toLower = ['?', 'p', 'h', 'p'] := by
      simpa [eqIgnoreCase] using hphp
    have hmem : c.toLower ∈ ['?', 'p', 'h', 'p'] := hmap ▸ List.mem_map_of_mem hc
    refine hlower rfl ?_
    simp only [List.mem_cons, List.not_mem_nil, or_false] at hmem ⊢
    rcases hmem with h | h | h | h
    · exact .inl h
    · exact .inr (.inl h)
    · exact .inr (.inr h)
    · exact .inr (.inl h)
  · split at hc
    · rename_i hecho
      rw [hecho] at hc
      simp only [String.reduceToList, List.mem_cons, List.not_mem_nil, or_false] at hc
      rcases hc with rfl | rfl <;> decide
    · cases rest with
      | nil => simp at hc
      | cons y rest =>
        simp only [List.head?_cons, Option.some.injEq] at h
        simp only [List.take_succ_cons, List.take_zero, List.mem_singleton] at hc
        subst hc h
        decide

/-- What is decided in code where no heredoc opens. -/
theorem stepCode_cases (h : stepCode c rest = .ok d) (hno : ¬ ['<', '<', '<'] <+: c :: rest) :
    d = ⟨.keep, [], .code⟩ ∨ (∃ m, m ≠ .code ∧ (∀ q, m ≠ .quoted q) ∧ d = ⟨.blank, [.blank], m⟩) ∨
      d = ⟨.blank, [], .lineComment⟩ ∨ ∃ q ∈ quotes, c = q ∧ d = ⟨.keep, [], .quoted q⟩ := by
  unfold stepCode at h
  split at h
  case h_4 => exact absurd ⟨_, rfl⟩ hno
  all_goals cases h
  · exact .inr (.inl ⟨.html, by simp, by simp, rfl⟩)
  · exact .inr (.inl ⟨.lineComment, by simp, by simp, rfl⟩)
  · exact .inr (.inl ⟨.blockComment, by simp, by simp, rfl⟩)
  · exact .inl rfl
  · exact .inr (.inr (.inl rfl))
  · exact .inr (.inr (.inr ⟨'\x27', by decide, rfl, rfl⟩))
  · exact .inr (.inr (.inr ⟨'\x22', by decide, rfl, rfl⟩))
  · exact .inr (.inr (.inr ⟨'\x60', by decide, rfl, rfl⟩))
  · exact .inl rfl

/-- A step leaves the walk steady. -/
theorem Steady.step {m : Mode} {c : Char} {rest : List Char} {d : Decision}
    (h : Steady [] m (c :: rest)) (hno : m = .code → ¬ ['<', '<', '<'] <+: c :: rest)
    (hstep : m.step c rest = .ok d) : Steady d.further d.mode rest := by
  cases m with
  | html =>
    rw [Mode.step] at hstep
    split at hstep
    · rename_i htag
      cases hstep
      refine ⟨fun v hv => List.eq_of_mem_replicate hv, by simp, fun _ x hx => ?_⟩
      rw [List.length_replicate] at hx
      exact of_mem_take_tagRest htag.2 x hx
    · cases hstep
      exact steady_nil (by simp) rest
  | code =>
    rcases stepCode_cases hstep (hno rfl) with rfl | ⟨m, hcode, hquoted, rfl⟩ | rfl |
        ⟨q, hq, -, rfl⟩
    · exact steady_nil (by simp) rest
    · exact ⟨by simp, fun q hm => absurd hm (hquoted q), fun hm => absurd hm hcode⟩
    · exact steady_nil (by simp) rest
    · refine steady_nil (fun q' hm => ?_) rest
      cases hm
      exact hq
  | lineComment =>
    rw [Mode.step] at hstep
    split at hstep
    · cases hstep
      exact steady_nil (by simp) rest
    · split at hstep
      · cases hstep
        exact ⟨by simp, by simp, by simp⟩
      · cases hstep
        exact steady_nil (by simp) rest
  | blockComment =>
    rw [Mode.step] at hstep
    split at hstep
    · rename_i hend
      cases hstep
      refine ⟨by simp, by simp, fun _ x hx => ?_⟩
      cases rest with
      | nil => simp at hx
      | cons y rest =>
        obtain rfl : y = '/' := by simpa using hend.2
        obtain rfl : x = '/' := by simpa using hx
        decide
    · cases hstep
      exact steady_nil (by simp) rest
  | quoted q =>
    have hq := h.quote q rfl
    rw [Mode.step] at hstep
    split at hstep
    · split at hstep
      · cases hstep
        exact ⟨by simp, fun q' hm => by cases hm; exact hq, by simp⟩
      · cases hstep
        exact steady_nil (fun q' hm => by cases hm; exact hq) rest
    · split at hstep
      · cases hstep
        exact steady_nil (by simp) rest
      · cases hstep
        exact steady_nil (fun q' hm => by cases hm; exact hq) rest

/-- **Where code can be seen, the walk is in code.** -/
theorem Steady.code_of_visible (h : Steady known m (x :: B))
    (hview : viewFrom known m (x :: B) = .ok (x :: b)) (hspace : isSpace x = false)
    (hquote : x ∉ quotes) : known = [] ∧ m = .code := by
  cases known with
  | cons v known =>
    rw [viewFrom_known, map_ok_iff] at hview
    obtain ⟨rest, -, heq⟩ := hview
    have := h.blank v List.mem_cons_self
    rw [keep_of_render heq hspace] at this
    cases this
  | nil =>
    refine ⟨rfl, ?_⟩
    rw [viewFrom_step] at hview
    split at hview
    · rename_i d hd
      obtain ⟨rest, -, heq⟩ := map_ok_iff.mp hview
      have hkept := keep_of_render heq hspace
      cases m with
      | code => rfl
      | html => rw [Mode.step] at hd; split at hd <;> (cases hd; cases hkept)
      | lineComment =>
        rw [Mode.step] at hd
        split at hd
        · rename_i hx
          rw [hx] at hspace
          exact absurd hspace (by decide)
        · split at hd <;> (cases hd; cases hkept)
      | blockComment => rw [Mode.step] at hd; split at hd <;> (cases hd; cases hkept)
      | quoted q =>
        rw [Mode.step] at hd
        split at hd
        · split at hd <;> (cases hd; cases hkept)
        · split at hd
          · rename_i hx
            exact absurd (hx ▸ h.quote q rfl) hquote
          · cases hd
            cases hkept
    · cases hview

/-! ## Decisions and what follows -/

theorem stepCode_eq (c : Char) (rest : List Char) : stepCode c rest =
    if c = '?' ∧ rest.head? = some '>' then .ok ⟨.blank, [.blank], .html⟩
    else if c = '/' ∧ rest.head? = some '/' then .ok ⟨.blank, [.blank], .lineComment⟩
    else if c = '/' ∧ rest.head? = some '*' then .ok ⟨.blank, [.blank], .blockComment⟩
    else if c = '<' ∧ rest.take 2 = ['<', '<'] then
      (heredoc (rest.drop 2)).map fun further => ⟨.keep, .keep :: .keep :: further, .code⟩
    else if c = '#' ∧ rest.head? ≠ some '[' then .ok ⟨.blank, [], .lineComment⟩
    else if c ∈ quotes then .ok ⟨.keep, [], .quoted c⟩
    else .ok ⟨.keep, [], .code⟩ := by
  unfold stepCode quotes
  split
  all_goals try simp
  case h_6 hno => rcases rest with _ | ⟨y, r⟩ <;> simp_all
  case h_10 hhash hsingle hdouble hback hclose hline hblock hheredoc _ =>
    have hhead : ∀ y, rest.head? = some y → rest = y :: rest.tail := fun y hy =>
      (List.cons_head?_tail hy).symm
    have htake : rest.take 2 = ['<', '<'] → rest = '<' :: '<' :: rest.drop 2 := fun h => by
      conv_lhs => rw [← List.take_append_drop 2 rest, h]
      rfl
    rw [if_neg fun h => hclose _ h.1 (hhead _ h.2), if_neg fun h => hline _ h.1 (hhead _ h.2),
      if_neg fun h => hblock _ h.1 (hhead _ h.2), if_neg fun h => hheredoc _ h.1 (htake h.2),
      if_neg fun h => hhash h.1, if_neg]
    rintro (h | h | h)
    · exact hsingle h
    · exact hdouble h
    · exact hback h

/-- The decision in code depends on the next character alone where no heredoc opens. -/
theorem stepCode_congr {c y : Char} {r r' : List Char}
    (h : ¬ (c = '<' ∧ (y :: r).take 2 = ['<', '<']))
    (h' : ¬ (c = '<' ∧ (y :: r').take 2 = ['<', '<'])) :
    stepCode c (y :: r) = stepCode c (y :: r') := by
  rw [stepCode_eq, stepCode_eq, if_neg h, if_neg h']
  rfl

/-- A character that opens nothing in code, whatever follows. -/
def isPlain (c : Char) : Bool :=
  c ∉ ['?', '/', '<', '#', '\x27', '\x22', '\x60']

theorem stepCode_of_isPlain (h : isPlain c = true) (rest : List Char) :
    stepCode c rest = .ok ⟨.keep, [], .code⟩ := by
  simp only [isPlain, List.mem_cons, List.not_mem_nil, or_false, decide_eq_true_eq, not_or] at h
  rw [stepCode_eq]
  simp [h, quotes]

theorem isPlain_of_isSpace (h : isSpace c = true) : isPlain c = true := by
  rcases isSpace_cases h with rfl | rfl | rfl | rfl | rfl <;> decide

theorem isPlain_of_isStop (h : isStop c = true) : isPlain c = true := by
  rcases isStop_cases h with rfl | rfl | rfl <;> decide

theorem isPlain_of_toLower (h : c.toLower = 'p' ∨ c.toLower = 'h') :
    isPlain c = true ∧ isSpace c = false ∧ isStop c = false := by
  refine ⟨?_, ?_, ?_⟩
  · by_contra hplain
    simp only [isPlain, List.mem_cons, List.not_mem_nil, or_false, decide_eq_true_eq,
      not_not] at hplain
    rcases hplain with rfl | rfl | rfl | rfl | rfl | rfl | rfl <;> (revert h; decide)
  · by_contra hspace
    rcases isSpace_cases (by simpa using hspace) with rfl | rfl | rfl | rfl | rfl <;>
      (revert h; decide)
  · by_contra hstop
    rcases isStop_cases (by simpa using hstop) with rfl | rfl | rfl <;> (revert h; decide)

/-- The last character that can be seen is white space or ends a statement. -/
def EndsPlain (a : List Char) : Prop :=
  ∀ x ∈ a.getLast?, isSpace x = true ∨ isStop x = true

theorem Opens.endsPlain {g : List Char} (h : Opens g.reverse) : EndsPlain g := by
  intro x hx
  rw [Option.mem_def, ← List.head?_reverse] at hx
  exact h.head_cases (List.cons_head?_tail hx).symm

theorem EndsPlain.of_append (h : EndsPlain (a ++ b)) : EndsPlain b := by
  intro x hx
  refine h x ?_
  rw [List.getLast?_append, Option.mem_def.mp hx]
  rfl

namespace Walk

theorem eq_of_nil (h : Walk B known m [] a known' m') : known = known' ∧ m = m' ∧ a = [] := by
  cases h
  exact ⟨rfl, rfl, rfl⟩

/-- A walk that leaves no verdict known is as long as those that it began with. -/
theorem length_le (h : Walk B known m A a [] m') : known.length ≤ A.length := by
  induction A generalizing known m a with
  | nil =>
    cases h
    exact Nat.le_refl _
  | cons c A ih =>
    cases h with
    | known h => exact Nat.succ_le_succ (ih h)
    | step _ _ => exact Nat.zero_le _

/-- What opens nothing in code stays. -/
theorem eq_of_isPlain (h : Walk B [] .code A a known m') (hA : ∀ c ∈ A, isPlain c = true) :
    a = A := by
  induction A generalizing a with
  | nil =>
    cases h
    rfl
  | cons c A ih =>
    cases h with
    | step hstep h =>
      rw [Mode.step, stepCode_of_isPlain (hA c List.mem_cons_self)] at hstep
      cases hstep
      rw [ih h fun x hx => hA x (List.mem_cons_of_mem c hx)]
      rfl

end Walk

/-- How long an open tag is does not depend on what follows the walk behind it. -/
theorem tagRest_congr (h : Walk B (List.replicate (tagRest (A ++ B)) .blank) .code A a [] .code)
    (hlast : EndsPlain a) (hlen : 2 ≤ A.length) (R : List Char) :
    tagRest (A ++ R) = tagRest (A ++ B) := by
  have htwo : ∀ X, (A ++ X).take 2 = A.take 2 := fun X => List.take_append_of_le_length hlen
  by_cases hfour : 4 ≤ A.length
  · have htake : ∀ X, (A ++ X).take 4 = A.take 4 := fun X => List.take_append_of_le_length hfour
    simp only [tagRest, htwo, htake]
  · have hphp : ∀ X, eqIgnoreCase ((A ++ X).take 4) "?php".toList = true →
        A.map Char.toLower <+: ['?', 'p', 'h', 'p'] := by
      intro X hX
      have hmap : ((A ++ X).take 4).map Char.toLower = ['?', 'p', 'h', 'p'] := by
        simpa [eqIgnoreCase] using hX
      rw [List.take_append, List.take_of_length_le (by omega), List.map_append] at hmap
      exact ⟨_, hmap⟩
    have hB : eqIgnoreCase ((A ++ B).take 4) "?php".toList = false := by
      by_contra htrue
      have hrest : tagRest (A ++ B) = 4 := if_pos (by simpa using htrue)
      have := h.length_le
      rw [hrest, List.length_replicate] at this
      exact hfour this
    have hR : eqIgnoreCase ((A ++ R).take 4) "?php".toList = false := by
      by_contra htrue
      -- the letters behind the question mark would be code that can be seen
      obtain ⟨x, y, A, rfl⟩ : ∃ x y A', A = x :: y :: A' := by
        match A, hlen with
        | x :: y :: A, _ => exact ⟨x, y, A, rfl⟩
      have hletters := hphp R (by simpa using htrue)
      obtain ⟨t, ht⟩ := hletters
      simp only [List.map_cons, List.cons_append, List.cons.injEq] at ht
      obtain ⟨hx, hy, ht⟩ := ht
      have hnotEcho : (x :: y :: A ++ B).take 2 ≠ "?=".toList := by
        intro heq
        rw [show "?=".toList = ['?', '='] from rfl] at heq
        obtain rfl : y = '=' := (List.cons.inj (List.cons.inj heq).2).1
        exact absurd hy (by decide)
      have hrest : tagRest (x :: y :: A ++ B) = 1 := by
        unfold tagRest
        rw [hB, if_neg Bool.false_ne_true, if_neg hnotEcho]
      have hmem : ∀ c ∈ y :: A, c.toLower = 'p' ∨ c.toLower = 'h' := by
        intro c hc
        rcases List.mem_cons.mp hc with rfl | hc
        · exact .inl hy
        · have : c.toLower ∈ ['h', 'p'] := ht ▸ List.mem_append_left t (List.mem_map_of_mem hc)
          simp only [List.mem_cons, List.not_mem_nil, or_false] at this
          exact this.symm
      rw [hrest] at h
      cases h with
      | known h =>
        have ha := h.eq_of_isPlain fun c hc => (isPlain_of_toLower (hmem c hc)).1
        subst ha
        have hz := List.getLast?_eq_some_getLast (List.cons_ne_nil y A)
        have hend := hlast.of_append _ hz
        obtain ⟨-, hspace, hstop⟩ := isPlain_of_toLower (hmem _ (List.mem_of_getLast? hz))
        simp [hspace, hstop] at hend
    simp only [tagRest, htwo, hB, hR]

theorem tagRest_ne_zero (rest : List Char) : tagRest rest ≠ 0 := by
  unfold tagRest
  split
  · decide
  · split <;> decide

/-- A character of code at the end of a walk that ends in code can be seen. -/
theorem plain_of_stepCode (hstep : stepCode c B = .ok d) (hfurther : d.further = [])
    (hmode : d.mode = .code) (hlast : EndsPlain (d.verdict.render c)) :
    d = ⟨.keep, [], .code⟩ ∧ (isSpace c = true ∨ isStop c = true) := by
  have hno : ¬ ['<', '<', '<'] <+: c :: B := by
    rintro ⟨R, hR⟩
    cases hR
    obtain ⟨further, -, rfl⟩ := map_ok_iff.mp hstep
    cases hfurther
  rcases stepCode_cases hstep hno with rfl | ⟨m, -, -, rfl⟩ | rfl | ⟨q, -, -, rfl⟩
  · exact ⟨rfl, hlast c rfl⟩
  · cases hfurther
  · cases hmode
  · cases hmode

/-- What a step decides does not depend on what follows a walk that ends in code where a statement
may begin. -/
theorem Mode.step_congr (hstep : m.step c (A ++ B) = .ok d)
    (hwalk : Walk B d.further d.mode A a [] .code)
    (hno : m = .code → ¬ ['<', '<', '<'] <+: c :: (A ++ B))
    (hlast : EndsPlain (d.verdict.render c ++ a)) (htag : ¬ ['<', '?'] <:+ c :: A) (R : List Char) :
    m.step c (A ++ R) = .ok d := by
  cases A with
  | nil =>
    -- the last character: only one that decides by itself leads to code
    obtain ⟨hfurther, hmode, rfl⟩ := hwalk.eq_of_nil
    rw [List.append_nil] at hlast
    cases m with
    | html =>
      rw [Mode.step] at hstep
      split at hstep
      · cases hstep
        exact absurd (List.replicate_eq_nil_iff _ |>.mp hfurther) (tagRest_ne_zero _)
      · cases hstep
        cases hmode
    | code =>
      obtain ⟨rfl, hplain⟩ := plain_of_stepCode hstep hfurther hmode hlast
      refine stepCode_of_isPlain ?_ R
      rcases hplain with h | h
      · exact isPlain_of_isSpace h
      · exact isPlain_of_isStop h
    | lineComment =>
      rw [Mode.step] at hstep ⊢
      split at hstep
      · rename_i hc
        rw [if_pos hc]
        exact hstep
      · split at hstep <;> (cases hstep; cases hmode)
    | blockComment =>
      rw [Mode.step] at hstep
      split at hstep
      · cases hstep
        cases hfurther
      · cases hstep
        cases hmode
    | quoted q =>
      rw [Mode.step] at hstep ⊢
      split at hstep
      · split at hstep <;> (cases hstep; cases hmode)
      · rename_i hc
        rw [if_neg hc]
        split at hstep
        · rename_i hq
          rw [if_pos hq]
          exact hstep
        · cases hstep
          cases hmode
  | cons y A =>
    cases m with
    | html =>
      rw [Mode.step] at hstep ⊢
      split at hstep
      · rename_i hc
        cases hstep
        have hlen : 2 ≤ (y :: A).length := by
          cases A with
          | nil =>
            obtain rfl : c = '<' := hc.1
            obtain rfl : y = '?' := by simpa using hc.2
            exact absurd (List.suffix_refl _) htag
          | cons z A => simp
        rw [if_pos ⟨hc.1, hc.2⟩, tagRest_congr hwalk hlast.of_append hlen R]
      · rename_i hc
        rw [if_neg (show ¬ (c = '<' ∧ (y :: A ++ R).head? = some '?') from hc)]
        exact hstep
    | code =>
      have hB : ¬ (c = '<' ∧ (y :: (A ++ B)).take 2 = ['<', '<']) := by
        rintro ⟨rfl, htake⟩
        refine hno rfl ⟨(y :: (A ++ B)).drop 2, ?_⟩
        show '<' :: (['<', '<'] ++ _) = _
        rw [← htake, List.take_append_drop]
        rfl
      have hR : ¬ (c = '<' ∧ (y :: (A ++ R)).take 2 = ['<', '<']) := by
        rintro ⟨rfl, htake⟩
        obtain rfl : y = '<' := (List.cons.inj htake).1
        cases A with
        | nil =>
          -- the second bracket would be code that can be seen
          have hd : stepCode '<' ('<' :: ([] ++ B)) = .ok ⟨.keep, [], .code⟩ := by
            rw [stepCode_eq, if_neg (by simp), if_neg (by simp), if_neg (by simp), if_neg hB,
              if_neg (by simp), if_neg (by decide)]
          obtain rfl : _ = d := Except.ok.inj (hd.symm.trans hstep)
          cases hwalk with
          | step hstep' hwalk' =>
            obtain ⟨hfurther, hmode, rfl⟩ := hwalk'.eq_of_nil
            have hlast' := hlast.of_append
            rw [List.append_nil] at hlast'
            obtain ⟨-, hplain⟩ := plain_of_stepCode hstep' hfurther hmode hlast'
            exact absurd hplain (by decide)
        | cons z A => exact hB ⟨rfl, htake⟩
      rw [← hstep]
      exact (stepCode_congr hB hR).symm
    | lineComment => exact hstep
    | blockComment => exact hstep
    | quoted q => exact hstep

/-- Text that opens nothing is walked over in code. -/
theorem Walk.of_isPlain (h : ∀ c ∈ V, isPlain c = true) (B : List Char) :
    Walk B [] .code V V [] .code := by
  induction V with
  | nil => exact .done _ _
  | cons c V ih =>
    have hstep : Mode.step c (V ++ B) .code = .ok ⟨.keep, [], .code⟩ :=
      stepCode_of_isPlain (h c List.mem_cons_self) _
    exact .step hstep (ih fun x hx => h x (List.mem_cons_of_mem c hx))

/-- Text that opens nothing is settled in code. -/
theorem settles_of_isPlain (h : ∀ c ∈ V, isPlain c = true) : Settles .code V V .code :=
  fun R => (Walk.of_isPlain h R).viewFrom_eq

/-! ## Places of the view -/

/-- White space inside a line changes nothing. -/
theorem Mode.step_blank (hm : m.Proper) (hc : isBlank c = true) (hbreak : c ≠ '\n')
    (rest : List Char) : ∃ v, m.step c rest = .ok ⟨v, [], m⟩ := by
  have hne : isPlain c = true ∧ c ≠ '<' ∧ c ≠ '?' ∧ c ≠ '*' ∧ c ≠ '\\' ∧ c ∉ quotes :=
    of_isBlank (p := fun c => isPlain c = true ∧ c ≠ '<' ∧ c ≠ '?' ∧ c ≠ '*' ∧
      c ≠ '\\' ∧ c ∉ quotes) (by decide +kernel) hc
  obtain ⟨hplain, hopen, hmark, hstar, hslash, hquote⟩ := hne
  cases m with
  | html => exact ⟨_, by rw [Mode.step, if_neg fun h => hopen h.1]⟩
  | code => exact ⟨_, stepCode_of_isPlain hplain rest⟩
  | lineComment => exact ⟨_, by rw [Mode.step, if_neg hbreak, if_neg fun h => hmark h.1]⟩
  | blockComment => exact ⟨_, by rw [Mode.step, if_neg fun h => hstar h.1]⟩
  | quoted q =>
    have hq : c ≠ q := fun heq => hquote (heq ▸ hm q rfl)
    exact ⟨_, by rw [Mode.step, if_neg hslash, if_neg hq]⟩

/-- White space inside a line is walked over in one mode. -/
theorem Walk.of_blanks {W : List Char} (hm : m.Proper) (hW : ∀ c ∈ W, isBlank c = true ∧ c ≠ '\n')
    (B : List Char) :
    ∃ w, Walk B [] m W w [] m := by
  induction W with
  | nil => exact ⟨[], .done _ _⟩
  | cons c W ih =>
    obtain ⟨w, hw⟩ := ih fun x hx => hW x (List.mem_cons_of_mem c hx)
    obtain ⟨hc, hbreak⟩ := hW c List.mem_cons_self
    obtain ⟨v, hstep⟩ := Mode.step_blank hm hc hbreak (W ++ B)
    exact ⟨v.render c ++ w, .step hstep hw⟩

/-- A text that ends in another character does not end in an open tag. -/
theorem not_tag_suffix (h : A.getLast? = some c) (hc : c ≠ '?') : ¬ ['<', '?'] <:+ A := by
  rintro ⟨t, rfl⟩
  rw [List.getLast?_append] at h
  exact hc (Option.some.inj h).symm

theorem EndsPlain.of_break (a : List Char) : EndsPlain (a ++ ['\n']) := by
  intro x hx
  rw [List.getLast?_append, List.getLast?_singleton] at hx
  cases hx
  exact .inl rfl

/-- The view of a line end is the line end. -/
theorem Walk.of_break (h : Walk B known m (A ++ ['\n']) a known' m') : ∃ a', a = a' ++ ['\n'] := by
  obtain ⟨a₁, a₂, known₁, m₁, rfl, -, h₂⟩ := h.split
  have hrender : ∀ v : Verdict, v.render '\n' = ['\n'] := fun v => by cases v <;> rfl
  refine ⟨a₁, congrArg (a₁ ++ ·) ?_⟩
  cases h₂ with
  | known h =>
    obtain ⟨-, -, rfl⟩ := h.eq_of_nil
    rw [hrender]
    rfl
  | step _ h =>
    obtain ⟨-, -, rfl⟩ := h.eq_of_nil
    rw [hrender]
    rfl

/-! ## Open tags -/

theorem hasOpenTag_cons_cons (c d : Char) (cs : List Char) :
    hasOpenTag (c :: d :: cs) = ((c == '<' && d == '?') || hasOpenTag (d :: cs)) := by
  by_cases hc : c = '<'
  · by_cases hd : d = '?'
    · simp [hc, hd, hasOpenTag]
    · simp [hc, hd, hasOpenTag]
  · simp [hc, hasOpenTag]

/-- A tag stands in one of two pieces, or where they meet. -/
theorem hasOpenTag_append (A B : List Char) :
    hasOpenTag (A ++ B) =
      (hasOpenTag A || hasOpenTag B || (A.getLast? == some '<' && B.head? == some '?')) := by
  induction A with
  | nil => simp [hasOpenTag]
  | cons c A ih =>
    cases A with
    | cons d A =>
      rw [List.cons_append, List.cons_append, hasOpenTag_cons_cons, hasOpenTag_cons_cons,
        List.getLast?_cons_cons, ← List.cons_append, ih]
      simp only [Bool.or_assoc]
    | nil =>
      cases B with
      | nil => simp [hasOpenTag]
      | cons d B =>
        rw [List.singleton_append, hasOpenTag_cons_cons]
        simp [hasOpenTag, Bool.or_comm]

/-- Text without a tag has nothing to see. -/
theorem viewFrom_html (h : hasOpenTag T = false) :
    viewFrom [] .html T = .ok (T.flatMap (Verdict.blank.render ·)) := by
  induction T with
  | nil => rfl
  | cons c T ih =>
    have hstep : Mode.step c T .html = .ok ⟨.blank, [], .html⟩ := by
      rw [Mode.step, if_neg]
      rintro ⟨rfl, hhead⟩
      cases T with
      | nil => simp at hhead
      | cons d T =>
        obtain rfl : d = '?' := by simpa using hhead
        cases h
    have htail : hasOpenTag T = false := by
      have := hasOpenTag_append [c] T
      rw [List.singleton_append, h] at this
      simp only [Bool.false_eq, Bool.or_eq_false_iff] at this
      exact this.1.2
    rw [viewFrom_step, hstep]
    dsimp only
    rw [ih htail]
    rfl

/-- Code is reached through a tag. -/
theorem Settles.hasOpenTag (h : Settles .html P p .code) : hasOpenTag P = true := by
  by_contra hfalse
  have htag : UseImports.hasOpenTag (P ++ ['a']) = false := by
    rw [hasOpenTag_append]
    simpa [UseImports.hasOpenTag] using hfalse
  have hview := h ['a']
  rw [viewFrom_html htag, List.flatMap_append] at hview
  have heq : P.flatMap (Verdict.blank.render ·) ++ [' '] = p ++ ['a'] := Except.ok.inj hview
  have hlast : [' '] = ['a'] := (List.append_inj_right' heq rfl)
  exact absurd hlast (by decide)

/-! ## Quotes of string literals -/

theorem Mode.proper_startMode (T : List Char) : (startMode T).Proper := by
  intro q hq
  unfold startMode at hq
  split at hq <;> cases hq

theorem Mode.proper_step (h : m.Proper) (hstep : m.step c rest = .ok d) : d.mode.Proper := by
  intro q hq
  cases m with
  | html =>
    rw [Mode.step] at hstep
    split at hstep <;> (cases hstep; cases hq)
  | code =>
    rw [Mode.step, stepCode_eq] at hstep
    split at hstep
    · cases hstep; cases hq
    split at hstep
    · cases hstep; cases hq
    split at hstep
    · cases hstep; cases hq
    split at hstep
    · obtain ⟨further, -, rfl⟩ := map_ok_iff.mp hstep
      cases hq
    split at hstep
    · cases hstep; cases hq
    split at hstep
    · rename_i hc
      cases hstep
      cases hq
      exact hc
    · cases hstep; cases hq
  | lineComment =>
    rw [Mode.step] at hstep
    split at hstep
    · cases hstep; cases hq
    · split at hstep <;> (cases hstep; cases hq)
  | blockComment =>
    rw [Mode.step] at hstep
    split at hstep <;> (cases hstep; cases hq)
  | quoted q' =>
    rw [Mode.step] at hstep
    split at hstep
    · split at hstep <;> (cases hstep; exact h q hq)
    · split at hstep
      · cases hstep; cases hq
      · cases hstep; exact h q hq

theorem Walk.proper (h : Walk B known m A a known' m') (hm : m.Proper) : m'.Proper := by
  induction h with
  | done => exact hm
  | known _ ih => exact ih hm
  | step hstep _ ih => exact ih (Mode.proper_step hm hstep)

end UseImports
