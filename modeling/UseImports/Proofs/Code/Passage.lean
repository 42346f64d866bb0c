import UseImports.Proofs.Code.Heredoc
import UseImports.Proofs.Code.View
import UseImports.Proofs.Text.LineSplit

/-!
# Walks past heredocs

A heredoc is decided as a whole where it opens, and it may reach far. At the start of a line,
though, it is over or it reaches into that line, and where it is over, what follows the line end has
no influence on how far it reached. So the text in front of a line that no heredoc reaches into is
settled, with its heredocs.

* `Walk.exists_step`: where verdicts are known ahead, some step has given them.
* `InHeredoc`, `inHeredoc_of_walk`: the places that heredocs reach over; at the start of a line,
  **only a heredoc is known ahead.**
* `Walk.independent_of_break`: **a walk to the start of a line is the same whatever follows**, if
  nothing is known there.
* `knownAt`: what is known ahead at a place, and `not_inHeredoc`: where nothing is known, no heredoc
  reaches.
-/

namespace UseImports

variable {A a B rest T : List Char} {known known' : List Verdict} {m m' : Mode} {c : Char}
    {d : Decision} {n : Nat}

/-! ## Verdicts known ahead -/

/-- **Verdicts that are known ahead come from a step**, or they were known before the walk. -/
theorem Walk.exists_step (h : Walk B known m A a known' m') (hne : known' ≠ []) :
    A.length < known.length ∨ ∃ A₁ a₁ m₁ c A₂ d, A = A₁ ++ c :: A₂ ∧
    Walk (c :: (A₂ ++ B)) known m A₁ a₁ [] m₁ ∧
      m₁.step c (A₂ ++ B) = .ok d ∧ A₂.length < d.further.length := by
  induction h with
  | done => exact .inl (List.length_pos_iff.mpr hne)
  | @known v known m c A a known' m' _ ih =>
    rcases ih hne with hlt | ⟨A₁, a₁, m₁, x, A₂, d, rfl, hwalk, hd, hlt⟩
    · exact .inl (Nat.succ_lt_succ hlt)
    · exact .inr ⟨c :: A₁, _, m₁, x, A₂, d, rfl, .known hwalk, hd, hlt⟩
  | @step m c A d a known' m' hstep _ ih =>
    rcases ih hne with hlt | ⟨A₁, a₁, m₁, x, A₂, e, rfl, hwalk, he, hlt⟩
    · exact .inr ⟨[], [], m, c, A, d, rfl, .done _ _, hstep, hlt⟩
    · refine .inr ⟨c :: A₁, _, m₁, x, A₂, e, rfl, .step ?_ hwalk, he, hlt⟩
      simpa only [List.append_assoc, List.cons_append] using hstep

/-- What a step can know ahead: the next character, the rest of a tag, or a heredoc. -/
theorem Mode.further_cases (h : m.step c rest = .ok d) :
    d.further.length ≤ 1 ∨ '\n' ∉ rest.take d.further.length ∨
      m = .code ∧ c = '<' ∧ ∃ R f, rest = '<' :: '<' :: R ∧ heredoc R = .ok f ∧
      d = ⟨.keep, .keep :: .keep :: f, .code⟩ := by
  cases m with
  | html =>
    rw [Mode.step] at h
    split at h
    · rename_i htag
      cases h
      refine .inr (.inl fun hmem => ?_)
      rw [List.length_replicate] at hmem
      exact absurd (of_mem_take_tagRest htag.2 _ hmem).1 (by decide)
    · cases h
      exact .inl (Nat.zero_le 1)
  | code =>
    by_cases hopens : ['<', '<', '<'] <+: c :: rest
    · obtain ⟨R, hR⟩ := hopens
      cases hR
      obtain ⟨f, hf, rfl⟩ := map_ok_iff.mp h
      exact .inr (.inr ⟨rfl, rfl, R, f, rfl, hf, rfl⟩)
    · rcases stepCode_cases h hopens with rfl | ⟨m, -, -, rfl⟩ | rfl | ⟨q, -, -, rfl⟩ <;>
        exact .inl (by simp)
  | lineComment =>
    rw [Mode.step] at h
    split at h
    · cases h
      exact .inl (Nat.zero_le 1)
    · split at h <;> (cases h; exact .inl (by simp))
  | blockComment =>
    rw [Mode.step] at h
    split at h <;> (cases h; exact .inl (by simp))
  | quoted q =>
    rw [Mode.step] at h
    split at h
    · split at h <;> (cases h; exact .inl (by simp))
    · split at h <;> (cases h; exact .inl (by simp))

/-! ## Places in heredocs -/

/-- The heredoc behind `A` reaches over the place behind `R`. -/
structure ReachesOver (m : Mode) (T A R B : List Char) : Prop where
  text : T = A ++ ('<' :: '<' :: '<' :: (R ++ B))
  opened : ∃ a, Walk ('<' :: '<' :: '<' :: (R ++ B)) [] m A a [] .code
  reaches : ∃ f, heredoc (R ++ B) = .ok f ∧ R.length < f.length

/-- A heredoc of the text, which is read from a mode on, reaches over the offset. -/
def InHeredoc (m : Mode) (T : List Char) (n : Nat) : Prop :=
  ∃ A R B, ReachesOver m T A R B ∧ byteLength A + 3 + byteLength R = n

theorem NoHeredoc.not_inHeredoc (h : NoHeredoc T) (m : Mode) (n : Nat) : ¬ InHeredoc m T n := by
  rintro ⟨A, R, B, hreaches, -⟩
  exact h ⟨A, R ++ B, by rw [hreaches.text]; simp⟩

/-- A heredoc of the rest of a text is one of the text. -/
theorem InHeredoc.append {P p : List Char} (h : InHeredoc m' T n) (hwalk : Walk T [] m P p [] m') :
    InHeredoc m (P ++ T) (byteLength P + n) := by
  obtain ⟨A, R, B, ⟨rfl, ⟨a, hopened⟩, hreaches⟩, rfl⟩ := h
  refine ⟨P ++ A, R, B, ⟨(List.append_assoc P A _).symm, ⟨p ++ a, hwalk.trans hopened⟩, hreaches⟩,
    ?_⟩
  rw [byteLength_append]
  omega

/-- Nothing is known behind a line end. -/
theorem Mode.step_break (h : m.step '\n' rest = .ok d) : d.further = [] := by
  cases m with
  | html => cases h; rfl
  | code => cases h; rfl
  | lineComment => cases h; rfl
  | blockComment => cases h; rfl
  | quoted q =>
    rw [Mode.step, if_neg (by decide)] at h
    split at h <;> (cases h; rfl)

/-- The brackets of a heredoc stand in front of a line end that comes behind them. -/
theorem exists_behind_brackets {R : List Char} (h : A ++ B = '<' :: '<' :: R)
    (hlast : A.getLast? = some '\n') :
    ∃ V, A = '<' :: '<' :: V ∧ R = V ++ B ∧ V.getLast? = some '\n' := by
  cases A with
  | nil => cases hlast
  | cons x A =>
    obtain ⟨rfl, htail⟩ := List.cons.inj h
    cases A with
    | nil => cases hlast
    | cons y V =>
      obtain ⟨rfl, hR⟩ := List.cons.inj htail
      refine ⟨V, rfl, hR.symm, ?_⟩
      cases V with
      | nil => cases hlast
      | cons z V => simpa only [List.getLast?_cons_cons] using hlast

/-- **At the start of a line, only a heredoc is known ahead.** -/
theorem inHeredoc_of_walk (h : Walk B [] m A a known m') (hA : AtLineStart A) (hne : known ≠ []) :
    InHeredoc m (A ++ B) (byteLength A) := by
  obtain hlt | ⟨A₁, a₁, m₁, c, A₂, d, rfl, hwalk, hd, hlt⟩ := h.exists_step hne
  · exact absurd hlt (Nat.not_lt_zero _)
  have hstart : AtLineStart (c :: A₂) :=
    hA.imp (fun hnil => (List.append_eq_nil_iff.mp hnil).2) fun hlast => by
      rwa [List.getLast?_append_of_ne_nil _ (List.cons_ne_nil c A₂)] at hlast
  rcases hstart.tail with ⟨rfl, rfl⟩ | hlast
  · rw [Mode.step_break hd] at hlt
    exact absurd hlt (Nat.not_lt_zero _)
  -- what is known reaches over the line end in front of the place
  have hmem := List.mem_of_getLast? hlast
  rcases Mode.further_cases hd with hone | hnot | ⟨rfl, rfl, R, f, hrest, hf, rfl⟩
  · have := List.length_pos_of_mem hmem
    omega
  · rw [List.take_append, List.take_of_length_le hlt.le] at hnot
    exact absurd (List.mem_append_left _ hmem) hnot
  · obtain ⟨R₁, rfl, rfl, -⟩ := exists_behind_brackets hrest hlast
    have hsize : ('<' : Char).utf8Size = 1 := by decide
    refine ⟨A₁, R₁, B, ⟨by simp, ⟨a₁, hwalk⟩, f, hf, by simpa using hlt⟩, ?_⟩
    simp only [byteLength_append, byteLength_cons, hsize]
    omega

/-- Where nothing is known ahead, no heredoc reaches. -/
theorem not_inHeredoc (h : Walk B [] m A a [] m') : ¬ InHeredoc m (A ++ B) (byteLength A) := by
  rintro ⟨A₁, R, B₁, ⟨htext, ⟨a₁, hopened⟩, f, hf, hlt⟩, hlen⟩
  have hsize : ('<' : Char).utf8Size = 1 := by decide
  have hsplit : A ++ B = (A₁ ++ '<' :: '<' :: '<' :: R) ++ B₁ := by
    rw [htext]
    simp
  obtain ⟨rfl, rfl⟩ := append_eq_append_of_eq hsplit (by
    simp only [byteLength_append, byteLength_cons, hsize]
    omega)
  obtain ⟨b₁, b₂, known, m₁, -, hfirst, hrest⟩ := h.split
  obtain ⟨-, rfl, rfl⟩ := hopened.unique hfirst
  -- the heredoc is decided here, and the walk would be over before its verdicts are used up
  cases hrest with
  | step hstep hrest =>
    obtain ⟨f', hf', rfl⟩ := map_ok_iff.mp hstep
    obtain rfl := Except.ok.inj (hf.symm.trans hf')
    have := hrest.length_le
    simp only [List.length_cons] at this
    omega

/-- What a walk over `front` leaves: its view, the verdicts that are known ahead, and the mode. -/
def walkOver : List Verdict → Mode → (front back : List Char) →
    Except MaskError (List Char × List Verdict × Mode)
  | known, m, [], _ => .ok ([], known, m)
  | v :: known, m, c :: front, back => do
    let r ← walkOver known m front back
    return (v.render c ++ r.1, r.2)
  | [], m, c :: front, back => do
    let d ← m.step c (front ++ back)
    let r ← walkOver d.further d.mode front back
    return (d.verdict.render c ++ r.1, r.2)

theorem walk_of_walkOver (h : walkOver known m A B = .ok (a, known', m')) :
    Walk B known m A a known' m' := by
  induction A generalizing known m a with
  | nil =>
    cases known <;> (cases h; exact .done _ _)
  | cons c A ih =>
    cases known with
    | cons v known =>
      obtain ⟨⟨a, _, _⟩, hr, h⟩ := bind_ok_iff.mp h
      cases h
      exact .known (ih hr)
    | nil =>
      obtain ⟨d, hd, h⟩ := bind_ok_iff.mp h
      obtain ⟨⟨a, _, _⟩, hr, h⟩ := bind_ok_iff.mp h
      cases h
      exact .step hd (ih hr)

/-- The verdicts that are known ahead between two pieces of a text. -/
def knownAt (m : Mode) (front back : List Char) : Except MaskError (List Verdict) :=
  (walkOver [] m front back).map (·.2.1)

/-- No heredoc reaches over an offset at which nothing is known ahead. -/
theorem not_inHeredoc_of_knownAt (h : ∃ cut ∈ splitAtByte n T, knownAt m cut.1 cut.2 = .ok []) :
    ¬ InHeredoc m T n := by
  obtain ⟨⟨A, B⟩, hcut, hknown⟩ := h
  obtain ⟨⟨a, _, m'⟩, hwalk, rfl⟩ := map_ok_iff.mp hknown
  rw [← append_of_splitAtByte hcut, ← byteLength_of_splitAtByte hcut]
  exact not_inHeredoc (walk_of_walkOver hwalk)

/-! ## The start of a line -/

theorem AtLineStart.endsPlain (hA : AtLineStart A) (h : Walk B known m A a known' m') :
    EndsPlain a := by
  rcases hA with rfl | hlast
  · cases h
    simp [EndsPlain]
  · obtain ⟨A, rfl⟩ := List.getLast?_eq_some_iff.mp hlast
    obtain ⟨a, rfl⟩ := h.of_break
    exact .of_break a

/-- A heredoc that a walk leaves behind it. -/
theorem exists_heredoc_of_step (hstep : Mode.step c (A ++ B) .code = .ok d)
    (hbrackets : ['<', '<', '<'] <+: c :: (A ++ B)) (hwalk : Walk B d.further d.mode A a [] .code) :
    ∃ V v f, c = '<' ∧ A = '<' :: '<' :: V ∧ a = '<' :: '<' :: v ∧ heredoc (V ++ B) = .ok f ∧
      d = ⟨.keep, .keep :: .keep :: f, .code⟩ ∧ Walk B f .code V v [] .code := by
  obtain ⟨R, hR⟩ := hbrackets
  obtain ⟨rfl, hrest⟩ := List.cons.inj hR
  rw [← hrest] at hstep
  obtain ⟨f, hf, rfl⟩ := map_ok_iff.mp hstep
  have hlen := hwalk.length_le
  simp only [List.length_cons] at hlen
  obtain ⟨V, rfl⟩ := List.prefix_of_prefix_length_le ⟨R, hrest⟩ (List.prefix_append A B)
    (by simp only [List.length_cons, List.length_nil]; omega)
  obtain rfl : R = V ++ B := List.append_cancel_left (hrest.trans (List.append_assoc _ V B))
  cases hwalk with
  | known hwalk =>
    cases hwalk with
    | @known _ _ _ _ _ v _ _ hwalk => exact ⟨V, v, f, rfl, rfl, rfl, hf, rfl, hwalk⟩

/-- What a step decides in front of the start of a line does not depend on what follows. -/
theorem Mode.step_congr_of_break (hstep : m.step c (A ++ B) = .ok d)
    (hwalk : Walk B d.further d.mode A a [] .code) (hB : B ≠ []) (hA : AtLineStart (c :: A))
    (R : List Char) : m.step c (A ++ R) = .ok d := by
  have hlast : (c :: A).getLast? = some '\n' := hA.resolve_left (List.cons_ne_nil c A)
  by_cases hopens : m = .code ∧ ['<', '<', '<'] <+: c :: (A ++ B)
  · obtain ⟨rfl, hopens⟩ := hopens
    obtain ⟨V, v, f, rfl, rfl, rfl, hf, rfl, hover⟩ := exists_heredoc_of_step hstep hopens hwalk
    obtain ⟨_, hfront, -, hV⟩ := exists_behind_brackets (R := V ++ B) rfl
      (hA.tail.resolve_left fun h => absurd h.2 (by decide))
    cases hfront
    exact map_ok_iff.mpr ⟨f, heredoc_append_of_break hf hV hB hover.length_le R, rfl⟩
  · refine Mode.step_congr hstep hwalk (fun hm hin =>
      hopens ⟨hm, hin⟩) ?_ (not_tag_suffix hlast (by decide)) R
    exact hA.endsPlain (.step hstep hwalk)

/-- **A walk to the start of a line is the same whatever follows**, if it is in code there and
nothing is known ahead. -/
theorem Walk.independent_of_break (h : Walk B known m A a [] .code) (hB : B ≠ [])
    (hA : AtLineStart A) (R : List Char) : Walk R known m A a [] .code := by
  induction A generalizing known m a with
  | nil =>
    obtain ⟨rfl, rfl, rfl⟩ := h.eq_of_nil
    exact .done _ _
  | cons c A ih =>
    have hA' : AtLineStart A := hA.tail.imp And.left id
    cases h with
    | known h => exact .known (ih h hA')
    | step hstep h => exact .step (Mode.step_congr_of_break hstep h hB hA R) (ih h hA')

/-- **The text in front of a line is settled**, if the line is read as code and no heredoc reaches
into it. -/
theorem Walk.settles_of_break (h : Walk B [] m A a [] .code) (hB : B ≠ []) (hA : AtLineStart A) :
    Settles m A a .code :=
  fun R => (h.independent_of_break hB hA R).viewFrom_eq

end UseImports
