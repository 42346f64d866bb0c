import UseImports.Proofs.Code.Bytes

/-!
# The shape of the code view

A code view (`mask_non_code`) has the bytes of its text, some of them replaced by spaces; line ends
stay where they are, and no character is cut. The only texts without a code view are those in which
the identifier of a quoted heredoc runs to the end of the text.

* `UnclosedLabel`: the start of such a heredoc.
* `codeView_eq_error_iff`: **the texts without a code view.**
* `MaskOf`, `maskOf_codeView`: **what a code view keeps of its text**, byte by byte.
-/

namespace UseImports

variable {c : Char} {cs rest : List Char} {e : MaskError} {m : Mode} {known vs : List Verdict}

/-! ## Texts without a code view -/

/-- The text is the start of a heredoc whose quoted identifier runs to the end of the text. -/
def UnclosedLabel (B : List Char) : Prop :=
  ∃ ws q label, (∀ c ∈ ws, isIndent c = true) ∧ (q = '\x27' ∨ q = '\x22') ∧ label ≠ [] ∧
    (∀ c ∈ label, isIdentChar c = true) ∧ B = "<<<".toList ++ (ws ++ q :: label)

theorem unclosedLabel_cons_iff :
    UnclosedLabel (c :: rest) ↔
      (c = '<' ∧ rest.take 2 = ['<', '<']) ∧ heredoc (rest.drop 2) = .error e := by
  rw [heredoc_eq_error_iff]
  constructor
  · rintro ⟨ws, q, label, hws, hq, hne, hlabel, heq⟩
    cases heq
    exact ⟨⟨rfl, rfl⟩, ws, q, label, hws, hq, hne, hlabel, rfl⟩
  · rintro ⟨⟨rfl, htake⟩, ws, q, label, hws, hq, hne, hlabel, hdrop⟩
    refine ⟨ws, q, label, hws, hq, hne, hlabel, ?_⟩
    rw [← hdrop]
    exact congrArg ('<' :: ·) ((List.take_append_drop 2 rest).symm.trans (by rw [htake]; rfl))

theorem stepCode_eq_error_iff : stepCode c rest = .error e ↔ UnclosedLabel (c :: rest) := by
  rw [unclosedLabel_cons_iff (e := e)]
  by_cases hopen : c = '<' ∧ rest.take 2 = ['<', '<']
  · obtain ⟨rfl, htake⟩ := hopen
    rw [stepCode_eq, if_neg (by simp), if_neg (by simp), if_neg (by simp), if_pos ⟨rfl, htake⟩]
    cases heredoc (rest.drop 2) <;> simp [Except.map, htake]
  · rw [stepCode_eq, if_neg hopen]
    refine iff_of_false ?_ fun h => hopen h.1
    repeat' split
    all_goals simp

/-- The walk stops at an identifier that runs to the end of the text, and nowhere else. -/
theorem Mode.step_eq_error_iff :
    m.step c rest = .error e ↔ m = .code ∧ UnclosedLabel (c :: rest) := by
  cases m with
  | code => simp [Mode.step, stepCode_eq_error_iff]
  | html | lineComment | blockComment | quoted =>
    rw [Mode.step]
    refine iff_of_false ?_ (by simp)
    repeat' split
    all_goals simp

/-- Where the walk ends without a view. -/
theorem viewFrom_eq_error_iff :
    viewFrom known m cs = .error e ↔
      ∃ A B a, cs = A ++ B ∧ Walk B known m A a [] .code ∧ UnclosedLabel B := by
  constructor
  · intro h
    induction cs generalizing known m with
    | nil => simp at h
    | cons c cs ih =>
      cases known with
      | cons v known =>
        rw [viewFrom_known] at h
        cases hview : viewFrom known m cs with
        | ok t => rw [hview] at h; cases h
        | error e' =>
          rw [hview] at h
          cases h
          obtain ⟨A, B, a, rfl, hwalk, hB⟩ := ih hview
          exact ⟨c :: A, B, _, rfl, .known hwalk, hB⟩
      | nil =>
        rw [viewFrom_step] at h
        cases hstep : m.step c cs with
        | error e' =>
          obtain ⟨rfl, hB⟩ := Mode.step_eq_error_iff.mp hstep
          exact ⟨[], c :: cs, [], rfl, .done [] .code, hB⟩
        | ok d =>
          rw [hstep] at h
          dsimp only at h
          cases hview : viewFrom d.further d.mode cs with
          | ok t => rw [hview] at h; cases h
          | error e' =>
            rw [hview] at h
            cases h
            obtain ⟨A, B, a, rfl, hwalk, hB⟩ := ih hview
            exact ⟨c :: A, B, _, rfl, .step hstep hwalk, hB⟩
  · rintro ⟨A, B, a, rfl, hwalk, hB⟩
    have hstop : viewFrom [] .code B = .error e := by
      obtain ⟨c, rest, rfl⟩ : ∃ c rest, B = c :: rest := by
        obtain ⟨ws, q, label, -, -, -, -, rfl⟩ := hB
        exact ⟨_, _, rfl⟩
      rw [viewFrom_step, Mode.step_eq_error_iff.mpr ⟨rfl, hB⟩]
    rw [hwalk.viewFrom_eq, hstop]
    rfl

/-- **The texts without a code view**: the walk comes in code to an identifier that runs to the end
of the text. -/
theorem codeView_eq_error_iff :
    codeView cs = .error e ↔
      ∃ A B a, cs = A ++ B ∧ Walk B [] (startMode cs) A a [] .code ∧ UnclosedLabel B := by
  rw [codeView_eq, viewFrom_eq_error_iff]

/-- A text without heredocs has a code view. -/
theorem exists_codeView (hno : NoHeredoc cs) : ∃ code, codeView cs = .ok code := by
  cases h : codeView cs with
  | ok code => exact ⟨code, rfl⟩
  | error e =>
    obtain ⟨A, B, a, hcs, -, ws, q, label, -, -, -, -, hB⟩ := codeView_eq_error_iff.mp h
    refine absurd ⟨A, ws ++ q :: label, ?_⟩ hno
    rw [hcs, hB, List.append_assoc]
    rfl

/-! ## The shape of a code view -/

/-- What the code view of a text keeps of it, byte by byte. -/
structure MaskOf (cs code : List Char) : Prop where
  /-- A walk over the bytes gives the same bytes. -/
  bytes : maskBytes (utf8Bytes cs) = .ok (utf8Bytes code)
  length : (utf8Bytes code).length = (utf8Bytes cs).length
  /-- A byte stays or becomes a space. -/
  byte : ∀ (i : Nat) b, (utf8Bytes cs)[i]? = some b →
    (utf8Bytes code)[i]? = some b ∨ (utf8Bytes code)[i]? = some 0x20
  /-- Line feeds and carriage returns stay. -/
  line_end : ∀ (i : Nat) b, (utf8Bytes cs)[i]? = some b → b = 0x0a ∨ b = 0x0d →
    (utf8Bytes code)[i]? = some b
  /-- A character stays as a whole or becomes spaces as a whole. -/
  char : ∀ pre c post, cs = pre ++ c :: post →
    ((utf8Bytes code).drop (byteLength pre)).take c.utf8Size = String.utf8EncodeChar c ∨
      ((utf8Bytes code).drop (byteLength pre)).take c.utf8Size = List.replicate c.utf8Size 0x20
  utf8 : decodeUtf8? (utf8Bytes code) = some code

theorem length_verdictsFrom (h : verdictsFrom known m cs = .ok vs) : vs.length = cs.length := by
  induction cs generalizing known m vs with
  | nil =>
    cases known <;> (cases h; rfl)
  | cons c cs ih =>
    cases known with
    | cons v known =>
      rw [verdictsFrom, map_ok_iff] at h
      obtain ⟨ws, hws, rfl⟩ := h
      rw [List.length_cons, ih hws, List.length_cons]
    | nil =>
      rw [verdictsFrom] at h
      cases hstep : m.step c cs with
      | error e => rw [hstep] at h; cases h
      | ok d =>
        cases hrest : verdictsFrom d.further d.mode cs with
        | error e => simp only [hstep, hrest, bind, Except.bind] at h; cases h
        | ok ws =>
          simp only [hstep, hrest, bind, Except.bind] at h
          cases h
          rw [List.length_cons, ih hrest, List.length_cons]

/-- Every character has its place in the view. -/
theorem rendered_split {pre post : List Char} (h : vs.length = (pre ++ c :: post).length) :
    ∃ x, ∃ v : Verdict, ∃ y, rendered (pre ++ c :: post) vs = x ++ v.render c ++ y ∧ byteLength x =
      byteLength pre := by
  induction pre generalizing vs with
  | nil =>
    obtain ⟨v, vs, rfl⟩ := List.exists_cons_of_length_eq_add_one h
    exact ⟨[], v, rendered post vs, rfl, rfl⟩
  | cons d pre ih =>
    obtain ⟨w, vs, rfl⟩ := List.exists_cons_of_length_eq_add_one h
    obtain ⟨x, v, y, hxy, hlen⟩ := ih (Nat.succ.inj h)
    refine ⟨w.render d ++ x, v, y, ?_, ?_⟩
    · rw [List.append_assoc, List.append_assoc, ← List.append_assoc x, ← hxy]
      rfl
    · rw [byteLength_append, byteLength_render, hlen, byteLength_cons]

theorem utf8Bytes_render (c : Char) (v : Verdict) :
    utf8Bytes (v.render c) = String.utf8EncodeChar c ∨
      utf8Bytes (v.render c) = List.replicate c.utf8Size 0x20 := by
  have hkeep : utf8Bytes [c] = String.utf8EncodeChar c := by simp [utf8Bytes]
  cases v with
  | keep => exact .inl hkeep
  | blank =>
    rw [Verdict.render]
    split
    · exact .inl hkeep
    · exact .inr (utf8Bytes_replicate_space _)

theorem maskOf_codeView {code : List Char} (h : codeView cs = .ok code) : MaskOf cs code := by
  have hbytes : maskBytes (utf8Bytes cs) = .ok (utf8Bytes code) := by
    rw [maskBytes_utf8Bytes, h]
    rfl
  have hlength : (utf8Bytes code).length = (utf8Bytes cs).length := by
    rw [length_utf8Bytes, length_utf8Bytes, byteLength_viewFrom h]
  -- what stands in the view at an offset is the byte there, with its verdict carried out
  have hplace : ∀ (i : Nat) b, (utf8Bytes cs)[i]? = some b →
      ∃ v : Verdict, (utf8Bytes code)[i]? = some (v.renderByte b) := by
    intro i b hb
    obtain ⟨vs, -, hvs⟩ := map_ok_iff.mp hbytes
    obtain ⟨b', hb'⟩ : ∃ b', (utf8Bytes code)[i]? = some b' := by
      obtain ⟨hi, -⟩ := List.getElem?_eq_some_iff.mp hb
      exact ⟨_, List.getElem?_eq_getElem (hlength ▸ hi)⟩
    rw [← hvs] at hb' ⊢
    obtain ⟨b'', v, hb'', -, rfl⟩ := List.getElem?_zipWith_eq_some.mp hb'
    rw [hb] at hb''
    cases hb''
    exact ⟨v, hb'⟩
  refine ⟨hbytes, hlength, fun i b hb => ?_,
    fun i b hb hbreak => ?_, ?_, decodeUtf8?_utf8Bytes code⟩
  · obtain ⟨v, hv⟩ := hplace i b hb
    cases v with
    | keep => exact .inl hv
    | blank =>
      rw [Verdict.renderByte] at hv
      split at hv
      · exact .inl hv
      · exact .inr hv
  · obtain ⟨v, hv⟩ := hplace i b hb
    cases v with
    | keep => exact hv
    | blank => rwa [Verdict.renderByte, if_pos hbreak] at hv
  · rintro pre c post rfl
    obtain ⟨vs, hvs, rfl⟩ := map_ok_iff.mp h
    obtain ⟨x, v, y, hxy, hlen⟩ := rendered_split (length_verdictsFrom hvs)
    have hdrop : (utf8Bytes (x ++ v.render c ++ y)).drop (byteLength pre) =
        utf8Bytes (v.render c) ++ utf8Bytes y := by
      rw [List.append_assoc, utf8Bytes_append, utf8Bytes_append, ← hlen, ← length_utf8Bytes,
        List.drop_left]
    have htake : ((utf8Bytes (x ++ v.render c ++ y)).drop (byteLength pre)).take c.utf8Size =
        utf8Bytes (v.render c) := by
      rw [hdrop, ← byteLength_render c v, ← length_utf8Bytes, List.take_left]
    rw [show (List.zipWith (fun c v => Verdict.render c v) (pre ++ c :: post) vs).flatten =
      x ++ v.render c ++ y from hxy, htake]
    exact utf8Bytes_render c v

/-- **What a code view looks like.** A text has none where the walk comes in code to a heredoc whose
quoted identifier runs to the end of the text. Otherwise the view is the text with some of its
characters replaced by spaces, and the walk could as well have gone over the bytes. -/
theorem codeView_shape (cs : List Char) :
    ((∃ A B a, cs = A ++ B ∧ Walk B [] (startMode cs) A a [] .code ∧ UnclosedLabel B) ∧
      codeView cs = .error .unclosedHeredocLabel) ∨
    ((¬ ∃ A B a, cs = A ++ B ∧ Walk B [] (startMode cs) A a [] .code ∧ UnclosedLabel B) ∧
      ∃ code, codeView cs = .ok code ∧ MaskOf cs code) := by
  cases h : codeView cs with
  | error e =>
    cases e
    exact .inl ⟨codeView_eq_error_iff.mp h, rfl⟩
  | ok code =>
    refine .inr ⟨fun hstop => ?_, code, rfl, maskOf_codeView h⟩
    have hfail := (codeView_eq_error_iff (e := .unclosedHeredocLabel)).mpr hstop
    rw [h] at hfail
    cases hfail

end UseImports
