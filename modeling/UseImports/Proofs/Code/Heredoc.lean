import UseImports.CodeView
import UseImports.Proofs.Text.Window
import Mathlib.Data.List.TakeWhile

/-!
# Heredocs

How far a heredoc reaches (`mask_heredoc`) is found in steps: the white space in front of its
opening quote, the quote, the identifier, the rest of the first line, and the line that closes it.

* `heredocOpened`, `heredocLabelled`: the heredoc from its quote on, and from behind its identifier
  on.
* `Opener.read`: the identifier that opens a heredoc, and what stands around it.
* `heredoc_eq_error_iff`: **a heredoc without verdicts**: its quoted identifier runs to the end of
  the text.
* `heredoc_append`: **a heredoc that is closed inside a text** is so whatever follows the text.
* `heredoc_last`: **the last character of a heredoc that is closed.**
* `heredoc_append_of_break`: **a heredoc that is over at a line end** is so whatever follows.
-/

namespace UseImports

variable {B label R tail : List Char} {atStart : Bool} {lead n quote : Nat} {e : Char}
    {f : List Verdict}

/-! ## Heredocs and what follows them -/

/-- The line that closes a heredoc is the same whatever follows the character behind the identifier.
-/
theorem closingLine_append {S : List Char} (h : closingLine label atStart (S ++ B) = some n)
    (hlen : n + label.length < S.length) (B' : List Char) :
    closingLine label atStart (S ++ B') = some n := by
  induction S generalizing atStart n with
  | nil => simp at hlen
  | cons c S ih =>
    -- where the identifier and the character behind it lie in `S`, what follows is not looked at
    have htest : label.length < (c :: S).length → ∀ X,
        (atStart && label.isPrefixOf (c :: S ++ X) &&
          !((c :: S ++ X).drop label.length).head?.any isIdentChar) =
        (atStart && label.isPrefixOf (c :: S) &&
          !((c :: S).drop label.length).head?.any isIdentChar) := by
      intro hlt X
      have hinitial : label.isPrefixOf (c :: S ++ X) = label.isPrefixOf (c :: S) := by
        rw [Bool.eq_iff_iff, List.isPrefixOf_iff_prefix, List.isPrefixOf_iff_prefix]
        constructor
        · intro hp
          exact List.prefix_of_prefix_length_le hp (List.prefix_append _ _) (Nat.le_of_lt hlt)
        · intro hp
          exact hp.trans (List.prefix_append _ _)
      have hhead : ((c :: S ++ X).drop label.length).head? =
          ((c :: S).drop label.length).head? := by
        rw [List.drop_append_of_le_length (Nat.le_of_lt hlt), List.head?_append_of_ne_nil]
        exact List.ne_nil_of_length_pos (by rw [List.length_drop]; omega)
      rw [hinitial, hhead]
    rw [List.cons_append, closingLine, ← List.cons_append] at h ⊢
    have hlt : label.length < (c :: S).length := by omega
    rw [htest hlt] at h ⊢
    split
    · rename_i hclose
      rwa [if_pos hclose] at h
    · rename_i hclose
      rw [if_neg hclose, Option.map_eq_some_iff] at h
      obtain ⟨k, hk, rfl⟩ := h
      rw [ih hk (by simp only [List.length_cons] at hlen; omega)]
      rfl

/-- The identifier stands where a heredoc is closed. -/
theorem closingLine_split {cs : List Char} (h : closingLine label atStart cs = some n) :
    ∃ X t, cs = X ++ (label ++ t) ∧ X.length = n := by
  induction cs generalizing atStart n with
  | nil => cases h
  | cons c cs ih =>
    rw [closingLine] at h
    split at h
    · rename_i hclose
      simp only [Bool.and_eq_true] at hclose
      obtain ⟨t, ht⟩ := List.isPrefixOf_iff_prefix.mp hclose.1.2
      cases h
      exact ⟨[], t, ht.symm, rfl⟩
    · obtain ⟨k, hk, rfl⟩ := Option.map_eq_some_iff.mp h
      obtain ⟨X, t, rfl, rfl⟩ := ih hk
      exact ⟨c :: X, t, rfl, rfl⟩

/-- The number of quotes at the start of a heredoc's identifier. -/
def quoteLength (opener : List Char) : Nat :=
  if opener.head? == some '\x27' || opener.head? == some '\x22' then 1 else 0

/-- The verdicts on a heredoc with the given identifier, in front of which stand `lead` characters,
and behind which stands `tail`. -/
def heredocLabelled (lead quote : Nat) (label tail : List Char) : Except MaskError (List Verdict) :=
  if label.isEmpty then .ok []
  else if quote == 1 && tail.isEmpty then .error .unclosedHeredocLabel
  else
    let line := (tail.drop quote).takeWhile (· ≠ '\n')
    let body := ((tail.drop quote).drop line.length).drop 1
    let head := lead + quote + label.length + quote + line.length + 1
    match closingLine label true body with
    | some n => .ok (List.replicate head .keep ++ List.replicate n .blank ++
        List.replicate label.length .keep)
    | none => .ok (List.replicate head .keep ++ List.replicate body.length .blank)

/-- The verdicts on a heredoc from its opening quote or its identifier on. -/
def heredocOpened (lead : Nat) (opener : List Char) : Except MaskError (List Verdict) :=
  let quote := quoteLength opener
  let label := (opener.drop quote).takeWhile isIdentChar
  heredocLabelled lead quote label ((opener.drop quote).drop label.length)

theorem heredoc_eq (rest : List Char) :
    heredoc rest =
      heredocOpened (rest.length - (rest.dropWhile isIndent).length) (rest.dropWhile isIndent) :=
  rfl

theorem quoteLength_le (opener : List Char) : quoteLength opener ≤ 1 := by
  unfold quoteLength
  split <;> simp

/-- A heredoc reaches at least behind its first line. -/
theorem length_of_heredocLabelled (h : heredocLabelled lead quote label tail = .ok f)
    (hne : f ≠ []) :
    lead + quote + label.length + quote + ((tail.drop quote).takeWhile (· ≠ '\n')).length +
      1 ≤ f.length := by
  unfold heredocLabelled at h
  split at h
  · cases h
    exact absurd rfl hne
  split at h
  · cases h
  dsimp only at h
  split at h <;> (cases h; simp only [List.length_append, List.length_replicate]; omega)

/-- Where a heredoc is closed inside `R`, what follows `R` does not matter. -/
theorem heredocLabelled_append
    (h : heredocLabelled lead quote label (R ++ B) = .ok f) (hne : f ≠ [])
    (hlen : f.length < lead + quote + label.length + R.length) (B' : List Char) :
    heredocLabelled lead quote label (R ++ B') = .ok f := by
  have hhead := length_of_heredocLabelled h hne
  have hdrop : ∀ X, (R ++ X).drop quote = R.drop quote ++ X := fun X =>
    List.drop_append_of_le_length (by omega)
  have hbreak : ∃ c ∈ R.drop quote, decide (c ≠ '\n') = false := by
    by_contra hall
    push Not at hall
    have hwhole : ((R ++ B).drop quote).takeWhile (· ≠ '\n') =
        R.drop quote ++ B.takeWhile (· ≠ '\n') := by
      rw [hdrop, List.takeWhile_append_of_pos fun c hc => by simpa using hall c hc]
    rw [hwhole, List.length_append, List.length_drop] at hhead
    omega
  have hline : ∀ X, ((R ++ X).drop quote).takeWhile (· ≠ '\n') =
      (R.drop quote).takeWhile (· ≠ '\n') :=
    fun X => by rw [hdrop]; exact takeWhile_append_of_mem hbreak X
  have hbody : ∀ X,
      (((R ++ X).drop quote).drop ((R.drop quote).takeWhile (· ≠ '\n')).length).drop 1 =
      ((R.drop quote).drop ((R.drop quote).takeWhile (· ≠ '\n')).length).drop 1 ++ X := by
    intro X
    have hlt : ((R.drop quote).takeWhile (· ≠ '\n')).length < (R.drop quote).length := by
      rw [hline, List.length_drop] at *
      omega
    rw [hdrop, List.drop_append_of_le_length (Nat.le_of_lt hlt), List.drop_append_of_le_length]
    rw [List.length_drop]
    omega
  have hempty : ∀ X, (R ++ X).isEmpty = false := by
    intro X
    cases R with
    | nil => simp at hbreak
    | cons c R => rfl
  unfold heredocLabelled at h ⊢
  simp only [hline, hbody, hempty, Bool.and_false, Bool.false_eq_true, if_false] at h ⊢
  rw [hline] at hhead
  split
  · rename_i hlabel
    rwa [if_pos hlabel] at h
  · rename_i hlabel
    rw [if_neg hlabel] at h
    split at h
    · rename_i n hclosing
      cases h
      simp only [List.length_append, List.length_replicate] at hlen
      rw [closingLine_append hclosing ?_ B']
      simp only [List.length_drop]
      omega
    · cases h
      simp only [List.length_append, List.length_replicate, List.length_drop] at hlen
      omega

/-- A heredoc that is closed ends with its identifier, which is kept. -/
theorem heredocLabelled_last (h : heredocLabelled lead quote label (R ++ B) = .ok f)
    (hne : f ≠ []) (hB : B ≠ []) (hlen : f.length = lead + quote + label.length + R.length) :
    f.getLast? = some .keep ∧ R.getLast? = label.getLast? := by
  have hhead := length_of_heredocLabelled h hne
  have hpos := List.length_pos_iff.mpr hB
  unfold heredocLabelled at h
  split at h
  · cases h
    exact absurd rfl hne
  rename_i hsome
  split at h
  · cases h
  dsimp only at h
  have hlabel : label ≠ [] := fun hnil => hsome (List.isEmpty_iff.mpr hnil)
  split at h
  · rename_i n hclosing
    cases h
    obtain ⟨V, t, hbody, rfl⟩ := closingLine_split hclosing
    simp only [List.length_append, List.length_replicate] at hlen
    -- the text in front of the body, the lines of the body and the identifier make up `R`
    generalize hlinelen : (((R ++ B).drop quote).takeWhile (· ≠ '\n')).length = k at *
    rw [List.drop_drop, List.drop_drop] at hbody
    have hfront : ((R ++ B).take (quote + (k + 1)) ++ (V ++ label)).length = R.length := by
      simp only [List.length_append, List.length_take]
      omega
    have hsplit : ((R ++ B).take (quote + (k + 1)) ++ (V ++ label)) ++ t = R ++ B := by
      have hwhole := List.take_append_drop (quote + (k + 1)) (R ++ B)
      rw [hbody] at hwhole
      simpa only [List.append_assoc] using hwhole
    refine ⟨?_, ?_⟩
    · rw [List.getLast?_append_of_ne_nil _ (by simpa using hlabel), List.getLast?_replicate,
        if_neg (by simpa using hlabel)]
    · rw [← (List.append_inj hsplit hfront).1, ← List.append_assoc,
        List.getLast?_append_of_ne_nil _ hlabel]
  · cases h
    simp only [List.length_append, List.length_replicate, List.length_drop] at hlen
    omega

theorem heredocOpened_append (h : heredocOpened lead (R ++ B) = .ok f) (hne : f ≠ [])
    (hlen : f.length < lead + R.length) (B' : List Char) :
    heredocOpened lead (R ++ B') = .ok f := by
  have hhead := length_of_heredocLabelled h hne
  have hR : R ≠ [] := by
    rintro rfl
    simp only [List.length_nil] at hlen
    omega
  have hquote : ∀ X, quoteLength (R ++ X) = quoteLength R := fun X => by
    rw [quoteLength, quoteLength, List.head?_append_of_ne_nil _ hR]
  have hle : quoteLength R ≤ R.length :=
    (quoteLength_le R).trans (List.length_pos_iff.mpr hR)
  have hdrop : ∀ X, (R ++ X).drop (quoteLength R) = R.drop (quoteLength R) ++ X := fun X =>
    List.drop_append_of_le_length hle
  rw [hquote, hdrop] at hhead
  have hstop : ∃ c ∈ R.drop (quoteLength R), isIdentChar c = false := by
    by_contra hall
    push Not at hall
    rw [List.takeWhile_append_of_pos fun c hc => by simpa using hall c hc, List.length_append,
      List.length_drop] at hhead
    omega
  have hlabel : ∀ X, ((R ++ X).drop (quoteLength R)).takeWhile isIdentChar =
      (R.drop (quoteLength R)).takeWhile isIdentChar :=
    fun X => by rw [hdrop]; exact takeWhile_append_of_mem hstop X
  have htail : ∀ X, ((R ++ X).drop (quoteLength R)).drop
      ((R.drop (quoteLength R)).takeWhile isIdentChar).length =
      (R.drop (quoteLength R)).drop ((R.drop (quoteLength R)).takeWhile isIdentChar).length ++ X :=
    fun X => by
      rw [hdrop, List.drop_append_of_le_length (List.takeWhile_sublist _).length_le]
  unfold heredocOpened at h ⊢
  simp only [hquote, hlabel, htail] at h ⊢
  refine heredocLabelled_append h hne ?_ B'
  have := (List.takeWhile_sublist (l := R.drop (quoteLength R)) isIdentChar).length_le
  rw [List.length_drop] at this
  rw [List.length_drop, List.length_drop]
  omega

/-- **A heredoc that is closed inside a text** is so whatever follows the text. -/
theorem heredoc_append (h : heredoc (R ++ B) = .ok f) (hne : f ≠ []) (hlen : f.length < R.length)
    (B' : List Char) : heredoc (R ++ B') = .ok f := by
  rw [heredoc_eq] at h ⊢
  have hhead := length_of_heredocLabelled h hne
  have hsplit := congrArg List.length (List.takeWhile_append_dropWhile (p := isIndent) (l := R))
  rw [List.length_append] at hsplit
  have hstop : ∃ c ∈ R, isIndent c = false := by
    by_contra hall
    push Not at hall
    have hdrop : (R ++ B).dropWhile isIndent = B.dropWhile isIndent :=
      List.dropWhile_append_of_pos fun c hc => by simpa using hall c hc
    have := (List.dropWhile_sublist (p := isIndent) (l := B)).length_le
    rw [hdrop, List.length_append] at hhead
    omega
  have hdrop : ∀ X, (R ++ X).dropWhile isIndent = R.dropWhile isIndent ++ X :=
    dropWhile_append_of_mem hstop
  have hlead : ∀ X, (R ++ X).length - ((R ++ X).dropWhile isIndent).length =
      R.length - (R.dropWhile isIndent).length := by
    intro X
    rw [hdrop, List.length_append, List.length_append]
    omega
  rw [hlead, hdrop] at h ⊢
  refine heredocOpened_append h hne ?_ B'
  omega

/-- The identifier that follows the three angle brackets of a heredoc, with what stands around it.
-/
structure Opener where
  /-- The white space in front of the identifier and of its quote. -/
  lead : Nat
  /-- The length of the quote: 0 or 1. -/
  quote : Nat
  label : List Char
  tail : List Char

/-- Reads what follows the three angle brackets of a heredoc. -/
def Opener.read (rest : List Char) : Opener :=
  let opener := rest.dropWhile isIndent
  let quote := quoteLength opener
  let label := (opener.drop quote).takeWhile isIdentChar
  ⟨rest.length - opener.length, quote, label, (opener.drop quote).drop label.length⟩

theorem heredoc_eq_labelled (rest : List Char) :
    heredoc rest = heredocLabelled (Opener.read rest).lead
    (Opener.read rest).quote (Opener.read rest).label (Opener.read rest).tail :=
  rfl

/-- What follows the brackets is read the same way up to the end of the identifier. -/
theorem Opener.read_append (h : ∃ c ∈ R, isIndent c = false) (X : List Char) :
    read (R ++ X) = ⟨R.length - (R.dropWhile isIndent).length, quoteLength (R.dropWhile isIndent),
      ((R.dropWhile isIndent).drop (quoteLength (R.dropWhile isIndent)) ++ X).takeWhile isIdentChar,
      ((R.dropWhile isIndent).drop (quoteLength (R.dropWhile isIndent)) ++ X).dropWhile
        isIdentChar⟩ := by
  have hne : R.dropWhile isIndent ≠ [] := fun hnil => by
    obtain ⟨c, hc, hfalse⟩ := h
    rw [List.dropWhile_eq_nil_iff.mp hnil c hc] at hfalse
    cases hfalse
  have hquote : quoteLength (R.dropWhile isIndent ++ X) = quoteLength (R.dropWhile isIndent) := by
    rw [quoteLength, quoteLength, List.head?_append_of_ne_nil _ hne]
  have hle : quoteLength (R.dropWhile isIndent) ≤ (R.dropWhile isIndent).length :=
    (quoteLength_le _).trans (List.length_pos_iff.mpr hne)
  simp only [read, dropWhile_append_of_mem h, hquote, List.length_append, Nat.add_sub_add_right,
    drop_length_takeWhile, List.drop_append_of_le_length hle]

/-- A character that is none of an identifier stops the identifier, whatever follows it. -/
theorem Opener.exists_read_append (hindent : ∃ c ∈ R, isIndent c = false)
    (hstop : ∃ c ∈ (R.dropWhile isIndent).drop (quoteLength (R.dropWhile isIndent)),
      isIdentChar c = false) :
    ∃ lead quote label tail, lead + quote + label.length + tail.length = R.length ∧ quote ≤ 1 ∧
      (∀ c ∈ label, isIdentChar c = true) ∧ tail ≠ [] ∧ tail <:+ R ∧
      ∀ X, read (R ++ X) = ⟨lead, quote, label, tail ++ X⟩ := by
  have hread := read_append hindent
  have hsuffix : R.dropWhile isIndent <:+ R := List.dropWhile_suffix _
  have hquote := quoteLength_le (R.dropWhile isIndent)
  generalize R.dropWhile isIndent = O at *
  generalize quoteLength O = quote at *
  have hle := hsuffix.length_le
  have hparts :=
    congrArg List.length (List.takeWhile_append_dropWhile (p := isIdentChar) (l := O.drop quote))
  have hpos : 0 < (O.drop quote).length := List.length_pos_of_mem hstop.choose_spec.1
  rw [List.length_append] at hparts
  rw [List.length_drop] at hparts hpos
  refine ⟨R.length - O.length, quote, (O.drop quote).takeWhile isIdentChar,
    (O.drop quote).dropWhile isIdentChar, by omega, hquote, fun c hc => List.mem_takeWhile_imp hc,
    fun hnil => ?_, ((List.dropWhile_suffix _).trans (List.drop_suffix _ _)).trans hsuffix,
    fun X => ?_⟩
  · obtain ⟨c, hc, hfalse⟩ := hstop
    rw [List.dropWhile_eq_nil_iff.mp hnil c hc] at hfalse
    cases hfalse
  · rw [hread, takeWhile_append_of_mem hstop, dropWhile_append_of_mem hstop]

/-- A character that is no part of an identifier, and that does not stand in front of one, stops the
identifier of a heredoc, whatever follows it. -/
theorem exists_heredocLabelled (h : e ∈ R)
    (he : isIndent e = false ∧ quoteLength [e] = 0 ∧ isIdentChar e = false) :
    ∃ lead quote label tail,
    lead + quote + label.length + tail.length = R.length ∧ quote ≤ 1 ∧ tail <:+ R ∧ tail ≠ [] ∧
      (∀ c ∈ label, isIdentChar c = true) ∧ ∀ B, heredoc (R ++ B) = heredocLabelled lead quote label
      (tail ++ B) := by
  obtain ⟨hindent, hquote, hident⟩ := he
  have hmem : e ∈ R.dropWhile isIndent := by
    rw [← List.takeWhile_append_dropWhile (p := isIndent) (l := R)] at h
    refine (List.mem_append.mp h).resolve_left fun hin => ?_
    rw [List.mem_takeWhile_imp hin] at hindent
    cases hindent
  -- it does not stand for the quote
  have hmem' : e ∈ (R.dropWhile isIndent).drop (quoteLength (R.dropWhile isIndent)) := by
    generalize R.dropWhile isIndent = O at hmem
    cases O with
    | nil => cases hmem
    | cons c O =>
      have hhead : quoteLength (c :: O) = quoteLength [c] := rfl
      have hle := quoteLength_le [c]
      rcases List.mem_cons.mp hmem with rfl | hmem
      · rw [hhead, hquote]
        exact List.mem_cons_self
      · rw [hhead]
        rcases Nat.le_one_iff_eq_zero_or_eq_one.mp hle with hzero | hone
        · rw [hzero]
          exact List.mem_cons_of_mem c hmem
        · rw [hone]
          exact hmem
  obtain ⟨lead, quote, label, tail, hlength, hone, hlabel, hne, hsuffix, hread⟩ :=
    Opener.exists_read_append ⟨e, h, hindent⟩ ⟨e, hmem', hident⟩
  refine ⟨lead, quote, label, tail, hlength, hone, hsuffix, hne, hlabel, fun B => ?_⟩
  rw [heredoc_eq_labelled, hread]

/-- A heredoc has no verdicts if it has no identifier. -/
theorem heredocLabelled_eq_nil_iff :
    heredocLabelled lead quote label tail = .ok [] ↔ label = [] := by
  rw [← List.isEmpty_iff]
  unfold heredocLabelled
  split
  · rename_i hlabel
    exact ⟨fun _ => hlabel, fun _ => rfl⟩
  · rename_i hlabel
    refine ⟨fun h => ?_, fun h => absurd h hlabel⟩
    split at h
    · cases h
    · dsimp only at h
      split at h <;> simp at h

/-- **The last character of a heredoc that is closed belongs to an identifier**, and it is kept. -/
theorem heredoc_last (h : heredoc (R ++ B) = .ok f) (he : e ∈ R)
    (hstop : isIndent e = false ∧ quoteLength [e] = 0 ∧ isIdentChar e = false) (hB : B ≠ [])
    (hlen : f.length = R.length) :
    f.getLast? = some .keep ∧ ∃ c ∈ R.getLast?, isIdentChar c = true := by
  have hne : f ≠ [] := List.ne_nil_of_length_pos (hlen ▸ List.length_pos_of_mem he)
  obtain ⟨lead, quote, label, tail, hlength, -, ⟨V, rfl⟩, htail, hident, heredoc_eq⟩ :=
    exists_heredocLabelled he hstop
  rw [heredoc_eq] at h
  have hlabel : label ≠ [] := fun hnil => hne (by
    rw [heredocLabelled_eq_nil_iff.mpr hnil] at h
    exact (Except.ok.inj h).symm)
  obtain ⟨hkeep, hlast⟩ := heredocLabelled_last h hne hB (by omega)
  have hc := List.getLast?_eq_some_getLast hlabel
  refine ⟨hkeep, label.getLast hlabel, ?_, hident _ (List.getLast_mem hlabel)⟩
  rw [List.getLast?_append_of_ne_nil _ htail, hlast, hc]
  rfl

/-- **A heredoc that is over inside a text**, or has no identifier there, is so whatever follows the
text. -/
theorem heredoc_append_of_mem (h : heredoc (R ++ B) = .ok f) (he : e ∈ R)
    (hstop : isIndent e = false ∧ quoteLength [e] = 0 ∧ isIdentChar e = false)
    (hlen : f.length < R.length) (B' : List Char) : heredoc (R ++ B') = .ok f := by
  by_cases hf : f = []
  · subst hf
    obtain ⟨lead, quote, label, tail, -, -, -, -, -, heredoc_eq⟩ := exists_heredocLabelled he hstop
    rw [heredoc_eq, heredocLabelled_eq_nil_iff] at h ⊢
    exact h
  · exact heredoc_append h hf hlen B'

/-- **A heredoc that is over at a line end** is so whatever follows. -/
theorem heredoc_append_of_break (h : heredoc (R ++ B) = .ok f) (hlast : R.getLast? = some '\n')
    (hB : B ≠ []) (hlen : f.length ≤ R.length) (B' : List Char) : heredoc (R ++ B') = .ok f := by
  have hmem := List.mem_of_getLast? hlast
  refine heredoc_append_of_mem h hmem (by decide) (Nat.lt_of_le_of_ne hlen fun heq => ?_) B'
  obtain ⟨-, c, hc, hident⟩ := heredoc_last h hmem (by decide) hB heq
  obtain rfl : c = '\n' := Option.some.inj (hc.symm.trans hlast)
  exact absurd hident (by decide)

/-! ## Heredocs without verdicts -/

theorem heredocLabelled_eq_error_iff {e : MaskError} :
    heredocLabelled lead quote label tail = .error e ↔ label ≠ [] ∧ quote = 1 ∧ tail = [] := by
  unfold heredocLabelled
  split
  · rename_i hlabel
    simp [List.isEmpty_iff.mp hlabel]
  · rename_i hlabel
    have hne : label ≠ [] := fun h => hlabel (List.isEmpty_iff.mpr h)
    split
    · rename_i hopen
      rw [Bool.and_eq_true, beq_iff_eq, List.isEmpty_iff] at hopen
      cases e
      simp [hne, hopen]
    · rename_i hopen
      rw [Bool.and_eq_true, beq_iff_eq, List.isEmpty_iff] at hopen
      dsimp only
      split <;> simp [hne, hopen]

/-- **A heredoc has no verdicts** where its quoted identifier runs to the end of the text. -/
theorem heredoc_eq_error_iff {rest : List Char} {e : MaskError} :
    heredoc rest = .error e ↔ ∃ ws q label, (∀ c ∈ ws, isIndent c = true) ∧
    (q = '\x27' ∨ q = '\x22') ∧
      label ≠ [] ∧ (∀ c ∈ label, isIdentChar c = true) ∧ rest = ws ++ q :: label := by
  rw [heredoc_eq, heredocOpened, heredocLabelled_eq_error_iff]
  constructor
  · rintro ⟨hne, hquote, htail⟩
    have hhead : (rest.dropWhile isIndent).head? = some '\x27' ∨
        (rest.dropWhile isIndent).head? = some '\x22' := by
      unfold quoteLength at hquote
      split at hquote
      · rename_i h
        simpa using h
      · cases hquote
    have hwhole : (rest.dropWhile isIndent).drop 1 =
        ((rest.dropWhile isIndent).drop 1).takeWhile isIdentChar := by
      rw [hquote] at htail
      exact ((List.takeWhile_prefix isIdentChar).eq_of_length_le
        (List.drop_eq_nil_iff.mp htail)).symm
    rw [hquote] at hne
    obtain ⟨q, hq, hcons⟩ : ∃ q, (q = '\x27' ∨ q = '\x22') ∧
        rest.dropWhile isIndent = q :: (rest.dropWhile isIndent).drop 1 := by
      rw [List.drop_one]
      rcases hhead with h | h
      · exact ⟨_, .inl rfl, (List.cons_head?_tail h).symm⟩
      · exact ⟨_, .inr rfl, (List.cons_head?_tail h).symm⟩
    refine ⟨rest.takeWhile isIndent, q, _, fun c hc => List.mem_takeWhile_imp hc, hq, hne,
      fun c hc => List.mem_takeWhile_imp hc, ?_⟩
    rw [← hwhole, ← hcons, List.takeWhile_append_dropWhile]
  · rintro ⟨ws, q, label, hws, hq, hne, hlabel, rfl⟩
    have hindent : isIndent q = false := by rcases hq with rfl | rfl <;> rfl
    have hdrop : (ws ++ q :: label).dropWhile isIndent = q :: label := by
      rw [List.dropWhile_append_of_pos hws, List.dropWhile_cons, hindent]
      rfl
    have hquote : quoteLength (q :: label) = 1 := by rcases hq with rfl | rfl <;> rfl
    have htake : label.takeWhile isIdentChar = label := List.takeWhile_eq_self_iff.mpr hlabel
    rw [hdrop, hquote, List.drop_one, List.tail_cons, htake]
    exact ⟨hne, rfl, List.drop_length⟩

end UseImports
