import UseImports.Edit.Removal
import UseImports.Proofs.Declaration.Classes
import UseImports.Proofs.Edit.Batch

/-!
# Removing imports

The edits that remove imports (`plan_removal`) take out runs of statements with the white space
around them, and put plain statements in the place of others. Statement by statement, the rest of
the text is laid out again, with the imports that stay; its code is the old one with runs exchanged,
and neither a heredoc nor an open tag comes or goes.

* `PlainlySpaced`: statements with ASCII white space around them.
* `Secured`, `exists_wholeLines`: what is taken out with a run of statements.
* `entriesAt`, `byStatement_declarationsAt`: the statements of a layout.
* `Clean`: texts without heredocs in which all white space is ASCII.
* `Thinned`: lists without some elements, here imports that are lost.
* `Reworked`: what edits make of a laid out text, with one lemma for each kind of edit.
* `AtFresh`, `BehindRun`: the two states of the planner, each with what one step of it does.
* `removes_of_length`: **the edits do to every laid out text what they should.**
-/

namespace UseImports

open Placed Cursor

variable {A cs D d G g T W Y y Z z : List Char} {ds : List Declaration} {m : Mode} {ps : List Piece}
    {p : Piece} {unused : List Span} {run statement : Span}

/-! ## Lines of white space -/

theorem isBlankText_iff : isBlankText cs = true ↔ ∀ c ∈ cs, isBlank c = true := by
  obtain ⟨ws, hsplit, hws⟩ := trim_split cs
  constructor
  · intro h c hc
    rw [isBlankText, List.isEmpty_iff] at h
    rw [hsplit, h, List.nil_append] at hc
    exact (List.mem_append.mp hc).elim (fun hc => List.mem_takeWhile_imp hc) (hws c)
  · intro h
    rw [isBlankText, trim_of_isBlank h]
    rfl

theorem indentation_of_isBlankText (h : isBlankText cs = true) : indentation cs = cs :=
  List.takeWhile_eq_self_iff.mpr (isBlankText_iff.mp h)

/-- ASCII white space fills the line to its end. -/
theorem isSpace_of_mem_throughBreak (h : ∀ c ∈ firstLine Y, isSpace c = true) :
    ∀ c ∈ throughBreak Y, isSpace c = true := by
  intro c hc
  have hline : ∀ c ∈ Y.takeWhile (· ≠ '\n'), isSpace c = true := by
    intro c hc
    unfold firstLine at h
    dsimp only at h
    split at h
    · rename_i hreturn
      obtain ⟨L, hL⟩ := List.getLast?_eq_some_iff.mp (eq_of_beq (Bool.and_eq_true_iff.mp hreturn).2)
      rw [hL] at hc h
      rw [List.dropLast_concat] at h
      rcases List.mem_append.mp hc with hc | hc
      · exact h c hc
      · rw [List.mem_singleton.mp hc]
        decide
    · exact h c hc
  rcases List.mem_append.mp hc with hc | hc
  · exact hline c hc
  · cases hrest : Y.dropWhile (· ≠ '\n') with
    | nil =>
      rw [hrest] at hc
      cases hc
    | cons x xs =>
      obtain rfl := eq_break_of_dropWhile hrest
      rw [hrest] at hc
      rw [List.mem_singleton.mp hc]
      decide

/-- What is taken out behind the text with whole lines does not reach into it: either a line starts
behind it or more than white space stands on its last line. -/
def Secured (A : List Char) : Prop :=
  AtLineStart A ∨ isBlankText (lead A) = false

theorem secured_of_semicolon (hD : D.getLast? = some ';') (hW : '\n' ∉ W) :
    Secured (A ++ (D ++ W)) := by
  refine .inr (Bool.eq_false_iff.mpr fun hblank => ?_)
  rw [← List.append_assoc, (lead_append_of_not_mem hW _).1, isBlankText_iff] at hblank
  have := hblank ';' (List.mem_append_left _ (List.mem_of_getLast? (lead_append hD)))
  exact absurd this (by decide)

/-- The white space at the start of the line on which the statement begins, and that directly behind
the statement on its line, is ASCII. -/
structure PlainlySpaced (T : List Char) (statement : Span) : Prop where
  before : ∀ c ∈ indentation (lineText T (lineOf T statement.start)), isSpace c = true
  behind : ∀ cut ∈ splitAtByte statement.stop T, ∀ c ∈ indentation (firstLine cut.2),
    isSpace c = true

/-- White space in front of a word is the indentation of its line. -/
theorem indentation_of_lead {P Q : List Char} {x : Char} (hx : isBlank x = false)
    (hP : isBlankText (lead P) = true) :
    indentation (lineText (P ++ x :: Q) (lineOf (P ++ x :: Q) (byteLength P))) = lead P := by
  have hne : ∀ {c : Char}, isBlank c = true → x ≠ c := fun hc heq => by
    rw [← heq, hx] at hc
    cases hc
  have hbreak : '\n' ∉ lead P ++ [x] := fun hmem =>
    (List.mem_append.mp hmem).elim (not_mem_lead P) fun h => hne (by decide)
    (List.mem_singleton.mp h).symm
  have hreturn : (lead P ++ [x]).getLast? ≠ some '\r' := by
    rw [List.getLast?_concat]
    exact fun h => hne (by decide) (Option.some.inj h)
  rw [lineOf_append, lineText, append_eq_lead, ← breaks_upToLead,
    fromLine_append (atLineStart_upToLead P), List.append_cons, firstLine_append hbreak hreturn,
    indentation, List.append_assoc,
    List.takeWhile_append_of_pos (isBlankText_iff.mp hP), List.singleton_append,
    List.takeWhile_cons_of_neg (by simp [hx]),
    List.append_nil]

/-- **What is taken out with a statement**, told from the gap in front of the statement and from
what follows it: the white space around it on its lines and their end, or the spaces and tabs behind
it. -/
theorem exists_wholeLines (hA : Secured A) (hD : D.getLast? = some ';')
    (hfirst : ∃ x S, D = x :: S ∧ isBlank x = false) (hspaced : PlainlySpaced (A ++ (G ++ (D ++ Z)))
      ⟨byteLength A + byteLength G, byteLength A + byteLength G + byteLength D⟩) :
    ∃ G₀ L W Z', G = G₀ ++ L ∧ Z = W ++ Z' ∧
      wholeLines (A ++ (G ++ (D ++ Z)))
          ⟨byteLength A + byteLength G, byteLength A + byteLength G + byteLength D⟩ =
        ⟨byteLength A + byteLength G₀, byteLength A + byteLength G₀ + byteLength (L ++ (D ++ W))⟩ ∧
      (L = [] ∨ G₀ = upToLead G ∧ L = lead G) ∧ (∀ c ∈ L, isSpace c = true) ∧
      (∀ c ∈ W, isSpace c = true) ∧ (Z' = [] ∨ Secured (A ++ (G ++ (D ++ W)))) := by
  have hlines := wholeLines_append hD (A ++ G) Z
  rw [List.append_assoc, byteLength_append] at hlines
  rw [hlines]
  split
  · rename_i halone
    obtain ⟨hlead, hline⟩ := Bool.and_eq_true_iff.mp halone
    have hcut : lead (A ++ G) = lead G ∧ upToLead (A ++ G) = A ++ upToLead G := by
      by_cases hbreak : '\n' ∈ G
      · exact lead_append_of_mem hbreak A
      · -- the lines begin in front of the gap only if nothing of them stands there
        have hG := lead_of_split (.inl rfl) hbreak
        rw [(lead_append_of_not_mem hbreak A).1, isBlankText_iff] at hlead
        have hstart : AtLineStart A := hA.resolve_right fun h => by
          rw [isBlankText_iff.mpr fun c hc => hlead c (List.mem_append_left _ hc)] at h
          cases h
        have hsplit := lead_of_split hstart hbreak
        rw [List.nil_append] at hG
        rw [hsplit.1, hsplit.2, hG.1, hG.2, List.append_nil]
        exact ⟨rfl, rfl⟩
    refine ⟨upToLead G, lead G, throughBreak Z, behindBreak Z, (upToLead_append_lead G).symm,
      (throughBreak_append_behindBreak Z).symm, ?_, .inr ⟨rfl, rfl⟩, ?_,
      isSpace_of_mem_throughBreak ?_, ?_⟩
    · have hlen := byteLength_upToLead G
      rw [hcut.2, byteLength_append, byteLength_append, byteLength_append, ← hlen]
      congr 1
      omega
    · obtain ⟨x, S, rfl, hx⟩ := hfirst
      have hbefore := hspaced.before
      dsimp only at hbefore
      rw [← byteLength_append, ← List.append_assoc, List.cons_append, indentation_of_lead hx hlead,
        hcut.1] at hbefore
      exact hbefore
    · have hsplit := splitAtByte_append (A ++ (G ++ D)) Z
      simp only [byteLength_append, List.append_assoc, ← Nat.add_assoc] at hsplit
      have hbehind := hspaced.behind _ hsplit
      rwa [indentation_of_isBlankText hline] at hbehind
    · rcases throughBreak_cases Z with ⟨hall, -⟩ | ⟨x, -, hthrough, -⟩
      · have hnil := throughBreak_append_behindBreak Z
        rw [hall] at hnil
        exact .inl (List.append_right_eq_self.mp hnil)
      · refine .inr (.inl (.inr ?_))
        rw [hthrough, ← List.append_assoc, ← List.append_assoc, ← List.append_assoc,
          List.getLast?_concat]
  · have hsub : (firstLine Z).takeWhile isIndent <+: Z := (List.takeWhile_prefix _).trans
      (firstLine_isPrefix Z)
    obtain ⟨Z', hZ'⟩ := hsub
    have hindent : ∀ c ∈ (firstLine Z).takeWhile isIndent, isIndent c = true := fun c hc =>
      List.mem_takeWhile_imp hc
    refine ⟨G, [], (firstLine Z).takeWhile isIndent, Z', (List.append_nil G).symm, hZ'.symm, ?_,
      .inl rfl, by simp, fun c hc => ?_, .inr ?_⟩
    · rw [List.nil_append, byteLength_append D, Nat.add_assoc (byteLength A + byteLength G)]
    · exact isSpace_of_isIndent (hindent c hc)
    · rw [← List.append_assoc]
      exact secured_of_semicolon hD fun hmem => absurd (hindent _ hmem) (by decide)

/-! ## Statements and their declarations -/

/-- The declarations of one statement in front of those of others. -/
theorem byStatement_append {s : Span} {es : List Declaration} (hds : ∀ d ∈ ds, d.statement = s)
    (hne : ds ≠ []) (hes : ∀ e ∈ (byStatement es).head?, e.1 ≠ s) :
    byStatement (ds ++ es) = (s, ds) :: byStatement es := by
  induction ds with
  | nil => exact absurd rfl hne
  | cons d ds ih =>
    have hd : d.statement = s := hds d List.mem_cons_self
    cases ds with
    | nil =>
      rw [List.singleton_append, byStatement]
      cases hrest : byStatement es with
      | nil => rw [hd]
      | cons e rest =>
        rw [hrest] at hes
        have hdiffers : e.1 ≠ d.statement := hd ▸ hes e rfl
        dsimp only
        rw [if_neg hdiffers, hd]
    | cons d' ds =>
      rw [List.cons_append, byStatement,
        ih (fun x hx => hds x (List.mem_cons_of_mem d hx)) (List.cons_ne_nil d' ds)]
      dsimp only
      rw [if_pos hd.symm]

theorem exists_of_mem_byStatement {ds : List Declaration} {s : Span}
    (h : s ∈ (byStatement ds).map (·.1)) :
    ∃ d ∈ ds, d.statement = s := by
  induction ds with
  | nil => cases h
  | cons d ds ih =>
    rw [byStatement] at h
    have hhead : s = d.statement → ∃ e ∈ d :: ds, e.statement = s := fun hs =>
      ⟨d, List.mem_cons_self, hs.symm⟩
    have htail : s ∈ (byStatement ds).map (·.1) → ∃ e ∈ d :: ds, e.statement = s := fun hs => by
      obtain ⟨e, he, hes⟩ := ih hs
      exact ⟨e, List.mem_cons_of_mem d he, hes⟩
    cases hrest : byStatement ds with
    | nil =>
      rw [hrest] at h
      exact hhead (List.mem_singleton.mp h)
    | cons entry rest =>
      rw [hrest] at h htail
      dsimp only at h
      split at h
      · exact htail h
      · exact (List.mem_cons.mp h).elim hhead htail

theorem byStatement_unlined (ds : List Declaration) :
    byStatement (ds.map Declaration.unlined) =
      (byStatement ds).map fun e => (e.1, e.2.map Declaration.unlined) := by
  induction ds with
  | nil => rfl
  | cons d ds ih =>
    rw [List.map_cons, byStatement, byStatement, ih]
    cases byStatement ds with
    | nil => rfl
    | cons e rest =>
      have hsame : d.unlined.statement = d.statement := rfl
      simp only [List.map_cons, hsame]
      split <;> rfl

/-- The lines of the declarations do not matter for what is removed. -/
theorem removalFrom_unlined (T : List Char) (unused : List Span) (run : Option Span)
    (L : List (Span × List Declaration)) :
    removalFrom T unused run (L.map fun e => (e.1, e.2.map Declaration.unlined)) =
      removalFrom T unused run L := by
  induction L generalizing run with
  | nil => rfl
  | cons e L ih =>
    obtain ⟨statement, members⟩ := e
    have halive : (members.map Declaration.unlined).filter (fun d => !unused.contains d.span) =
        (members.filter fun d => !unused.contains d.span).map Declaration.unlined := by
      rw [List.filter_map]
      rfl
    have hsurvivors : ∀ ds : List Declaration,
        survivors T statement (ds.map Declaration.unlined) =
          survivors T statement ds := fun ds => by
      rw [survivors, List.map_map]
      rfl
    simp only [List.map_cons, removalFrom, halive, List.isEmpty_map, List.length_map,
      hsurvivors, ih]

/-- The pieces as statements with their declarations; the first piece begins at the offset. -/
def entriesAt : Nat → List Piece → List (Span × List Declaration)
  | _, [] => []
  | n, p :: ps =>
    (⟨n + byteLength p.gap, n + byteLength p.gap + byteLength p.statement⟩,
        (imports p.view).map (Declaration.shift (n + byteLength p.gap))) ::
      entriesAt (n + byteLength p.gap + byteLength p.statement) ps

theorem entriesAt_widen (n : Nat) (G g : List Char) (ps : List Piece) :
    entriesAt n (widen G g ps) = entriesAt (n + byteLength G) ps := by
  cases ps with
  | nil => rfl
  | cons p ps => simp only [widen, entriesAt, byteLength_append, Nat.add_assoc]

theorem byStatement_declarationsAt (h : Layout m Y y ps) (n : Nat) :
    byStatement (declarationsAt n ps) = entriesAt n ps := by
  induction h generalizing n with
  | last => rfl
  | @cons m p Y y ps hp hrest ih =>
    obtain ⟨body, stop, hstatement⟩ := hp.isStatement
    have hpos : 0 < byteLength p.statement := by
      obtain ⟨x, S, hS, -⟩ := hp.first
      exact byteLength_pos (by rw [hS]; exact List.cons_ne_nil x S)
    rw [declarationsAt, entriesAt, ← ih, byStatement_append]
    · intro d hd
      obtain ⟨e, he, rfl⟩ := List.mem_map.mp hd
      have := hstatement.statement_eq he
      simp [Declaration.shift, Span.shift, this, hp.settles.byteLength_eq]
    · exact fun hnil => hstatement.ne_nil (List.map_eq_nil_iff.mp hnil)
    · rw [ih]
      cases ps with
      | nil => simp [entriesAt]
      | cons q ps =>
        intro e he
        cases he
        simp only [ne_eq, Span.mk.injEq, not_and]
        omega

/-! ## What removal makes of a text -/

theorem hasOpenTag_append_of_ne (h : A.getLast? ≠ some '<') (B : List Char) :
    hasOpenTag (A ++ B) = (hasOpenTag A || hasOpenTag B) := by
  rw [hasOpenTag_append, beq_eq_false_iff_ne.mpr h, Bool.false_and, Bool.or_false]

theorem hasOpenTag_of_not_mem (h : '<' ∉ A) : hasOpenTag A = false := by
  induction A with
  | nil => rfl
  | cons c A ih =>
    rw [List.mem_cons, not_or] at h
    cases A with
    | nil => simp [hasOpenTag]
    | cons d A =>
      rw [hasOpenTag_cons_cons, ih h.2, beq_eq_false_iff_ne.mpr (Ne.symm h.1)]
      rfl

/-- A text without heredocs in which all white space is ASCII. -/
structure Clean (X : List Char) : Prop where
  noHeredoc : NoHeredoc X
  spaces : ∀ c ∈ X, isBlank c = true → isSpace c = true

theorem noHeredoc_of_not_mem (h : '<' ∉ A) : NoHeredoc A :=
  fun hin => h (hin.subset List.mem_cons_self)

theorem clean_append_iff (h : A.getLast? ≠ some '<') (B : List Char) :
    Clean (A ++ B) ↔ Clean A ∧ Clean B := by
  constructor
  · intro hAB
    exact ⟨⟨fun hin => hAB.noHeredoc (hin.trans (List.prefix_append A B).isInfix),
        fun c hc => hAB.spaces c (List.mem_append_left B hc)⟩,
      ⟨fun hin => hAB.noHeredoc (hin.trans (List.suffix_append A B).isInfix),
        fun c hc => hAB.spaces c (List.mem_append_right A hc)⟩⟩
  · rintro ⟨hA, hB⟩
    refine ⟨fun hin => ?_, fun c hc => (List.mem_append.mp hc).elim (hA.spaces c) (hB.spaces c)⟩
    obtain ⟨P, Q, hPQ⟩ := hin
    rw [List.append_assoc, List.append_eq_append_iff] at hPQ
    -- the angle brackets cannot stand on both sides of the cut
    rcases hPQ with ⟨t, hA', ht⟩ | ⟨t, -, hB'⟩
    · rcases t with _ | ⟨x, _ | ⟨y, _ | ⟨z, t⟩⟩⟩
      · exact hB.noHeredoc ⟨[], Q, ht⟩
      · obtain ⟨rfl, -⟩ := List.cons.inj ht
        simp [hA'] at h
      · obtain ⟨-, ht⟩ := List.cons.inj ht
        obtain ⟨rfl, -⟩ := List.cons.inj ht
        simp [hA'] at h
      · simp only [List.cons_append, List.cons.injEq] at ht
        obtain ⟨rfl, rfl, rfl, -⟩ := ht
        exact hA.noHeredoc ⟨P, t, by rw [hA']; simp⟩
    · exact hB.noHeredoc ⟨t, Q, by rw [hB', List.append_assoc]⟩

/-- The second list is the first one without some of the elements that fail the test. -/
inductive Thinned {α : Type} (q : α → Bool) : List α → List α → Prop
  | nil : Thinned q [] []
  | keep {a : α} {l l' : List α} : Thinned q l l' → Thinned q (a :: l) (a :: l')
  | drop {a : α} {l l' : List α} : q a = false → Thinned q l l' → Thinned q (a :: l) l'

namespace Thinned

variable {α : Type} {q : α → Bool} {l l' k k' : List α}

theorem refl (l : List α) : Thinned q l l := by
  induction l with
  | nil => exact .nil
  | cons a l ih => exact .keep ih

theorem of_filter (l : List α) : Thinned q l (l.filter q) := by
  induction l with
  | nil => exact .nil
  | cons a l ih =>
    cases ha : q a with
    | true =>
      rw [List.filter_cons_of_pos ha]
      exact .keep ih
    | false =>
      rw [List.filter_cons_of_neg (by simp [ha])]
      exact .drop ha ih

theorem append (h : Thinned q l l') (hk : Thinned q k k') : Thinned q (l ++ k) (l' ++ k') := by
  induction h with
  | nil => exact hk
  | keep _ ih => exact .keep ih
  | drop ha _ ih => exact .drop ha ih

theorem reverse (h : Thinned q l l') : Thinned q l.reverse l'.reverse := by
  induction h with
  | nil => exact .nil
  | keep _ ih =>
    rw [List.reverse_cons, List.reverse_cons]
    exact ih.append (.refl _)
  | drop ha _ ih =>
    rw [List.reverse_cons]
    simpa using ih.append (.drop ha .nil)

theorem sublist (h : Thinned q l l') : l'.Sublist l := by
  induction h with
  | nil => exact .slnil
  | keep _ ih => exact ih.cons_cons _
  | drop _ _ ih => exact ih.cons _

theorem eq_of_all (h : Thinned q l l') (hall : ∀ a ∈ l, q a = true) : l' = l := by
  induction h with
  | nil => rfl
  | keep _ ih => rw [ih fun a ha => hall a (List.mem_cons_of_mem _ ha)]
  | drop ha _ _ =>
    rw [hall _ List.mem_cons_self] at ha
    cases ha

/-- What is found first and passes the test is still found first. -/
theorem find?_eq (h : Thinned q l l') {p : α → Bool} {a : α} (hfind : l.find? p = some a)
    (ha : q a = true) :
    l'.find? p = some a := by
  induction h with
  | nil => exact hfind
  | keep _ ih =>
    rw [List.find?_cons] at hfind ⊢
    split at hfind
    · exact hfind
    · exact ih hfind
  | drop hb _ ih =>
    rw [List.find?_cons] at hfind
    split at hfind
    · cases hfind
      rw [ha] at hb
      cases hb
    · exact ih hfind

end Thinned

/-- The edits make the text `X'` of the text `X`, which begins at the offset and is read from the
mode on. The new text is laid out in `ps'` and imports `ms`, but for imports that are lost with
their plain statements; its view is the old one with runs exchanged, and it is read from the same
mode on. -/
structure Reworked (m : Mode) (n : Nat) (X x : List Char) (es : List Edit)
    (ms : List (String × Option String × ImportKind)) (X' x' : List Char) (ps' : List Piece) :
    Prop where
  patched : Patched n X es X'
  layout : Layout m X' x' ps'
  meanings : Thinned isLegible ms (pieceMeanings ps')
  exchanged : Exchanged x x'
  classes : 'ſ' ∉ x → classesOf x' = classesOf x
  clean : Clean X → Clean X'
  untagged : hasOpenTag X = false → hasOpenTag X' = false
  tagged : m = .html → hasOpenTag X = true → hasOpenTag X' = true

namespace Reworked

variable {n : Nat} {Y' y' : List Char} {es : List Edit}
    {ms : List (String × Option String × ImportKind)} {ps' : List Piece}

/-- A text without imports stays as it is. -/
theorem done {X x : List Char} (h : Layout m X x []) : Reworked m n X x [] [] X x [] where
  patched := .done n X
  layout := h
  meanings := .nil
  exchanged := .refl x
  classes _ := rfl
  clean := id
  untagged := id
  tagged _ := id

/-- A gap comes with its tag. -/
theorem tagged_gap (hG : Gap m G g) (R : List Char) (hm : m = .html) :
    hasOpenTag (G ++ R) = true := by
  subst hm
  rw [hasOpenTag_append_of_ne hG.closed, hG.settles.hasOpenTag]
  rfl

/-- A piece that stays. -/
theorem keep (hp : p.Sound m)
    (h : Reworked .code (n + byteLength p.gap + byteLength p.statement) Y y es ms Y' y' ps') :
    Reworked m n (p.gap ++ (p.statement ++ Y)) (p.gapView ++ (p.view ++ y)) es
      ((imports p.view).map Declaration.meaning ++ ms) (p.gap ++ (p.statement ++ Y'))
      (p.gapView ++ (p.view ++ y')) (p :: ps') where
  patched := h.patched.prepend.prepend
  layout := .cons hp h.layout
  meanings := (Thinned.refl _).append h.meanings
  exchanged := .behind hp.gap.place (.behind hp.isStatement.importPlace h.exchanged)
  classes hs := by
    simp only [classesOf_append hp.gap.place.opens,
      classesOf_append hp.isStatement.importPlace.opens, h.classes fun hmem => hs (by simp [hmem])]
  untagged := by
    have hlast : p.statement.getLast? ≠ some '<' := by rw [hp.last]; decide
    simp only [hasOpenTag_append_of_ne hp.gap.closed, hasOpenTag_append_of_ne hlast,
      Bool.or_eq_false_iff]
    exact fun hX => ⟨hX.1, hX.2.1, h.untagged hX.2.2⟩
  clean := by
    have hlast : p.statement.getLast? ≠ some '<' := by rw [hp.last]; decide
    simp only [clean_append_iff hp.gap.closed, clean_append_iff hlast]
    exact fun hX => ⟨hX.1, hX.2.1, h.clean hX.2.2⟩
  tagged hm _ := tagged_gap hp.gap _ hm

/-- A piece of which only some declarations stay, as plain statements. -/
theorem rewrite (hp : p.Sound m) {sep : List Char} (hsep : ∀ c ∈ sep, isSpace c = true)
    (hwell : ∀ d ∈ ds, d.WellNamed) {N : String} (hN : N.toList = plainText sep ds)
    (h : Reworked .code (n + byteLength p.gap + byteLength p.statement) Y y es ms Y' y' ps') :
    ∃ ps'', Reworked m n (p.gap ++ (p.statement ++ Y)) (p.gapView ++ (p.view ++ y))
      (⟨⟨n + byteLength p.gap, n + byteLength p.gap + byteLength p.statement⟩, N⟩ :: es)
      (ds.map Declaration.meaning ++ ms) (p.gap ++ (plainText sep ds ++ Y'))
      (p.gapView ++ (plainText sep ds ++ y')) ps'' := by
  obtain ⟨ps'', hlayout, hmeanings⟩ := Layout.plain hsep hwell hp.gap h.layout
  have hplain : '<' ∉ plainText sep ds := fun hmem => by
    rcases mem_plainText hmem with hmem | ⟨d, hd, hmem⟩
    · exact absurd (hsep _ hmem) (by decide)
    · exact absurd ((hwell d hd).plain _ hmem).1 (by decide)
  have hlast : p.statement.getLast? ≠ some '<' := by rw [hp.last]; decide
  have hlast' : (plainText sep ds).getLast? ≠ some '<' := fun heq =>
    hplain (List.mem_of_getLast? heq)
  have hrun := run_plainText hsep hwell
  refine ⟨ps'', ?_, hlayout, ?_, ?_, fun hs => ?_, ?_, ?_, fun hm _ => tagged_gap hp.gap _ hm⟩
  · obtain ⟨x, S, hS, -⟩ := hp.first
    rw [← hN]
    exact .edit (by rw [hS]; exact List.cons_ne_nil x S) h.patched
  · rw [hmeanings]
    exact (Thinned.of_filter _).append h.meanings
  · exact .step hp.gap.place (.of_statement hp.isStatement) hrun
      (.behind hp.gap.place (.behind hrun.importPlace h.exchanged))
  · have hfree := hp.isStatement.classFree fun hmem => hs (by simp [hmem])
    simp only [classesOf_append hp.gap.place.opens, classesOf_append hrun.importPlace.opens,
      classesOf_append hp.isStatement.importPlace.opens, classesOf_plainText hsep hwell,
      hfree.classesOf_eq,
      h.classes fun hmem => hs (by simp [hmem])]
  · have hspaces : ∀ c ∈ plainText sep ds, isBlank c = true → isSpace c = true :=
      fun c hc hblank => by
      rcases mem_plainText hc with hc | ⟨d, hd, hc⟩
      · exact hsep c hc
      · rw [((hwell d hd).plain c hc).2 hblank]
        decide
    simp only [clean_append_iff hp.gap.closed, clean_append_iff hlast, clean_append_iff hlast']
    exact fun hX => ⟨hX.1, ⟨noHeredoc_of_not_mem hplain, hspaces⟩, h.clean hX.2.2⟩
  · simp only [hasOpenTag_append_of_ne hp.gap.closed, hasOpenTag_append_of_ne hlast,
      hasOpenTag_append_of_ne hlast', Bool.or_eq_false_iff]
    exact fun hX => ⟨hX.1, hasOpenTag_of_not_mem hplain, h.untagged hX.2.2⟩

/-- A run that goes, with white space around it. -/
theorem delete {G₀ g₀ L : List Char} (hG : Gap m G₀ g₀) (hL : ∀ c ∈ L, isSpace c = true)
    (hD : D.getLast? = some ';') (hd : Run d) (hW : ∀ c ∈ W, isSpace c = true)
    (h : Reworked .code (n + byteLength G₀ + byteLength (L ++ (D ++ W))) Y y es ms Y' y' ps') :
    Reworked m n (G₀ ++ (L ++ (D ++ (W ++ Y)))) (g₀ ++ (L ++ (d ++ (W ++ y))))
      (Edit.delete ⟨n + byteLength G₀, n + byteLength G₀ + byteLength (L ++ (D ++ W))⟩ :: es) ms
      (G₀ ++ Y') (g₀ ++ y') (widen G₀ g₀ ps') where
  patched := by
    have hne : L ++ (D ++ W) ≠ [] := fun hnil => by
      have : ';' ∈ L ++ (D ++ W) :=
        List.mem_append_right _ (List.mem_append_left _ (List.mem_of_getLast? hD))
      rw [hnil] at this
      cases this
    have := @Patched.edit n G₀ (L ++ (D ++ W)) Y Y' "" es hne h.patched
    simpa only [Edit.delete, List.append_assoc, String.toList_empty, List.nil_append] using this
  layout := .widen hG h.layout
  meanings := by rw [pieceMeanings_widen]; exact h.meanings
  exchanged := by
    have hrun : Run (L ++ (d ++ W)) := (Run.of_space hL).append (hd.append (Run.of_space hW))
    have := @Exchanged.step g₀ (L ++ (d ++ W)) [] y _ hG.place hrun .nil
      (.behind hG.place h.exchanged)
    simpa only [List.append_assoc] using this
  classes hs := by
    have hrun : Run (L ++ (d ++ W)) := (Run.of_space hL).append (hd.append (Run.of_space hW))
    have hcut : g₀ ++ (L ++ (d ++ (W ++ y))) = g₀ ++ ((L ++ (d ++ W)) ++ y) := by
      simp only [List.append_assoc]
    rw [hcut] at hs ⊢
    rw [classesOf_append hG.place.opens, classesOf_append hG.place.opens,
      classesOf_append hrun.importPlace.opens,
      hrun.classesOf_eq fun hmem => hs (List.mem_append_right g₀ (List.mem_append_left y hmem)),
      h.classes fun hmem => hs (by simp [hmem])]
    rfl
  clean := by
    have hclosed : ∀ {V : List Char}, (∀ c ∈ V, isSpace c = true) → V.getLast? ≠ some '<' :=
      fun hV heq => absurd (hV '<' (List.mem_of_getLast? heq)) (by decide)
    have hlast : D.getLast? ≠ some '<' := by rw [hD]; decide
    simp only [clean_append_iff hG.closed, clean_append_iff (hclosed hL), clean_append_iff hlast,
      clean_append_iff (hclosed hW)]
    exact fun hX => ⟨hX.1, h.clean hX.2.2.2.2⟩
  untagged := by
    have hclosed : ∀ {V : List Char}, (∀ c ∈ V, isSpace c = true) → V.getLast? ≠ some '<' :=
      fun hV heq => absurd (hV '<' (List.mem_of_getLast? heq)) (by decide)
    have hlast : D.getLast? ≠ some '<' := by rw [hD]; decide
    simp only [hasOpenTag_append_of_ne hG.closed, hasOpenTag_append_of_ne (hclosed hL),
      hasOpenTag_append_of_ne hlast, hasOpenTag_append_of_ne (hclosed hW), Bool.or_eq_false_iff]
    exact fun hX => ⟨hX.1, h.untagged hX.2.2.2.2⟩
  tagged hm _ := tagged_gap hG _ hm

end Reworked

/-! ## The edits -/

/-- What the pieces import that is not to go. -/
def keptMeanings (unused : List Span) (n : Nat) (ps : List Piece) :
    List (String × Option String × ImportKind) :=
  ((declarationsAt n ps).filter fun d => !unused.contains d.span).map Declaration.meaning

theorem keptMeanings_cons (unused : List Span) (n : Nat) (p : Piece) (ps : List Piece) :
    keptMeanings unused n (p :: ps) =
      (((imports p.view).map (Declaration.shift (n + byteLength p.gap))).filter
        fun d => !unused.contains d.span).map Declaration.meaning ++
      keptMeanings unused (n + byteLength p.gap + byteLength p.statement) ps := by
  rw [keptMeanings, declarationsAt, List.filter_append, List.map_append]
  rfl

theorem keptMeanings_widen (unused : List Span) (n : Nat) (G g : List Char) (ps : List Piece) :
    keptMeanings unused n (widen G g ps) = keptMeanings unused (n + byteLength G) ps := by
  rw [keptMeanings, declarationsAt_widen]
  rfl

/-- A run that the next statement does not go on is taken out at once. -/
theorem removalFrom_some {L : List (Span × List Declaration)} (h : ∀ e ∈ L.head?,
      (e.2.filter fun d => !unused.contains d.span) = [] → onlyIndentBetween T run e.1 = false) :
    removalFrom T unused (some run) L =
      Edit.delete (wholeLines T run) :: removalFrom T unused none L := by
  cases L with
  | nil => rfl
  | cons e L =>
    obtain ⟨statement, members⟩ := e
    have hhead := h (statement, members) rfl
    dsimp only at hhead
    simp only [removalFrom, List.isEmpty_iff, endRun]
    split
    · rename_i hnone
      rw [hhead hnone]
      rfl
    · rfl

/-- A run goes on with the next statement. -/
theorem removalFrom_merge {members : List Declaration}
    (hnone : (members.filter fun d => !unused.contains d.span) = [])
    (hindent : onlyIndentBetween T run statement = true) (L : List (Span × List Declaration)) :
    removalFrom T unused (some run) ((statement, members) :: L) =
      removalFrom T unused (some ⟨run.start, statement.stop⟩) L := by
  simp only [removalFrom, hnone, List.isEmpty_nil, hindent, if_true]

/-- The text between the plain statements that a statement leaves. -/
def survivorGap (T : List Char) (statement : Span) : List Char :=
  let lineEnds := fromLine T (lineOf T statement.start)
  (if ['\r', '\n'].isPrefixOf (lineEnds.drop (firstLine lineEnds).length) then "\r\n"
    else "\n").toList ++
    indentation (firstLine lineEnds)

theorem toList_survivors (T : List Char) (statement : Span) (ds : List Declaration) :
    (survivors T statement ds).toList = plainText (survivorGap T statement) ds := by
  rw [survivors, String.toList_intercalate, plainText, List.map_map, String.toList_append,
    String.toList_ofList]
  rfl

theorem PlainlySpaced.isSpace_survivorGap (h : PlainlySpaced T statement) :
    ∀ c ∈ survivorGap T statement, isSpace c = true := by
  intro c hc
  rcases List.mem_append.mp hc with hc | hc
  · have hbreak : ∀ c ∈ ['\r', '\n'], isSpace c = true := by decide
    split at hc
    · exact hbreak c hc
    · exact hbreak c (List.mem_cons_of_mem _ hc)
  · exact h.before c hc

/-- The edits for the pieces `ps`, which begin at the offset `k`, behind a run of statements that
go, do to the text `X` at the offset `n` what they should. -/
def Removes (T : List Char) (unused : List Span) (run : Option Span) (k : Nat) (ps : List Piece)
    (m : Mode) (n : Nat) (X x : List Char) : Prop :=
  ∃ X' x' ps',
    Reworked m n X x (removalFrom T unused run (entriesAt k ps))
    (keptMeanings unused k ps) X' x' ps'

/-- The rest `X` of the text `T` is laid out in pieces, and no statement that goes stands directly
in front of it. -/
structure AtFresh (T : List Char) (m : Mode) (A X x : List Char) (ps : List Piece) : Prop where
  proper : m.Proper
  text : T = A ++ X
  secured : X = [] ∨ Secured A
  layout : Layout m X x ps
  spaced : ∀ e ∈ entriesAt (byteLength A) ps, PlainlySpaced T e.1

/-- Where a run stands. -/
abbrev runSpan (A G D : List Char) : Span :=
  ⟨byteLength A + byteLength G, byteLength A + byteLength G + byteLength D⟩

/-- The rest of the text `T` is a gap, a run `D` of statements that go, and `Z`, which is laid out
in pieces. -/
structure BehindRun (T : List Char) (m : Mode) (A G g D d Z z : List Char) (ps : List Piece) :
    Prop where
  proper : m.Proper
  text : T = A ++ (G ++ (D ++ Z))
  secured : Secured A
  gap : Gap m G g
  run : Run d
  first : ∃ x S, D = x :: S ∧ isBlank x = false
  last : D.getLast? = some ';'
  around : PlainlySpaced T (runSpan A G D)
  layout : Layout .code Z z ps
  spaced : ∀ e ∈ entriesAt (byteLength A + byteLength G + byteLength D) ps, PlainlySpaced T e.1

/-- The run comes to its end in front of the next statement. -/
theorem BehindRun.removes_of_end (h : BehindRun T m A G g D d Z z ps)
    (fresh : ∀ {A' X x ps'}, ps'.length = ps.length → AtFresh T .code A' X x ps' →
      Removes T unused none (byteLength A') ps' .code (byteLength A') X x)
    (hend : ∀ e ∈ (entriesAt (byteLength A + byteLength G + byteLength D) ps).head?,
      (e.2.filter fun d => !unused.contains d.span) = [] → onlyIndentBetween T
      (runSpan A G D) e.1 = false) :
    Removes T unused (some (runSpan A G D)) (byteLength A + byteLength G + byteLength D) ps
      m (byteLength A) (G ++ (D ++ Z)) (g ++ (d ++ z)) := by
  obtain ⟨hm, hT, hA, hG, hd, hfirst, hD, haround, hZ, hspaced⟩ := h
  obtain ⟨G₀, L, W, Z', hGL, rfl, hlines, hL, hLspace, hWspace, hnext⟩ :=
    exists_wholeLines hA hD hfirst (hT ▸ haround)
  obtain ⟨z', ps', rfl, rfl, hZ'⟩ := hZ.drop_space hWspace
  have hgap : ∃ g₀, g = g₀ ++ L ∧ Gap m G₀ g₀ := by
    rcases hL with rfl | ⟨rfl, rfl⟩
    · rw [List.append_nil] at hGL
      exact ⟨g, (List.append_nil g).symm, hGL ▸ hG⟩
    · exact hG.upToLead hm hLspace
  obtain ⟨g₀, rfl, hgap⟩ := hgap
  have hlength : ps'.length = (widen W W ps').length := by cases ps' <;> rfl
  have hrest : AtFresh T .code (A ++ (G ++ (D ++ W))) Z' z' ps' := by
    refine ⟨Mode.proper_code, by rw [hT]; simp, hnext, hZ', ?_⟩
    rw [entriesAt_widen] at hspaced
    simpa only [byteLength_append, Nat.add_assoc] using hspaced
  obtain ⟨X', x', ps'', hrest⟩ := fresh hlength hrest
  rw [Removes, removalFrom_some hend, entriesAt_widen, keptMeanings_widen, runSpan,
    hT, hlines, ← hT]
  subst hGL
  have hoffset : byteLength (A ++ (G₀ ++ L ++ (D ++ W))) =
      byteLength A + byteLength G₀ + byteLength (L ++ (D ++ W)) := by
    simp only [byteLength_append]
    omega
  have hcut : byteLength A + byteLength (G₀ ++ L) + byteLength D + byteLength W =
      byteLength A + byteLength G₀ + byteLength (L ++ (D ++ W)) := by
    simp only [byteLength_append]
    omega
  rw [hoffset] at hrest
  rw [hcut]
  have := hrest.delete hgap hLspace hD hd hWspace
  simp only [List.append_assoc] at this ⊢
  exact ⟨_, _, _, this⟩

theorem onlyIndentBetween_gap (hT : T = A ++ (G ++ (D ++ (p.gap ++ (p.statement ++ Z)))))
    (statementStop : Nat) :
    onlyIndentBetween T (runSpan A G D)
      ⟨byteLength A + byteLength G + byteLength D + byteLength p.gap, statementStop⟩ =
        p.gap.all isIndent := by
  have hslice := Span.slice_append (A ++ (G ++ D)) p.gap (p.statement ++ Z)
  simp only [byteLength_append, List.append_assoc, ← Nat.add_assoc] at hslice
  rw [onlyIndentBetween, hT, hslice]

/-- The next statement goes on the run. -/
theorem BehindRun.removes_of_merge (h : BehindRun T m A G g D d (p.gap ++ (p.statement ++ Z))
      (p.gapView ++ (p.view ++ z)) (p :: ps)) (hp : p.Sound .code) (hZ : Layout .code Z z ps)
    (behind : ∀ {D' d'}, BehindRun T m A G g D' d' Z z ps →
      Removes T unused (some (runSpan A G D')) (byteLength A + byteLength G + byteLength D') ps
        m (byteLength A) (G ++ (D' ++ Z)) (g ++ (d' ++ z)))
    (hnone : (((imports p.view).map (Declaration.shift (byteLength A + byteLength G + byteLength D +
      byteLength p.gap))).filter fun d => !unused.contains d.span) = [])
    (hindent : p.gap.all isIndent = true) :
    Removes T unused (some (runSpan A G D)) (byteLength A + byteLength G + byteLength D)
      (p :: ps) m (byteLength A)
      (G ++ (D ++ (p.gap ++ (p.statement ++ Z)))) (g ++ (d ++ (p.gapView ++ (p.view ++ z)))) := by
  have hspace : ∀ c ∈ p.gap, isSpace c = true := fun c hc =>
    isSpace_of_isIndent (List.all_eq_true.mp hindent c hc)
  have hview : p.gapView = p.gap :=
    (hp.gap.walk []).eq_of_isPlain fun c hc => isPlain_of_isSpace (hspace c hc)
  have hlength : byteLength A + byteLength G + byteLength (D ++ (p.gap ++ p.statement)) =
      byteLength A + byteLength G + byteLength D + byteLength p.gap + byteLength p.statement := by
    simp only [byteLength_append, Nat.add_assoc]
  have hmerged :
      BehindRun T m A G g (D ++ (p.gap ++ p.statement)) (d ++ (p.gap ++ p.view)) Z z ps := by
    obtain ⟨x, S, rfl, hx⟩ := h.first
    refine ⟨h.proper, ?_, h.secured, h.gap, ?_, ⟨x, _, rfl, hx⟩, ?_, ⟨h.around.before, ?_⟩, hZ, ?_⟩
    · rw [h.text]
      simp only [List.append_assoc]
    · exact h.run.append ((Run.of_space hspace).append (Run.of_statement hp.isStatement))
    · rw [← List.append_assoc, List.getLast?_append, hp.last]
      rfl
    · rw [runSpan, hlength]
      exact (h.spaced _ List.mem_cons_self).behind
    · rw [hlength]
      exact fun e he => h.spaced e (List.mem_cons_of_mem _ he)
  have hrest := behind hmerged
  rw [Removes, runSpan, hlength] at hrest
  rw [Removes, entriesAt, keptMeanings_cons, hnone, hview,
    removalFrom_merge hnone ((onlyIndentBetween_gap h.text _).trans hindent)]
  simpa only [List.append_assoc, List.map_nil, List.nil_append] using hrest

/-- The statement at the front of the rest goes or stays, or some of its declarations stay. -/
theorem AtFresh.removes_cons
    (h : AtFresh T m A (p.gap ++ (p.statement ++ Y)) (p.gapView ++ (p.view ++ y)) (p :: ps))
    (hp : p.Sound m) (hY : Layout .code Y y ps) (fresh : ∀ {A' X x}, AtFresh T .code A' X x ps →
      Removes T unused none (byteLength A') ps .code (byteLength A') X x)
    (behind : ∀ {A' G g D d Z z}, BehindRun T m A' G g D d Z z ps →
      Removes T unused (some (runSpan A' G D)) (byteLength A' + byteLength G + byteLength D) ps m
        (byteLength A') (G ++ (D ++ Z)) (g ++ (d ++ z))) :
    Removes T unused none (byteLength A) (p :: ps) m (byteLength A) (p.gap ++ (p.statement ++ Y))
      (p.gapView ++ (p.view ++ y)) := by
  have hA : Secured A := by
    refine h.secured.resolve_left fun hnil => ?_
    obtain ⟨x, S, hS, -⟩ := hp.first
    rw [hS] at hnil
    simp at hnil
  have hoffset : byteLength (A ++ (p.gap ++ p.statement)) =
      byteLength A + byteLength p.gap + byteLength p.statement := by
    simp only [byteLength_append, Nat.add_assoc]
  have hsecured : Secured (A ++ (p.gap ++ p.statement)) := by
    have := secured_of_semicolon (A := A ++ p.gap) hp.last (W := []) (by simp)
    rwa [List.append_nil, List.append_assoc] at this
  have hwell : ∀ d ∈ (imports p.view).map (Declaration.shift (byteLength A + byteLength p.gap)),
      d.WellNamed := by
    intro d hd
    obtain ⟨e, he, rfl⟩ := List.mem_map.mp hd
    exact ⟨(wellNamed_of_mem_imports he).fqn, (wellNamed_of_mem_imports he).aliasName⟩
  have haround : PlainlySpaced T (runSpan A p.gap p.statement) := h.spaced _ List.mem_cons_self
  have hspaced : ∀ e ∈ entriesAt (byteLength A + byteLength p.gap + byteLength p.statement) ps,
      PlainlySpaced T e.1 :=
    fun e he => h.spaced e (List.mem_cons_of_mem _ he)
  rw [Removes, entriesAt, keptMeanings_cons, removalFrom]
  dsimp only
  split
  · -- the statement begins a run
    rename_i hnone
    rw [List.isEmpty_iff.mp hnone]
    exact behind ⟨h.proper, h.text, hA, hp.gap, .of_statement hp.isStatement, hp.first, hp.last,
      haround, hY, hspaced⟩
  · have hrest : AtFresh T .code (A ++ (p.gap ++ p.statement)) Y y ps :=
      ⟨Mode.proper_code, by rw [h.text]; simp, .inr hsecured, hY, by rwa [hoffset]⟩
    obtain ⟨Y', y', ps', hrest⟩ := fresh hrest
    rw [hoffset] at hrest
    rw [endRun, List.nil_append]
    split
    · rename_i hfewer
      rw [List.singleton_append]
      obtain ⟨ps'', hmore⟩ := hrest.rewrite hp haround.isSpace_survivorGap
        (fun d hd => hwell d (List.mem_of_mem_filter hd)) (toList_survivors T _ _)
      exact ⟨_, _, _, hmore⟩
    · rename_i hall
      have hfilter : ∀ ds : List Declaration,
          ¬ (ds.filter fun d => !unused.contains d.span).length < ds.length →
          (ds.filter fun d => !unused.contains d.span) = ds := fun ds hlen =>
        List.filter_sublist.eq_of_length_le (Nat.not_lt.mp hlen)
      rw [hfilter _ hall, List.map_map]
      exact ⟨_, _, _, hrest.keep hp⟩

/-- **The edits do to every laid out text what they should.** -/
theorem removes_of_length (k : Nat) :
    (∀ {m A X x ps}, ps.length = k → AtFresh T m A X x ps →
      Removes T unused none (byteLength A) ps m (byteLength A) X x) ∧
    ∀ {m A G g D d Z z ps}, ps.length = k → BehindRun T m A G g D d Z z ps →
      Removes T unused (some (runSpan A G D)) (byteLength A + byteLength G + byteLength D) ps
        m (byteLength A) (G ++ (D ++ Z)) (g ++ (d ++ z)) := by
  induction k with
  | zero =>
    have fresh : ∀ {m A X x ps}, ps.length = 0 → AtFresh T m A X x ps →
        Removes T unused none (byteLength A) ps m (byteLength A) X x := by
      intro m A X x ps hlen h
      rw [List.length_eq_zero_iff] at hlen
      subst hlen
      exact ⟨X, x, [], .done h.layout⟩
    refine ⟨fresh, fun hlen h => h.removes_of_end (fun hlen' => fresh (hlen'.trans hlen)) ?_⟩
    rw [List.length_eq_zero_iff] at hlen
    subst hlen
    simp [entriesAt]
  | succ k ih =>
    obtain ⟨ihFresh, ihBehind⟩ := ih
    have fresh : ∀ {m A X x ps}, ps.length = k + 1 → AtFresh T m A X x ps →
        Removes T unused none (byteLength A) ps m (byteLength A) X x := by
      intro m A X x ps hlen h
      obtain ⟨p, Y, y, ps, rfl, rfl, rfl, hp, hY⟩ :=
        h.layout.exists_cons (by rintro rfl; cases hlen)
      rw [List.length_cons, Nat.succ_inj] at hlen
      exact h.removes_cons hp hY (ihFresh hlen) (ihBehind hlen)
    refine ⟨fresh, ?_⟩
    intro m A G g D d Z z ps hlen h
    obtain ⟨p, Y, y, ps, rfl, rfl, rfl, hp, hY⟩ := h.layout.exists_cons (by rintro rfl; cases hlen)
    by_cases hmerge :
      (((imports p.view).map (Declaration.shift (byteLength A + byteLength G + byteLength D +
        byteLength p.gap))).filter fun d => !unused.contains d.span) = [] ∧
          p.gap.all isIndent = true
    · exact h.removes_of_merge hp hY (ihBehind (Nat.succ_inj.mp hlen)) hmerge.1 hmerge.2
    · refine h.removes_of_end (fun hlen' => fresh (hlen'.trans hlen)) ?_
      intro e he hnone
      cases he
      rw [onlyIndentBetween_gap h.text]
      exact Bool.eq_false_iff.mpr fun hindent => hmerge ⟨hnone, hindent⟩

end UseImports
