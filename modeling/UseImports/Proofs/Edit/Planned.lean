import UseImports.Edit.Expansion
import UseImports.Edit.Insertion
import UseImports.Edit.Sorting
import UseImports.Proofs.Declaration.Structure
import UseImports.Proofs.Edit.Removal
import UseImports.Proofs.Text.Positions

/-!
# Planned edits

Every planner (`plan_removal`, `plan_import`, `plan_sort`, `expand_references`) plans edits that can
be applied: their ends are anchors of the text, and no two of them overlap. For the removal of
imports this is a matter of lines. What is taken out with a statement reaches to the start of its
line at the front and to the start of the next line at the back, and two statements never claim the
same line, since neither has it to itself if the other one stands there too.

* `Planned`: edits that can be applied, the last one in the text first.
* `Stretch`, `Covers`: a statement or a run of statements, and what is taken out or rewritten with
  it.
* `Covers.stop_le`: **what goes with a statement ends where that of a later statement begins.**
* `CoversRuns`: the edits for runs of statements, with one case for each step of the planner.
* `planned_removal`, `planned_insertion`, `planned_sort`, `planned_occurrences`: the planners.
* `planned_edits_apply`: **planned edits never conflict.**
-/

namespace UseImports

open Cursor

variable {e : Edit} {doc : Document} {f s t : Span} {A A' cs M R S S' W Y Y' : List Char} {x : Char}
    {ss : List Span} {es : List Edit} {ds : List Declaration} {a : Analysis} {d : Declaration}
    {word : String} {m : Mode}

/-- The edits can be applied to the text: their ends are anchors in order, and each edit stands
behind all that are listed after it. -/
structure Planned (cs : List Char) (es : List Edit) : Prop where
  anchored : ∀ e ∈ es, IsAnchor cs e.span.start ∧ IsAnchor cs e.span.stop
  forward : ∀ e ∈ es, e.span.start ≤ e.span.stop
  descending : es.Pairwise fun a b => b.Before a

namespace Planned

theorem nil (cs : List Char) : Planned cs [] where
  anchored := by simp
  forward := by simp
  descending := .nil

theorem singleton (hstart : IsAnchor cs e.span.start) (hstop : IsAnchor cs e.span.stop)
    (hle : e.span.start ≤ e.span.stop) : Planned cs [e] where
  anchored f hf := by
    obtain rfl := List.mem_singleton.mp hf
    exact ⟨hstart, hstop⟩
  forward f hf := by
    obtain rfl := List.mem_singleton.mp hf
    exact hle
  descending := List.pairwise_singleton _ _

theorem fits (h : Planned cs es) (he : e ∈ es) : e.fits cs = true := by
  obtain ⟨⟨A, B, hcs, hA, -⟩, A', B', hcs', hA', -⟩ := h.anchored e he
  have hle := h.forward e he
  obtain ⟨M, rfl, rfl⟩ := append_eq_append_of_le (hcs.symm.trans hcs') (by omega)
  have hspan : e.span = ⟨byteLength A, byteLength A + byteLength M⟩ := by
    rw [← byteLength_append, hA', hA]
  rw [Edit.fits, hspan, hcs, Span.cut?_append]
  rfl

/-- **Planned edits are applied.** -/
theorem applies (h : Planned cs es) : ∃ text, applyEdits (String.ofList cs) es = .ok text :=
  ⟨_, applyEdits_of_before es.reverse_perm.symm (fun _ he => h.fits (List.mem_reverse.mp he))
    (List.pairwise_reverse.mpr h.descending)⟩

end Planned

/-! ## Statements and what goes with them -/

/-- The span holds `S`, which begins with something else than white space and ends in a semicolon.
-/
structure Stretch (cs : List Char) (s : Span) (A S Y : List Char) : Prop where
  text : cs = A ++ (S ++ Y)
  span : s = ⟨byteLength A, byteLength A + byteLength S⟩
  first : ∃ x S', S = x :: S' ∧ isBlank x = false
  last : S.getLast? = some ';'

/-- The span begins with something else than white space and ends in a semicolon. -/
def IsStretch (cs : List Char) (s : Span) : Prop :=
  ∃ A S Y, Stretch cs s A S Y

theorem IsUseStatement.isStretch (h : IsUseStatement doc s) : IsStretch doc.text s := by
  obtain ⟨A, w, M, B, htext, hstart, hstop, hw, -⟩ := h
  have hsemi : (';' : Char).utf8Size = 1 := by decide
  refine ⟨A, w ++ (M ++ [';']), B, ?_, ?_, ?_, ?_⟩
  · rw [htext]
    simp
  · rw [byteLength_append, byteLength_append] at hstop
    simp only [byteLength_append, byteLength_cons, byteLength_nil, hsemi]
    rw [hstart, ← hstart, Nat.add_zero, ← Nat.add_assoc (byteLength w),
      ← Nat.add_assoc (byteLength A), hstop, hstart]
  · cases w with
    | nil => cases hw
    | cons x w =>
      obtain ⟨hx, -⟩ := List.cons.inj hw
      exact ⟨x, _, rfl, (visible_of_foldLetter hx).1⟩
  · rw [← List.append_assoc, List.getLast?_concat]

/-- What an edit may take out or replace with a statement: the statement itself, or its lines. -/
def Covers (cs : List Char) (s e : Span) : Prop :=
  e = s ∨ e = wholeLines cs s

namespace Stretch

variable {e : Span}

theorem ne_nil (h : Stretch cs s A S Y) : S ≠ [] := by
  obtain ⟨x, S', rfl, -⟩ := h.first
  exact List.cons_ne_nil x S'

theorem start_lt (h : Stretch cs s A S Y) : s.start < s.stop := by
  have := byteLength_pos h.ne_nil
  rw [h.span]
  dsimp only
  omega

/-- A second statement stands behind the first one. -/
theorem exists_between (h : Stretch cs s A S Y) (h' : Stretch cs t A' S' Y')
    (hle : s.stop ≤ t.start) :
    ∃ M, A' = A ++ (S ++ M) ∧ Y = M ++ (S' ++ Y') := by
  have htext : (A ++ S) ++ Y = A' ++ (S' ++ Y') := by rw [← h'.text, h.text, List.append_assoc]
  rw [h.span, h'.span] at hle
  obtain ⟨M, hA', hY⟩ := append_eq_append_of_le htext (by rwa [byteLength_append])
  exact ⟨M, by rw [hA', List.append_assoc], hY⟩

/-- Two statements are merged into one run. -/
theorem merge (h : Stretch cs s A S Y) (h' : Stretch cs t A' S' Y') (hle : s.stop ≤ t.start) :
    IsStretch cs ⟨s.start, t.stop⟩ := by
  obtain ⟨M, rfl, rfl⟩ := h.exists_between h' hle
  obtain ⟨x, S₀, rfl, hx⟩ := h.first
  refine ⟨A, (x :: S₀) ++ (M ++ S'), Y', ?_, ?_, ⟨x, _, rfl, hx⟩, ?_⟩
  · rw [h.text]
    simp only [List.append_assoc]
  · rw [h.span, h'.span]
    simp only [byteLength_append]
    congr 1
    omega
  · rw [List.getLast?_append, List.getLast?_append, h'.last]
    rfl

/-- What goes with a statement ends on its last line. -/
theorem stop_eq (h : Stretch cs s A S Y) (he : Covers cs s e) :
    ∃ W, e.stop = byteLength (A ++ S) + byteLength W ∧
      ((∀ c ∈ W, isIndent c = true) ∧ W <+: Y ∨ W = throughBreak Y ∧
        isBlankText (firstLine Y) = true) := by
  rcases he with rfl | rfl
  · refine ⟨[], ?_, .inl ⟨by simp, List.nil_prefix⟩⟩
    rw [h.span, byteLength_append]
    rfl
  · rw [h.text, h.span, wholeLines_append h.last, byteLength_append]
    split
    next halone => exact ⟨_, rfl, .inr ⟨rfl, (Bool.and_eq_true_iff.mp halone).2⟩⟩
    next =>
      exact ⟨_, rfl, .inl ⟨fun c hc => List.mem_takeWhile_imp hc,
        (List.takeWhile_prefix _).trans (firstLine_isPrefix Y)⟩⟩

/-- What goes with a statement begins with it, or at the start of its line if nothing stands in
front of it there. -/
theorem start_eq (h : Stretch cs s A S Y) (he : Covers cs s e) :
    e.start = byteLength A ∨ e.start = byteLength (upToLead A) ∧ isBlankText (lead A) = true := by
  rcases he with rfl | rfl
  · rw [h.span]
    exact .inl rfl
  · rw [h.text, h.span, wholeLines_append h.last]
    split
    next halone => exact .inr ⟨rfl, (Bool.and_eq_true_iff.mp halone).1⟩
    next => exact .inl rfl

end Stretch

theorem getLast?_of_isIndent (hA : A.getLast? = some ';') (hW : ∀ c ∈ W, isIndent c = true) :
    (A ++ W).getLast? ≠ some '\r' := by
  rw [List.getLast?_append]
  intro hlast
  cases hw : W.getLast? with
  | none =>
    rw [hw, hA] at hlast
    exact absurd (Option.some.inj hlast) (by decide)
  | some c =>
    rw [hw] at hlast
    obtain rfl : c = '\r' := Option.some.inj hlast
    exact absurd (hW _ (List.mem_of_getLast? hw)) (by decide)

/-- **What goes with a statement has its ends at anchors.** -/
theorem Stretch.anchored {e : Span} (h : Stretch cs s A S Y) (he : Covers cs s e) :
    IsAnchor cs e.start ∧ IsAnchor cs e.stop ∧ e.start ≤ s.start ∧ s.stop ≤ e.stop := by
  have hlast : (A ++ S).getLast? = some ';' := by
    rw [List.getLast?_append, h.last]
    rfl
  have hlen := byteLength_upToLead A
  obtain ⟨W, hstop, hW⟩ := h.stop_eq he
  have hcs : cs = (A ++ S) ++ Y := by rw [h.text, List.append_assoc]
  have hspan := h.span
  refine ⟨?_, ?_, ?_, ?_⟩
  · rcases h.start_eq he with hstart | ⟨hstart, -⟩
    · obtain ⟨x, S', rfl, hx⟩ := h.first
      rw [hstart, h.text]
      refine isAnchor_of_head fun hhead => ?_
      obtain rfl : x = '\n' := Option.some.inj hhead
      exact absurd hx (by decide)
    · rw [hstart, h.text, append_eq_lead]
      refine isAnchor_of_getLast fun hreturn => ?_
      rcases atLineStart_upToLead A with hnil | hbreak
      · rw [hnil] at hreturn
        cases hreturn
      · rw [hbreak] at hreturn
        exact absurd (Option.some.inj hreturn) (by decide)
  · rw [hstop, ← byteLength_append, hcs]
    rcases hW with ⟨hindent, Z, rfl⟩ | ⟨rfl, -⟩
    · rw [← List.append_assoc]
      exact isAnchor_of_getLast (getLast?_of_isIndent hlast hindent)
    · conv in (A ++ S) ++ Y => rw [← throughBreak_append_behindBreak Y, ← List.append_assoc]
      rcases throughBreak_cases Y with ⟨hall, -⟩ | ⟨x, -, hthrough, -⟩
      · have hnil := throughBreak_append_behindBreak Y
        rw [hall] at hnil
        rw [List.append_right_eq_self.mp hnil]
        exact isAnchor_of_head (by simp)
      · refine isAnchor_of_getLast ?_
        rw [hthrough, ← List.append_assoc, List.getLast?_concat]
        decide
  · rw [hspan]
    rcases h.start_eq he with hstart | ⟨hstart, -⟩
    · exact Nat.le_of_eq hstart
    · rw [hstart]
      dsimp only
      omega
  · rw [hspan, hstop, byteLength_append]
    exact Nat.le_add_right _ _

theorem throughBreak_break {x : List Char} (hx : '\n' ∉ x) (R : List Char) :
    throughBreak (x ++ '\n' :: R) = x ++ ['\n'] := by
  have hall : ∀ c ∈ x, decide (c ≠ '\n') = true := fun c hc =>
    decide_eq_true fun heq => hx (heq ▸ hc)
  unfold throughBreak
  rw [List.takeWhile_append_of_pos hall, List.dropWhile_append_of_pos hall]
  simp

/-- The first line end stays the first one. -/
theorem throughBreak_append (h : '\n' ∈ M) (Z : List Char) :
    throughBreak (M ++ Z) = throughBreak M := by
  rcases throughBreak_cases M with ⟨-, hno⟩ | ⟨x, hx, hthrough, hM⟩
  · exact absurd h hno
  · rw [hthrough, hM, List.append_assoc, List.cons_append, throughBreak_break hx]

/-- The first line of a text ends in front of its last one. -/
theorem byteLength_throughBreak_le (h : '\n' ∈ M) :
    byteLength (throughBreak M) ≤ byteLength (upToLead M) := by
  rcases throughBreak_cases M with ⟨-, hno⟩ | ⟨x, -, hthrough, hM⟩
  · exact absurd h hno
  · have htext : M = throughBreak M ++ behindBreak M := (throughBreak_append_behindBreak M).symm
    have hstart : AtLineStart (throughBreak M) := .inr (by rw [hthrough, List.getLast?_concat])
    rw [htext]
    by_cases hmore : '\n' ∈ behindBreak M
    · rw [(lead_append_of_mem hmore _).2, ← htext, byteLength_append]
      exact Nat.le_add_right _ _
    · rw [(lead_of_split hstart hmore).2, ← htext]

/-- An initial part that avoids the character behind the first piece belongs to that piece. -/
theorem isPrefix_of_avoids (h : W <+: M ++ x :: R) (hx : x ∉ W) : W <+: M := by
  obtain ⟨Z, hZ⟩ := h
  obtain ⟨t, hM, -⟩ | ⟨t, hW, ht⟩ := List.append_eq_append_iff.mp hZ
  · exact ⟨t, hM.symm⟩
  · cases t with
    | nil => exact ⟨[], by rw [hW, List.append_nil, List.append_nil]⟩
    | cons c t =>
      obtain ⟨rfl, -⟩ := List.cons.inj ht
      exact absurd (hW ▸ List.mem_append_right M List.mem_cons_self) hx

/-- Spaces and tabs in front of something that can be seen do not reach behind the first line end.
-/
theorem isPrefix_throughBreak (hx : isBlank x = false) (h : W <+: M ++ x :: R)
    (hW : ∀ c ∈ W, isIndent c = true) : W <+: throughBreak M := by
  have hM : W <+: M := isPrefix_of_avoids h fun hmem => by
    rw [isBlank_of_isSpace (isSpace_of_isIndent (hW x hmem))] at hx
    cases hx
  rcases throughBreak_cases M with ⟨hall, -⟩ | ⟨y, -, hthrough, hsplit⟩
  · rwa [hall]
  · rw [hsplit] at hM
    rw [hthrough]
    exact (isPrefix_of_avoids hM fun hmem =>
      absurd (hW _ hmem) (by decide)).trans (List.prefix_append _ _)

/-- A blank line in front of something that can be seen comes to its end before it. -/
theorem mem_break_of_blank (hx : isBlank x = false)
    (h : isBlankText (firstLine (M ++ x :: R)) = true) : '\n' ∈ M := by
  by_contra hno
  have hbreak : '\n' ∉ M ++ [x] := by
    rw [List.mem_append, not_or]
    refine ⟨hno, fun hmem => ?_⟩
    rw [← List.mem_singleton.mp hmem] at hx
    exact absurd hx (by decide)
  have hreturn : (M ++ [x]).getLast? ≠ some '\r' := by
    rw [List.getLast?_concat]
    rintro ⟨⟩
    exact absurd hx (by decide)
  rw [List.append_cons, firstLine_append hbreak hreturn, isBlankText_iff] at h
  rw [h x (by simp)] at hx
  cases hx

/-- **What goes with a statement ends where that of a later statement begins.** -/
theorem Stretch.stop_le {e : Span} (h : Stretch cs s A S Y) (h' : Stretch cs t A' S' Y')
    (hle : s.stop ≤ t.start) (he : Covers cs s e) (hf : Covers cs t f) : e.stop ≤ f.start := by
  obtain ⟨M, rfl, rfl⟩ := h.exists_between h' hle
  obtain ⟨x, S₀, rfl, hx⟩ := h'.first
  obtain ⟨W, hstop, hW⟩ := h.stop_eq he
  rw [hstop, byteLength_append]
  have hfirst : byteLength W ≤ byteLength (throughBreak M) := by
    rcases hW with ⟨hindent, hinitial⟩ | ⟨rfl, hblank⟩
    · obtain ⟨Z, hZ⟩ := isPrefix_throughBreak hx hinitial hindent
      rw [← hZ, byteLength_append]
      exact Nat.le_add_right _ _
    · rw [throughBreak_append (mem_break_of_blank hx hblank)]
  rcases h'.start_eq hf with hstart | ⟨hstart, hblank⟩
  · have := congrArg byteLength (throughBreak_append_behindBreak M)
    rw [byteLength_append] at this
    rw [hstart, byteLength_append, byteLength_append]
    omega
  · -- the second statement begins its line, so the line of the first one has come to its end
    have hbreak : '\n' ∈ M := by
      by_contra hno
      rw [← List.append_assoc, (lead_append_of_not_mem hno _).1, isBlankText_iff] at hblank
      have := hblank ';' (List.mem_append_left _ (List.mem_of_getLast? (lead_append h.last)))
      exact absurd this (by decide)
    have := byteLength_throughBreak_le hbreak
    rw [hstart, ← List.append_assoc, (lead_append_of_mem hbreak _).2, byteLength_append,
      byteLength_append]
    omega

/-! ## Removing -/

/-- The edits, in the order of the text, are edits for the statements: a statement stays as it is,
or there is an edit for it, or it makes one run with the next one. -/
inductive CoversRuns (cs : List Char) : List Span → List Edit → Prop
  | done : CoversRuns cs [] []
  | keep {s : Span} {ss : List Span} {es : List Edit} : CoversRuns cs ss es →
      CoversRuns cs (s :: ss) es
  | edit {s : Span} {ss : List Span} {e : Edit} {es : List Edit} : Covers cs s e.span →
      CoversRuns cs ss es →
      CoversRuns cs (s :: ss) (e :: es)
  | merge {s t : Span} {ss : List Span} {es : List Edit} :
      CoversRuns cs (⟨s.start, t.stop⟩ :: ss) es →
      CoversRuns cs (s :: t :: ss) es

theorem CoversRuns.endRun (run : Option Span) (h : CoversRuns cs ss es) :
    CoversRuns cs (run.toList ++ ss) (UseImports.endRun cs run ++ es) := by
  cases run with
  | none => exact h
  | some r => exact .edit (.inr rfl) h

theorem coversRuns_removalFrom (cs : List Char) (unused : List Span) (run : Option Span)
    (entries : List (Span × List Declaration)) :
    CoversRuns cs (run.toList ++ entries.map (·.1)) (removalFrom cs unused run entries) := by
  induction entries generalizing run with
  | nil =>
    have := CoversRuns.endRun run (@CoversRuns.done cs)
    rwa [List.append_nil (endRun cs run)] at this
  | cons entry rest ih =>
    obtain ⟨statement, members⟩ := entry
    unfold removalFrom
    rw [List.map_cons]
    dsimp only
    split
    · cases run with
      | none => exact ih (some statement)
      | some r =>
        dsimp only
        split
        · exact .merge (ih (some ⟨r.start, statement.stop⟩))
        · exact .edit (.inr rfl) (ih (some statement))
    · rw [List.append_assoc]
      refine .endRun run ?_
      split
      · exact .edit (.inl rfl) (ih none)
      · exact .keep (ih none)

/-- Statements of the text, one behind the other. -/
structure StatementRow (cs : List Char) (ss : List Span) : Prop where
  stretch : ∀ s ∈ ss, IsStretch cs s
  ordered : ss.Pairwise fun s t => s.stop ≤ t.start

theorem StatementRow.tail (h : StatementRow cs (s :: ss)) : StatementRow cs ss :=
  ⟨fun t ht => h.stretch t (List.mem_cons_of_mem s ht), (List.pairwise_cons.mp h.ordered).2⟩

theorem StatementRow.merge {cs : List Char} {s t : Span} {ss : List Span}
    (h : StatementRow cs (s :: t :: ss)) :
    StatementRow cs (⟨s.start, t.stop⟩ :: ss) := by
  obtain ⟨hfirst, hrest⟩ := List.pairwise_cons.mp h.ordered
  obtain ⟨A, S, Y, hs⟩ := h.stretch s List.mem_cons_self
  obtain ⟨A', S', Y', ht⟩ := h.stretch t (by simp)
  refine ⟨fun u hu =>
    ?_, List.pairwise_cons.mpr ⟨(List.pairwise_cons.mp hrest).1, (List.pairwise_cons.mp hrest).2⟩⟩
  rcases List.mem_cons.mp hu with rfl | hu
  · exact hs.merge ht (hfirst t List.mem_cons_self)
  · exact h.stretch u (by simp [hu])

/-- **The edits for statements stand one in front of the other**, and each covers a statement or a
run of statements. -/
theorem CoversRuns.ordered (h : CoversRuns cs ss es) (hss : StatementRow cs ss) :
    (∀ e ∈ es, ∃ s, IsStretch cs s ∧ Covers cs s e.span ∧
      ∀ n, (∀ t ∈ ss, n ≤ t.start) → n ≤ s.start) ∧
      es.Pairwise Edit.Before := by
  induction h with
  | done => exact ⟨by simp, .nil⟩
  | keep _ ih =>
    obtain ⟨hcover, hbefore⟩ := ih hss.tail
    refine ⟨fun e he => ?_, hbefore⟩
    obtain ⟨s, hs, hcovers, hbound⟩ := hcover e he
    exact ⟨s, hs, hcovers, fun n hn => hbound n fun t ht => hn t (List.mem_cons_of_mem _ ht)⟩
  | @edit s ss e es hcovers _ ih =>
    obtain ⟨hcover, hbefore⟩ := ih hss.tail
    obtain ⟨hbehind, -⟩ := List.pairwise_cons.mp hss.ordered
    have hs := hss.stretch s List.mem_cons_self
    refine ⟨fun f hf => ?_, List.pairwise_cons.mpr ⟨fun f hf => ?_, hbefore⟩⟩
    · rcases List.mem_cons.mp hf with rfl | hf
      · exact ⟨s, hs, hcovers, fun n hn => hn s List.mem_cons_self⟩
      · obtain ⟨t, ht, htcovers, hbound⟩ := hcover f hf
        exact ⟨t, ht, htcovers, fun n hn => hbound n fun u hu => hn u (List.mem_cons_of_mem s hu)⟩
    · obtain ⟨t, ⟨A', S', Y', ht⟩, htcovers, hbound⟩ := hcover f hf
      obtain ⟨A, S, Y, hs⟩ := hs
      have hle := hs.stop_le ht (hbound s.stop hbehind) hcovers htcovers
      have hanchored := hs.anchored hcovers
      have hlt := hs.start_lt
      exact ⟨by omega, hle⟩
  | @merge s t ss es _ ih =>
    obtain ⟨hcover, hbefore⟩ := ih hss.merge
    refine ⟨fun e he => ?_, hbefore⟩
    obtain ⟨u, hu, hcovers, hbound⟩ := hcover e he
    refine ⟨u, hu, hcovers, fun n hn => hbound n fun v hv => ?_⟩
    rcases List.mem_cons.mp hv with rfl | hv
    · exact hn s List.mem_cons_self
    · exact hn v (by simp [hv])

theorem CoversRuns.planned (h : CoversRuns cs ss es) (hss : StatementRow cs ss) :
    Planned cs es.reverse := by
  obtain ⟨hcover, hbefore⟩ := h.ordered hss
  refine ⟨fun e he => ?_, fun e he => ?_, List.pairwise_reverse.mpr hbefore⟩
  · obtain ⟨s, ⟨A, S, Y, hs⟩, hcovers, -⟩ := hcover e (List.mem_reverse.mp he)
    exact ⟨(hs.anchored hcovers).1, (hs.anchored hcovers).2.1⟩
  · obtain ⟨s, ⟨A, S, Y, hs⟩, hcovers, -⟩ := hcover e (List.mem_reverse.mp he)
    have hanchored := hs.anchored hcovers
    have hlt := hs.start_lt
    omega

/-- The imports of a text: each stands in a statement of the text, and the statements come in order.
-/
structure ImportRow (cs : List Char) (ds : List Declaration) : Prop where
  stretch : ∀ d ∈ ds, IsStretch cs d.statement
  ordered : ds.Pairwise fun d e => d.statement = e.statement ∨ d.statement.stop ≤ e.statement.start

theorem ImportRow.sublist {es : List Declaration} (h : ImportRow cs ds) (hes : es.Sublist ds) :
    ImportRow cs es :=
  ⟨fun d hd => h.stretch d (hes.subset hd), h.ordered.sublist hes⟩

/-- The statements of the imports follow each other. -/
theorem ImportRow.statementRow (h : ImportRow cs ds) :
    StatementRow cs ((byStatement ds).map (·.1)) := by
  refine ⟨fun s hs => ?_, ?_⟩
  · obtain ⟨d, hd, rfl⟩ := exists_of_mem_byStatement hs
    exact h.stretch d hd
  induction ds with
  | nil => exact .nil
  | cons d ds ih =>
    obtain ⟨hfirst, -⟩ := List.pairwise_cons.mp h.ordered
    have hrow := h.sublist (List.sublist_cons_self d ds)
    have hordered := ih hrow
    rw [byStatement]
    cases hrest : byStatement ds with
    | nil => exact List.pairwise_singleton _ _
    | cons entry rest =>
      rw [hrest] at hordered
      dsimp only
      split
      · exact hordered
      next hother =>
        obtain ⟨e, he, hentry⟩ := @exists_of_mem_byStatement ds entry.1 (by simp [hrest])
        have hbehind : d.statement.stop ≤ entry.1.start := by
          rcases hfirst e he with hsame | hle
          · exact absurd (hentry.symm.trans hsame.symm) hother
          · rwa [hentry] at hle
        obtain ⟨A, S, Y, hstretch⟩ := hrow.stretch e he
        have hlt := hstretch.start_lt
        rw [hentry] at hlt
        refine List.pairwise_cons.mpr ⟨fun t ht => ?_, hordered⟩
        rcases List.mem_cons.mp ht with rfl | ht
        · exact hbehind
        · have := (List.pairwise_cons.mp hordered).1 t ht
          dsimp only at this ⊢
          omega

theorem planned_removal (h : ImportRow cs a.declarations) : Planned cs (planRemoval cs a) := by
  unfold planRemoval
  split
  · exact .nil cs
  · exact (coversRuns_removalFrom cs _ none _).planned h.statementRow

/-! ## Adding -/

/-- What is put in behind a line goes to the start of the next one. -/
theorem insertAfterLine_span (cs : List Char) (line : Nat) (content : String) :
    (insertAfterLine cs line content).span =
      ⟨lineStart cs (line + 1), lineStart cs (line + 1)⟩ := by
  unfold insertAfterLine
  dsimp only
  split <;> rfl

/-- A new statement goes in front of a line. -/
theorem insertionEdit_span (doc : Document) (a : Analysis) (statement : String) :
    ∃ l, (insertionEdit doc a statement).span = ⟨lineStart doc.text l, lineStart doc.text l⟩ := by
  have hline : ∀ line content, ∃ l, (insertAfterLine doc.text line content).span =
      ⟨lineStart doc.text l, lineStart doc.text l⟩ := fun line content =>
    ⟨line + 1, insertAfterLine_span doc.text line content⟩
  unfold insertionEdit
  dsimp only
  split
  · exact hline _ _
  · split
    · unfold insertAfterNamespace
      dsimp only
      split
      · exact hline _ _
      · exact hline _ _
    · split
      · exact hline _ _
      · have hzero : lineStart doc.text 0 = 0 := lineStart_append (.inl rfl) doc.text
        exact ⟨0, by rw [hzero]; rfl⟩

theorem planned_insertion {name : String} {aliasName : Option String} {localName : String}
    (h : planImport doc a name = .insert e aliasName localName) : Planned doc.text [e] := by
  unfold planImport at h
  dsimp only at h
  split at h
  · cases h
  · split at h
    · cases h
    · obtain ⟨l, hspan⟩ := insertionEdit_span doc a _
      rw [(ImportOutcome.insert.inj h).1] at hspan
      have hanchor := isAnchor_lineStart doc.text l
      exact .singleton (hspan ▸ hanchor) (hspan ▸ hanchor) (hspan ▸ Nat.le_refl _)

/-! ## Sorting -/

/-- The entry of a statement takes in what stands on its lines. -/
theorem blockEntry_append (hlast : S.getLast? = some ';') (A Y : List Char)
    (hd : d.statement = ⟨byteLength A, byteLength A + byteLength S⟩) :
    blockEntry (A ++ (S ++ Y)) d =
      ⟨sortKey d, ⟨byteLength (upToLead A), byteLength A + byteLength S + byteLength (firstLine Y)⟩,
        lead A ++ (S ++ firstLine Y)⟩ := by
  have hspan :
      (⟨lineStart (A ++ (S ++ Y)) (breaks A), lineEnd (A ++ (S ++ Y)) (breaks (A ++ S))⟩ : Span) =
      ⟨byteLength (upToLead A),
        byteLength (upToLead A) + byteLength (lead A ++ (S ++ firstLine Y))⟩ := by
    have hlen := byteLength_upToLead A
    rw [lineStart_lead, lineEnd_append hlast, ← hlen, byteLength_append, byteLength_append]
    congr 1
    omega
  have hslice : (Span.mk (byteLength (upToLead A))
      (byteLength (upToLead A) + byteLength (lead A ++ (S ++ firstLine Y)))).slice (A ++ (S ++ Y)) =
      lead A ++ (S ++ firstLine Y) := by
    obtain ⟨R, hR⟩ := firstLine_isPrefix Y
    have htext : A ++ (S ++ Y) = upToLead A ++ ((lead A ++ (S ++ firstLine Y)) ++ R) := by
      simp only [append_eq_lead A, List.append_assoc, hR]
    rw [htext]
    exact Span.slice_append _ _ _
  rw [blockEntry, hd, lineExtent_append hlast]
  dsimp only
  rw [hspan, hslice, ← hspan, lineStart_lead, lineEnd_append hlast]

/-- The entry of a statement begins in front of it and ends behind it, at anchors. -/
theorem Stretch.blockEntry_span (h : Stretch cs d.statement A S Y) :
    IsAnchor cs (blockEntry cs d).span.start ∧ IsAnchor cs (blockEntry cs d).span.stop ∧
      (blockEntry cs d).span.start ≤ d.statement.start ∧
      d.statement.stop ≤ (blockEntry cs d).span.stop := by
  refine ⟨isAnchor_lineStart cs _, ?_, ?_, ?_⟩
  · rw [h.text, blockEntry_append h.last A Y h.span, ← List.append_assoc]
    dsimp only
    rw [← byteLength_append A]
    refine isAnchor_firstLine ?_ Y
    rw [List.getLast?_append, h.last]
    exact fun hlast => absurd (Option.some.inj hlast) (by decide)
  · have hlen := byteLength_upToLead A
    rw [h.text, blockEntry_append h.last A Y h.span, h.span]
    dsimp only
    omega
  · rw [h.text, blockEntry_append h.last A Y h.span, h.span]
    exact Nat.le_add_right _ _

theorem firstDeclarations_sublist (ds : List Declaration) : (firstDeclarations ds).Sublist ds := by
  induction ds with
  | nil => exact .slnil
  | cons d ds ih =>
    cases ds with
    | nil => exact List.Sublist.refl _
    | cons e ds =>
      rw [firstDeclarations]
      cases hfirst : firstDeclarations (e :: ds) with
      | nil => exact (List.nil_sublist _).cons_cons d
      | cons f fs =>
        rw [hfirst] at ih
        dsimp only
        split
        · exact ((List.sublist_cons_self f fs).trans ih).cons_cons d
        · exact ih.cons_cons d

theorem exists_blockFrom (cs : List Char) (line : Option Nat) (ds : List Declaration) :
    ∃ es : List Declaration, es.Sublist ds ∧ blockFrom cs line ds = es.map (blockEntry cs) := by
  induction ds generalizing line with
  | nil => exact ⟨[], .slnil, by cases line <;> rfl⟩
  | cons d ds ih =>
    have hcons : ∀ last, ∃ es : List Declaration, es.Sublist (d :: ds) ∧
        blockEntry cs d :: blockFrom cs (some last) ds = es.map (blockEntry cs) := fun last => by
      obtain ⟨es, hes, hblock⟩ := ih (some last)
      exact ⟨d :: es, hes.cons_cons d, by rw [hblock, List.map_cons]⟩
    cases line with
    | none =>
      rw [blockFrom]
      split
      · exact hcons _
      · obtain ⟨es, hes, hblock⟩ := ih none
        exact ⟨es, hes.cons d, hblock⟩
    | some line =>
      rw [blockFrom]
      dsimp only
      split
      · exact hcons _
      · exact ⟨[], List.nil_sublist _, rfl⟩

/-- The entries of the block are those of some of the imports. -/
theorem exists_importBlock (cs : List Char) (ds : List Declaration) :
    ∃ es : List Declaration, es.Sublist ds ∧ importBlock cs ds = es.map (blockEntry cs) := by
  obtain ⟨es, hes, hblock⟩ := exists_blockFrom cs none (firstDeclarations ds)
  exact ⟨es, hes.trans (firstDeclarations_sublist ds), hblock⟩

theorem planned_sort (h : ImportRow cs a.declarations) {mode : SortMode}
    (he : planSort cs a mode = some e) : Planned cs [e] := by
  obtain ⟨es, hes, hblock⟩ := exists_importBlock cs a.declarations
  have hrow := h.sublist hes
  unfold planSort at he
  dsimp only at he
  rw [hblock] at he
  split at he
  · cases he
  obtain ⟨span, hspan, rfl⟩ := Option.map_eq_some_iff.mp he
  cases es with
  | nil => cases hspan
  | cons d ds =>
    -- the block reaches from the lines of its first import to those of its last one
    obtain ⟨l, hl⟩ : ∃ l, (d :: ds).getLast? = some l :=
      ⟨_, List.getLast?_eq_some_getLast (List.cons_ne_nil d ds)⟩
    have hspan' : span = ⟨(blockEntry cs d).span.start, (blockEntry cs l).span.stop⟩ := by
      rw [blockSpan?, List.getLast?_map, hl] at hspan
      exact (Option.some.inj hspan).symm
    have hl' : l ∈ d :: ds := List.mem_of_getLast? hl
    obtain ⟨A, S, Y, hd⟩ := hrow.stretch d List.mem_cons_self
    obtain ⟨A', S', Y', hlast⟩ := hrow.stretch l hl'
    obtain ⟨hstart, -, hbegin, -⟩ := hd.blockEntry_span
    obtain ⟨-, hstop, -, hend⟩ := hlast.blockEntry_span
    have hle : d.statement.start ≤ l.statement.stop := by
      have hdlt := hd.start_lt
      have hllt := hlast.start_lt
      rcases List.mem_cons.mp hl' with rfl | hl'
      · omega
      · rcases (List.pairwise_cons.mp hrow.ordered).1 l hl' with hsame | hbehind
        · rw [hsame]
          omega
        · omega
    rw [hspan']
    exact .singleton hstart hstop (by dsimp only; omega)

/-! ## Expanding and collapsing -/

/-- An occurrence of a word between two pieces of code. -/
def occurrenceAt (a w b : List Char) : Cursor × Cursor :=
  (⟨a.reverse, w ++ b⟩, ⟨(a ++ w).reverse, b⟩)

theorem spanTo_occurrenceAt (a w b : List Char) :
    (occurrenceAt a w b).1.spanTo (occurrenceAt a w b).2 =
    ⟨byteLength a, byteLength a + byteLength w⟩ := by
  rw [spanTo, offset, offset, occurrenceAt, byteLength_reverse, byteLength_reverse,
    byteLength_append]

/-- Whatever is found as an occurrence of a word is one. -/
theorem exists_of_mem_occurrences {code : List Char} {word : String} {x : Cursor × Cursor}
    (h : x ∈ occurrences code word) :
    ∃ a b, code = a ++ (word.toList ++ b) ∧ x = occurrenceAt a word.toList b := by
  obtain ⟨c, d, hread, hreach, -⟩ := mem_findAll h
  obtain ⟨stop, hstop, heq⟩ := Option.map_eq_some_iff.mp hread
  obtain ⟨rfl, -⟩ := Prod.mk.inj heq
  obtain ⟨b, hb, rfl⟩ := literal?_eq_some hstop
  refine ⟨c.before.reverse, b, ?_, ?_⟩
  · rw [← hb]
    exact hreach.text_eq
  · rw [occurrenceAt, ← hb, List.reverse_append, List.reverse_reverse]

/-- The reader of a word finds it where it stands. -/
theorem of_literalPlace {c : Cursor} {a : Cursor × Cursor} {d : Cursor}
    (h : ((c.literal? word).map fun stop => ((c, stop), stop)) = some (a, d)) :
    a = (c, d) ∧ c.Reaches d := by
  obtain ⟨stop, hstop, heq⟩ := Option.map_eq_some_iff.mp h
  obtain ⟨rfl, rfl⟩ := Prod.mk.inj heq
  obtain ⟨b, hb, rfl⟩ := literal?_eq_some hstop
  exact ⟨rfl, word.toList, hb, rfl⟩

theorem occurrences_pairwise (code : List Char) (word : String) :
    (occurrences code word).Pairwise fun x y => x.2.before.length ≤ y.1.before.length :=
  (@findFrom_pairwise _ id _ of_literalPlace 0 [] code).2

/-- **Any of the occurrences of a word that can be seen may be replaced.** -/
theorem planned_occurrences {known : List Verdict} {T code : List Char}
    (hview : viewFrom known m T = .ok code) (hne : word.toList ≠ [])
    (hword : ∀ c ∈ word.toList, isBlank c = false) (p : Cursor × Cursor → Bool) (new : String) :
    Planned T ((((occurrences code word).filter p).map fun x =>
      Edit.mk (x.1.spanTo x.2) new).reverse) := by
  have hplace : ∀ x ∈ occurrences code word, ∃ A B, T = A ++ (word.toList ++ B) ∧
      x.1.spanTo x.2 = ⟨byteLength A, byteLength A + byteLength word.toList⟩ := by
    intro x hx
    obtain ⟨a, b, hcode, rfl⟩ := exists_of_mem_occurrences hx
    rw [hcode] at hview
    obtain ⟨A, B, hT, hA⟩ := exists_piece_of_visible hview hne hword
    refine ⟨A, B, hT, ?_⟩
    rw [spanTo_occurrenceAt, hA]
  have hends : ∀ x ∈ occurrences code word, IsAnchor T (x.1.spanTo x.2).start ∧
      IsAnchor T (x.1.spanTo x.2).stop ∧
      (x.1.spanTo x.2).start < (x.1.spanTo x.2).stop := by
    intro x hx
    obtain ⟨A, B, rfl, hspan⟩ := hplace x hx
    have hpos := byteLength_pos hne
    have hanchors := @isAnchor_of_word A _ B hne hword
    rw [hspan]
    exact ⟨hanchors.1, hanchors.2, by dsimp only; omega⟩
  have hbefore : (occurrences code word).Pairwise fun x y =>
      (Edit.mk (x.1.spanTo x.2) new).Before (Edit.mk (y.1.spanTo y.2) new) := by
    refine (occurrences_pairwise code word).imp_of_mem fun {x y} hx hy hlen => ?_
    have hle : (x.1.spanTo x.2).stop ≤ (y.1.spanTo y.2).start := by
      obtain ⟨a, b, hcode, rfl⟩ := exists_of_mem_occurrences hx
      obtain ⟨a', b', hcode', rfl⟩ := exists_of_mem_occurrences hy
      -- both are initial parts of the code, so the shorter one begins the longer one
      have hfront : a ++ word.toList <+: code := ⟨b, by rw [hcode, List.append_assoc]⟩
      have hfront' : a' <+: code := ⟨word.toList ++ b', hcode'.symm⟩
      obtain ⟨t, ht⟩ :=
        List.prefix_of_prefix_length_le hfront hfront'
        (by simpa [occurrenceAt, Nat.add_comm] using hlen)
      have hle := congrArg byteLength ht
      rw [byteLength_append, byteLength_append] at hle
      rw [spanTo_occurrenceAt, spanTo_occurrenceAt]
      dsimp only
      omega
    have hlt := (hends x hx).2.2
    exact ⟨by dsimp only; omega, hle⟩
  have hmem : ∀ e ∈ (((occurrences code word).filter p).map fun x =>
      Edit.mk (x.1.spanTo x.2) new).reverse,
      ∃ x ∈ occurrences code word, e = ⟨x.1.spanTo x.2, new⟩ := by
    intro e he
    obtain ⟨x, hx, rfl⟩ := List.mem_map.mp (List.mem_reverse.mp he)
    exact ⟨x, List.mem_of_mem_filter hx, rfl⟩
  refine ⟨fun e he => ?_, fun e he => ?_, ?_⟩
  · obtain ⟨x, hx, rfl⟩ := hmem e he
    exact ⟨(hends x hx).1, (hends x hx).2.1⟩
  · obtain ⟨x, hx, rfl⟩ := hmem e he
    exact Nat.le_of_lt (hends x hx).2.2
  · exact List.pairwise_reverse.mpr (List.pairwise_map.mpr (hbefore.sublist List.filter_sublist))

theorem toList_fullyQualified (name : String) :
    (fullyQualified name).toList = '\\' :: (stripLeading name).toList := by
  rw [fullyQualified, String.toList_append]
  rfl

section Planners

variable (hview : viewFrom [] m doc.text = .ok doc.code)

include hview

theorem importRow_declarations : ImportRow doc.text doc.declarations where
  stretch _ hd := (isUseStatement_of_mem hview hd).isStretch
  ordered := (declarations_pairwise doc).imp fun h => h.1

theorem planned_expand {short : String} (hshort : IsIdent short.toList) (fqn : String) :
    Planned doc.text (expandReferences doc short fqn) := by
  unfold expandReferences
  split
  · exact .nil _
  · exact planned_occurrences hview hshort.ne_nil (fun c hc =>
      isBlank_of_isWordChar (hshort.word c hc)) _ _

theorem planned_collapse {fqn : String} (hfqn : IsName (stripLeading fqn).toList) (short : String) :
    Planned doc.text (collapseReferences doc fqn short) := by
  refine planned_occurrences hview (by rw [toList_fullyQualified]; exact List.cons_ne_nil _ _)
    (fun c hc => ?_) _ _
  rw [toList_fullyQualified] at hc
  rcases List.mem_cons.mp hc with rfl | hc
  · decide
  · rcases hfqn.mem c hc with hc | rfl
    · exact isBlank_of_isWordChar hc
    · decide

end Planners

/-- No two of the edits overlap, and they are listed from the last one in the text to the first. -/
def Descending (es : List Edit) : Prop :=
  es.Pairwise fun a b => b.span.stop ≤ a.span.start ∧ b.span.start < a.span.start

theorem Planned.isDescending (h : Planned cs es) : Descending es :=
  h.descending.imp fun h => ⟨h.2, h.1⟩

/-- **Planned edits never conflict**: whatever is planned for a text is applied to it, and the
batches come without overlaps, the last edit first. -/
theorem planned_edits_apply {text : String} {doc : Document}
    (h : Document.ofString text = .ok doc) :
    (∃ text', applyEdits text (planRemoval doc.text doc.analyze) = .ok text') ∧
    (∀ f e aliasName localName, planImport doc doc.analyze f = .insert e aliasName localName →
      ∃ text', applyEdits text [e] = .ok text') ∧
    (∀ mode e, planSort doc.text doc.analyze mode = some e →
      ∃ text', applyEdits text [e] = .ok text') ∧
    (∀ s q, IsIdent s.toList → IsName (stripLeading q).toList →
      (∃ text', applyEdits text (expandReferences doc s q) = .ok text') ∧
      (∃ text', applyEdits text (collapseReferences doc q s) = .ok text') ∧
      Descending (expandReferences doc s q) ∧ Descending (collapseReferences doc q s)) ∧
    Descending (planRemoval doc.text doc.analyze) := by
  obtain ⟨code, hcode, rfl⟩ := map_ok_iff.mp h
  have hview : viewFrom [] (startMode text.toList) text.toList = .ok code := hcode
  have hrow := @importRow_declarations ⟨text.toList, code⟩ _ hview
  have happlies : ∀ {es : List Edit}, Planned text.toList es → ∃ text', applyEdits text es =
      .ok text' := by
    intro es hes
    have := hes.applies
    rwa [String.ofList_toList] at this
  have hremoval :
      Planned text.toList (planRemoval text.toList (Document.mk text.toList code).analyze) :=
    planned_removal hrow
  refine ⟨happlies hremoval, fun f e aliasName localName he => happlies (planned_insertion he),
    fun mode e he => happlies (planned_sort hrow he), fun s q hs hq => ?_, hremoval.isDescending⟩
  have hexpand := @planned_expand ⟨text.toList, code⟩ _ hview s hs q
  have hcollapse := @planned_collapse ⟨text.toList, code⟩ _ hview q hq s
  exact ⟨happlies hexpand, happlies hcollapse, hexpand.isDescending, hcollapse.isDescending⟩

/-- A document with an import and two references that can be expanded. -/
def expandableDocument : Document :=
  ⟨"<?php\nuse A\\B;\nnew D; new D;\n".toList, "     \nuse A\\B;\nnew D; new D;\n".toList⟩

/-- The import can be removed, and both references can be expanded. -/
theorem planned_edits_apply_expandable :
    expandableDocument.declarations.length = 1 ∧
      (expandReferences expandableDocument "D" "E\\D").length = 2 ∧
      Descending (expandReferences expandableDocument "D" "E\\D") ∧
      (∃ text', applyEdits "<?php\nuse A\\B;\nnew D; new D;\n"
        (planRemoval expandableDocument.text expandableDocument.analyze) = .ok text') ∧
      ∃ text', applyEdits "<?php\nuse A\\B;\nnew D; new D;\n"
        (expandReferences expandableDocument "D" "E\\D") = .ok text' := by
  obtain ⟨hremoval, -, -, hnames, -⟩ :=
    @planned_edits_apply "<?php\nuse A\\B;\nnew D; new D;\n" expandableDocument (by decide +kernel)
  obtain ⟨hexpand, -, hdescending, -⟩ :=
    hnames "D" "E\\D" ⟨by decide, by decide⟩ ⟨by decide +kernel, by decide +kernel⟩
  exact ⟨by decide +kernel, by decide +kernel, hdescending, hremoval, hexpand⟩

end UseImports
