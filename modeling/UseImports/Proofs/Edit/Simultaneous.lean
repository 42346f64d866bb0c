import UseImports.Proofs.Declaration.Structure
import UseImports.Proofs.Edit.Batch

/-!
# A batch of edits is applied at once

Edits are applied one by one, the last one first (`apply_edits`). Since no edit reaches into the
text in front of its span, the result is the same as if all of them had been applied at once: what
no edit covers stays, and the replacements stand between. Several edits may insert at one place,
where they keep the order in which they are given; the order of all others does not matter.

* `Edit.Fits`, `Edit.Follows`: a span that fits the text, and an edit behind another one.
* `StablyOrdered`: the edits in the order of the text. There is one such order
  (`StablyOrdered.unique`).
* `splice`: the pieces of the text that no edit covers, and the replacements between them.
* `FirstFault`: the first thing that is wrong with a batch.
* `edits_simultaneous`: **a batch is applied at once, or refused for its first fault.**
-/

namespace UseImports

variable {A cs : List Char} {e : Edit} {s : Span} {edits es fs ordered : List Edit}
    {err : EditError}

/-! ## Spans that fit -/

/-- The span of the edit fits the text: its ends are in order, lie in the text and cut no character.
-/
structure Edit.Fits (cs : List Char) (e : Edit) : Prop where
  ordered : e.span.start ≤ e.span.stop
  start : isBoundary cs e.span.start = true
  stop : isBoundary cs e.span.stop = true

/-- The text around a span that fits it, behind a part of the text that the span does not reach
into. -/
theorem Edit.Fits.exists_split {B : List Char} (h : e.Fits (A ++ B))
    (hle : byteLength A ≤ e.span.start) :
    ∃ M O Y, B = M ++ (O ++ Y) ∧
      e.span = ⟨byteLength (A ++ M), byteLength (A ++ M) + byteLength O⟩ := by
  obtain ⟨A₁, B₁, hstart, hA₁⟩ := isBoundary_iff.mp h.start
  obtain ⟨A₂, B₂, hstop, hA₂⟩ := isBoundary_iff.mp h.stop
  have hordered := h.ordered
  obtain ⟨M, rfl, rfl⟩ := append_eq_append_of_le hstart (by omega)
  rw [← List.append_assoc] at hstop
  obtain ⟨O, rfl, rfl⟩ := append_eq_append_of_le hstop (by omega)
  refine ⟨M, O, B₂, rfl, ?_⟩
  rw [← byteLength_append (A ++ M), hA₁, hA₂]

/-- What is cut out of a text makes up the text. -/
theorem Span.eq_of_cut? {O Y : List Char} (h : s.cut? cs = some (A, O, Y)) :
    cs = A ++ (O ++ Y) ∧ s.start = byteLength A ∧ s.stop = byteLength A + byteLength O := by
  rw [Span.cut?] at h
  split at h
  · cases h
  rename_i hordered
  obtain ⟨⟨A', R⟩, hA, h⟩ := Option.bind_eq_some_iff.mp h
  obtain ⟨⟨O', Y'⟩, hO, heq⟩ := Option.bind_eq_some_iff.mp h
  obtain ⟨rfl, rfl, rfl⟩ : A' = A ∧ O' = O ∧ Y' = Y := by simpa using heq
  have hstart := byteLength_of_splitAtByte hA
  have hstop := byteLength_of_splitAtByte hO
  refine ⟨?_, hstart.symm, by omega⟩
  rw [append_of_splitAtByte hO, append_of_splitAtByte hA]

theorem Edit.fits_iff : e.fits cs = true ↔ e.Fits cs := by
  rw [Edit.fits, Option.isSome_iff_exists]
  constructor
  · rintro ⟨⟨A, O, Y⟩, hcut⟩
    obtain ⟨rfl, hstart, hstop⟩ := Span.eq_of_cut? hcut
    refine ⟨by omega, isBoundary_iff.mpr ⟨A, O ++ Y, rfl, hstart.symm⟩,
      isBoundary_iff.mpr ⟨A ++ O, Y, by rw [List.append_assoc], ?_⟩⟩
    rw [byteLength_append, hstop]
  · intro h
    obtain ⟨M, O, Y, rfl, hspan⟩ := Edit.Fits.exists_split (A := []) h (Nat.zero_le _)
    rw [hspan]
    exact ⟨_, Span.cut?_append M O Y⟩

/-- The second edit starts where the first one ends, or behind. -/
def Edit.Follows (a b : Edit) : Prop :=
  a.span.stop ≤ b.span.start

/-- Edits each of which follows the one before it follow all before them: what fits does not end
before it starts. -/
theorem pairwise_follows (hfits : ∀ e ∈ es, e.Fits cs) (h : es.IsChain Edit.Follows) :
    es.Pairwise Edit.Follows := by
  induction es with
  | nil => exact .nil
  | cons a es ih =>
    cases es with
    | nil => exact List.pairwise_singleton ..
    | cons b es =>
      obtain ⟨hab, hchain⟩ := List.isChain_cons_cons.mp h
      have hrest := ih (fun e he => hfits e (List.mem_cons_of_mem a he)) hchain
      refine List.pairwise_cons.mpr ⟨fun c hc => ?_, hrest⟩
      rcases List.mem_cons.mp hc with rfl | hc
      · exact hab
      · have hbc : b.span.stop ≤ c.span.start := (List.pairwise_cons.mp hrest).1 c hc
        have hb := (hfits b (by simp)).ordered
        unfold Edit.Follows at hab ⊢
        omega

/-! ## The order of the text -/

/-- The edits of the batch by their starts, and by their ends where they start together; edits with
the same span stand as they do in the batch. -/
structure StablyOrdered (edits ordered : List Edit) : Prop where
  sorted : ordered.Pairwise fun a b =>
    a.span.start < b.span.start ∨ a.span.start = b.span.start ∧ a.span.stop ≤ b.span.stop
  same : ∀ s, ordered.filter (·.span = s) = edits.filter (·.span = s)

namespace StablyOrdered

/-- Batches that agree on each span hold the same edits. -/
theorem perm_of_same (h : ∀ s, es.filter (·.span = s) = fs.filter (·.span = s)) : es.Perm fs := by
  refine List.perm_iff_count.mpr fun e => ?_
  have hcount : ∀ gs : List Edit, (gs.filter (·.span = e.span)).count e = gs.count e := fun gs =>
    List.count_filter (by simp)
  rw [← hcount es, ← hcount fs, h]

theorem perm (h : StablyOrdered edits ordered) : ordered.Perm edits :=
  perm_of_same h.same

/-- **There is only one such order.** -/
theorem unique (h : StablyOrdered edits es) (h' : StablyOrdered edits fs) : es = fs := by
  -- the lists are compared with each other, so that the batch may be forgotten
  obtain ⟨hes, hsame⟩ := h
  obtain ⟨hfs, hsame'⟩ := h'
  replace hsame : ∀ s, es.filter (·.span = s) = fs.filter (·.span = s) := fun s =>
    (hsame s).trans (hsame' s).symm
  clear hsame'
  induction es generalizing fs with
  | nil => exact (List.nil_perm.mp (perm_of_same hsame)).symm
  | cons a es ih =>
    obtain ⟨b, fs, rfl⟩ := List.exists_cons_of_ne_nil fun hnil =>
      List.cons_ne_nil a es (List.perm_nil.mp (hnil ▸ perm_of_same hsame))
    obtain ⟨ha, hrest⟩ := List.pairwise_cons.mp hes
    obtain ⟨hb, hrest'⟩ := List.pairwise_cons.mp hfs
    -- each of the first edits comes before the other one
    have hle : ∀ {c d : Edit} {gs : List Edit}, (∀ e ∈ gs, c.span.start < e.span.start ∨
        c.span.start = e.span.start ∧ c.span.stop ≤ e.span.stop) → d ∈ c :: gs →
          c.span.le d.span = true := by
      intro c d gs hc hd
      rcases List.mem_cons.mp hd with rfl | hd
      · exact Span.le_refl _
      · exact Span.le_iff.mpr (hc d hd)
    have hspan : a.span = b.span := Span.le_antisymm
      (hle ha ((perm_of_same hsame).mem_iff.mpr List.mem_cons_self))
      (hle hb ((perm_of_same hsame).mem_iff.mp List.mem_cons_self))
    obtain rfl : a = b := by
      have hhead := hsame a.span
      rw [List.filter_cons_of_pos (by simp), List.filter_cons_of_pos (by simp [hspan])] at hhead
      exact (List.cons.inj hhead).1
    refine congrArg (List.cons a) (ih hrest hrest' fun s => ?_)
    have htail := hsame s
    by_cases hs : a.span = s
    · rw [List.filter_cons_of_pos (by simpa using hs),
        List.filter_cons_of_pos (by simpa using hs)] at htail
      exact (List.cons.inj htail).2
    · rwa [List.filter_cons_of_neg (by simpa using hs),
        List.filter_cons_of_neg (by simpa using hs)] at htail

end StablyOrdered

theorem stablyOrdered_inTextOrder (edits : List Edit) :
    StablyOrdered edits (inTextOrder edits) where
  sorted := by
    have hsorted := @List.pairwise_mergeSort Edit (fun a b =>
      a.span.le b.span) (fun _ _ _ => Span.le_trans) (fun a b => Span.le_total a.span b.span) edits
    exact hsorted.imp fun hab => Span.le_iff.mp hab
  same s := by
    refine @filter_mergeSort Edit (fun a b => a.span.le b.span) (fun _ _ _ => Span.le_trans)
      (fun a b => Span.le_total a.span b.span) _ (fun a b ha hb => ?_) edits
    rw [of_decide_eq_true ha, of_decide_eq_true hb]
    exact Span.le_refl s

theorem StablyOrdered.inTextOrder_eq (h : StablyOrdered edits ordered) :
    inTextOrder edits = ordered :=
  (stablyOrdered_inTextOrder edits).unique h

/-! ## All edits at once -/

/-- The text from an offset on with the edits in it: the pieces that no edit covers, and the
replacements between them. -/
def splice (cs : List Char) : (offset : Nat) → List Edit → List Char
  | offset, [] => (Span.mk offset (byteLength cs)).slice cs
  | offset, e :: es =>
    (Span.mk offset e.span.start).slice cs ++ (e.replacement.toList ++ splice cs e.span.stop es)

/-- Two insertions at one place, in front of a replacement that starts there. -/
example : splice "abc".toList 0 [⟨⟨1, 1⟩, "x"⟩, ⟨⟨1, 1⟩, "y"⟩, ⟨⟨1, 2⟩, "z"⟩] =
  "axyzc".toList := by decide

/-- **Edits that are applied from the last one to the first leave what stands in front of them as it
is**, so each of them still fits. -/
theorem foldr_applyTo_eq_splice {A B : List Char} {es : List Edit}
    (hfits : ∀ e ∈ es, e.Fits (A ++ B)) (hbehind : ∀ e ∈ es.head?, byteLength A ≤ e.span.start)
    (hchain : es.IsChain Edit.Follows) :
    es.foldr Edit.applyTo (A ++ B) = A ++ splice (A ++ B) (byteLength A) es := by
  induction es generalizing A B with
  | nil =>
    have hslice := Span.slice_append A B []
    rw [List.append_nil, ← byteLength_append] at hslice
    rw [splice, hslice]
    rfl
  | cons e es ih =>
    obtain ⟨M, O, Y, rfl, hspan⟩ := (hfits e List.mem_cons_self).exists_split (hbehind e rfl)
    have hstart : e.span.start = byteLength (A ++ M) := by rw [hspan]
    have hstop : e.span.stop = byteLength (A ++ M ++ O) := by rw [hspan, byteLength_append (A ++ M)]
    have htext : A ++ (M ++ (O ++ Y)) = (A ++ M ++ O) ++ Y := by simp only [List.append_assoc]
    have hrest := @ih (A ++ M ++ O) Y (fun f hf => htext ▸ hfits f (List.mem_cons_of_mem e hf))
      (fun f hf => by
        rw [← hstop]
        cases es with
        | nil => cases hf
        | cons g es =>
          obtain rfl := Option.some.inj hf
          exact (List.isChain_cons_cons.mp hchain).1)
      hchain.tail
    rw [← htext, ← hstop] at hrest
    have hslice := Span.slice_append A M (O ++ Y)
    have hcut := Span.cut?_append (A ++ M) O (splice (A ++ (M ++ (O ++ Y))) e.span.stop es)
    rw [← byteLength_append, ← hstart] at hslice
    rw [← hspan] at hcut
    rw [List.foldr_cons, hrest, Edit.applyTo, List.append_assoc (A ++ M), hcut, splice, hslice]
    simp only [List.append_assoc]

/-! ## What is wrong with a batch -/

/-- The first thing that is wrong with edits in the order of the text: the first span that does not
fit, or else, where all of them fit, the first two neighbours that overlap. -/
inductive FirstFault (cs : List Char) (ordered : List Edit) : EditError → Prop
  | outOfRange {front back : List Edit} {e : Edit} : ordered = front ++ e :: back →
      (∀ f ∈ front, f.Fits cs) →
      ¬ e.Fits cs → FirstFault cs ordered (.outOfRange e.span (byteLength cs))
  | overlap {front back : List Edit} {a b : Edit} : (∀ e ∈ ordered, e.Fits cs) →
      ordered = front ++ a :: b :: back → (front ++ [a]).IsChain Edit.Follows →
      b.span.start < a.span.stop →
      FirstFault cs ordered (.overlap a.span b.span)

theorem firstOverlap?_eq_none_iff : firstOverlap? es = none ↔ es.IsChain Edit.Follows := by
  induction es with
  | nil => simp [firstOverlap?]
  | cons a es ih =>
    cases es with
    | nil => simp [firstOverlap?]
    | cons b es =>
      rw [firstOverlap?, List.isChain_cons_cons, ← ih, Edit.Follows]
      split
      · rename_i hlt
        simp only [reduceCtorEq, false_iff, not_and]
        omega
      · rename_i hle
        simp only [iff_and_self]
        omega

theorem firstOverlap?_eq_some_iff {t : Span} :
    firstOverlap? es = some (s, t) ↔ ∃ front a b back, es = front ++ a :: b :: back ∧
    a.span = s ∧ b.span = t ∧
      (front ++ [a]).IsChain Edit.Follows ∧ b.span.start < a.span.stop := by
  constructor
  · intro h
    induction es with
    | nil => cases h
    | cons a es ih =>
      cases es with
      | nil => cases h
      | cons b es =>
        rw [firstOverlap?] at h
        split at h
        · rename_i hlt
          obtain ⟨rfl, rfl⟩ := Prod.mk.inj (Option.some.inj h)
          exact ⟨[], a, b, es, rfl, rfl, rfl, .singleton a, hlt⟩
        · rename_i hle
          obtain ⟨front, c, d, back, hes, hc, hd, hchain, hlt⟩ := ih h
          refine ⟨a :: front, c, d, back, by rw [hes, List.cons_append], hc, hd, ?_, hlt⟩
          -- the list behind `a` begins with `b`, also where it is cut
          obtain ⟨rest, hrest⟩ : ∃ rest, front ++ [c] = b :: rest := by
            cases front with
            | nil => exact ⟨[], by rw [(List.cons.inj hes).1]; rfl⟩
            | cons f front => exact ⟨front ++ [c], by rw [(List.cons.inj hes).1]; rfl⟩
          rw [hrest] at hchain
          rw [List.cons_append, hrest]
          exact List.isChain_cons_cons.mpr ⟨Nat.le_of_not_lt hle, hchain⟩
  · rintro ⟨front, a, b, back, rfl, rfl, rfl, hchain, hlt⟩
    induction front with
    | nil => rw [List.nil_append, firstOverlap?, if_pos hlt]
    | cons c front ih =>
      have hrest := ih hchain.tail
      cases front with
      | nil =>
        have hca : c.span.stop ≤ a.span.start := (List.isChain_cons_cons.mp hchain).1
        rw [List.cons_append, List.nil_append, firstOverlap?, if_neg (by omega)]
        exact hrest
      | cons d front =>
        have hcd : c.span.stop ≤ d.span.start := (List.isChain_cons_cons.mp hchain).1
        rw [List.cons_append, List.cons_append, firstOverlap?, if_neg (by omega)]
        exact hrest

/-! ## Batches -/

section Ordered

variable {text : String} (h : StablyOrdered edits ordered)
include h

theorem applyEdits_eq_splice (hfits : ∀ e ∈ ordered, e.Fits text.toList)
    (hchain : ordered.IsChain Edit.Follows) :
    applyEdits text edits = .ok (String.ofList (splice text.toList 0 ordered)) := by
  have hnone : (ordered.find? fun e => !e.fits text.toList) = none :=
    List.find?_eq_none.mpr fun e he => by simp [Edit.fits_iff.mpr (hfits e he)]
  have hfold := @foldr_applyTo_eq_splice [] text.toList ordered hfits (fun _ _ =>
    Nat.zero_le _) hchain
  rw [List.nil_append, List.nil_append] at hfold
  unfold applyEdits
  rw [h.inTextOrder_eq]
  dsimp only
  rw [hnone, firstOverlap?_eq_none_iff.mpr hchain, hfold]
  rfl

theorem applyEdits_eq_error (hfault : FirstFault text.toList ordered err) :
    applyEdits text edits = .error err := by
  unfold applyEdits
  rw [h.inTextOrder_eq]
  dsimp only
  cases hfault with
  | @outOfRange front back e hsplit hfront he =>
    have hfind : ordered.find? (fun e => !e.fits text.toList) = some e := by
      refine List.find?_eq_some_iff_append.mpr ⟨?_, front, back, hsplit, fun f hf => ?_⟩
      · rw [Bool.not_eq_true', Bool.eq_false_iff, ne_eq, Edit.fits_iff]
        exact he
      · simpa using Edit.fits_iff.mpr (hfront f hf)
    rw [hfind]
  | @overlap front back a b hfits hsplit hchain hlt =>
    have hnone : (ordered.find? fun e => !e.fits text.toList) = none :=
      List.find?_eq_none.mpr fun e he => by simp [Edit.fits_iff.mpr (hfits e he)]
    rw [hnone, firstOverlap?_eq_some_iff.mpr ⟨front, a, b, back, hsplit, rfl, rfl, hchain, hlt⟩]

omit h in
/-- A batch has a first fault, or its edits fit and follow each other. -/
theorem fault_or_chain (cs : List Char) (ordered : List Edit) :
    (∃ err, FirstFault cs ordered err) ∨ (∀ e ∈ ordered, e.Fits cs) ∧
    ordered.IsChain Edit.Follows := by
  cases hfind : ordered.find? fun e => !e.fits cs with
  | some e =>
    obtain ⟨he, front, back, hsplit, hfront⟩ := List.find?_eq_some_iff_append.mp hfind
    refine .inl ⟨_, .outOfRange hsplit (fun f hf => Edit.fits_iff.mp ?_) fun hfits => ?_⟩
    · simpa using hfront f hf
    · simp [Edit.fits_iff.mpr hfits] at he
  | none =>
    have hfits : ∀ e ∈ ordered, e.Fits cs := fun e he =>
      Edit.fits_iff.mp (by simpa using List.find?_eq_none.mp hfind e he)
    cases hoverlap : firstOverlap? ordered with
    | none => exact .inr ⟨hfits, firstOverlap?_eq_none_iff.mp hoverlap⟩
    | some pair =>
      obtain ⟨front, a, b, back, hsplit, -, -, hchain, hlt⟩ := firstOverlap?_eq_some_iff.mp hoverlap
      exact .inl ⟨_, .overlap hfits hsplit hchain hlt⟩

theorem applyEdits_eq_error_iff :
    applyEdits text edits = .error err ↔ FirstFault text.toList ordered err := by
  refine ⟨fun herr => ?_, applyEdits_eq_error h⟩
  rcases fault_or_chain text.toList ordered with ⟨other, hfault⟩ | ⟨hfits, hchain⟩
  · rw [applyEdits_eq_error h hfault] at herr
    exact Except.error.inj herr ▸ hfault
  · rw [applyEdits_eq_splice h hfits hchain] at herr
    cases herr

theorem exists_applyEdits_iff :
    (∃ result, applyEdits text edits = .ok result) ↔
      (∀ e ∈ edits, e.Fits text.toList) ∧ ordered.IsChain Edit.Follows := by
  simp only [← h.perm.mem_iff]
  constructor
  · rintro ⟨result, hok⟩
    rcases fault_or_chain text.toList ordered with ⟨err, hfault⟩ | hsound
    · rw [applyEdits_eq_error h hfault] at hok
      cases hok
    · exact hsound
  · rintro ⟨hfits, hchain⟩
    exact ⟨_, applyEdits_eq_splice h hfits hchain⟩

end Ordered

/-- **A batch of edits is applied at once.** In the one stable order of its edits by start and end,
it is applied exactly when every span fits the text and none starts in front of the end of the one
before it; then none reaches into any other, and the result is made up of the pieces that no edit
covers and the replacements. A batch with the same edits, of which those with one span are in the
same order, comes to the same. What is refused is refused for its first fault. -/
theorem edits_simultaneous (text : String) (edits : List Edit) :
    ∃ ordered, StablyOrdered edits ordered ∧
      (∀ other, StablyOrdered edits other → other = ordered) ∧
      ((∃ result, applyEdits text edits = .ok result) ↔
        (∀ e ∈ edits, e.Fits text.toList) ∧ ordered.IsChain Edit.Follows) ∧
      (∀ result, applyEdits text edits = .ok result →
        result.toList = splice text.toList 0 ordered ∧ ordered.Pairwise Edit.Follows) ∧
      (∀ edits', (∀ s, edits'.filter (·.span = s) = edits.filter (·.span = s)) →
        applyEdits text edits' = applyEdits text edits) ∧
      ∀ err, applyEdits text edits = .error err ↔ FirstFault text.toList ordered err := by
  have h := stablyOrdered_inTextOrder edits
  refine ⟨inTextOrder edits, h, fun other hother => hother.unique h, exists_applyEdits_iff h,
    fun result hok => ?_, fun edits' hsame => ?_, fun err => applyEdits_eq_error_iff h⟩
  · obtain ⟨hfits, hchain⟩ := (exists_applyEdits_iff h).mp ⟨result, hok⟩
    have hfits' : ∀ e ∈ inTextOrder edits, e.Fits text.toList := fun e he =>
      hfits e (h.perm.mem_iff.mp he)
    rw [applyEdits_eq_splice h hfits' hchain] at hok
    obtain rfl := Except.ok.inj hok
    exact ⟨String.toList_ofList, pairwise_follows hfits' hchain⟩
  · have hordered : StablyOrdered edits' (inTextOrder edits) :=
      ⟨h.sorted, fun s => (h.same s).trans (hsame s).symm⟩
    unfold applyEdits
    rw [hordered.inTextOrder_eq]

end UseImports
