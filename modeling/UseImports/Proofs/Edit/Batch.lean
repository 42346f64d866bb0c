import UseImports.Edit.Basic
import UseImports.Proofs.Code.Exchange

/-!
# Batches of edits

A batch whose edits stand in the order of the text, none of them empty and each behind the end of
the one before it, is never refused (`apply_edits`): what stands between the edits stays, and each
replacement takes the place of what it replaces.

* `Edit.Before`: edits one of which stands in front of the other.
* `Patched`: the text that edits in order make of a text.
* `Patched.applyEdits`: **a batch in any order is applied as it says.**
-/

namespace UseImports

variable {es fs : List Edit} {P X : List Char}

/-- The first edit starts and ends in front of the second one. -/
def Edit.Before (a b : Edit) : Prop :=
  a.span.start < b.span.start ∧ a.span.stop ≤ b.span.start

/-- Edits that stand one in front of the other have no two that overlap. -/
theorem firstOverlap?_eq_none (h : es.Pairwise Edit.Before) : firstOverlap? es = none := by
  induction es with
  | nil => rfl
  | cons a es ih =>
    obtain ⟨ha, hes⟩ := List.pairwise_cons.mp h
    cases es with
    | nil => rfl
    | cons b es =>
      rw [firstOverlap?, if_neg (Nat.not_lt.mpr (ha b List.mem_cons_self).2)]
      exact ih hes

/-- Edits in the order of the text are put in that order whatever order they are given in. -/
theorem inTextOrder_of_perm (hperm : fs.Perm es) (h : es.Pairwise Edit.Before) :
    inTextOrder fs = es := by
  have hsorted : (inTextOrder fs).Pairwise fun a b => a.span.le b.span = true :=
    @List.pairwise_mergeSort Edit (fun a b => a.span.le b.span) (fun _ _ _ hab hbc =>
      Span.le_trans hab hbc) (fun a b => Span.le_total a.span b.span) fs
  have hle : es.Pairwise fun a b => a.span.le b.span = true :=
    h.imp fun hab => Span.le_iff.mpr (.inl hab.1)
  refine ((List.mergeSort_perm fs _).trans hperm).eq_of_pairwise (fun a b ha hb hab hba =>
    ?_) hsorted hle
  -- edits with one span are one edit, since those that follow each other differ in their spans
  have hdiffer : es.Pairwise fun a b => a.span ≠ b.span := h.imp fun hab heq => by
    have := congrArg Span.start heq
    have := hab.1
    omega
  by_contra hne
  have ha' : a ∈ es := (((List.mergeSort_perm fs _).trans hperm).mem_iff).mp ha
  have : Std.Symm fun a b : Edit => a.span ≠ b.span := ⟨fun _ _ => Ne.symm⟩
  exact hdiffer.forall ha' hb hne (Span.le_antisymm hab hba)

theorem applyEdits_nil (text : String) : applyEdits text [] = .ok text := by
  simp [applyEdits, inTextOrder, firstOverlap?]

/-- **A batch of edits that fit and stand one in front of the other is applied**, whatever order
they are given in. -/
theorem applyEdits_of_before (hperm : fs.Perm es) (hfits : ∀ e ∈ es, e.fits X = true)
    (h : es.Pairwise Edit.Before) :
    applyEdits (String.ofList X) fs = .ok (String.ofList (es.foldr Edit.applyTo X)) := by
  have hnone : (es.find? fun e => !e.fits X) = none := by
    rw [List.find?_eq_none]
    intro e he
    simp [hfits e he]
  unfold applyEdits
  rw [String.toList_ofList, inTextOrder_of_perm hperm h]
  dsimp only
  rw [hnone, firstOverlap?_eq_none h]

/-- The edits, in the order of the text, make the second text of the first one, which begins at the
offset. -/
inductive Patched : Nat → List Char → List Edit → List Char → Prop
  | done (n : Nat) (X : List Char) : Patched n X [] X
  | edit {n : Nat} {A O Y Y' : List Char} {N : String} {es : List Edit} : O ≠ [] →
      Patched (n + byteLength A + byteLength O) Y es Y' →
      Patched n (A ++ (O ++ Y)) (⟨⟨n + byteLength A, n + byteLength A + byteLength O⟩, N⟩ :: es)
        (A ++ (N.toList ++ Y'))

namespace Patched

variable {n : Nat} {X' : List Char}

/-- What stands in front of the edits stays. -/
theorem prepend {B : List Char} (h : Patched (n + byteLength B) X es X') :
    Patched n (B ++ X) es (B ++ X') := by
  cases h with
  | done => exact .done n (B ++ X)
  | @edit _ A O Y Y' N es hne hrest =>
    have := @edit n (B ++ A) O Y Y' N es hne (by rwa [byteLength_append, ← Nat.add_assoc])
    rwa [byteLength_append, ← Nat.add_assoc, List.append_assoc, List.append_assoc] at this

/-- The edits stand one behind the other in the text. -/
theorem ordered (h : Patched n X es X') :
    (∀ e ∈ es, n ≤ e.span.start) ∧ es.Pairwise Edit.Before := by
  induction h with
  | done => simp
  | @edit n A O Y Y' N es hne _ ih =>
    have hpos : 0 < byteLength O := byteLength_pos hne
    refine ⟨fun e he => ?_, List.pairwise_cons.mpr ⟨fun e he => ⟨?_, ih.1 e he⟩, ih.2⟩⟩
    · rcases List.mem_cons.mp he with rfl | he
      · exact Nat.le_add_right _ _
      · have := ih.1 e he
        omega
    · have := ih.1 e he
      dsimp only
      omega

/-- Every edit fits the text. -/
theorem fits (h : Patched (byteLength P) X es X') : ∀ e ∈ es, e.fits (P ++ X) = true := by
  generalize hn : byteLength P = n at h
  induction h generalizing P with
  | done => simp
  | @edit n A O Y Y' N es hne _ ih =>
    intro e he
    rcases List.mem_cons.mp he with rfl | he
    · have := Span.cut?_append (P ++ A) O Y
      rw [byteLength_append, hn, List.append_assoc] at this
      rw [Edit.fits, this]
      rfl
    · have hP : byteLength (P ++ (A ++ O)) = n + byteLength A + byteLength O := by
        rw [byteLength_append, byteLength_append, hn, Nat.add_assoc]
      have := ih hP e he
      rwa [List.append_assoc, List.append_assoc] at this

/-- The last edit is applied first, so that the others still fit. -/
theorem foldr_applyTo (h : Patched (byteLength P) X es X') :
    es.foldr Edit.applyTo (P ++ X) = P ++ X' := by
  generalize hn : byteLength P = n at h
  induction h generalizing P with
  | done => rfl
  | @edit n A O Y Y' N es hne _ ih =>
    have hP : byteLength (P ++ (A ++ O)) = n + byteLength A + byteLength O := by
      rw [byteLength_append, byteLength_append, hn, Nat.add_assoc]
    have hrest := ih hP
    have hcut := Span.cut?_append (P ++ A) O Y'
    rw [byteLength_append, hn, List.append_assoc] at hcut
    simp only [List.append_assoc] at hrest hcut ⊢
    rw [List.foldr_cons, hrest, Edit.applyTo, hcut]
    simp

/-- **A batch is applied as it says**, whatever order its edits are given in. -/
theorem applyEdits (h : Patched 0 X es X') (hperm : fs.Perm es) :
    UseImports.applyEdits (String.ofList X) fs = .ok (String.ofList X') := by
  have hfits : ∀ e ∈ es, e.fits X = true := h.fits (P := [])
  have hfold := h.foldr_applyTo (P := [])
  rw [List.nil_append, List.nil_append] at hfold
  rw [applyEdits_of_before hperm hfits h.ordered.2, hfold]

end Patched

end UseImports
