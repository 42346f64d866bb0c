import UseImports.Proofs.Code.Rewording
import UseImports.Proofs.Edit.Planned

/-!
# The places of a word

The occurrences of a word that a search finds (`word_occurrences`) do not overlap. Those of them
that are chosen, by whatever test, cut the code into pieces, and the edits at these places put
another word between the same pieces. The edits of a text and of its code view are the same, since
the pieces of the one are as long as those of the other.

* `mem_occurrences_or`: **every occurrence is found**, unless it overlaps one that is found.
* `Spaced`: places in order; `Spaced.eq`: they are given by which they are.
* `exists_weave`, `exists_weave_chosenFronts`: the pieces of the code.
* `wordEdits`, `applyEdits_weave`: **the words at the places are replaced**, and what stands between
  them stays.
-/

namespace UseImports

open Cursor

variable {as : List (List Char)} {code P w : List Char}

/-! ## What a search finds -/

/-- **Every occurrence of a word is found**, unless it overlaps one that is found. -/
theorem mem_occurrences_or {a b : List Char} {word : String} (hne : word.toList ≠ []) :
    occurrenceAt a word.toList b ∈ occurrences (a ++ (word.toList ++ b)) word ∨
      ∃ a' b', occurrenceAt a' word.toList b' ∈ occurrences (a ++ (word.toList ++ b)) word ∧
        a ++ (word.toList ++ b) = a' ++ (word.toList ++ b') ∧ a'.length < a.length ∧
          a.length < (a' ++ word.toList).length := by
  have hread : (((Cursor.mk a.reverse (word.toList ++ b)).literal? word).map fun stop =>
      (((Cursor.mk a.reverse (word.toList ++ b)), stop), stop)) =
        some (occurrenceAt a word.toList b, ⟨(a ++ word.toList).reverse, b⟩) := by
    rw [literal?, if_pos (by simp [ List.isPrefixOf_iff_prefix])]
    simp [occurrenceAt, advance]
  have hcode : a ++ (word.toList ++ b) = (Cursor.mk a.reverse (word.toList ++ b)).text := by
    simp [text]
  rcases mem_findAll_or (r := fun c => (c.literal? word).map fun stop =>
      ((c, stop), stop)) (p := id) of_literalPlace
    hread (List.append_ne_nil_of_left_ne_nil hne b) hcode with hmem | ⟨x, hx, hinside⟩
  · exact .inl hmem
  · obtain ⟨a', b', hcode, rfl⟩ := @exists_of_mem_occurrences (a ++ (word.toList ++ b)) word x hx
    exact .inr ⟨a', b', hx, hcode, by simpa [occurrenceAt] using hinside.1, by
      simpa [occurrenceAt, Nat.add_comm] using hinside.2⟩

/-! ## Places in order -/

/-- The places stand behind each other, with a word of the given length between any two of them. -/
def Spaced (n : Nat) (as : List (List Char)) : Prop :=
  as.Pairwise fun a a' => a.length + n ≤ a'.length

/-- Places in order are given by which they are. -/
theorem Spaced.eq {n : Nat} {as' : List (List Char)} (hn : 0 < n) (h : Spaced n as)
    (h' : Spaced n as') (hmem : ∀ a, a ∈ as ↔ a ∈ as') : as = as' := by
  have hnodup : ∀ {xs : List (List Char)}, Spaced n xs → xs.Nodup := fun hxs =>
    hxs.imp fun hle heq => by
    subst heq
    omega
  refine ((List.perm_ext_iff_of_nodup (hnodup h) (hnodup h')).mpr hmem).eq_of_pairwise
    (fun a b _ _ hab hba => ?_) h h'
  omega

theorem spaced_fronts (w P : List Char) (gs : List (List Char)) :
    (∀ Q ∈ fronts w P gs, P.length ≤ Q.length) ∧ Spaced w.length (fronts w P gs) := by
  induction gs generalizing P with
  | nil => exact ⟨by simp [fronts], .nil⟩
  | cons g gs ih =>
    obtain ⟨hle, hpairs⟩ := ih (P ++ (g ++ w))
    simp only [List.length_append] at hle
    refine ⟨fun Q hQ => ?_, List.pairwise_cons.mpr ⟨fun Q hQ => ?_, hpairs⟩⟩
    · rcases List.mem_cons.mp hQ with rfl | hQ
      · simp
      · have := hle Q hQ
        omega
    · have := hle Q hQ
      rw [List.length_append]
      omega

/-- **Places of a word in order cut the code into pieces.** -/
theorem exists_weave (h : Spaced w.length as) (hplace : ∀ a ∈ as, ∃ b, code = a ++ (w ++ b))
    {Y : List Char} (hcode : code = P ++ Y) (hle : ∀ a ∈ as, P.length ≤ a.length) :
    ∃ cs x, Y = weave w cs x ∧ fronts w P cs = as := by
  induction as generalizing P Y with
  | nil => exact ⟨[], Y, rfl, rfl⟩
  | cons a as ih =>
    obtain ⟨hbehind, hrest⟩ := List.pairwise_cons.mp h
    obtain ⟨b, hb⟩ := hplace a List.mem_cons_self
    obtain ⟨c, rfl⟩ :=
      List.prefix_of_prefix_length_le ⟨Y, hcode.symm⟩ ⟨w ++ b, hb.symm⟩ (hle a List.mem_cons_self)
    have hsplit : code = (P ++ c ++ w) ++ b := by rw [hb, ← List.append_assoc]
    have hlater : ∀ a' ∈ as, (P ++ c ++ w).length ≤ a'.length := fun a' ha' => by
      rw [List.length_append]
      exact hbehind a' ha'
    obtain ⟨cs, x, rfl, hfronts⟩ :=
      ih hrest (fun a' ha' => hplace a' (List.mem_cons_of_mem _ ha')) hsplit hlater
    refine ⟨c :: cs, x, ?_, ?_⟩
    · rw [hcode, List.append_assoc] at hb
      exact List.append_cancel_left hb
    · rw [fronts, ← List.append_assoc, hfronts]

/-! ## The edits at places -/

/-- The edits that write a text for the word at each of the places. -/
def wordEdits (w : List Char) (new : String) (as : List (List Char)) : List Edit :=
  as.map fun a => ⟨⟨byteLength a, byteLength a + byteLength w⟩, new⟩

theorem patched_weave (hne : w ≠ []) (new : String) (gs : List (List Char)) (P X : List Char) :
    Patched (byteLength P) (weave w gs X) (wordEdits w new (fronts w P gs))
      (weave new.toList gs X) := by
  induction gs generalizing P with
  | nil => exact .done _ X
  | cons g gs ih =>
    have hrest := ih (P ++ (g ++ w))
    rw [byteLength_append, byteLength_append, ← Nat.add_assoc] at hrest
    have := @Patched.edit (byteLength P) g w _ _ new _ hne hrest
    rwa [← byteLength_append] at this

/-- **The words are replaced by the edits**, and what stands between them stays. -/
theorem applyEdits_weave (hne : w ≠ []) (new : String) (gs : List (List Char)) (X : List Char) :
    applyEdits (String.ofList (weave w gs X)) (wordEdits w new (fronts w [] gs)).reverse =
      .ok (String.ofList (weave new.toList gs X)) :=
  (patched_weave hne new gs [] X).applyEdits (List.reverse_perm _)

/-- The edits are the same for pieces as long as each other. -/
theorem wordEdits_of_aligned {new : String} {gs cs : List (List Char)} (h : Aligned gs cs)
    {p : List Char} (hP : byteLength P = byteLength p) :
    wordEdits w new (fronts w P gs) = wordEdits w new (fronts w p cs) := by
  induction h generalizing P p with
  | nil => rfl
  | @cons g c _ _ hgap _ ih =>
    have hrest := @ih (P ++ (g ++ w)) (p ++ (c ++ w)) (by simp only [byteLength_append, hP, hgap])
    unfold wordEdits at hrest ⊢
    rw [fronts, fronts, List.map_cons, List.map_cons, hrest, byteLength_append,
      byteLength_append, hP, hgap]

/-! ## The occurrences that are chosen -/

/-- What stands in front of the occurrences of a word that are chosen. -/
def chosenFronts (code : List Char) (word : String) (p : Cursor × Cursor → Bool) :
    List (List Char) :=
  ((occurrences code word).filter p).map fun x => x.1.before.reverse

section Chosen

variable {word : String} {p : Cursor × Cursor → Bool}

theorem exists_of_mem_chosenFronts {a : List Char} (h : a ∈ chosenFronts code word p) :
    ∃ b, code = a ++ (word.toList ++ b) ∧ p (occurrenceAt a word.toList b) = true := by
  obtain ⟨x, hx, rfl⟩ := List.mem_map.mp h
  obtain ⟨hmem, hp⟩ := List.mem_filter.mp hx
  obtain ⟨a, b, hcode, rfl⟩ := exists_of_mem_occurrences hmem
  have hfront : (occurrenceAt a word.toList b).1.before.reverse = a := List.reverse_reverse a
  rw [hfront]
  exact ⟨b, hcode, hp⟩

theorem spaced_chosenFronts : Spaced word.toList.length (chosenFronts code word p) := by
  refine List.pairwise_map.mpr
    (((occurrences_pairwise code word).sublist List.filter_sublist).imp_of_mem ?_)
  intro x y hx _ hle
  obtain ⟨a, b, -, rfl⟩ := exists_of_mem_occurrences (List.mem_of_mem_filter hx)
  simpa [occurrenceAt, Nat.add_comm] using hle

theorem wordEdits_chosenFronts (new : String) :
    ((occurrences code word).filter p).map (fun x => Edit.mk (x.1.spanTo x.2) new) =
      wordEdits word.toList new (chosenFronts code word p) := by
  rw [wordEdits, chosenFronts, List.map_map]
  refine List.map_congr_left fun x hx => ?_
  obtain ⟨a, b, -, rfl⟩ := exists_of_mem_occurrences (List.mem_of_mem_filter hx)
  have hfront : (occurrenceAt a word.toList b).1.before.reverse = a := List.reverse_reverse a
  rw [Function.comp_apply, hfront, spanTo_occurrenceAt]

/-- The code in pieces between the occurrences that are chosen. -/
theorem exists_weave_chosenFronts (code : List Char) (word : String) (p : Cursor × Cursor → Bool) :
    ∃ cs x, code = weave word.toList cs x ∧ fronts word.toList [] cs = chosenFronts code word p :=
  exists_weave spaced_chosenFronts (fun _ ha =>
    (exists_of_mem_chosenFronts ha).imp fun _ h => h.1) rfl
    fun _ _ => Nat.zero_le _

end Chosen

end UseImports
