import Mathlib.Data.List.TakeWhile
import Mathlib.Tactic

/-!
# The first of each key

A list that is in order by some key loses its repetitions when of neighbours with the same key only
the first is kept. What remains is in strict order and has every key that was there.

* `KeepsFirst`: what it is to keep the first of neighbours with the same key.
* `KeepsFirst.find?_eq`: no key is lost, and each is left to the first that has it.
* `KeepsFirst.pairwise`: **a list in order loses all repetitions.**
* `filter_mergeSort`: elements between which the order does not decide stay as they stand when a
  list is sorted.
-/

namespace UseImports

/-- **Sorting is stable**: elements of which none comes strictly behind another stay as they stand.
-/
theorem filter_mergeSort {α : Type} {le : α → α → Bool} (trans : ∀ a b c, le a b → le b c → le a c)
    (total : ∀ a b, le a b || le b a) {p : α → Bool} (hp : ∀ a b, p a → p b → le a b)
    (xs : List α) :
    (xs.mergeSort le).filter p = xs.filter p := by
  have hordered : (xs.filter p).Pairwise fun a b => le a b = true :=
    List.pairwise_of_forall_mem_list fun a ha b hb =>
      hp a b (List.mem_filter.mp ha).2 (List.mem_filter.mp hb).2
  -- the elements are in order already, so that they are found in the sorted list as they stand
  have hkept := (List.sublist_mergeSort trans total hordered List.filter_sublist).filter p
  simp only [List.filter_filter, Bool.and_self] at hkept
  refine (hkept.eq_of_length ?_).symm
  exact ((List.mergeSort_perm xs le).filter p).length_eq.symm

/-- Of neighbours with the same key, `keep` keeps the first. -/
structure KeepsFirst {α κ : Type} [DecidableEq κ] (key : α → κ) (keep : List α → List α) :
    Prop where
  nil : keep [] = []
  cons : ∀ x xs, keep (x :: xs) = x :: keep (xs.dropWhile fun y => key y = key x)

namespace KeepsFirst

variable {α κ : Type} [DecidableEq κ]

/-- Induction from one key to the next. -/
theorem induction (key : α → κ) {motive : List α → Prop} (nil : motive [])
    (cons : ∀ x xs, motive (xs.dropWhile fun y => key y = key x) → motive (x :: xs)) (xs : List α) :
    motive xs := by
  induction h : xs.length using Nat.strongRecOn generalizing xs with
  | ind n ih =>
    cases xs with
    | nil => exact nil
    | cons x xs =>
      have hlen := (List.dropWhile_sublist (l := xs) fun y => key y = key x).length_le
      exact cons x xs (ih _ (by simp only [List.length_cons] at h; omega) _ rfl)

variable {key : α → κ} {keep : List α → List α} (hkeep : KeepsFirst key keep)
include hkeep

theorem sublist (xs : List α) : (keep xs).Sublist xs := by
  induction xs using induction key with
  | nil => rw [hkeep.nil]
  | cons x xs ih =>
    rw [hkeep.cons]
    exact (ih.trans (List.dropWhile_sublist _)).cons_cons x

/-- What is kept of each key is the first that has it. -/
theorem find?_eq (xs : List α) (k : κ) : (keep xs).find? (key · = k) = xs.find? (key · = k) := by
  induction xs using induction key with
  | nil => rw [hkeep.nil]
  | cons x xs ih =>
    rw [hkeep.cons, List.find?_cons, List.find?_cons]
    split
    · rfl
    · rename_i hne
      have hnone : (xs.takeWhile fun y => key y = key x).find? (key · = k) = none := by
        rw [List.find?_eq_none]
        intro y hy
        have hkey : key y = key x := by simpa using List.mem_takeWhile_imp hy
        simpa [hkey] using hne
      conv_rhs => rw [← xs.takeWhile_append_dropWhile (p := fun y => key y = key x)]
      rw [ih, List.find?_append, hnone, Option.none_or]

/-- No key is lost. -/
theorem exists_mem {xs : List α} {x : α} (hx : x ∈ xs) : ∃ y ∈ keep xs, key y = key x := by
  have hsome : (xs.find? (key · = key x)).isSome = true := List.find?_isSome.mpr ⟨x, hx, by simp⟩
  rw [← hkeep.find?_eq, List.find?_isSome] at hsome
  obtain ⟨y, hy, hkey⟩ := hsome
  exact ⟨y, hy, by simpa using hkey⟩

/-- **A list in order loses all repetitions.** -/
theorem pairwise {r : κ → κ → Prop} (hantisymm : ∀ {a b}, r a b → r b a → a = b) {xs : List α}
    (h : xs.Pairwise fun x y => r (key x) (key y)) :
    (keep xs).Pairwise fun x y => r (key x) (key y) ∧ key x ≠ key y := by
  induction xs using induction key with
  | nil =>
    rw [hkeep.nil]
    exact .nil
  | cons x xs ih =>
    obtain ⟨hx, hxs⟩ := List.pairwise_cons.mp h
    have hsub := List.dropWhile_sublist (l := xs) fun y => key y = key x
    rw [hkeep.cons]
    refine List.pairwise_cons.mpr ⟨fun y hy => ?_, ih (hxs.sublist hsub)⟩
    have hy' := (hkeep.sublist _).subset hy
    refine ⟨hx y (hsub.subset hy'), fun hkey => ?_⟩
    -- the first that is left has another key, and lies between the two
    cases hdrop : xs.dropWhile fun y => key y = key x with
    | nil =>
      rw [hdrop] at hy'
      cases hy'
    | cons z zs =>
      have hne : key z ≠ key x := by
        have := List.head_dropWhile_not (fun y =>
          decide (key y = key x)) (hdrop ▸ List.cons_ne_nil z zs)
        simpa [hdrop] using this
      have hz : z ∈ xs := hsub.subset (by rw [hdrop]; exact List.mem_cons_self)
      have hsorted := hxs.sublist hsub
      rw [hdrop] at hsorted hy'
      rcases List.mem_cons.mp hy' with rfl | hy'
      · exact hne hkey.symm
      · have hzy := (List.pairwise_cons.mp hsorted).1 y hy'
        exact hne (hantisymm (hkey ▸ hzy) (hx z hz))

end KeepsFirst

end UseImports
