import UseImports.Proofs.Text.Window
import Mathlib.Data.List.TakeWhile

/-!
# Searching a text in pieces

Where one statement ends and the next begins, a text can be cut in two: what a search finds in the
whole text is what it finds in the first piece, and then what it finds in the second.

* `Placed`: values that name places, and where these places are in a longer text.
* `Located`: a reader of such values that finds in a piece what it finds there in a longer text.
* `findAll_append`: **a search is done piece by piece.**
* `namesUpTo_within`: the names between two places move with the places.
-/

namespace UseImports

variable {α β : Type} {B p y : List Char} {n : Nat} {c : Char}

/-- Values that name places of a text. -/
class Placed (α : Type) where
  /-- The value in a longer text, with `front` before the whole piece and `back` behind it. -/
  move : (front back : List Char) → α → α
  move_move : ∀ B X B' X' a, move B' X' (move B X a) = move (B ++ B') (X ++ X') a

open Placed

instance : Placed Cursor where
  move := Cursor.within
  move_move B X B' X' a := by simp [Cursor.within]

instance {α β : Type} [Placed α] [Placed β] : Placed (α × β) where
  move B X a := (move B X a.1, move B X a.2)
  move_move B X B' X' a := by simp [move_move]

@[simp] theorem move_cursor (B X : List Char) (c : Cursor) : move B X c = c.within B X := rfl

@[simp] theorem move_prod [Placed α] [Placed β] (B X : List Char) (a : α) (b : β) :
    move B X (a, b) = (move B X a, move B X b) := rfl

/-- A reader of values that finds in a piece what it finds there in a longer text. -/
structure Located {α : Type} [Placed α] (r : Cursor → Option (α × Cursor)) : Prop where
  forward : ∀ {c a d}, r c = some (a, d) → c.Reaches d
  within : ∀ {B X c}, Opens B → Fits X c → r (c.within B X) = (r c).map (move B X)
  atSpace : ∀ {before after c}, isSpace c = true → r ⟨before, c :: after⟩ = none

/-- What stands in front of a place where a statement may begin, cut where the last one ends. -/
theorem Opens.split (h : Opens p.reverse) :
    ∃ p₀ w, p = p₀ ++ w ∧ (p₀ = [] ∨ Stopped p₀) ∧ ∀ c ∈ w, isSpace c = true := by
  refine ⟨(p.reverse.dropWhile isSpace).reverse, (p.reverse.takeWhile isSpace).reverse, ?_, ?_, ?_⟩
  · rw [← List.reverse_append, List.takeWhile_append_dropWhile, List.reverse_reverse]
  · unfold Opens Cursor.startsStatement at h
    simp only at h
    cases hd : p.reverse.dropWhile isSpace with
    | nil => exact .inl rfl
    | cons c cs =>
      rw [hd] at h
      exact .inr (stopped_iff.mpr ⟨cs.reverse, c, by simp, h⟩)
  · intro c hc
    rw [List.mem_reverse] at hc
    exact List.mem_takeWhile_imp hc

theorem Located.front {α : Type} [Placed α] {r : Cursor → Option (α × Cursor)} (hr : Located r)
    {B : List Char} (hB : Opens B) (c : Cursor) :
    r (c.within B []) = (r c).map (move B []) :=
  hr.within hB (fits_nil c)

theorem Located.piece [Placed α] {r : Cursor → Option (α × Cursor)} (hr : Located r)
    (hy : y = [] ∨ Stopped y) (X : List Char) (before z : List Char) (hz : z ≠ []) (hs : z <:+ y) :
    r ⟨before, z ++ X⟩ = (r ⟨before, z⟩).map (move [] X) := by
  have hstop : Stopped z := by
    rcases hy with rfl | hy
    · exact absurd (List.suffix_nil.mp hs) hz
    · exact hy.of_suffix hs hz
  have := hr.within (c := ⟨before, z⟩) opens_nil (.inr hstop : Fits X _)
  simpa [Cursor.within] using this

namespace Cursor

section Find

variable [Placed α] {r : Cursor → Option (α × Cursor)}

@[simp] theorem findFrom_nil (r : Cursor → Option (β × Cursor)) (n : Nat) (before : List Char) :
    findFrom r n before [] = [] := by
  cases n <;> rfl

theorem findFrom_zero_cons (r : Cursor → Option (β × Cursor)) (before : List Char) (c : Char)
    (after : List Char) : findFrom r 0 before (c :: after) =
      match r ⟨before, c :: after⟩ with
      | some (a, stop) =>
        a :: findFrom r (after.length - stop.after.length) (c :: before) after
      | none => findFrom r 0 (c :: before) after := rfl

theorem findFrom_space {r : Cursor → Option (β × Cursor)}
    (hr : ∀ {before after c}, isSpace c = true → r ⟨before, c :: after⟩ = none) {w : List Char}
    (hw : ∀ c ∈ w, isSpace c = true) (before X : List Char) :
    findFrom r 0 before (w ++ X) = findFrom r 0 (w.reverse ++ before) X := by
  induction w generalizing before with
  | nil => rfl
  | cons c w ih =>
    rw [List.cons_append, findFrom_zero_cons, hr (hw c List.mem_cons_self)]
    dsimp only
    rw [ih (fun d hd => hw d (List.mem_cons_of_mem c hd))]
    simp

/-- What is put in front of a text moves what is found there. -/
theorem findFrom_front (hr : ∀ c, r (c.within B []) = (r c).map (move B [])) (n : Nat)
    (before y : List Char) :
    findFrom r n (before ++ B) y = (findFrom r n before y).map (move B []) := by
  induction y generalizing n before with
  | nil => simp
  | cons c y ih =>
    cases n with
    | succ n => exact ih n (c :: before)
    | zero =>
      have hw : r ⟨before ++ B, c :: y⟩ = (r ⟨before, c :: y⟩).map (move B []) := by
        have := hr ⟨before, c :: y⟩
        simpa [within] using this
      rw [findFrom_zero_cons, findFrom_zero_cons, hw]
      cases hc : r ⟨before, c :: y⟩ with
      | none => exact ih 0 (c :: before)
      | some found =>
        have := ih (y.length - found.2.after.length) (c :: before)
        simp only [Option.map_some]
        simpa [move] using this

/-- What is put behind a piece leaves what is found in the piece, and the search goes on there. In
the piece itself another reader may be used that finds the same there. -/
theorem findFrom_append {r' : Cursor → Option (α × Cursor)} {X : List Char}
    (hr : ∀ before z, z ≠ [] → z <:+ y → r ⟨before, z ++ X⟩ = (r' ⟨before, z⟩).map (move [] X))
    (hn : n ≤ y.length) (before : List Char) :
    findFrom r n before (y ++ X) =
      (findFrom r' n before y).map (move [] X) ++ findFrom r 0 (y.reverse ++ before) X := by
  induction y generalizing n before with
  | nil => simp_all
  | cons c y ih =>
    have ih := fun {n} => @ih n fun b z hz hs => hr b z hz (hs.trans (List.suffix_cons c y))
    have hrev : (c :: y).reverse ++ before = y.reverse ++ c :: before := by simp
    rw [hrev]
    cases n with
    | succ n => exact ih (by simpa using hn) (c :: before)
    | zero =>
      have hw : r ⟨before, c :: (y ++ X)⟩ = (r' ⟨before, c :: y⟩).map (move [] X) :=
        hr before (c :: y) (by simp) (List.suffix_refl _)
      rw [List.cons_append, findFrom_zero_cons, findFrom_zero_cons, hw]
      cases hc : r' ⟨before, c :: y⟩ with
      | none => exact ih (Nat.zero_le _) (c :: before)
      | some found =>
        have hskip : (y ++ X).length - (found.2.after ++ X).length =
            y.length - found.2.after.length := by
          simp only [List.length_append]
          omega
        have := ih (n := y.length - found.2.after.length) (by omega) (c :: before)
        simp only [Option.map_some, List.map_cons, List.cons_append]
        simp only [move, within_after]
        rw [hskip, this]

/-- **A search is done piece by piece**, where a statement may begin between the pieces. -/
theorem findAll_append (hr : Located r) (hp : Opens p.reverse) (X : List Char) :
    (atStart (p ++ X)).findAll r =
      ((atStart p).findAll r).map (move [] X) ++ ((atStart X).findAll r).map
      (move p.reverse []) := by
  obtain ⟨p₀, w, rfl, h₀, hw⟩ := hp.split
  have hX : findFrom r 0 p₀.reverse (w ++ X) =
      (findFrom r 0 [] X).map (move (p₀ ++ w).reverse []) := by
    rw [findFrom_space hr.atSpace hw, ← List.reverse_append]
    exact findFrom_front (hr.front hp) 0 [] X
  have hp₀ : findFrom r 0 [] (p₀ ++ w) = (findFrom r 0 [] p₀).map (move [] w) := by
    have hnil : findFrom r 0 p₀.reverse w = [] := by
      have := findFrom_space hr.atSpace hw p₀.reverse []
      rwa [List.append_nil, findFrom_nil] at this
    rw [findFrom_append (hr.piece h₀ w) (Nat.zero_le _), List.append_nil, hnil, List.append_nil]
  unfold findAll atStart
  simp only
  rw [List.append_assoc, findFrom_append (hr.piece h₀ (w ++ X)) (Nat.zero_le _),
    List.append_nil, hX, hp₀, List.map_map]
  congr 1
  refine List.map_congr_left fun a _ => ?_
  exact (move_move [] w [] X a).symm

end Find

/-- Whatever a search finds, the reader finds at a place of the text. -/
theorem mem_findFrom {r : Cursor → Option (α × Cursor)} {before : List Char} {a : α}
    (h : a ∈ findFrom r n before y) :
    ∃ c d, r c = some (a, d) ∧ (Cursor.mk before y).Reaches c ∧ c.after ≠ [] := by
  induction y generalizing n before with
  | nil => simp at h
  | cons x y ih =>
    have step : ∀ {m}, a ∈ findFrom r m (x :: before) y →
        ∃ c d, r c = some (a, d) ∧ (Cursor.mk before (x :: y)).Reaches c ∧ c.after ≠ [] := by
      intro m h
      obtain ⟨c, d, hc, hreach, hne⟩ := ih h
      exact ⟨c, d, hc, .trans ⟨[x], rfl, rfl⟩ hreach, hne⟩
    cases n with
    | succ n => exact step h
    | zero =>
      rw [findFrom_zero_cons] at h
      cases hc : r ⟨before, x :: y⟩ with
      | none => rw [hc] at h; exact step h
      | some found =>
        rw [hc] at h
        rcases List.mem_cons.mp h with rfl | h
        · exact ⟨_, found.2, hc, .refl _, by simp⟩
        · exact step h

theorem mem_findAll {r : Cursor → Option (α × Cursor)} {cs : List Char} {a : α}
    (h : a ∈ (atStart cs).findAll r) :
    ∃ c d, r c = some (a, d) ∧ (atStart cs).Reaches c ∧ c.after ≠ [] :=
  mem_findFrom h

/-! ## Names -/

theorem upTo_within (B X : List Char) (c stop : Cursor) :
    (c.within B X).upTo (stop.within B X) = c.upTo stop := by
  unfold upTo
  simp only [within_after, List.length_append, Nat.add_sub_add_right]
  exact List.take_append_of_le_length (by omega)

theorem offset_within (B X : List Char) (c : Cursor) :
    (c.within B X).offset = byteLength B + c.offset := by
  simp [offset, Nat.add_comm]

end Cursor

/-- The span in a text with `n` more bytes in front. -/
def Span.shift (n : Nat) (s : Span) : Span :=
  ⟨n + s.start, n + s.stop⟩

namespace Cursor

theorem spanTo_within (B X : List Char) (c stop : Cursor) :
    (c.within B X).spanTo (stop.within B X) = (c.spanTo stop).shift (byteLength B) := by
  simp [spanTo, offset_within, Span.shift]

theorem findFrom_map (f : α → β) (r : Cursor → Option (α × Cursor)) (n : Nat) (before y : List Char)
    :
    findFrom (fun c => (r c).map fun found => (f found.1, found.2)) n before y =
      (findFrom r n before y).map f := by
  induction y generalizing n before with
  | nil => simp
  | cons c y ih =>
    cases n with
    | succ n => exact ih n (c :: before)
    | zero =>
      rw [findFrom_zero_cons, findFrom_zero_cons]
      cases r ⟨before, c :: y⟩ with
      | none => exact ih 0 (c :: before)
      | some found => simp [ih]

/-- Reads a qualified name with its ends. -/
def namePlace? (c : Cursor) : Option ((Cursor × Cursor) × Cursor) :=
  c.qualifiedName?.map fun stop => ((c, stop), stop)

theorem qualifiedName?_cons (hc : isIdentStart c = false) (hb : c ≠ '\\') (before after : List Char)
    : (Cursor.mk before (c :: after)).qualifiedName? = none := by
  have hlit : (Cursor.mk before (c :: after)).literal? "\\" = none := by
    simp [literal?, Ne.symm hb]
  simp [qualifiedName?_eq, optional, hlit, nameBody?, beginsIdent, hc]

theorem isIdentStart_of_isSpace (hc : isSpace c = true) : isIdentStart c = false := by
  rcases isSpace_cases hc with rfl | rfl | rfl | rfl | rfl <;> decide

theorem located_namePlace : Located namePlace? where
  forward {c a d} h := by
    obtain ⟨e, he, heq⟩ := Option.map_eq_some_iff.mp h
    cases heq
    exact confined_qualifiedName.forward he
  within {B X c} hB hX := by
    unfold namePlace?
    rw [confined_qualifiedName.within hB hX]
    cases c.qualifiedName? <;> rfl
  atSpace {before after c} hc := by
    have hb : c ≠ '\\' := by rintro rfl; exact absurd hc (by decide)
    rw [namePlace?, qualifiedName?_cons (isIdentStart_of_isSpace hc) hb]
    rfl

theorem namesUpTo_eq (c stop : Cursor) :
    c.namesUpTo stop = (findAll namePlace? ⟨c.before, c.upTo stop⟩).map
      fun place => (place.1.spanTo place.2, place.1.upTo place.2) := by
  unfold namesUpTo findAll
  rw [← findFrom_map]
  congr 1
  funext d
  unfold namePlace?
  cases d.qualifiedName? <;> rfl

/-- **The names between two places move with the places.** -/
theorem namesUpTo_within (hB : Opens B) (X : List Char) (c stop : Cursor) :
    (c.within B X).namesUpTo (stop.within B X) =
      (c.namesUpTo stop).map fun found => (found.1.shift (byteLength B), found.2) := by
  rw [namesUpTo_eq, namesUpTo_eq, upTo_within, within_before]
  unfold findAll
  simp only
  rw [findFrom_front (located_namePlace.front hB), List.map_map, List.map_map]
  refine List.map_congr_left fun place _ => ?_
  simp [move, spanTo_within, upTo_within]

end Cursor

end UseImports
