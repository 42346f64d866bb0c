/-!
# Entries by name

Values that are kept under names, at most one under each.

Main definitions:
* `setEntry`, `eraseEntry`: change the value under a name.

Main statements:
* `lookup_setEntry`, `lookup_eraseEntry`: what is found under a name afterwards.
-/

namespace UseImports

/-- The entries with a new value under a name. -/
def setEntry {α : Type} (entries : List (String × α)) (name : String) (value : α) :
    List (String × α) :=
  (name, value) :: entries.filter fun e => e.1 != name

/-- The entries without the one under a name. -/
def eraseEntry {α : Type} (entries : List (String × α)) (name : String) : List (String × α) :=
  entries.filter fun e => e.1 != name

/-- **Erasing leaves nothing under the name and the rest as it was.** -/
theorem lookup_eraseEntry {α : Type} (entries : List (String × α)) (name other : String) :
    (eraseEntry entries name).lookup other = if other =
      name then none else entries.lookup other := by
  unfold eraseEntry
  induction entries with
  | nil => simp
  | cons e es ih =>
    obtain ⟨k, v⟩ := e
    by_cases hk : k = name
    · subst hk
      rw [List.filter_cons_of_neg (by simp), ih]
      by_cases ho : other = k
      · simp [ho]
      · have hb : (other == k) = false := by simp [ho]
        rw [List.lookup_cons, hb]
    · rw [List.filter_cons_of_pos (by simpa using hk), List.lookup_cons, List.lookup_cons, ih]
      by_cases ho : other = k
      · simp [ho, hk]
      · have hb : (other == k) = false := by simp [ho]
        rw [hb]

/-- **Setting puts the value under the name and leaves the rest as it was.** -/
theorem lookup_setEntry {α : Type} (entries : List (String × α)) (name other : String) (value : α) :
    (setEntry entries name value).lookup other =
      if other = name then some value else entries.lookup other := by
  have h := lookup_eraseEntry entries name other
  unfold eraseEntry at h
  unfold setEntry
  by_cases ho : other = name
  · simp [ho]
  · have hb : (other == name) = false := by simp [ho]
    rw [List.lookup_cons, hb, if_neg ho]
    simpa [ho] using h

end UseImports
