/-!
# Character ranges

Sets of characters given by a table of code point ranges. The tables of this library hold increasing
disjoint ranges, but membership does not depend on that.
-/

namespace UseImports

/-- The code points from the first number to the second, both included. -/
abbrev CharRange := Nat × Nat

/-- The range holds the character. -/
def CharRange.holds (r : CharRange) (c : Char) : Bool :=
  r.1 ≤ c.toNat && c.toNat ≤ r.2

/-- Some range of the table holds the character. -/
def inRanges (table : List CharRange) (c : Char) : Bool :=
  table.any fun r => CharRange.holds r c

theorem inRanges_iff {table : List CharRange} {c : Char} :
    inRanges table c = true ↔ ∃ r ∈ table, r.1 ≤ c.toNat ∧ c.toNat ≤ r.2 := by
  simp [inRanges, CharRange.holds]

end UseImports
