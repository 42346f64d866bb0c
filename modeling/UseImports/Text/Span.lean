import UseImports.Text.Basic

/-!
# Spans

A span is a pair of byte offsets, start included and stop excluded. Nothing forces a span to lie in
a text: cutting one out of a text it does not fit gives the empty text.
-/

namespace UseImports

/-- The bytes from `start` up to, but not including, `stop`. -/
structure Span where
  start : Nat
  stop : Nat
deriving DecidableEq, Repr, Inhabited

namespace Span

/-- The number of bytes; none when the ends are out of order. -/
def length (s : Span) : Nat :=
  s.stop - s.start

/-- The span holds no byte. -/
def isEmpty (s : Span) : Bool :=
  s.stop ≤ s.start

/-- The offset is that of a byte of the span. -/
def contains (s : Span) (offset : Nat) : Bool :=
  s.start ≤ offset && offset < s.stop

theorem contains_iff {s : Span} {offset : Nat} :
    s.contains offset = true ↔ s.start ≤ offset ∧ offset < s.stop := by
  simp [contains]

/-- Start before start, and stop before stop where the starts agree. -/
def le (s t : Span) : Bool :=
  s.start < t.start || (s.start == t.start && s.stop ≤ t.stop)

/-- The text before, in and behind the span, if both ends are places where the text can be cut. -/
def cut? (s : Span) (cs : List Char) : Option (List Char × List Char × List Char) := do
  if s.stop < s.start then none
  let (before, rest) ← splitAtByte s.start cs
  let (inside, after) ← splitAtByte (s.stop - s.start) rest
  return (before, inside, after)

/-- The text of the span, empty where the span does not fit. -/
def slice (s : Span) (cs : List Char) : List Char :=
  match s.cut? cs with
  | some (_, inside, _) => inside
  | none => []

/-- **A middle part is cut out by its own offsets.** -/
theorem cut?_append (as bs cs : List Char) :
    (Span.mk (byteLength as) (byteLength as + byteLength bs)).cut? (as ++ (bs ++ cs)) =
      some (as, bs, cs) := by
  simp [cut?, splitAtByte_append]

@[simp] theorem slice_append (as bs cs : List Char) :
    (Span.mk (byteLength as) (byteLength as + byteLength bs)).slice (as ++ (bs ++ cs)) = bs := by
  simp [slice, cut?_append]

end Span

end UseImports
