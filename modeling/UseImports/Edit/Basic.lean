import UseImports.Text.Lines

/-!
# Edits

An edit replaces a span of a text. A batch of edits is applied as a whole: every span refers to the
text before any of them. It is refused when a span does not fit the text or when two spans overlap.

Main definitions:
* `Edit` (`PlannedEdit`): a span and what takes its place.
* `EditError`, `EditError.message`: why a batch is refused.
* `applyEdits` (`apply_edits`): applies a batch.
* `wholeLines` (`statement_line_span`): the span that goes when a statement goes.
-/

namespace UseImports

/-- The replacement of a span (`PlannedEdit`); an empty span makes an insertion. -/
structure Edit where
  span : Span
  replacement : String
deriving DecidableEq, Repr

namespace Edit

/-- The edit that takes out a span. -/
def delete (s : Span) : Edit :=
  ⟨s, ""⟩

/-- The edit that puts a text at an offset. -/
def insert (offset : Nat) (text : String) : Edit :=
  ⟨⟨offset, offset⟩, text⟩

/-- Both ends of the span are places where the text can be cut, in order. -/
def fits (cs : List Char) (e : Edit) : Bool :=
  (e.span.cut? cs).isSome

/-- The text with the span replaced. -/
def applyTo (e : Edit) (cs : List Char) : List Char :=
  match e.span.cut? cs with
  | some (before, _, after) => before ++ e.replacement.toList ++ after
  | none => cs

end Edit

/-- Why a batch of edits is refused. -/
inductive EditError where
  /-- The span does not fit a text of the given length. -/
  | outOfRange (span : Span) (length : Nat)
  /-- The second span starts inside the first. -/
  | overlap (first second : Span)
deriving DecidableEq, Repr

/-- The wording of a span in messages. -/
def Span.describe (s : Span) : String :=
  "Span \x7b start: " ++ toString s.start ++ ", end: " ++ toString s.stop ++ " \x7d"

/-- The wording of an error. -/
def EditError.message : EditError → String
  | .outOfRange s length =>
    "edit " ++ toString s.start ++ ".." ++ toString s.stop ++ " is outside the document (" ++
      toString length ++ " bytes)"
  | .overlap first second =>
    "edits " ++ first.describe ++ " and " ++ second.describe ++ " overlap"

/-- The edits by their spans, those with the same span in the order given. -/
def inTextOrder (edits : List Edit) : List Edit :=
  edits.mergeSort fun a b => a.span.le b.span

/-- The first two neighbours of which the second starts in front of the first one's end. -/
def firstOverlap? : List Edit → Option (Span × Span)
  | a :: b :: rest =>
    if b.span.start < a.span.stop then some (a.span, b.span) else firstOverlap? (b :: rest)
  | _ => none

/-- Applies a batch of edits, the last one first, so that the spans of the others stay valid
(`apply_edits`). -/
def applyEdits (text : String) (edits : List Edit) : Except EditError String :=
  let cs := text.toList
  let ordered := inTextOrder edits
  match ordered.find? fun e => !e.fits cs with
  | some e => .error (.outOfRange e.span (byteLength cs))
  | none =>
    match firstOverlap? ordered with
    | some (first, second) => .error (.overlap first second)
    | none => .ok (String.ofList (ordered.foldr Edit.applyTo cs))

/-! ## Lines around statements -/

/-- The white space with which a line begins (`indentation`). -/
def indentation (line : List Char) : List Char :=
  line.takeWhile isBlank

/-- Nothing but white space. -/
def isBlankText (cs : List Char) : Bool :=
  (trim cs).isEmpty

/-- Some line of the text ends in a carriage return and a line feed. -/
def hasCarriageReturns : List Char → Bool
  | '\r' :: '\n' :: _ => true
  | _ :: cs => hasCarriageReturns cs
  | [] => false

/-- The line end that the text uses. -/
def lineBreak (cs : List Char) : String :=
  if hasCarriageReturns cs then "\r\n" else "\n"

/-- The first and the last line of a span. -/
def lineExtent (cs : List Char) (s : Span) : Nat × Nat :=
  (lineOf cs s.start, lineOf cs (s.stop - 1))

/-- The span has its lines to itself, white space apart. -/
def isAlone (cs : List Char) (s : Span) : Bool :=
  let (first, last) := lineExtent cs s
  isBlankText ((Span.mk (lineStart cs first) s.start).slice cs) &&
    isBlankText ((Span.mk s.stop (lineEnd cs last)).slice cs)

/-- What is taken out with a statement (`statement_line_span`): its lines with their ends if it has
them to itself, and else the statement with the spaces and tabs behind it. -/
def wholeLines (cs : List Char) (s : Span) : Span :=
  let (first, last) := lineExtent cs s
  if isAlone cs s then ⟨lineStart cs first, nextLineStart cs last⟩
  else
    let after := (Span.mk s.stop (lineEnd cs last)).slice cs
    ⟨s.start, s.stop + byteLength (after.takeWhile isIndent)⟩

end UseImports
