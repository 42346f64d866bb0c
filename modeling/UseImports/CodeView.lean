import UseImports.Text.Basic

/-!
# The code view

The code view of a PHP text is a text of the same length in which only code is left: comments,
inline HTML, the contents of string literals and the bodies of heredocs are blanked. Line ends are
always kept, so offsets and lines mean the same in both texts.

A small machine walks over the text and gives a verdict on every character, kept or blanked. Most
verdicts concern one character; where the machine knows what the next few characters are (an open
tag, the end of a comment, a whole heredoc) it gives their verdicts at once.

Main definitions:
* `Mode` (`State`): what the machine is inside of.
* `Mode.step`: the verdicts on the characters at hand, and the mode behind them.
* `heredoc` (`mask_heredoc`): how far a heredoc reaches.
* `verdicts`: the verdict on each character of a text.
* `codeView` (`mask_non_code`): the text with its blanked characters replaced by spaces, byte by
  byte.

A heredoc whose opening quote is followed by an identifier that runs to the end of the text has no
line in which its closing quote could stand; such a text has no code view.
-/

namespace UseImports

/-- Why a text has no code view. -/
inductive MaskError where
  /-- The identifier of a quoted heredoc runs to the end of the text. -/
  | unclosedHeredocLabel
deriving DecidableEq, Repr

/-- What the walk over a text is inside of (`State`). -/
inductive Mode where
  | html
  | code
  | lineComment
  | blockComment
  /-- A string literal that ends at the given quote. -/
  | quoted (quote : Char)
deriving DecidableEq, Repr

/-- The verdict on a character: it stays in the code view or is blanked. -/
inductive Verdict where
  | keep
  | blank
deriving DecidableEq, Repr

/-! ## Heredocs -/

/-- The characters in front of the line that closes a heredoc, its indentation included; `none` when
no line begins with the identifier. -/
def closingLine (label : List Char) : (atLineStart : Bool) → List Char → Option Nat
  | _, [] => none
  | atLineStart, c :: cs =>
    if atLineStart && label.isPrefixOf (c :: cs) &&
        !((c :: cs).drop label.length).head?.any isIdentChar then some 0
    else (closingLine label (c == '\n' || (atLineStart && isIndent c)) cs).map (· + 1)

/-- The verdicts on a heredoc behind its three angle brackets (`mask_heredoc`): all of its first
line and the closing identifier are kept, the lines between are blanked. Brackets that no identifier
follows open no heredoc, and then there are no verdicts. -/
def heredoc (rest : List Char) : Except MaskError (List Verdict) :=
  let opener := rest.dropWhile isIndent
  let indent := rest.length - opener.length
  let quote := if opener.head? == some '\x27' || opener.head? == some '\x22' then 1 else 0
  let label := (opener.drop quote).takeWhile isIdentChar
  let tail := (opener.drop quote).drop label.length
  if label.isEmpty then .ok []
  else if quote == 1 && tail.isEmpty then .error .unclosedHeredocLabel
  else
    let line := (tail.drop quote).takeWhile (· ≠ '\n')
    let body := ((tail.drop quote).drop line.length).drop 1
    let head := indent + quote + label.length + quote + line.length + 1
    match closingLine label true body with
    | some n => .ok (List.replicate head .keep ++ List.replicate n .blank ++
        List.replicate label.length .keep)
    | none => .ok (List.replicate head .keep ++ List.replicate body.length .blank)

/-! ## The machine -/

/-- What one step decides: the verdict on the character at hand, those on the characters that follow
it, and the mode behind them. -/
structure Decision where
  verdict : Verdict
  further : List Verdict
  mode : Mode

/-- The number of characters of the open tag behind its first one. -/
def tagRest (rest : List Char) : Nat :=
  if eqIgnoreCase (rest.take 4) "?php".toList then 4
  else if rest.take 2 = "?=".toList then 2
  else 1

/-- The decision in code. -/
def stepCode (c : Char) (rest : List Char) : Except MaskError Decision :=
  match c, rest with
  | '?', '>' :: _ => .ok ⟨.blank, [.blank], .html⟩
  | '/', '/' :: _ => .ok ⟨.blank, [.blank], .lineComment⟩
  | '/', '*' :: _ => .ok ⟨.blank, [.blank], .blockComment⟩
  | '<', '<' :: '<' :: rest =>
    (heredoc rest).map fun further => ⟨.keep, .keep :: .keep :: further, .code⟩
  | '#', '[' :: _ => .ok ⟨.keep, [], .code⟩
  | '#', _ => .ok ⟨.blank, [], .lineComment⟩
  | '\x27', _ => .ok ⟨.keep, [], .quoted '\x27'⟩
  | '\x22', _ => .ok ⟨.keep, [], .quoted '\x22'⟩
  | '\x60', _ => .ok ⟨.keep, [], .quoted '\x60'⟩
  | _, _ => .ok ⟨.keep, [], .code⟩

/-- The decision on the character `c`, in front of `rest`. -/
def Mode.step (c : Char) (rest : List Char) : Mode → Except MaskError Decision
  | .html =>
    if c = '<' ∧ rest.head? = some '?' then
      .ok ⟨.blank, List.replicate (tagRest rest) .blank, .code⟩
    else .ok ⟨.blank, [], .html⟩
  | .code => stepCode c rest
  | .lineComment =>
    if c = '\n' then .ok ⟨.keep, [], .code⟩
    else if c = '?' ∧ rest.head? = some '>' then .ok ⟨.blank, [.blank], .html⟩
    else .ok ⟨.blank, [], .lineComment⟩
  | .blockComment =>
    if c = '*' ∧ rest.head? = some '/' then .ok ⟨.blank, [.blank], .code⟩
    else .ok ⟨.blank, [], .blockComment⟩
  | .quoted quote =>
    if c = '\\' then
      if rest.head?.any fun d => d.toNat < 0x80 then .ok ⟨.blank, [.blank], .quoted quote⟩
      else .ok ⟨.blank, [], .quoted quote⟩
    else if c = quote then .ok ⟨.keep, [], .code⟩
    else .ok ⟨.blank, [], .quoted quote⟩

/-- The verdicts on a text, of which the first are already known. -/
def verdictsFrom : List Verdict → Mode → List Char → Except MaskError (List Verdict)
  | _, _, [] => .ok []
  | v :: known, mode, _ :: cs => (verdictsFrom known mode cs).map (v :: ·)
  | [], mode, c :: cs => do
    let d ← mode.step c cs
    let vs ← verdictsFrom d.further d.mode cs
    return d.verdict :: vs

/-- The text holds an open tag. -/
def hasOpenTag : List Char → Bool
  | '<' :: '?' :: _ => true
  | _ :: cs => hasOpenTag cs
  | [] => false

/-- The mode in which the walk begins: a text without any open tag is code throughout. -/
def startMode (cs : List Char) : Mode :=
  if hasOpenTag cs then .html else .code

/-- The verdict on each character of a text. -/
def verdicts (cs : List Char) : Except MaskError (List Verdict) :=
  verdictsFrom [] (startMode cs) cs

/-! ## The view -/

/-- What stands for a character in the code view: one space for each byte of a blanked one. -/
def Verdict.render (c : Char) : Verdict → List Char
  | .keep => [c]
  | .blank => if c = '\n' ∨ c = '\r' then [c] else List.replicate c.utf8Size ' '

/-- The code view of a text (`mask_non_code`). -/
def codeView (cs : List Char) : Except MaskError (List Char) :=
  (verdicts cs).map fun vs => (List.zipWith (fun c v => Verdict.render c v) cs vs).flatten

end UseImports
