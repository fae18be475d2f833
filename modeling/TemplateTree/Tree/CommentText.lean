import TemplateTree.Text.Blank
import TemplateTree.Text.Split
import TemplateTree.Token.Basic
import TemplateTree.Tree.Basic

/-!
# Comments

From a raw comment token to a comment. A dash next to a delimiter is a trim
marker if a blank separates it from the text; what is left between delimiters
and markers is the text with its outer blanks.

In line-aware mode the span is that of the text. In naive mode it is a guess
that takes the text to be padded by one blank on each side and to stand on one
line, cut off so as not to end before it starts.
-/

namespace TemplateTree

/-- The text without its lead, if it has it. -/
def dropLead (lead cs : List Char) : List Char := (after? lead cs).getD cs

def dropTail (tail cs : List Char) : List Char := (dropLead tail.reverse cs.reverse).reverse

structure CommentText where
  trimLeft : Bool
  trimRight : Bool
  /-- What stands between delimiters and trim markers. -/
  body : List Char
  deriving DecidableEq, Repr

namespace CommentText

def startsWithMarker : List Char → Bool
  | '-' :: c :: _ => isBlank c
  | _ => false

def ofRaw (raw : List Char) : CommentText :=
  let inner := dropTail ['#', '}'] (dropLead ['{', '#'] raw)
  let trimLeft := startsWithMarker inner
  let trimRight := startsWithMarker inner.reverse
  let body := if trimLeft then inner.tail else inner
  { trimLeft, trimRight, body := if trimRight then body.dropLast else body }

def text (c : CommentText) : List Char := trim c.body

/-- How many characters of the raw comment precede the text. -/
def leadLength (c : CommentText) : Nat :=
  2 + c.trimLeft.toNat + (c.body.length - (trimStart c.body).length)

end CommentText

/-- The columns taken up by a delimiter, a trim marker and one blank. -/
def paddedWidth (trim : Bool) : Nat := if trim then 4 else 3

/-- The naive span of a comment that starts at `p` and has `length` characters. -/
def Span.ofPaddedComment (p : Point) (length : Nat) (trimLeft trimRight : Bool) : Span :=
  let start := p.right (paddedWidth trimLeft)
  { start
    stop :=
      { line := start.line
        column := max start.column (p.column + length - paddedWidth trimRight)
        one_le_line := start.one_le_line
        one_le_column := by have := start.one_le_column; omega }
    start_le_stop := Or.inr ⟨rfl, Int.le_max_left _ _⟩ }

namespace Comment

def spanFrom (p : Point) (mode : PositionMode) (raw : List Char) (c : CommentText) : Span :=
  match mode with
  | .naive => Span.ofPaddedComment p raw.length c.trimLeft c.trimRight
  | .lineAware => Span.ofText (p.past .lineAware (raw.take c.leadLength)) .lineAware c.text

def ofToken (mode : PositionMode) (t : Token) : Except PlaceError Comment := do
  let raw := t.value.toList
  let c := CommentText.ofRaw raw
  let span := spanFrom (← t.start) mode raw c
  return ⟨String.ofList c.text, c.trimLeft, c.trimRight, some span⟩

end Comment

end TemplateTree
