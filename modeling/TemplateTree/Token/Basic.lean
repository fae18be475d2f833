import TemplateTree.Position.Past
import TemplateTree.Token.Kind

/-!
# Lexemes and tokens

A lexeme is a piece of text as a lexer reports it, with line and column
counted from 0. A token is the same piece counted from 1, the way points are.
Neither restricts its coordinates, since lexemes may come from any lexer; the
restriction is met when a token's span is taken.
-/

namespace TemplateTree

structure Lexeme where
  kind : TokenKind
  value : String
  line : Int
  column : Int
  deriving DecidableEq, Repr

structure Token where
  kind : TokenKind
  value : String
  line : Int
  column : Int
  deriving DecidableEq, Repr

def Lexeme.toToken (l : Lexeme) : Token := ⟨l.kind, l.value, l.line + 1, l.column + 1⟩

namespace Token

/-- What a token is to the directive that it stands in. -/
inductive Role
  /-- A word or a string, which the directive is made of. -/
  | word
  /-- The delimiter that closes a block. -/
  | closing
  | passedOver
  deriving DecidableEq, Repr

def role (t : Token) : Role :=
  if t.kind = .blockEnd then .closing
  else if t.kind.isSignificant then .word
  else .passedOver

def isWord (t : Token) (word : String) : Bool := t.kind == .symbol && t.value == word

def start (t : Token) : Except PlaceError Point := Point.ofCoordinates t.line t.column

/-- From the token's start to the point past its value. For a string literal
the value is shorter than what stands in the text. -/
def span (t : Token) (mode : PositionMode) : Except PlaceError Span := do
  return Span.ofText (← t.start) mode t.value.toList

/-- From the start of `first` to the end of `last`. -/
def spanTo (first last : Token) (mode : PositionMode) : Except PlaceError Span := do
  let opening ← first.span mode
  let closing ← last.span mode
  Span.ofPoints opening.start closing.stop

end Token

end TemplateTree
