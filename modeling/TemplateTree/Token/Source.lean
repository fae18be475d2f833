import TemplateTree.Fault
import TemplateTree.Token.Basic

/-!
# Token sources

Lexemes to be read once, front to back, as tokens. A source remembers the
token it gave out last, since that is where the input ends when it ends too
early.
-/

namespace TemplateTree

structure TokenSource where
  rest : List Lexeme
  last? : Option Token := none
  deriving DecidableEq, Repr

namespace TokenSource

def next? (s : TokenSource) : Option (Token × TokenSource) :=
  match s.rest with
  | [] => none
  | lexeme :: rest => some (lexeme.toToken, ⟨rest, some lexeme.toToken⟩)

/-- The empty span past the last token, if there was one. -/
def endSpan? (s : TokenSource) (mode : PositionMode) : Except PlaceError (Option Span) :=
  match s.last? with
  | none => .ok none
  | some last => (last.span mode).map fun span => some (.empty span.stop)

/-- The fault of input that ends inside `construct`. -/
def endFault (s : TokenSource) (mode : PositionMode) (construct : String) : Fault :=
  match s.endSpan? mode with
  | .ok span? => .parse (.unexpectedEnd construct span?)
  | .error e => .place e

/-- The next token, which `construct` cannot do without. -/
def expect (s : TokenSource) (mode : PositionMode) (construct : String) :
    Except Fault (Token × TokenSource) :=
  match s.next? with
  | some taken => .ok taken
  | none => .error (s.endFault mode construct)

/-- All tokens that are left. -/
def drain (s : TokenSource) : List Token × TokenSource :=
  let tokens := s.rest.map Lexeme.toToken
  (tokens, ⟨[], tokens.getLast?.or s.last?⟩)

end TokenSource

end TemplateTree
