/-!
# Token kinds

What a token can be. Only words and string literals carry meaning inside a
directive; the delimiters say where one starts and ends.
-/

namespace TemplateTree

inductive TokenKind
  -- running text, comments and the delimiters of tags
  | data | comment | blockStart | blockEnd | variableStart | variableEnd
  | whitespace
  -- literals and names
  | string | int | float | boolean | none | symbol | regex | special
  -- punctuation and operators
  | leftParen | rightParen | leftBracket | rightBracket | leftCurly | rightCurly
  | operator | comma | colon | tilde | pipe
  deriving DecidableEq, Repr

namespace TokenKind

def all : List TokenKind := [
  .data, .comment, .blockStart, .blockEnd, .variableStart, .variableEnd, .whitespace,
  .string, .int, .float, .boolean, .none, .symbol, .regex, .special,
  .leftParen, .rightParen, .leftBracket, .rightBracket, .leftCurly, .rightCurly,
  .operator, .comma, .colon, .tilde, .pipe]

theorem mem_all (kind : TokenKind) : kind ∈ all := by
  cases kind <;> decide

def id : TokenKind → String
  | .data => "data"
  | .comment => "comment"
  | .blockStart => "block-start"
  | .blockEnd => "block-end"
  | .variableStart => "variable-start"
  | .variableEnd => "variable-end"
  | .whitespace => "whitespace"
  | .string => "string"
  | .int => "int"
  | .float => "float"
  | .boolean => "boolean"
  | .none => "none"
  | .symbol => "symbol"
  | .regex => "regex"
  | .special => "special"
  | .leftParen => "left-paren"
  | .rightParen => "right-paren"
  | .leftBracket => "left-bracket"
  | .rightBracket => "right-bracket"
  | .leftCurly => "left-curly"
  | .rightCurly => "right-curly"
  | .operator => "operator"
  | .comma => "comma"
  | .colon => "colon"
  | .tilde => "tilde"
  | .pipe => "pipe"

def ofId? (name : String) : Option TokenKind := all.find? (·.id == name)

theorem ofId?_id (kind : TokenKind) : ofId? kind.id = some kind := by
  cases kind <;> decide

/-- The id in capitals, with underscores between its words. -/
def label (kind : TokenKind) : String :=
  kind.id.map fun c => if c = '-' then '_' else c.toUpper

def isSignificant (kind : TokenKind) : Bool := kind == .symbol || kind == .string

end TokenKind

end TemplateTree
