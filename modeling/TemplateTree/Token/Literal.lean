import TemplateTree.Text.Split
import TemplateTree.Token.Kind

/-!
# Literals and words

The readings of a string literal's body and of a word. In a string a backslash
gives the next character itself, except that `n`, `t` and `r` name a line
feed, a tab and a carriage return; a backslash with nothing after it means
nothing.
-/

namespace TemplateTree

def unescape : Char → Char
  | 'n' => '\n'
  | 't' => '\t'
  | 'r' => '\r'
  | c => c

def decodeString : List Char → List Char
  | [] => []
  | ['\\'] => []
  | '\\' :: c :: cs => unescape c :: decodeString cs
  | c :: cs => c :: decodeString cs

/-- The white space that separates words inside a tag. -/
def isTagSpace (c : Char) : Bool := c ∈ [' ', '\n', '\t', '\r', '\u00a0']

/-- The characters that end a word inside a tag and are tokens of their own. -/
def isDelimiter (c : Char) : Bool := c ∈ "()[]\x7b\x7d%*-+~/#,:|.<>=!".toList

def isWordChar (c : Char) : Bool := !isTagSpace c && !isDelimiter c

def isRegexFlag (c : Char) : Bool := c ∈ ['g', 'i', 'm', 'y']

/-- A word of digits is a number; the rest are names unless reserved. -/
def wordKind (word : List Char) : TokenKind :=
  if word.all Char.isDigit then .int
  else if String.ofList word ∈ ["true", "false", "True", "False"] then .boolean
  else if String.ofList word ∈ ["none", "None", "null"] then .none
  else .symbol

/-- The operators of more than one character, longer ones first. -/
def longOperators : List (List Char) :=
  ["===", "!==", "==", "!=", "<=", ">=", "//", "**"].map String.toList

def delimiterKind : Char → TokenKind
  | '(' => .leftParen
  | ')' => .rightParen
  | '[' => .leftBracket
  | ']' => .rightBracket
  | '{' => .leftCurly
  | '}' => .rightCurly
  | ',' => .comma
  | ':' => .colon
  | '~' => .tilde
  | '|' => .pipe
  | _ => .operator

end TemplateTree
