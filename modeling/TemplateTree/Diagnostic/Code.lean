/-!
# Diagnostic codes

The problems that a lexer or a parser can report, with the words for each.
-/

namespace TemplateTree

inductive Severity
  | error
  | warning
  deriving DecidableEq, Repr

def Severity.id : Severity → String
  | .error => "error"
  | .warning => "warning"

inductive Code
  | unterminatedString
  | unterminatedComment
  | unexpectedEnd
  | missingAlias
  | missingTemplatePath
  | danglingAlias
  | unmodeledDirective
  deriving DecidableEq, Repr

namespace Code

def all : List Code := [
  .unterminatedString, .unterminatedComment, .unexpectedEnd, .missingAlias,
  .missingTemplatePath, .danglingAlias, .unmodeledDirective]

def id : Code → String
  | .unterminatedString => "LEXER_UNTERMINATED_STRING"
  | .unterminatedComment => "LEXER_UNTERMINATED_COMMENT"
  | .unexpectedEnd => "PARSER_UNEXPECTED_END_OF_INPUT"
  | .missingAlias => "PARSER_MISSING_IMPORT_ALIAS"
  | .missingTemplatePath => "PARSER_MISSING_TEMPLATE_PATH"
  | .danglingAlias => "PARSER_DANGLING_IMPORT_ALIAS"
  | .unmodeledDirective => "PARSER_UNIMPLEMENTED_DIRECTIVE"

def ofId? (name : String) : Option Code := all.find? (·.id == name)

theorem ofId?_id (code : Code) : ofId? code.id = some code := by
  cases code <;> decide

/-- No two codes have the same id. -/
@[simp] theorem id_inj {code other : Code} : code.id = other.id ↔ code = other := by
  refine ⟨fun h => ?_, congrArg id⟩
  have ho := congrArg ofId? h
  rwa [ofId?_id, ofId?_id, Option.some_inj] at ho

def message : Code → String
  | .unterminatedString => "Unterminated string literal."
  | .unterminatedComment => "Expected end of comment, got end of file."
  | .unexpectedEnd => "Unexpected end of input"
  | .missingAlias => "Missing alias for import"
  | .missingTemplatePath => "Expected a template path string"
  | .danglingAlias => "Ignoring `as` without a name to alias"
  | .unmodeledDirective => "Directive is recognised but not modeled; no node produced"

/-- A way to mend the problem, where one can be named. -/
def hint? : Code → Option String
  | .unterminatedString => some "Close the string with the same quote it was opened with."
  | .unterminatedComment => some "Close the comment with `#\x7d`."
  | .unexpectedEnd => some "Close the tag with `%\x7d`."
  | .missingAlias => some ("Bind the imported template to a name, e.g. " ++
      "`\x7b% import \"forms.njk\" as forms %\x7d`.")
  | .missingTemplatePath | .danglingAlias | .unmodeledDirective => none

def severity : Code → Severity
  | .danglingAlias | .unmodeledDirective => .warning
  | _ => .error

/-- The stage that reports the problem. -/
def category : Code → String
  | .unterminatedString | .unterminatedComment => "lexer"
  | _ => "parser"

end Code

end TemplateTree
