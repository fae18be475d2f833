import TemplateTree.Diagnostic.Basic
import TemplateTree.Text.Quoted

/-!
# Faults

Everything that can stop a reading. A parse error says that the template is
not well formed; it carries a diagnostic. The other faults say that a request
makes no sense: coordinates outside the text, a name that stands for nothing,
options given twice, or a question asked too early.
-/

namespace TemplateTree

inductive ParseError
  /-- A direct import is closed without a name for what it imports. -/
  | missingAlias (span : Span)
  /-- A directive is closed without the path of a template. -/
  | missingTemplatePath (construct : String) (span : Span)
  /-- The tokens end inside a directive. -/
  | unexpectedEnd (construct : String) (span? : Option Span)
  deriving DecidableEq, Repr

namespace ParseError

def diagnostic : ParseError → Diagnostic
  | missingAlias span => Code.missingAlias.at (some span)
  | missingTemplatePath construct span =>
    { Code.missingTemplatePath.at (some span) with
      message := Code.missingTemplatePath.message ++ " in " ++ construct }
  | unexpectedEnd construct span? =>
    { Code.unexpectedEnd.at span? with
      message := Code.unexpectedEnd.message ++ " while parsing " ++ construct }

def span? (e : ParseError) : Option Span := e.diagnostic.span?

/-- The diagnostic's message and, if it has a place, where that starts. -/
def message (e : ParseError) : String :=
  e.diagnostic.message ++ e.span?.elim "" fun s => " at " ++ s.start.render

end ParseError

inductive Fault
  | parse (error : ParseError)
  | place (error : PlaceError)
  /-- The closing delimiter of a directive is asked for before it is reached. -/
  | stillOpen (construct : String)
  /-- Both options and a position mode are given. -/
  | twoModes
  /-- A name is not the id of anything in the set it should belong to. -/
  | unknownId (set given : String)
  deriving DecidableEq, Repr

def Fault.message : Fault → String
  | .parse error => error.message
  | .place error => error.message
  | .stillOpen construct => s!"Scan of {construct} has not reached its closing delimiter"
  | .twoModes => "Pass either options or position_mode, not both"
  | .unknownId set given => s!"{quoted given} is not a valid {set}"

end TemplateTree
