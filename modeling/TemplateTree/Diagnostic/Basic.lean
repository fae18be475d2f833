import TemplateTree.Diagnostic.Code
import TemplateTree.Position.Span

/-!
# Diagnostics

A reported problem: its code, what is said about it, and where it is, if it
has a place at all. The problems that a template can have are those of the
codes (`Code.at`), but nothing depends on a diagnostic being one of them.
-/

namespace TemplateTree

structure Diagnostic where
  /-- The id of the code, for the diagnostics of a template. -/
  code : String
  message : String
  span? : Option Span
  severity : Severity := .error
  /-- A way to mend the problem, where one is named. -/
  hint? : Option String := none
  /-- The stage that reports the problem. -/
  category? : Option String := none
  deriving DecidableEq, Repr

/-- The problem at a place, in the code's own words. -/
def Code.at (code : Code) (span? : Option Span) : Diagnostic where
  code := code.id
  message := code.message
  span?
  severity := code.severity
  hint? := code.hint?
  category? := some code.category

/-- The problem at a place in other words; empty words leave the code's own. -/
def Code.atSaying (code : Code) (span? : Option Span) (message : String) : Diagnostic :=
  { code.at span? with message := if message.isEmpty then code.message else message }

namespace Diagnostic

def isError (d : Diagnostic) : Bool := d.severity == .error

/-- Whether any of the problems is an error and not only a warning. -/
def hasErrors (ds : List Diagnostic) : Bool := ds.any isError

/-- One line: severity, code, place (a dash if there is none) and message. -/
def render (d : Diagnostic) : String :=
  let place := d.span?.elim "-" Span.render
  s!"{d.severity.id} {d.code} {place}: {d.message}"

end Diagnostic

end TemplateTree
