import TemplateTree.Document.Reading
import TemplateTree.Token.Lexer
import TemplateTree.Tree.Node

/-!
# Templates

From text to tree: a template is lexed and its lexemes are read. The result
carries the diagnostics of both, the lexer's first.
-/

namespace TemplateTree

structure ParseResult where
  text : String
  document : Document
  diagnostics : List Diagnostic
  options : Options
  deriving DecidableEq, Repr

namespace ParseResult

def hasErrors (r : ParseResult) : Bool := Diagnostic.hasErrors r.diagnostics

/-- The nodes of the tree, all of them or those of one type, in the order of
the walk. -/
def nodes (r : ParseResult) (type? : Option NodeType) : List Node :=
  (Node.document r.document).walk.filter fun node => type?.all (· == node.type)

end ParseResult

/-- The reading of a text, whatever came of it. -/
def Document.readText (options : Options) (text : String) : Run Document :=
  Document.read options { rest := (Lexer.ofText text).lex.1 }

def ParseResult.ofText (options : Options) (text : String) : Except Fault ParseResult := do
  let run := Document.readText options text
  let document ← run.outcome
  let reported := (Lexer.ofText text).lex.2.diagnostics
  return { text, document, diagnostics := reported ++ run.diagnostics, options }

def Document.ofText (options : Options) (text : String) : Except Fault Document :=
  (ParseResult.ofText options text).map ParseResult.document

end TemplateTree
