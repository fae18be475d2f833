import TemplateTree.Directive.Import
import TemplateTree.Directive.Include
import TemplateTree.Options
import TemplateTree.Token.Machine

/-!
# Directives

A directive while it is read: first its keyword, for an import then the path,
then the words that its form has. Only words and strings count; the closing
delimiter ends every directive, wherever it comes. Keywords without a node
end the reading at once and leave the rest of the tag alone.
-/

namespace TemplateTree

inductive ImportForm
  | names
  | target
  deriving DecidableEq, Repr

def ImportForm.construct : ImportForm → String
  | .names => "from-import"
  | .target => "import"

inductive Directive
  | keyword
  | importPath (form : ImportForm)
  | importNames (template : Leaf) (part : ImportNames)
  | importTarget (template : Leaf) (part : ImportTarget)
  | including (part : IncludeWords)
  deriving DecidableEq, Repr

namespace Directive

/-- The directives that have a node, by their keyword. -/
def modeled : List (String × Directive) := [
  ("from", .importPath .names), ("import", .importPath .target), ("include", .including {})]

theorem modeled_cases {keyword : String} {d : Directive} (h : modeled.lookup keyword = some d) :
    (keyword = "from" ∧ d = .importPath .names) ∨
      (keyword = "import" ∧ d = .importPath .target) ∨
      (keyword = "include" ∧ d = .including {}) := by
  obtain ⟨l, l', hl, -⟩ := List.lookup_eq_some_iff.mp h
  have hm : (keyword, d) ∈ modeled := by simp [hl]
  simpa [modeled] using hm

/-- The keywords of directives that are known and have no node. -/
def unmodeled : List String := ["if", "macro", "set"]

def construct : Directive → String
  | .keyword => "directive"
  | .importPath form => form.construct
  | .importNames .. => ImportForm.names.construct
  | .importTarget .. => ImportForm.target.construct
  | .including _ => "include"

/-- The directive that a keyword opens, or none but a note. -/
def ofKeyword (options : Options) (t : Token) : NoteM (Progress Directive (Option Item)) :=
  match modeled.lookup t.value with
  | some directive => return .reading directive
  | none =>
    if t.value ∈ unmodeled then do
      -- the log entry comes first: it is made even if the keyword has no valid place
      NoteM.log (.skipped t.value t.line t.column)
      if options.reportUnmodeled then
        let span ← NoteM.ofPlace (t.span options.positionMode)
        NoteM.report { Code.unmodeledDirective.at (some span) with
          message := s!"`{t.value}` directive is recognised but not modeled; no node produced" }
      return .done none
    else do
      NoteM.log (.ignored t.value t.line t.column)
      return .done none

/-- What a word or a string makes of the directive. -/
def word (options : Options) (d : Directive) (t : Token) :
    NoteM (Progress Directive (Option Item)) :=
  let mode := options.positionMode
  match d with
  | .keyword => if t.kind = .symbol then ofKeyword options t else return .reading d
  | .importPath form =>
    if t.kind = .string then do
      let template : Leaf := ⟨t.value, some (← NoteM.ofPlace (t.span mode))⟩
      match form with
      | .names => return .reading (.importNames template {})
      | .target => return .reading (.importTarget template {})
    else return .reading d
  | .importNames template part => do return .reading (.importNames template (← part.feed mode t))
  | .importTarget template part => do return .reading (.importTarget template (← part.feed mode t))
  | .including part => return .reading (.including (part.feed t))

/-- What the closing delimiter makes of the directive. -/
def close (mode : PositionMode) (opening : Token) (d : Directive) (closing : Token) :
    NoteM (Option Item) :=
  match d with
  | .keyword => return none
  | .importPath form => do
    let span ← NoteM.ofPlace (opening.spanTo closing mode)
    NoteM.fail (.parse (.missingTemplatePath form.construct span))
  | .importNames template part => do
    return some (.importing (← part.close mode template opening closing))
  | .importTarget template part => do
    return some (.importing (← part.close mode template opening closing))
  | .including part => do return some (.including (← part.close mode opening closing))

def feed (options : Options) (opening : Token) (d : Directive) (t : Token) :
    NoteM (Progress Directive (Option Item)) :=
  match t.role with
  | .closing => do return .done (← d.close options.positionMode opening t)
  | .word => d.word options t
  | .passedOver => return .reading d

/-- Reads the directive that `opening` starts; there is no result at the end of
the tokens. -/
def machine (options : Options) (opening : Token) : Machine Directive (Option Item) where
  feed := feed options opening
  finish d source := .error (source.endFault options.positionMode d.construct)

def read (options : Options) (opening : Token) (d : Directive) (source : TokenSource) :
    Run (Option Item) :=
  (machine options opening).run d source

end Directive

end TemplateTree
