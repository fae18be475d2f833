import TemplateTree.Directive.Phrase
import TemplateTree.Note
import TemplateTree.Tree.Basic

/-!
# Include directives

The path is the last string of the directive. A word that is not part of
`ignore missing` makes it the right operand of an expression, with the last
such word as the left one.
-/

namespace TemplateTree

def ignoreMissing : Phrase := { first := "ignore", second := "missing" }

structure IncludeWords where
  ignoreMissing : Phrase := TemplateTree.ignoreMissing
  path? : Option Token := none
  left? : Option Token := none
  deriving DecidableEq, Repr

namespace IncludeWords

def feed (part : IncludeWords) (t : Token) : IncludeWords :=
  let part' := { part with ignoreMissing := part.ignoreMissing.feed t }
  if part.ignoreMissing.mentions t then part'
  else if t.kind = .string then { part' with path? := some t }
  else { part' with left? := some t }

def template (mode : PositionMode) (path : Token) (left? : Option Token) :
    Except PlaceError IncludePath := do
  let right ← path.span mode
  match left? with
  | none => return .value ⟨path.value, some right⟩
  | some word =>
    let left ← word.span mode
    return .expression
      ⟨⟨word.value, some left⟩, ⟨path.value, some right⟩, some (left.cover right)⟩

def close (mode : PositionMode) (part : IncludeWords) (opening closing : Token) :
    NoteM Include := do
  let span ← NoteM.ofPlace (opening.spanTo closing mode)
  match part.path? with
  | none => NoteM.fail (.parse (.missingTemplatePath "include" span))
  | some path =>
    let template ← NoteM.ofPlace (template mode path part.left?)
    return ⟨part.ignoreMissing.isConfirmed, template, some span⟩

end IncludeWords

end TemplateTree
