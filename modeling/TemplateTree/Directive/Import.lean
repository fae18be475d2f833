import TemplateTree.Directive.NameList
import TemplateTree.Directive.Phrase
import TemplateTree.Note

/-!
# Import directives

The two forms of import after the path of the template: names imported from
it, or the template under a name. Either may end in `with context`, and `as`
gives the next word to what precedes it. Words that come in any other order
are read as far as they make sense.
-/

namespace TemplateTree

def withContext : Phrase := { first := "with", second := "context" }

/-- The words of a from-import after its path. -/
structure ImportNames where
  withContext : Phrase := TemplateTree.withContext
  /-- The last `as`, while its name is still to come. -/
  awaiting? : Option Token := none
  names : NameList := {}
  deriving DecidableEq, Repr

namespace ImportNames

/-- A name after `as` is the alias of the name before, if there is one. -/
def name (part : ImportNames) (name : Leaf) : NoteM ImportNames :=
  match part.awaiting? with
  | none => return { part with names := part.names.push name }
  | some _ =>
    match part.names.aliasLast? name with
    | some names => return { part with names, awaiting? := none }
    | none => do
      NoteM.report (Code.danglingAlias.at name.span?)
      return { part with awaiting? := none }

def feed (mode : PositionMode) (part : ImportNames) (t : Token) : NoteM ImportNames :=
  let part' := { part with withContext := part.withContext.feed t }
  -- `import` only separates the path from the names, so it may stand anywhere
  if part.withContext.mentions t || t.kind != .symbol || t.value == "import" then return part'
  else if t.value == "as" then return { part' with awaiting? := some t }
  else do part'.name ⟨t.value, some (← NoteM.ofPlace (t.span mode))⟩

def close (mode : PositionMode) (part : ImportNames) (template : Leaf) (opening closing : Token) :
    NoteM Import := do
  -- an `as` right before the closing delimiter has no name to give
  if let some t := part.awaiting? then
    NoteM.report (Code.danglingAlias.at (some (← NoteM.ofPlace (t.span mode))))
  let span ← NoteM.ofPlace (opening.spanTo closing mode)
  return ⟨template, part.withContext.isConfirmed, .names part.names.build, some span⟩

end ImportNames

/-- The words of a direct import after its path. -/
structure ImportTarget where
  withContext : Phrase := TemplateTree.withContext
  awaiting : Bool := false
  target? : Option Leaf := none
  deriving DecidableEq, Repr

namespace ImportTarget

def feed (mode : PositionMode) (part : ImportTarget) (t : Token) : NoteM ImportTarget :=
  let part' := { part with withContext := part.withContext.feed t }
  if part.withContext.mentions t || t.kind != .symbol then return part'
  else if t.value == "as" then return { part' with awaiting := true }
  else if part.awaiting then do
    let span ← NoteM.ofPlace (t.span mode)
    return { part' with awaiting := false, target? := some ⟨t.value, some span⟩ }
  else return part'

def close (mode : PositionMode) (part : ImportTarget) (template : Leaf)
    (opening closing : Token) : NoteM Import := do
  let span ← NoteM.ofPlace (opening.spanTo closing mode)
  match part.target? with
  | none => NoteM.fail (.parse (.missingAlias span))
  | some name => return ⟨template, part.withContext.isConfirmed, .target name, some span⟩

end ImportTarget

end TemplateTree
