import TemplateTree.Position.Span

/-!
# Trees

The typed tree of a template: its comments, imports and includes in source
order. Every part carries the span it was read from, where one is known.
-/

namespace TemplateTree

/-- A part that holds nothing but a text. -/
structure Leaf where
  value : String
  span? : Option Span := none
  deriving DecidableEq, Repr

/-- A comment without its delimiters, trim markers and outer blanks. -/
structure Comment where
  text : String
  trimLeft : Bool
  trimRight : Bool
  span? : Option Span := none
  deriving DecidableEq, Repr

/-- An imported name under another name, `key as value`. -/
structure Alias where
  key : Leaf
  value : Leaf
  span? : Option Span := none
  deriving DecidableEq, Repr

inductive ImportedName
  | plain (name : Leaf)
  | aliased (entry : Alias)
  deriving DecidableEq, Repr

def ImportedName.span? : ImportedName → Option Span
  | .plain name => name.span?
  | .aliased entry => entry.span?

/-- Imported names in the order of import; a name may occur more than once. -/
structure ImportedNames where
  entries : List ImportedName
  span? : Option Span := none
  deriving DecidableEq, Repr

/-- What an import makes known: names of the template, or the template itself
under a name. -/
inductive Binding
  | names (names : ImportedNames)
  | target (name : Leaf)
  deriving DecidableEq, Repr

structure Import where
  template : Leaf
  withContext : Bool
  binding : Binding
  span? : Option Span := none
  deriving DecidableEq, Repr

namespace Import

def names? (i : Import) : Option ImportedNames :=
  match i.binding with
  | .names names => some names
  | .target _ => none

def target? (i : Import) : Option Leaf :=
  match i.binding with
  | .names _ => none
  | .target name => some name

def isFromImport (i : Import) : Bool := i.names?.isSome

end Import

/-- A path that is put together when the template is rendered, `left + right`. -/
structure PathExpression where
  left : Leaf
  right : Leaf
  span? : Option Span := none
  deriving DecidableEq, Repr

inductive IncludePath
  | value (path : Leaf)
  | expression (path : PathExpression)
  deriving DecidableEq, Repr

structure Include where
  ignoreMissing : Bool
  template : IncludePath
  span? : Option Span := none
  deriving DecidableEq, Repr

namespace Include

def value? (i : Include) : Option Leaf :=
  match i.template with
  | .value path => some path
  | .expression _ => none

def expression? (i : Include) : Option PathExpression :=
  match i.template with
  | .value _ => none
  | .expression path => some path

end Include

/-- What can stand at the top of a template. -/
inductive Item
  | comment (comment : Comment)
  | importing (directive : Import)
  | including (directive : Include)
  deriving DecidableEq, Repr

structure Document where
  items : List Item
  span? : Option Span := none
  deriving DecidableEq, Repr

end TemplateTree
