import TemplateTree.Directive.Basic
import TemplateTree.Tree.CommentText

/-!
# Reading a document

Comments and directives become the items of a document, everything else
between them leaves no trace. Outside a directive only a comment and the
opening of a block count, so whatever a skipped tag still holds is passed over.
-/

namespace TemplateTree

/-- A directive that is being read, with the token that opened it. -/
structure OpenDirective where
  opening : Token
  directive : Directive
  deriving DecidableEq, Repr

structure Reading where
  newestFirst : List Item := []
  open? : Option OpenDirective := none
  deriving DecidableEq, Repr

namespace Reading

def push (r : Reading) (item : Item) : Reading :=
  { r with newestFirst := item :: r.newestFirst }

/-- What a token makes of the reading outside any directive. -/
def outside (mode : PositionMode) (r : Reading) (t : Token) : NoteM Reading :=
  match t.kind with
  | .comment => do return r.push (.comment (← NoteM.ofPlace (Comment.ofToken mode t)))
  | .blockStart => return { r with open? := some ⟨t, .keyword⟩ }
  | _ => return r

/-- What a token makes of the reading inside a directive. -/
def inside (options : Options) (r : Reading) (o : OpenDirective) (t : Token) : NoteM Reading := do
  match ← o.directive.feed options o.opening t with
  | .reading directive => return { r with open? := some { o with directive } }
  | .done item? => return { newestFirst := item?.toList ++ r.newestFirst, open? := none }

def feed (options : Options) (r : Reading) (t : Token) : NoteM Reading :=
  match r.open? with
  | none => r.outside options.positionMode t
  | some o => r.inside options o t

def document (r : Reading) : Document := { items := r.newestFirst.reverse }

/-- Reads to the end of the tokens, which must not come inside a directive. -/
def machine (options : Options) : Machine Reading Document where
  feed r t := do return .reading (← r.feed options t)
  finish r source :=
    match r.open? with
    | none => .ok r.document
    | some o => .error (source.endFault options.positionMode o.directive.construct)

end Reading

def Document.read (options : Options) (source : TokenSource) : Run Document :=
  (Reading.machine options).run {} source

/-- The document of lexemes from any lexer. -/
def Document.ofLexemes (options : Options) (lexemes : List Lexeme) : Except Fault Document :=
  (Document.read options { rest := lexemes }).outcome

end TemplateTree
