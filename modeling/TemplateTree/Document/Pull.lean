import TemplateTree.Document.Template
import TemplateTree.Token.Reader

/-!
# Reading a lexer

A machine that pulls its tokens out of the stream of a lexer, each when it is needed, and
the reading of a text in this way. What is behind the token that ends such a reading is
never lexed, so nothing of it is reported.
-/

namespace TemplateTree

/-- How a reading of a lexer ended: its outcome, all it noted down, the token it was given
last, and the lexer as it was left. -/
structure Pull (α : Type) where
  outcome : Except Fault α
  notes : List Note
  last? : Option Token
  reader : Reader

def Pull.diagnostics {α : Type} (p : Pull α) : List Diagnostic :=
  Diagnostic.kept (p.notes.filterMap Note.diagnostic?)

namespace Machine

variable {σ α : Type}

def pull (m : Machine σ α) (state : σ) (last? : Option Token) (r : Reader) : Pull α :=
  match _h : r.stream with
  | (none, r) => ⟨m.finish state ⟨[], last?⟩, [], last?, r⟩
  | (some lexeme, r) =>
    let token := lexeme.toToken
    let fed := m.feed state token
    match fed.outcome with
    | .ok (.reading state) =>
      let rest := m.pull state (some token) r
      { rest with notes := fed.notes ++ rest.notes }
    | .ok (.done result) => ⟨.ok result, fed.notes, some token, r⟩
    | .error fault => ⟨.error fault, fed.notes, some token, r⟩
termination_by r.lexer.rest.length
decreasing_by exact Reader.length_rest_stream_lt _h

end Machine

/-- The reading of a text that is lexed on the way. -/
def Document.pullText (options : Options) (text : String) : Pull Document :=
  (Reading.machine options).pull {} none (Reader.ofText text)

def ParseResult.pullText (options : Options) (text : String) : Except Fault ParseResult := do
  let pull := Document.pullText options text
  let document ← pull.outcome
  let reported := pull.reader.lexer.diagnostics
  return { text, document, diagnostics := reported ++ pull.diagnostics, options }

end TemplateTree
