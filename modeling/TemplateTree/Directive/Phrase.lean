import TemplateTree.Token.Basic

/-!
# Phrases

Two keywords that count only when they stand next to each other among the
words and strings of a directive, such as `with context`. A phrase once
confirmed stays so.
-/

namespace TemplateTree

inductive PhraseState
  | idle
  /-- The last token was the first keyword. -/
  | pending
  | confirmed
  deriving DecidableEq, Repr

def PhraseState.label : PhraseState → String
  | .idle => "IDLE"
  | .pending => "PENDING"
  | .confirmed => "CONFIRMED"

structure Phrase where
  first : String
  second : String
  state : PhraseState := .idle
  deriving DecidableEq, Repr

namespace Phrase

/-- Whether the token is one of the two keywords, in whatever state. -/
def mentions (p : Phrase) (t : Token) : Bool := t.isWord p.first || t.isWord p.second

/-- The state after a token. A phrase of twice the same keyword never gets
beyond its first. -/
def after (p : Phrase) (t : Token) : PhraseState :=
  match p.state with
  | .confirmed => .confirmed
  | .pending =>
    if t.isWord p.first then .pending else if t.isWord p.second then .confirmed else .idle
  | .idle => if t.isWord p.first then .pending else .idle

def feed (p : Phrase) (t : Token) : Phrase := { p with state := p.after t }

def isConfirmed (p : Phrase) : Bool := p.state == .confirmed

end Phrase

end TemplateTree
