import TemplateTree.Token.Lexer

/-!
# Readers

A lexer can be read in three ways, in any turn: one lexeme at a time, through a stream, or
all that is left at once. All of them share the state of the lexer. Only the stream keeps
something to itself: once it has come to its end, it does not ask the lexer again.
-/

namespace TemplateTree

structure Reader where
  lexer : Lexer
  /-- The stream has come to its end. -/
  ended : Bool := false
  atEnd_of_ended : ended → lexer.atEnd
  deriving DecidableEq, Repr

namespace Reader

def ofText (source : String) : Reader := ⟨Lexer.ofText source, false, nofun⟩

theorem next?_of_ended {r : Reader} (h : r.ended) : r.lexer.next? = none :=
  Lexer.atEnd_iff.mp (r.atEnd_of_ended h)

/-- The next lexeme of the lexer. -/
def token (r : Reader) : Option Lexeme × Reader :=
  match hn : r.lexer.next? with
  | none => (none, r)
  | some (lexeme, lexer) =>
    (some lexeme, { r with
      lexer
      atEnd_of_ended := fun h => by rw [r.next?_of_ended h] at hn; cases hn })

/-- The next lexeme of the stream. -/
def stream (r : Reader) : Option Lexeme × Reader :=
  if r.ended then (none, r)
  else match hn : r.lexer.next? with
    | none => (none, ⟨r.lexer, true, fun _ => Lexer.atEnd_iff.mpr hn⟩)
    | some (lexeme, lexer) => (some lexeme, ⟨lexer, false, nofun⟩)

/-- All lexemes that are left. -/
def lex (r : Reader) : List Lexeme × Reader :=
  (r.lexer.lex.1, { r with
    lexer := r.lexer.lex.2
    atEnd_of_ended := fun h => by
      rw [Lexer.lex_of_next?_none (r.next?_of_ended h)]
      exact r.atEnd_of_ended h })

inductive Call
  | token
  | stream
  | lex
  deriving DecidableEq, Repr

inductive Answer
  | one (lexeme? : Option Lexeme)
  | all (lexemes : List Lexeme)
  deriving DecidableEq, Repr

def Answer.lexemes : Answer → List Lexeme
  | .one lexeme? => lexeme?.toList
  | .all lexemes => lexemes

/-- The answer to a call that there is no lexeme left. -/
def Call.exhausted : Call → Answer
  | .token | .stream => .one none
  | .lex => .all []

def call (r : Reader) : Call → Answer × Reader
  | .token => (.one r.token.1, r.token.2)
  | .stream => (.one r.stream.1, r.stream.2)
  | .lex => (.all r.lex.1, r.lex.2)

def callAll (r : Reader) : List Call → List Answer × Reader
  | [] => ([], r)
  | c :: cs =>
    let rest := (r.call c).2.callAll cs
    ((r.call c).1 :: rest.1, rest.2)

theorem token_of_none {r : Reader} (h : r.lexer.next? = none) : r.token = (none, r) := by
  unfold token
  split <;> simp_all

theorem token_of_some {r : Reader} {lexeme : Lexeme} {lexer : Lexer}
    (h : r.lexer.next? = some (lexeme, lexer)) :
    r.token.1 = some lexeme ∧ r.token.2.lexer = lexer := by
  unfold token
  split <;> simp_all

theorem stream_of_none {r : Reader} (h : r.lexer.next? = none) :
    r.stream.1 = none ∧ r.stream.2.lexer = r.lexer := by
  unfold stream
  split
  · exact ⟨rfl, rfl⟩
  · split <;> simp_all

theorem stream_of_some {r : Reader} {lexeme : Lexeme} {lexer : Lexer}
    (h : r.lexer.next? = some (lexeme, lexer)) :
    r.stream.1 = some lexeme ∧ r.stream.2.lexer = lexer := by
  unfold stream
  split
  · rename_i he
    rw [next?_of_ended he] at h
    cases h
  · split <;> simp_all

theorem next?_of_stream {r r' : Reader} {lexeme : Lexeme} (h : r.stream = (some lexeme, r')) :
    r.lexer.next? = some (lexeme, r'.lexer) := by
  cases hn : r.lexer.next? with
  | none =>
    have hs := (stream_of_none hn).1
    rw [h] at hs
    cases hs
  | some taken =>
    obtain ⟨hs, hl⟩ := stream_of_some hn
    rw [h] at hs hl
    rw [Option.some.inj hs, hl]

theorem length_rest_stream_lt {r r' : Reader} {lexeme : Lexeme}
    (h : r.stream = (some lexeme, r')) : r'.lexer.rest.length < r.lexer.rest.length :=
  Lexer.length_rest_next?_lt (next?_of_stream h)

end Reader

end TemplateTree
