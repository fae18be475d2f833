import TemplateTree.Note
import TemplateTree.Token.Source

/-!
# Machines

Reading as a state that each token changes. A machine is fed the tokens of a
source one at a time, in order, and never looks ahead; what it has done after
some tokens does not depend on those still to come. It stops with a result,
with a fault, or at the end of the tokens.
-/

namespace TemplateTree

/-- What a token makes of the state. -/
inductive Progress (σ α : Type)
  | reading (state : σ)
  | done (result : α)
  deriving Repr

structure Machine (σ α : Type) where
  feed : σ → Token → NoteM (Progress σ α)
  /-- The outcome when the tokens end in this state. -/
  finish : σ → TokenSource → Except Fault α

/-- How a reading ended: its outcome, all it noted down, and the source with
the tokens it left. -/
structure Run (α : Type) where
  outcome : Except Fault α
  notes : List Note
  source : TokenSource

namespace Run

variable {α : Type}

/-- All diagnostics as they were reported. -/
def reported (r : Run α) : List Diagnostic := r.notes.filterMap Note.diagnostic?

def diagnostics (r : Run α) : List Diagnostic := Diagnostic.kept r.reported

def log (r : Run α) : List LogEntry := r.notes.filterMap Note.entry?

end Run

namespace Machine

variable {σ α : Type}

def run (m : Machine σ α) (state : σ) (source : TokenSource) : Run α :=
  go [] state source.last? source.rest
where
  go (noted : List Note) (state : σ) (last? : Option Token) : List Lexeme → Run α
    | [] => ⟨m.finish state ⟨[], last?⟩, noted.reverse, ⟨[], last?⟩⟩
    | lexeme :: rest =>
      let token := lexeme.toToken
      let fed := m.feed state token
      -- notes are kept newest first on the way
      let noted := fed.notes.reverse ++ noted
      match fed.outcome with
      | .ok (.reading state) => go noted state (some token) rest
      | .ok (.done result) => ⟨.ok result, noted.reverse, ⟨rest, some token⟩⟩
      | .error fault => ⟨.error fault, noted.reverse, ⟨rest, some token⟩⟩

theorem run.go_eq (m : Machine σ α) (noted : List Note) (state : σ) (last? : Option Token)
    (lexemes : List Lexeme) :
    run.go m noted state last? lexemes =
      { m.run state ⟨lexemes, last?⟩ with
        notes := noted.reverse ++ (m.run state ⟨lexemes, last?⟩).notes } := by
  induction lexemes generalizing noted state last? with
  | nil => simp [run, run.go]
  | cons lexeme rest ih =>
    simp only [run, run.go]
    split
    · rw [ih, ih (_ ++ [])]; simp
    · simp
    · simp

theorem run_nil (m : Machine σ α) (state : σ) (last? : Option Token) :
    m.run state ⟨[], last?⟩ = ⟨m.finish state ⟨[], last?⟩, [], ⟨[], last?⟩⟩ := rfl

theorem run_cons (m : Machine σ α) (state : σ) (last? : Option Token) (lexeme : Lexeme)
    (rest : List Lexeme) :
    m.run state ⟨lexeme :: rest, last?⟩ =
      let token := lexeme.toToken
      let source : TokenSource := ⟨rest, some token⟩
      let fed := m.feed state token
      match fed.outcome with
      | .ok (.reading state) =>
        { m.run state source with notes := fed.notes ++ (m.run state source).notes }
      | .ok (.done result) => ⟨.ok result, fed.notes, source⟩
      | .error fault => ⟨.error fault, fed.notes, source⟩ := by
  simp only [run, run.go]
  split
  · rw [run.go_eq]; simp [run]
  · simp
  · simp

end Machine

end TemplateTree
