import TemplateTree.Diagnostic.Basic
import TemplateTree.Token.Basic
import TemplateTree.Token.Piece
import TemplateTree.Token.Place

/-!
# The lexer

A lexer is the state of reading one text: what is left of it, where that
starts, whether it starts inside a tag, and what has been reported. `next?`
reads one lexeme, `lex` all that are left; a lexer at the end of its text
stays there.
-/

namespace TemplateTree

structure Lexer where
  source : String
  rest : List Char
  place : Place := {}
  inTag : Bool := false
  diagnostics : List Diagnostic := []
  deriving DecidableEq, Repr

namespace Lexer

def ofText (source : String) : Lexer := { source, rest := source.toList }

def atEnd (l : Lexer) : Bool := l.rest.isEmpty

/-- The report of a problem with the piece that was just read. -/
def problemAt (place : Place) (piece : Piece) : List Diagnostic :=
  piece.problem?.toList.map fun code => code.at (some (place.spanOver piece.slice))

def next? (l : Lexer) : Option (Lexeme × Lexer) :=
  match l.rest with
  | [] => none
  | c :: cs =>
    let piece := scan l.inTag c cs
    some (⟨piece.kind, String.ofList piece.value, l.place.line, l.place.column⟩,
      { source := l.source
        rest := piece.rest
        place := l.place.advance piece.slice
        inTag := piece.inTag
        diagnostics := l.diagnostics ++ problemAt l.place piece })

theorem next?_eq_none_iff {l : Lexer} : l.next? = none ↔ l.rest = [] := by
  unfold next?
  split <;> simp_all

theorem atEnd_iff {l : Lexer} : l.atEnd ↔ l.next? = none := by
  rw [next?_eq_none_iff, atEnd, List.isEmpty_iff]

theorem length_rest_next?_lt {l l' : Lexer} {lexeme : Lexeme}
    (h : l.next? = some (lexeme, l')) : l'.rest.length < l.rest.length := by
  unfold next? at h
  split at h
  · cases h
  · next c cs hr =>
    cases h
    simpa [hr] using length_rest_scan_lt l.inTag c cs

/-- All lexemes that are left, and the lexer at the end of its text. -/
def lex (l : Lexer) : List Lexeme × Lexer :=
  go [] l
where
  go (read : List Lexeme) (l : Lexer) : List Lexeme × Lexer :=
    match _h : l.next? with
    | none => (read.reverse, l)
    | some (lexeme, l') => go (lexeme :: read) l'
  termination_by l.rest.length
  decreasing_by exact length_rest_next?_lt _h

theorem lex.go_eq (read : List Lexeme) (l : Lexer) :
    lex.go read l = (read.reverse ++ l.lex.1, l.lex.2) := by
  induction hn : l.rest.length using Nat.strongRecOn generalizing read l with
  | ind n ih =>
    rw [lex, lex.go, lex.go]
    split
    · simp
    · next lexeme l' h =>
      have hl := length_rest_next?_lt h
      rw [ih _ (hn ▸ hl) (lexeme :: read) l' rfl, ih _ (hn ▸ hl) [lexeme] l' rfl]
      simp

theorem lex_of_next?_none {l : Lexer} (h : l.next? = none) : l.lex = ([], l) := by
  rw [lex, lex.go]
  split <;> simp_all

theorem lex_of_next?_some {l l' : Lexer} {lexeme : Lexeme} (h : l.next? = some (lexeme, l')) :
    l.lex = (lexeme :: l'.lex.1, l'.lex.2) := by
  rw [lex, lex.go]
  split <;> simp_all [lex.go_eq]

end Lexer

end TemplateTree
