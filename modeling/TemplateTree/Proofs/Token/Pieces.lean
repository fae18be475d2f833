import TemplateTree.Proofs.Token.Scanned
import TemplateTree.Token.Lexer

/-!
# The pieces of a text

A text as the list of the pieces that scanning takes off it, without places.
The lexemes of a lexer are these pieces, each at the place to which those
before it lead (`lex_fst`), so what a text is cut into and where the cuts are
can be treated apart.
-/

namespace TemplateTree

/-- The pieces of a text that starts inside a tag or not. -/
def pieces (inTag : Bool) : List Char → List Piece
  | [] => []
  | c :: cs => scan inTag c cs :: pieces (scan inTag c cs).inTag (scan inTag c cs).rest
termination_by cs => cs.length
decreasing_by exact length_rest_scan_lt inTag c cs

@[simp] theorem pieces_nil (inTag : Bool) : pieces inTag [] = [] := by rw [pieces]

theorem pieces_cons (inTag : Bool) (c : Char) (cs : List Char) :
    pieces inTag (c :: cs) =
      scan inTag c cs :: pieces (scan inTag c cs).inTag (scan inTag c cs).rest := by
  rw [pieces]

/-- The text that pieces take up. -/
def slices (ps : List Piece) : List Char := ps.flatMap Piece.slice

@[simp] theorem slices_nil : slices [] = [] := rfl

@[simp] theorem slices_cons (p : Piece) (ps : List Piece) :
    slices (p :: ps) = p.slice ++ slices ps := rfl

@[simp] theorem slices_append (ps qs : List Piece) : slices (ps ++ qs) = slices ps ++ slices qs :=
  List.flatMap_append

theorem slices_pieces (inTag : Bool) (cs : List Char) : slices (pieces inTag cs) = cs := by
  induction inTag, cs using pieces.induct with
  | case1 inTag => simp
  | case2 inTag c cs ih => rw [pieces_cons, slices_cons, ih, slice_append_rest_scan]

theorem pieces_ne_nil {inTag : Bool} {cs : List Char} (h : cs ≠ []) : pieces inTag cs ≠ [] :=
  fun hp => h (by rw [← slices_pieces inTag cs, hp, slices_nil])

theorem exists_scanned_of_mem_pieces {inTag : Bool} {cs : List Char} {piece : Piece}
    (h : piece ∈ pieces inTag cs) : ∃ t, Scanned t piece := by
  induction inTag, cs using pieces.induct with
  | case1 inTag => simp at h
  | case2 inTag c cs ih =>
    rw [pieces_cons] at h
    rcases List.mem_cons.mp h with rfl | h
    · exact ⟨inTag, scanned_scan inTag c cs⟩
    · exact ih h

/-- What a scan leaves is what the pieces after it are taken off. -/
theorem rest_of_pieces {inTag : Bool} {cs : List Char} {qs rs : List Piece} {p : Piece}
    (h : pieces inTag cs = qs ++ p :: rs) : p.rest = slices rs := by
  induction inTag, cs using pieces.induct generalizing qs with
  | case1 inTag => simp at h
  | case2 inTag c cs ih =>
    rw [pieces_cons] at h
    cases qs with
    | nil =>
      obtain ⟨rfl, rfl⟩ := List.cons.inj h
      exact (slices_pieces _ _).symm
    | cons q qs => exact ih (List.cons.inj h).2

theorem Scanned.slice_ne_nil {inTag : Bool} {piece : Piece} (h : Scanned inTag piece) :
    piece.slice ≠ [] := by
  cases h with
  | opener rest h => exact (by decide : ∀ entry ∈ openers, entry.1 ≠ []) _ h
  | closer rest h => exact (by decide : ∀ entry ∈ closers, entry.1 ≠ []) _ h
  | operator rest h => exact (by decide : ∀ delimiter ∈ longOperators, delimiter ≠ []) _ h
  | data hs => exact hs
  | whitespace hs => exact hs
  | _ => simp

namespace Piece

def lexeme (p : Piece) (place : Place) : Lexeme :=
  ⟨p.kind, String.ofList p.value, place.line, place.column⟩

/-- Pieces one after the other from a place on, as lexemes. -/
def lexemes (place : Place) : List Piece → List Lexeme
  | [] => []
  | p :: ps => p.lexeme place :: lexemes (place.advance p.slice) ps

/-- The reports of the problems with pieces from a place on. -/
def problems (place : Place) : List Piece → List Diagnostic
  | [] => []
  | p :: ps => Lexer.problemAt place p ++ problems (place.advance p.slice) ps

theorem problems_eq_nil {ps : List Piece} (h : ∀ p ∈ ps, p.problem? = none) (place : Place) :
    problems place ps = [] := by
  induction ps generalizing place with
  | nil => rfl
  | cons p ps ih =>
    obtain ⟨hp, hps⟩ := List.forall_mem_cons.mp h
    rw [problems, Lexer.problemAt, hp, ih hps]
    rfl

theorem lexemes_append (place : Place) (ps qs : List Piece) :
    lexemes place (ps ++ qs) = lexemes place ps ++ lexemes (place.advance (slices ps)) qs := by
  induction ps generalizing place with
  | nil => rfl
  | cons p ps ih => simp [lexemes, ih, Place.advance_append]

end Piece

namespace Lexer

theorem next?_cons {l : Lexer} {c : Char} {cs : List Char} (h : l.rest = c :: cs) :
    l.next? = some ((scan l.inTag c cs).lexeme l.place,
      { source := l.source
        rest := (scan l.inTag c cs).rest
        place := l.place.advance (scan l.inTag c cs).slice
        inTag := (scan l.inTag c cs).inTag
        diagnostics := l.diagnostics ++ problemAt l.place (scan l.inTag c cs) }) := by
  unfold next?
  split
  · simp_all
  · rename_i c' cs' h'
    obtain ⟨rfl, rfl⟩ := List.cons.inj (h.symm.trans h')
    rfl

/-- A step takes the first piece off what is left of the text. -/
theorem exists_piece_of_next? {l l' : Lexer} {lexeme : Lexeme}
    (h : l.next? = some (lexeme, l')) :
    ∃ piece, Scanned l.inTag piece ∧ l.rest = piece.slice ++ piece.rest ∧
      pieces l.inTag l.rest = piece :: pieces piece.inTag piece.rest ∧
      lexeme = piece.lexeme l.place ∧
      l' = { l with
        rest := piece.rest
        place := l.place.advance piece.slice
        inTag := piece.inTag
        diagnostics := l.diagnostics ++ problemAt l.place piece } := by
  cases hr : l.rest with
  | nil =>
    rw [next?_eq_none_iff.mpr hr] at h
    cases h
  | cons c cs =>
    rw [next?_cons hr] at h
    cases h
    exact ⟨_, scanned_scan l.inTag c cs, (slice_append_rest_scan l.inTag c cs).symm,
      pieces_cons l.inTag c cs, rfl, rfl⟩

theorem lex_induction {motive : Lexer → Prop} (done : ∀ l, l.next? = none → motive l)
    (more : ∀ l lexeme l', l.next? = some (lexeme, l') → motive l' → motive l) (l : Lexer) :
    motive l := by
  induction hn : l.rest.length using Nat.strongRecOn generalizing l with
  | ind n ih =>
    cases h : l.next? with
    | none => exact done l h
    | some r => exact more l r.1 r.2 h (ih _ (hn ▸ length_rest_next?_lt h) r.2 rfl)

theorem lex_fst (l : Lexer) : l.lex.1 = Piece.lexemes l.place (pieces l.inTag l.rest) := by
  induction l using lex_induction with
  | done l h =>
    rw [lex_of_next?_none h, next?_eq_none_iff.1 h, pieces_nil]
    rfl
  | more l lexeme l' h ih =>
    obtain ⟨piece, -, -, hpieces, rfl, rfl⟩ := exists_piece_of_next? h
    rw [lex_of_next?_some h, ih, hpieces]
    rfl

theorem rest_lex_snd (l : Lexer) : l.lex.2.rest = [] := by
  induction l using lex_induction with
  | done l h => rw [lex_of_next?_none h, next?_eq_none_iff.1 h]
  | more l lexeme l' h ih => rw [lex_of_next?_some h, ih]

theorem diagnostics_lex_snd (l : Lexer) :
    l.lex.2.diagnostics = l.diagnostics ++ Piece.problems l.place (pieces l.inTag l.rest) := by
  induction l using lex_induction with
  | done l h =>
    rw [lex_of_next?_none h, next?_eq_none_iff.1 h, pieces_nil, Piece.problems, List.append_nil]
  | more l lexeme l' h ih =>
    obtain ⟨piece, -, -, hpieces, rfl, rfl⟩ := exists_piece_of_next? h
    rw [lex_of_next?_some h, ih, hpieces, Piece.problems, List.append_assoc]

theorem lex_ofText_fst (text : String) :
    (ofText text).lex.1 = Piece.lexemes {} (pieces false text.toList) := lex_fst (ofText text)

end Lexer

end TemplateTree
