import TemplateTree.Proofs.Token.OpenEnd
import TemplateTree.Token.Reader

/-!
# A lexer is read once

Whatever was called in whatever turn, the lexemes that were delivered and those still to
come are the lexemes of the text (`Lexer.Delivered`): a call takes some from the second
list to the first. Only the last lexeme of a text can have a problem, so there is nothing
to report before all of them are delivered.
-/

namespace TemplateTree

/-- The lexer has come from `start` on and delivered these lexemes on the way. -/
structure Lexer.Delivered (start : Lexer) (ls : List Lexeme) (l : Lexer) : Prop where
  lexemes : ls ++ l.lex.1 = start.lex.1
  last : l.lex.2 = start.lex.2
  quiet : l.rest ≠ [] → l.diagnostics = []

variable {start l : Lexer} {ls : List Lexeme}

namespace Lexer

theorem lex_of_atEnd (h : l.atEnd) : l.lex = ([], l) := lex_of_next?_none (atEnd_iff.mp h)

theorem atEnd_lex_snd (l : Lexer) : l.lex.2.atEnd := List.isEmpty_iff.mpr (rest_lex_snd l)

theorem atEnd_of_lex_fst (h : l.lex.1 = []) : l.atEnd := by
  cases hn : l.next? with
  | none => exact atEnd_iff.mpr hn
  | some taken =>
    obtain ⟨lexeme, l'⟩ := taken
    rw [lex_of_next?_some hn] at h
    cases h

/-- A lexer that goes on has reported nothing. -/
theorem diagnostics_next? {l' : Lexer} {lexeme : Lexeme} (h : l.next? = some (lexeme, l'))
    (hl : l.diagnostics = []) (hr : l'.rest ≠ []) : l'.diagnostics = [] := by
  obtain ⟨piece, hs, -, -, -, rfl⟩ := exists_piece_of_next? h
  have hp : piece.problem? = none :=
    Option.eq_none_iff_forall_ne_some.mpr fun code hp => hr (hs.rest_of_problem hp)
  simp [hl, problemAt, hp]

end Lexer

namespace Lexer.Delivered

theorem init (h : start.diagnostics = []) : start.Delivered [] start := ⟨rfl, rfl, fun _ => h⟩

theorem next {l' : Lexer} {lexeme : Lexeme} (h : start.Delivered ls l)
    (hn : l.next? = some (lexeme, l')) : start.Delivered (ls ++ [lexeme]) l' := by
  have hlex := lex_of_next?_some hn
  have hrest : l.rest ≠ [] := fun hr => by
    rw [next?_eq_none_iff.mpr hr] at hn
    cases hn
  constructor
  · rw [← h.lexemes, hlex, List.append_assoc, List.singleton_append]
  · rw [← h.last, hlex]
  · exact diagnostics_next? hn (h.quiet hrest)

theorem lex (h : start.Delivered ls l) : start.Delivered (ls ++ l.lex.1) l.lex.2 := by
  have hend := lex_of_atEnd l.atEnd_lex_snd
  constructor
  · rw [hend, List.append_nil, h.lexemes]
  · rw [hend, h.last]
  · exact fun hr => absurd (rest_lex_snd l) hr

theorem atEnd_iff (h : start.Delivered ls l) : l.atEnd ↔ ls = start.lex.1 := by
  rw [← h.lexemes]
  constructor
  · intro he
    rw [lex_of_atEnd he, List.append_nil]
  · intro he
    exact atEnd_of_lex_fst (List.self_eq_append_right.mp he)

theorem diagnostics_eq (h : start.Delivered ls l) :
    l.diagnostics = if ls = start.lex.1 then start.lex.2.diagnostics else [] := by
  split
  · rename_i he
    rw [← h.last, lex_of_atEnd (h.atEnd_iff.mpr he)]
  · rename_i he
    exact h.quiet fun hr => he (h.atEnd_iff.mp (List.isEmpty_iff.mpr hr))

end Lexer.Delivered

-- ---------------------------------------------------------------------------
-- Calls
-- ---------------------------------------------------------------------------

namespace Reader

variable {r : Reader}

theorem delivered_call (h : start.Delivered ls r.lexer) (c : Call) :
    start.Delivered (ls ++ (r.call c).1.lexemes) (r.call c).2.lexer := by
  unfold call
  cases hn : r.lexer.next? with
  | none =>
    cases c with
    | token =>
      simp only [token_of_none hn]
      exact (List.append_nil ls).symm ▸ h
    | stream =>
      obtain ⟨hs, hl⟩ := stream_of_none hn
      simp only [hs, hl]
      exact (List.append_nil ls).symm ▸ h
    | lex => exact h.lex
  | some taken =>
    cases c with
    | token =>
      obtain ⟨hs, hl⟩ := token_of_some hn
      simp only [hs, hl]
      exact h.next hn
    | stream =>
      obtain ⟨hs, hl⟩ := stream_of_some hn
      simp only [hs, hl]
      exact h.next hn
    | lex => exact h.lex

theorem delivered_callAll (h : start.Delivered ls r.lexer) (cs : List Call) :
    start.Delivered (ls ++ (r.callAll cs).1.flatMap Answer.lexemes) (r.callAll cs).2.lexer := by
  induction cs generalizing r ls with
  | nil => exact (List.append_nil ls).symm ▸ h
  | cons c cs ih =>
    have hc := ih (delivered_call h c)
    rw [List.append_assoc] at hc
    exact hc

/-- At the end of its text every call finds nothing, and leaves the lexer as it is. -/
theorem call_of_atEnd (h : r.lexer.atEnd) (c : Call) :
    (r.call c).1 = c.exhausted ∧ (r.call c).2.lexer = r.lexer := by
  have hn : r.lexer.next? = none := Lexer.atEnd_iff.mp h
  cases c with
  | token =>
    simp only [call, token_of_none hn]
    exact ⟨rfl, trivial⟩
  | stream =>
    obtain ⟨hs, hl⟩ := stream_of_none hn
    simp only [call, hs, hl]
    exact ⟨rfl, trivial⟩
  | lex =>
    simp only [call, lex, Lexer.lex_of_atEnd h]
    exact ⟨rfl, trivial⟩

end Reader

end TemplateTree
