import TemplateTree.Proofs.Position.Advance
import TemplateTree.Proofs.Token.Placed
import TemplateTree.Proofs.Token.Tiling

/-!
# Tokens located in the text

A token starts where its slice starts. For a token without line feeds whose
value is its slice, the span in either mode ends where the slice ends, so such
tokens, and all that spans from one of them to another, give back what stands in
the text.
-/

namespace TemplateTree

open scoped List

/-- The tokens of a text that follows `front`. -/
def tokensAfter (front : List Char) (ps : List Piece) : List Token :=
  (Piece.lexemes (Place.endOf front) ps).map Lexeme.toToken

/-- The token of a piece that stands after `front`. -/
def Piece.tokenAfter (front : List Char) (p : Piece) : Token :=
  (p.lexeme (Place.endOf front)).toToken

variable {front : List Char} {p : Piece} {ps : List Piece}

@[simp] theorem tokensAfter_nil (front : List Char) : tokensAfter front [] = [] := rfl

theorem tokensAfter_cons (front : List Char) (p : Piece) (ps : List Piece) :
    tokensAfter front (p :: ps) = p.tokenAfter front :: tokensAfter (front ++ p.slice) ps := by
  rw [tokensAfter, tokensAfter, Place.endOf_append, ← Place.advance_eq]
  rfl

theorem tokens_lex (text : String) :
    (Lexer.ofText text).lex.1.map Lexeme.toToken = tokensAfter [] (pieces false text.toList) := by
  rw [Lexer.lex_ofText_fst]
  rfl

theorem Piece.exists_of_mem_lexemes {l : Lexeme} (h : l ∈ lexemes (Place.endOf front) ps) :
    ∃ qs p rs, ps = qs ++ p :: rs ∧ l = p.lexeme (Place.endOf (front ++ slices qs)) := by
  induction ps generalizing front with
  | nil => cases h
  | cons p ps ih =>
    rcases List.mem_cons.mp h with rfl | h
    · exact ⟨[], p, ps, rfl, by simp⟩
    · rw [Place.advance_eq, ← Place.endOf_append] at h
      obtain ⟨qs, q, rs, rfl, rfl⟩ := ih h
      exact ⟨p :: qs, q, rs, rfl, by simp⟩

/-- Two lexemes that follow each other are those of two pieces that do. -/
theorem Piece.exists_of_pair_infix {l m : Lexeme}
    (h : [l, m] <:+: lexemes (Place.endOf front) ps) :
    ∃ qs p q rs, ps = qs ++ p :: q :: rs ∧ l = p.lexeme (Place.endOf (front ++ slices qs)) ∧
      m = q.lexeme (Place.endOf (front ++ slices qs ++ p.slice)) := by
  induction ps generalizing front with
  | nil => simp [lexemes] at h
  | cons p ps ih =>
    rw [lexemes, Place.advance_eq, ← Place.endOf_append] at h
    rcases List.infix_cons_iff.mp h with h | h
    · obtain ⟨rfl, hm⟩ := List.cons_prefix_cons.mp h
      cases ps with
      | nil => simp [lexemes] at hm
      | cons q rs =>
        obtain ⟨rfl, -⟩ := List.cons_prefix_cons.mp hm
        exact ⟨[], p, q, rs, rfl, by simp, by simp⟩
    · obtain ⟨qs, q, r, rs, rfl, rfl, rfl⟩ := ih h
      exact ⟨p :: qs, q, r, rs, rfl, by simp, by simp⟩

theorem exists_of_mem_tokensAfter {t : Token} (h : t ∈ tokensAfter front ps) :
    ∃ qs p rs, ps = qs ++ p :: rs ∧ t = p.tokenAfter (front ++ slices qs) := by
  obtain ⟨l, hl, rfl⟩ := List.mem_map.mp h
  obtain ⟨qs, p, rs, rfl, rfl⟩ := Piece.exists_of_mem_lexemes hl
  exact ⟨qs, p, rs, rfl, rfl⟩

/-- Two tokens among them, one after the other, are those of two of the pieces. -/
theorem exists_of_pair_sublist {t u : Token} (h : [t, u] <+ tokensAfter front ps) :
    ∃ qs p ms q rs, ps = qs ++ p :: (ms ++ q :: rs) ∧ t = p.tokenAfter (front ++ slices qs) ∧
      u = q.tokenAfter (front ++ slices qs ++ p.slice ++ slices ms) := by
  induction ps generalizing front with
  | nil => simp at h
  | cons p ps ih =>
    rw [tokensAfter_cons] at h
    cases h with
    | cons _ h =>
      obtain ⟨qs, q, ms, r, rs, rfl, rfl, rfl⟩ := ih h
      exact ⟨p :: qs, q, ms, r, rs, rfl, by simp, by simp⟩
    | cons_cons _ h =>
      obtain ⟨ms, q, rs, rfl, rfl⟩ :=
        exists_of_mem_tokensAfter (List.singleton_sublist.mp h)
      exact ⟨[], p, ms, q, rs, rfl, by simp, by simp⟩

theorem Piece.start_tokenAfter (front : List Char) (p : Piece) :
    (p.tokenAfter front).start = .ok (Place.endOf front).toPoint := by
  rw [Token.start_eq_ok_iff]
  exact ⟨rfl, rfl⟩

theorem exists_start_of_mem_tokensAfter {t : Token} (h : t ∈ tokensAfter front ps) :
    ∃ p, t.start = .ok p := by
  obtain ⟨qs, p, rs, rfl, rfl⟩ := exists_of_mem_tokensAfter h
  exact ⟨_, Piece.start_tokenAfter _ p⟩

theorem pairwise_tokensAfter (front : List Char) (ps : List Piece) :
    (tokensAfter front ps).Pairwise Token.Before := by
  induction ps generalizing front with
  | nil => exact .nil
  | cons p ps ih =>
    rw [tokensAfter_cons]
    refine .cons (fun u hu => ?_) (ih _)
    obtain ⟨qs, q, rs, rfl, rfl⟩ := exists_of_mem_tokensAfter hu
    rw [Token.before_iff (Piece.start_tokenAfter front p) (Piece.start_tokenAfter _ q),
      List.append_assoc]
    exact Place.endOf_le_endOf_append front _

@[simp] theorem Piece.toList_value_tokenAfter (front : List Char) (p : Piece) :
    (p.tokenAfter front).value.toList = p.value :=
  String.toList_ofList

/-- In line-aware mode a token whose value is its slice ends where the slice ends. -/
theorem Piece.past_lineAware (h : p.value = p.slice) (front : List Char) :
    (Place.endOf front).toPoint.past .lineAware (p.tokenAfter front).value.toList =
      (Place.endOf (front ++ p.slice)).toPoint := by
  rw [toList_value_tokenAfter, h, Place.past_lineAware, Place.advance_eq, ← Place.endOf_append]

/-- The piece stands in the text as its value says, on one line. -/
def Piece.IsLine (p : Piece) : Prop := p.value = p.slice ∧ '\n' ∉ p.slice

theorem Piece.IsLine.value_tokenAfter (h : p.IsLine) (front : List Char) :
    (p.tokenAfter front).value.toList = p.slice := by
  rw [Piece.toList_value_tokenAfter, h.1]

theorem Piece.IsLine.past (h : p.IsLine) (front : List Char) (mode : PositionMode) :
    (Place.endOf front).toPoint.past mode (p.tokenAfter front).value.toList =
      (Place.endOf (front ++ p.slice)).toPoint := by
  rw [h.value_tokenAfter, Place.past_toPoint _ mode h.2, Place.advance_eq, ← Place.endOf_append]

theorem Piece.span_tokenAfter (front : List Char) (p : Piece) (mode : PositionMode) :
    (p.tokenAfter front).span mode = .ok (Span.ofText (Place.endOf front).toPoint mode
      (p.tokenAfter front).value.toList) :=
  Token.span_eq (start_tokenAfter front p) mode

-- ---------------------------------------------------------------------------
-- What the slices look like
-- ---------------------------------------------------------------------------

namespace Scanned

variable {inTag : Bool}

theorem isLine_of_symbol (h : Scanned inTag p) (hk : p.kind = .symbol) : p.IsLine := by
  cases h with
  | opener rest h => rcases kind_of_mem_openers h with rfl | rfl <;> cases hk
  | closer rest h => rcases kind_of_mem_closers h with rfl | rfl <;> cases hk
  | @mark c => exact absurd hk (delimiterKind_ne (by decide) c)
  | word hq h hr => exact ⟨rfl, fun hn => absurd (h '\n' hn) (by decide)⟩
  | _ => cases hk

theorem blockStart_eq (h : Scanned inTag p) (hk : p.kind = .blockStart) :
    p.value = p.slice ∧ (p.slice = ['{', '%', '-'] ∨ p.slice = ['{', '%']) := by
  cases h with
  | @opener delimiter kind rest h =>
    obtain rfl : kind = .blockStart := hk
    simpa [openers] using h
  | closer rest h => rcases kind_of_mem_closers h with rfl | rfl <;> cases hk
  | @mark c => exact absurd hk (delimiterKind_ne (by decide) c)
  | @word c run => exact absurd hk (wordKind_ne (by decide) (c :: run))
  | _ => cases hk

theorem blockEnd_eq (h : Scanned inTag p) (hk : p.kind = .blockEnd) :
    p.value = p.slice ∧ (p.slice = ['-', '%', '}'] ∨ p.slice = ['%', '}']) := by
  cases h with
  | opener rest h => rcases kind_of_mem_openers h with rfl | rfl <;> cases hk
  | @closer delimiter kind rest h =>
    obtain rfl : kind = .blockEnd := hk
    simpa [closers] using h
  | @mark c => exact absurd hk (delimiterKind_ne (by decide) c)
  | @word c run => exact absurd hk (wordKind_ne (by decide) (c :: run))
  | _ => cases hk

theorem isLine_of_blockEnd (h : Scanned inTag p) (hk : p.kind = .blockEnd) : p.IsLine := by
  obtain ⟨hv, hs⟩ := h.blockEnd_eq hk
  refine ⟨hv, ?_⟩
  rcases hs with hs | hs <;> rw [hs] <;> decide

/-- A comment is closed, or it ends with the text. -/
theorem comment_eq (h : Scanned inTag p) (hk : p.kind = .comment) :
    p.value = p.slice ∧ ((∃ inner, p.slice = ['{', '#'] ++ inner ++ ['#', '}']) ∨ p.rest = []) := by
  rcases h.comment_cases hk with ⟨body, rest, -, rfl⟩ | ⟨body, -, rfl⟩
  · exact ⟨rfl, .inl ⟨body, rfl⟩⟩
  · exact ⟨rfl, .inr rfl⟩

theorem quote_of_string (h : Scanned inTag p) (hk : p.kind = .string) :
    ∃ quote rest, p.slice = quote :: rest ∧ (quote = '"' ∨ quote = '\'') := by
  have hl := h.literalSlice hk
  generalize p.slice = slice at hl ⊢
  generalize p.value = value at hl
  cases hl with
  | closed hq h => exact ⟨_, _, rfl, hq⟩
  | unclosed hq h => exact ⟨_, _, rfl, hq⟩
  | cutShort hq h => exact ⟨_, _, rfl, hq⟩

end Scanned

end TemplateTree
