import TemplateTree.Proofs.Token.Located

/-!
# Lexemes in reading order

Lexemes from any lexer are in order if they count from 0 and none starts before
the one in front of it. Those of a text are, and no two of them start at the same
place, since each is scanned from a slice that is not empty.
-/

namespace TemplateTree

/-- The lexeme starts no later than the other one. -/
def Lexeme.Before (l m : Lexeme) : Prop := l.line < m.line ∨ l.line = m.line ∧ l.column ≤ m.column

instance (l m : Lexeme) : Decidable (l.Before m) := inferInstanceAs (Decidable (_ ∨ _))

/-- Lexemes that count from 0, in the order of their starts. -/
structure Lexeme.InOrder (ls : List Lexeme) : Prop where
  counted : ∀ l ∈ ls, 0 ≤ l.line ∧ 0 ≤ l.column
  ordered : ls.Pairwise Lexeme.Before

/-- The token starts before the other one. -/
def Token.StrictlyBefore (t u : Token) : Prop :=
  t.line < u.line ∨ t.line = u.line ∧ t.column < u.column

instance (t u : Token) : Decidable (t.StrictlyBefore u) := inferInstanceAs (Decidable (_ ∨ _))

theorem Token.start_of_span {t : Token} {mode : PositionMode} {s : Span}
    (h : t.span mode = .ok s) : t.start = .ok s.start := by
  cases ht : t.start with
  | error e =>
    simp only [span, ht] at h
    cases h
  | ok p =>
    rw [span_eq ht] at h
    cases h
    rfl

/-- The token as a part of the tree. -/
def Token.leaf (mode : PositionMode) (t : Token) : Leaf := ⟨t.value, (t.span mode).toOption⟩

theorem Token.leaf_eq {t : Token} {mode : PositionMode} {s : Span} (h : t.span mode = .ok s) :
    t.leaf mode = ⟨t.value, some s⟩ := by
  rw [leaf, h]
  rfl

theorem Token.strictlyBefore_iff {t u : Token} {p q : Point} (ht : t.start = .ok p)
    (hu : u.start = .ok q) : t.StrictlyBefore u ↔ p < q := by
  rw [start_eq_ok_iff] at ht hu
  simp only [StrictlyBefore, Point.lt_iff, ht, hu]

theorem Lexeme.start_toToken_isOk {l : Lexeme} :
    (∃ p, l.toToken.start = .ok p) ↔ 0 ≤ l.line ∧ 0 ≤ l.column := by
  constructor
  · rintro ⟨p, hp⟩
    rw [Token.start_eq_ok_iff] at hp
    have := p.one_le_line
    have := p.one_le_column
    simp only [toToken] at hp
    omega
  · rintro ⟨hl, hc⟩
    exact ⟨⟨l.line + 1, l.column + 1, by omega, by omega⟩, Token.start_eq_ok_iff.mpr ⟨rfl, rfl⟩⟩

theorem Lexeme.before_toToken {l m : Lexeme} : l.toToken.Before m.toToken ↔ l.Before m := by
  simp only [Token.Before, Before, toToken]
  omega

namespace Lexeme.InOrder

variable {ls : List Lexeme}

theorem iff_tokens :
    InOrder ls ↔ (∀ t ∈ ls.map toToken, ∃ p, t.start = .ok p) ∧
      (ls.map toToken).Pairwise Token.Before := by
  simp only [List.forall_mem_map, List.pairwise_map, start_toToken_isOk, before_toToken]
  exact ⟨fun h => ⟨h.counted, h.ordered⟩, fun h => ⟨h.1, h.2⟩⟩

theorem exists_span (h : InOrder ls) {l : Lexeme} (hl : l ∈ ls) (mode : PositionMode) :
    ∃ s, l.toToken.span mode = .ok s := by
  obtain ⟨p, hp⟩ := start_toToken_isOk.mpr (h.counted l hl)
  exact ⟨_, Token.span_eq hp mode⟩

theorem exists_spanTo {l m : Lexeme} (h : InOrder (l :: ls)) (hm : m ∈ ls)
    (mode : PositionMode) : ∃ s, l.toToken.spanTo m.toToken mode = .ok s := by
  obtain ⟨p, hp⟩ := start_toToken_isOk.mpr (h.counted l (List.mem_cons_self ..))
  obtain ⟨q, hq⟩ := start_toToken_isOk.mpr (h.counted m (List.mem_cons_of_mem l hm))
  have hb := before_toToken.mpr ((List.pairwise_cons.mp h.ordered).1 m hm)
  exact ⟨_, Token.spanTo_eq hp hq ((Token.before_iff hp hq).mp hb) mode⟩

end Lexeme.InOrder

theorem inOrder_lex (text : String) : Lexeme.InOrder (Lexer.ofText text).lex.1 := by
  rw [Lexeme.InOrder.iff_tokens, tokens_lex]
  exact ⟨fun t => exists_start_of_mem_tokensAfter, pairwise_tokensAfter [] _⟩

theorem start_of_mem_tokens_lex (text : String) :
    ∀ t ∈ (Lexer.ofText text).lex.1.map Lexeme.toToken, ∃ p, t.start = .ok p :=
  (Lexeme.InOrder.iff_tokens.mp (inOrder_lex text)).1

theorem pairwise_strictlyBefore {ps : List Piece} (hp : ∀ p ∈ ps, p.slice ≠ [])
    (front : List Char) : (tokensAfter front ps).Pairwise Token.StrictlyBefore := by
  induction ps generalizing front with
  | nil => exact .nil
  | cons p ps ih =>
    rw [tokensAfter_cons]
    refine .cons (fun u hu => ?_) (ih (fun q hq => hp q (List.mem_cons_of_mem p hq)) _)
    obtain ⟨qs, q, rs, rfl, rfl⟩ := exists_of_mem_tokensAfter hu
    rw [Token.strictlyBefore_iff (Piece.start_tokenAfter front p) (Piece.start_tokenAfter _ q),
      List.append_assoc]
    exact Place.endOf_lt_endOf_append front (by simp [hp p (by simp)])

theorem strictlyBefore_tokens_lex (text : String) :
    ((Lexer.ofText text).lex.1.map Lexeme.toToken).Pairwise Token.StrictlyBefore := by
  rw [tokens_lex]
  refine pairwise_strictlyBefore (fun p hp => ?_) []
  obtain ⟨_, hs⟩ := exists_scanned_of_mem_pieces hp
  exact hs.slice_ne_nil

end TemplateTree
