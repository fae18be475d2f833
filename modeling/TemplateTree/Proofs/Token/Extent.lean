import TemplateTree.Proofs.Token.Order
import TemplateTree.Proofs.Tree.CommentText

/-!
# The extent of a token

The span of a token is computed from its value, and the value of a string literal
is not what stands in the text. Still the span ends no later than the slice that the
token was scanned from, so before the next token starts (`Piece.past_le`). In
line-aware mode this takes that no escape in the literal stands for a line feed: such
a line feed is in the value and not in the slice, and the computed end goes a line
too far.
-/

namespace TemplateTree

open scoped List

variable {mode : PositionMode}

-- ---------------------------------------------------------------------------
-- Literals
-- ---------------------------------------------------------------------------

namespace Spells

variable {quote : Char} {spelling value : List Char}

theorem length_le (h : Spells quote spelling value) : value.length ≤ spelling.length := by
  induction h with
  | nil => exact Nat.le_refl 0
  | plain _ _ _ ih => exact Nat.succ_le_succ ih
  | escaped _ ih => exact Nat.succ_le_succ (Nat.le_succ_of_le ih)

/-- A line feed of the spelling stands for itself, protected by a backslash or not. -/
theorem count_le (h : Spells quote spelling value) :
    spelling.count '\n' ≤ value.count '\n' := by
  induction h with
  | nil => exact Nat.le_refl 0
  | plain _ _ _ ih => simpa only [List.count_cons, Nat.add_le_add_iff_right] using ih
  | @escaped c spelling value _ ih =>
    have hb : ('\\' == '\n') = false := by decide
    simp only [List.count_cons, hb, Bool.false_eq_true, ↓reduceIte]
    by_cases hc : c = '\n'
    · rw [hc]
      exact Nat.succ_le_succ ih
    · have hc : (c == '\n') = false := by simpa using hc
      simp only [hc, Bool.false_eq_true, ↓reduceIte]
      omega

/-- Where no escape stands for a line feed, the value leads no further than its
spelling. -/
theorem advance_le (h : Spells quote spelling value)
    (hn : value.count '\n' ≤ spelling.count '\n') {p q : Place} (hpq : p.toPoint ≤ q.toPoint) :
    (p.advance value).toPoint ≤ (q.advance spelling).toPoint := by
  induction h generalizing p q with
  | nil => exact hpq
  | @plain c _ _ _ _ _ ih =>
    have hn := by simpa only [List.count_cons, Nat.add_le_add_iff_right] using hn
    exact ih hn (Place.step_le_step hpq c)
  | @escaped c spelling value h ih =>
    have hle := h.count_le
    have hb : ('\\' == '\n') = false := by decide
    simp only [List.count_cons, hb, Bool.false_eq_true, ↓reduceIte, beq_iff_eq] at hn
    -- the escaped character is a line feed in both or in neither
    have hfeed : unescape c = '\n' ↔ c = '\n' := by
      constructor
      · intro hu
        by_cases hc : c = '\n'
        · exact hc
        · rw [if_pos hu, if_neg hc] at hn
          omega
      · rintro rfl
        rfl
    simp only [hfeed] at hn
    have hstep : p.step (unescape c) = p.step c := by simp only [Place.step, hfeed]
    have hq : p.toPoint ≤ (q.step '\\').toPoint := Point.le_trans hpq (q.toPoint_le_step '\\')
    rw [Place.advance_cons, Place.advance_cons, Place.advance_cons, hstep]
    exact ih (by omega) (Place.step_le_step hq c)

end Spells

namespace LiteralSlice

variable {slice value : List Char}

theorem exists_spells (h : LiteralSlice slice value) :
    ∃ quote spelling tail, slice = quote :: spelling ++ tail ∧ Spells quote spelling value ∧
      quote ≠ '\n' ∧ '\n' ∉ tail := by
  have hquote {quote : Char} (hq : quote = '"' ∨ quote = '\'') : quote ≠ '\n' := by
    rintro rfl
    exact absurd hq (by decide)
  cases h with
  | closed hq h => exact ⟨_, _, _, rfl, h, hquote hq, by simpa using (hquote hq).symm⟩
  | unclosed hq h => exact ⟨_, _, [], by rw [List.append_nil], h, hquote hq, by simp⟩
  | cutShort hq h => exact ⟨_, _, _, rfl, h, hquote hq, by decide⟩

theorem past_le (h : LiteralSlice slice value)
    (hn : mode = .lineAware → value.count '\n' ≤ slice.count '\n') (p : Place) :
    p.toPoint.past mode value ≤ (p.advance slice).toPoint := by
  obtain ⟨quote, spelling, tail, rfl, h, hq, ht⟩ := h.exists_spells
  cases mode with
  | naive =>
    have hl : value.length ≤ (quote :: spelling ++ tail).length := by
      have := h.length_le
      simp only [List.length_append, List.length_cons]
      omega
    exact Point.le_trans (p.toPoint.right_le_right hl) (p.right_le_advance _)
  | lineAware =>
    have hc : (quote :: spelling ++ tail).count '\n' = spelling.count '\n' := by
      simp [hq, List.count_eq_zero.mpr ht]
    rw [Place.past_lineAware, Place.advance_append]
    have hv := h.advance_le (hc ▸ hn rfl) (p.toPoint_le_step quote)
    exact Point.le_trans hv (Place.toPoint_le_advance _ tail)

end LiteralSlice

-- ---------------------------------------------------------------------------
-- Tokens
-- ---------------------------------------------------------------------------

/-- The span of the token ends no later than the other one starts. -/
def Token.Clears (mode : PositionMode) (t u : Token) : Prop :=
  ∀ s q, t.span mode = .ok s → u.start = .ok q → s.stop ≤ q

/-- Where the token starts, the text has a literal for its value with an escape that
stands for a line feed. -/
def Token.EscapesLineFeed (cs : List Char) (t : Token) : Prop :=
  ∃ front slice back p, front ++ slice ++ back = cs ∧ t.start = .ok p ∧ p.Follows front ∧
    LiteralSlice slice t.value.toList ∧ slice.count '\n' < t.value.toList.count '\n'

theorem Piece.clears {front more : List Char} {p q : Piece}
    (h : ∀ place : Place, place.toPoint.past mode p.value ≤ (place.advance p.slice).toPoint) :
    (p.tokenAfter front).Clears mode (q.tokenAfter (front ++ p.slice ++ more)) := by
  intro s r hs hr
  rw [span_tokenAfter] at hs
  rw [start_tokenAfter] at hr
  cases hs
  cases hr
  have hp := h (Place.endOf front)
  rw [Place.advance_eq, ← Place.endOf_append] at hp
  rw [Span.ofText, toList_value_tokenAfter]
  exact Point.le_trans hp (Place.endOf_le_endOf_append _ more)

theorem Piece.IsLine.past_le {p : Piece} (h : p.IsLine) (place : Place) :
    place.toPoint.past mode p.value ≤ (place.advance p.slice).toPoint := by
  rw [h.1, Place.past_toPoint place mode h.2]
  exact Point.le_refl _

section

variable {cs : List Char} {t u : Token} (h : [t, u] <+ tokensAfter [] (pieces false cs))
include h

theorem clears_of_symbol (hk : t.kind = .symbol) : t.Clears mode u := by
  obtain ⟨qs, p, ms, q, rs, hps, rfl, rfl⟩ := exists_of_pair_sublist h
  obtain ⟨_, hs⟩ := exists_scanned_of_mem_pieces (hps ▸ List.mem_append_right qs (.head _))
  exact Piece.clears (hs.isLine_of_symbol hk).past_le

theorem clears_of_blockEnd (hk : t.kind = .blockEnd) : t.Clears mode u := by
  obtain ⟨qs, p, ms, q, rs, hps, rfl, rfl⟩ := exists_of_pair_sublist h
  obtain ⟨_, hs⟩ := exists_scanned_of_mem_pieces (hps ▸ List.mem_append_right qs (.head _))
  exact Piece.clears (hs.isLine_of_blockEnd hk).past_le

/-- A string ends before the next token starts, but where an escape stands for a line
feed and line feeds are followed. -/
theorem clears_of_string (hk : t.kind = .string) :
    t.Clears mode u ∨ mode = .lineAware ∧ t.EscapesLineFeed cs := by
  obtain ⟨qs, p, ms, q, rs, hps, rfl, rfl⟩ := exists_of_pair_sublist h
  obtain ⟨_, hs⟩ := exists_scanned_of_mem_pieces (hps ▸ List.mem_append_right qs (.head _))
  have hl := hs.literalSlice hk
  by_cases hn : mode = .lineAware ∧ p.slice.count '\n' < p.value.count '\n'
  · refine .inr ⟨hn.1, slices qs, p.slice, slices (ms ++ q :: rs), _, ?_,
      Piece.start_tokenAfter _ p, Point.follows_iff.mpr rfl, ?_⟩
    · rw [← slices_pieces false cs, hps, slices_append qs, slices_cons, List.append_assoc]
    · rw [Piece.toList_value_tokenAfter]
      exact ⟨hl, hn.2⟩
  · refine .inl (Piece.clears (hl.past_le fun hm => ?_))
    exact Nat.le_of_not_lt fun hlt => hn ⟨hm, hlt⟩

/-- The span of a comment starts and ends before the next token starts. A comment that is
left open has no next token. -/
theorem comment_before (hk : t.kind = .comment) {c : Comment}
    (hc : Comment.ofToken mode t = .ok c) {q : Point} (hu : u.start = .ok q) :
    ∃ s, c.span? = some s ∧ s.start < q ∧ s.stop ≤ q := by
  obtain ⟨qs, p, ms, r, rs, hps, rfl, rfl⟩ := exists_of_pair_sublist h
  obtain ⟨_, hs⟩ := exists_scanned_of_mem_pieces (hps ▸ List.mem_append_right qs (.head _))
  have hm : r ∈ pieces false cs := by simp [hps]
  obtain ⟨_, hr⟩ := exists_scanned_of_mem_pieces hm
  obtain ⟨hv, ⟨inner, hinner⟩ | hrest⟩ := hs.comment_eq hk
  · have hraw : (p.tokenAfter ([] ++ slices qs)).value.toList = p.slice := by
      simp [Piece.tokenAfter, Piece.lexeme, Lexeme.toToken, hv]
    rw [Comment.ofToken_eq (Piece.start_tokenAfter _ p), hraw] at hc
    cases hc
    rw [Piece.start_tokenAfter] at hu
    cases hu
    obtain ⟨-, hstart, hstop⟩ :=
      Comment.spanFrom_between (Place.endOf ([] ++ slices qs)) mode hinner
    rw [Place.advance_eq, ← Place.endOf_append] at hstart hstop
    have hle := Place.endOf_le_endOf_append ([] ++ slices qs ++ p.slice) (slices ms)
    exact ⟨_, rfl, Point.lt_of_lt_of_le hstart hle, Point.le_trans hstop hle⟩
  · rw [rest_of_pieces hps] at hrest
    simp [hr.slice_ne_nil] at hrest

end

end TemplateTree
