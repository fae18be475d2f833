import TemplateTree.Proofs.Position.Front
import TemplateTree.Token.Basic

/-!
# Moved places

What becomes of the places in a text when another text is put in front of it
that ends at `base`. Everything moves down by the lines of `base`, and what
stands on the first line also moves to the right by its column. Moving keeps
the order of points and commutes with all that positions are computed by.
-/

namespace TemplateTree

variable {base : Place}

def Point.moved (base : Place) (p : Point) : Point where
  line := p.line + base.line
  column := if p.line = 1 then p.column + base.column else p.column
  one_le_line := by have := p.one_le_line; omega
  one_le_column := by have := p.one_le_column; split <;> omega

def Lexeme.moved (base : Place) (l : Lexeme) : Lexeme :=
  { l with
    line := l.line + base.line
    column := if l.line = 0 then l.column + base.column else l.column }

def Token.moved (base : Place) (t : Token) : Token :=
  { t with
    line := t.line + base.line
    column := if t.line = 1 then t.column + base.column else t.column }

theorem Lexeme.toToken_moved (l : Lexeme) : (l.moved base).toToken = l.toToken.moved base := by
  have h : l.line + 1 = 1 ↔ l.line = 0 := by omega
  simp only [moved, toToken, Token.moved, Token.mk.injEq, h]
  grind

-- ---------------------------------------------------------------------------
-- Points
-- ---------------------------------------------------------------------------

namespace Point

theorem moved_le_iff {p q : Point} : p.moved base ≤ q.moved base ↔ p ≤ q := by
  have := p.one_le_line
  have := q.one_le_line
  simp only [le_iff, moved]
  grind

theorem moved_injective {p q : Point} (h : p.moved base = q.moved base) : p = q := by
  have hpq : p.moved base ≤ q.moved base := h ▸ le_refl (p.moved base)
  have hqp : q.moved base ≤ p.moved base := h ▸ le_refl (p.moved base)
  exact le_antisymm (moved_le_iff.1 hpq) (moved_le_iff.1 hqp)

theorem min_moved (p q : Point) : min (p.moved base) (q.moved base) = (min p q).moved base := by
  simp only [min, moved_le_iff]
  split <;> rfl

theorem max_moved (p q : Point) : max (p.moved base) (q.moved base) = (max p q).moved base := by
  simp only [max, moved_le_iff]
  split <;> rfl

theorem right_moved (p : Point) (columns : Nat) :
    (p.moved base).right columns = (p.right columns).moved base := by
  simp only [Point.ext_iff, right, moved]
  grind

theorem past_moved (p : Point) (mode : PositionMode) (cs : List Char) :
    (p.moved base).past mode cs = (p.past mode cs).moved base := by
  cases mode with
  | naive => exact right_moved p _
  | lineAware =>
    simp only [past]
    split
    · rename_i h
      have := List.count_pos_iff.2 h
      have := p.one_le_line
      simp only [Point.ext_iff, moved]
      grind
    · exact right_moved p _

end Point

theorem Point.toPoint_le_moved (base : Place) (p : Point) : base.toPoint ≤ p.moved base := by
  have := p.one_le_line
  have := p.one_le_column
  simp only [Point.le_iff, Place.toPoint, moved]
  grind

-- ---------------------------------------------------------------------------
-- Spans
-- ---------------------------------------------------------------------------

namespace Span

def moved (base : Place) (s : Span) : Span :=
  ⟨s.start.moved base, s.stop.moved base, Point.moved_le_iff.2 s.start_le_stop⟩

theorem moved_injective {s t : Span} (h : s.moved base = t.moved base) : s = t := by
  simp only [moved, Span.mk.injEq] at h
  exact Span.ext (Point.moved_injective h.1) (Point.moved_injective h.2)

theorem cover_moved (s t : Span) :
    (s.moved base).cover (t.moved base) = (s.cover t).moved base := by
  simp only [cover, moved, Point.min_moved, Point.max_moved]

theorem cover?_moved (s t : Option Span) :
    cover? (s.map (moved base)) (t.map (moved base)) = (cover? s t).map (moved base) := by
  cases s <;> cases t <;> simp [cover?, cover_moved]

theorem ofText_moved (p : Point) (mode : PositionMode) (cs : List Char) :
    ofText (p.moved base) mode cs = (ofText p mode cs).moved base := by
  simp only [ofText, moved, Point.past_moved]

end Span

end TemplateTree
