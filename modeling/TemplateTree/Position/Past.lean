import TemplateTree.Position.Span

/-!
# The point past a text

Where a text ends that starts at a given point. The naive mode takes every
character for one column, so it is right for a text on one line only; the
line-aware mode follows line feeds.
-/

namespace TemplateTree

inductive PositionMode
  | naive
  | lineAware
  deriving DecidableEq, Repr

namespace PositionMode

def all : List PositionMode := [.naive, .lineAware]

def id : PositionMode → String
  | .naive => "naive"
  | .lineAware => "line-aware"

def label : PositionMode → String
  | .naive => "NAIVE"
  | .lineAware => "LINE_AWARE"

def ofId? (name : String) : Option PositionMode := all.find? (·.id == name)

end PositionMode

/-- The part of a text after its last line feed; the whole text if it has none. -/
def lastLine (cs : List Char) : List Char := (cs.reverse.takeWhile (· != '\n')).reverse

namespace Point

def past (p : Point) (mode : PositionMode) (cs : List Char) : Point :=
  match mode with
  | .naive => p.right cs.length
  | .lineAware =>
    if '\n' ∈ cs then
      { line := p.line + cs.count '\n'
        column := (lastLine cs).length + 1
        one_le_line := by have := p.one_le_line; omega }
    else p.right cs.length

theorem le_right (p : Point) (columns : Nat) : p ≤ p.right columns :=
  Or.inr ⟨rfl, Int.le_add_of_nonneg_right (Int.natCast_nonneg columns)⟩

theorem le_past (p : Point) (mode : PositionMode) (cs : List Char) : p ≤ p.past mode cs := by
  cases mode with
  | naive => exact p.le_right _
  | lineAware =>
    simp only [past]
    split
    · next h =>
      have := List.count_pos_iff.2 h
      simp only [le_iff]; omega
    · exact p.le_right _

end Point

/-- The span of a text that starts at `p`. -/
def Span.ofText (p : Point) (mode : PositionMode) (cs : List Char) : Span :=
  ⟨p, p.past mode cs, p.le_past mode cs⟩

end TemplateTree
