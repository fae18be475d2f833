/-!
# Points

A place in a text: line and column, both counted from 1, in reading order.
Coordinates come from outside as arbitrary integers, so building a point can
fail; an existing point is always valid.
-/

namespace TemplateTree

/-- Why a place in a text cannot be formed. -/
inductive PlaceError
  /-- A line or a column lies below 1. -/
  | belowOne
  /-- A span ends before it starts. -/
  | reversed
  deriving DecidableEq, Repr

def PlaceError.message : PlaceError → String
  | .belowOne => "Point line and column are 1-based"
  | .reversed => "Position invariant violated: start > end"

@[ext] structure Point where
  line : Int
  column : Int
  one_le_line : 1 ≤ line := by omega
  one_le_column : 1 ≤ column := by omega
  deriving DecidableEq, Repr

namespace Point

/-- Reading order: by line, then by column. -/
instance : LE Point where
  le p q := p.line < q.line ∨ p.line = q.line ∧ p.column ≤ q.column

instance : LT Point where
  lt p q := p.line < q.line ∨ p.line = q.line ∧ p.column < q.column

theorem le_iff {p q : Point} :
    p ≤ q ↔ p.line < q.line ∨ p.line = q.line ∧ p.column ≤ q.column := Iff.rfl

theorem lt_iff {p q : Point} :
    p < q ↔ p.line < q.line ∨ p.line = q.line ∧ p.column < q.column := Iff.rfl

instance (p q : Point) : Decidable (p ≤ q) := decidable_of_iff' _ le_iff

instance (p q : Point) : Decidable (p < q) := decidable_of_iff' _ lt_iff

instance : Min Point := minOfLe

instance : Max Point := maxOfLe

theorem le_refl (p : Point) : p ≤ p := Or.inr ⟨rfl, Int.le_refl _⟩

theorem le_trans {p q r : Point} (h : p ≤ q) (h' : q ≤ r) : p ≤ r := by
  simp only [le_iff] at *; omega

theorem le_total (p q : Point) : p ≤ q ∨ q ≤ p := by
  simp only [le_iff]; omega

theorem le_antisymm {p q : Point} (h : p ≤ q) (h' : q ≤ p) : p = q := by
  ext <;> simp only [le_iff] at * <;> omega

theorem lt_iff_not_le {p q : Point} : p < q ↔ ¬q ≤ p := by
  simp only [le_iff, lt_iff]; omega

theorem min_le_left (p q : Point) : min p q ≤ p := by
  simp only [min]
  split
  · exact le_refl p
  · next h => exact (le_total p q).resolve_left h

theorem min_le_right (p q : Point) : min p q ≤ q := by
  simp only [min]
  split
  · next h => exact h
  · exact le_refl q

theorem le_max_left (p q : Point) : p ≤ max p q := by
  simp only [max]
  split
  · next h => exact h
  · exact le_refl p

theorem le_max_right (p q : Point) : q ≤ max p q := by
  simp only [max]
  split
  · exact le_refl q
  · next h => exact (le_total p q).resolve_left h

def ofCoordinates (line column : Int) : Except PlaceError Point :=
  if h : 1 ≤ line ∧ 1 ≤ column then .ok ⟨line, column, h.1, h.2⟩ else .error .belowOne

theorem ofCoordinates_eq_ok_iff {line column : Int} {p : Point} :
    ofCoordinates line column = .ok p ↔ p.line = line ∧ p.column = column := by
  simp only [ofCoordinates]
  split
  · simp only [Except.ok.injEq, Point.ext_iff]; omega
  · have := p.one_le_line
    have := p.one_le_column
    simp only [reduceCtorEq, false_iff]; omega

/-- The point `columns` to the right on the same line; a negative number moves left. -/
def shift (p : Point) (columns : Int) : Except PlaceError Point :=
  ofCoordinates p.line (p.column + columns)

/-- The point `columns` to the right on the same line. -/
def right (p : Point) (columns : Nat) : Point where
  line := p.line
  column := p.column + columns
  one_le_line := p.one_le_line
  one_le_column := by have := p.one_le_column; omega

theorem shift_ofNat (p : Point) (columns : Nat) : p.shift columns = .ok (p.right columns) := by
  simp [shift, ofCoordinates_eq_ok_iff, right]

/-- The written form used in messages, `line:column`. -/
def render (p : Point) : String := s!"{p.line}:{p.column}"

/-- The written form used when a point is shown as a value. -/
def display (p : Point) : String := "Point(" ++ p.render ++ ")"

end Point

end TemplateTree
