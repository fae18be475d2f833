import TemplateTree.Proofs.Position.Front

/-!
# Ends and advances

Where a text ends, computed from the point where it starts, against the place
to which a lexer goes forward over it. The two agree in line-aware mode
(`Place.past_lineAware`); in naive mode the computed end is not beyond the place
(`Place.right_le_advance`), since a line feed takes the lexer to a later line.
-/

namespace TemplateTree

theorem Point.right_le_right (p : Point) {m n : Nat} (h : m ≤ n) : p.right m ≤ p.right n := by
  refine Or.inr ⟨rfl, ?_⟩
  simp only [right]
  omega

theorem Point.right_lt_right (p : Point) {m n : Nat} (h : m < n) : p.right m < p.right n := by
  refine Or.inr ⟨rfl, ?_⟩
  simp only [right]
  omega

theorem Point.lt_of_le_of_lt {p q r : Point} (h : p ≤ q) (h' : q < r) : p < r := by
  simp only [le_iff, lt_iff] at *
  omega

theorem Point.lt_of_lt_of_le {p q r : Point} (h : p < q) (h' : q ≤ r) : p < r := by
  simp only [le_iff, lt_iff] at *
  omega

theorem Point.le_of_lt {p q : Point} (h : p < q) : p ≤ q := by
  simp only [le_iff, lt_iff] at *
  omega

/-- Text on one line ends at its length to the right, in either mode. -/
theorem Point.past_of_not_mem (p : Point) (mode : PositionMode) {cs : List Char} (h : '\n' ∉ cs) :
    p.past mode cs = p.right cs.length := by
  cases mode with
  | naive => rfl
  | lineAware => exact if_neg h

theorem Span.ofText_of_not_mem (p : Point) (mode mode' : PositionMode) {cs : List Char}
    (h : '\n' ∉ cs) : ofText p mode cs = ofText p mode' cs := by
  simp only [ofText, Point.past_of_not_mem p _ h]

namespace Place

-- ---------------------------------------------------------------------------
-- Going forward keeps the order
-- ---------------------------------------------------------------------------

theorem step_le_step {p q : Place} (h : p.toPoint ≤ q.toPoint) (c : Char) :
    (p.step c).toPoint ≤ (q.step c).toPoint := by
  simp only [Point.le_iff, toPoint, step] at *
  split <;> grind

-- ---------------------------------------------------------------------------
-- The end of a text
-- ---------------------------------------------------------------------------

theorem past_lineAware (p : Place) (cs : List Char) :
    p.toPoint.past .lineAware cs = (p.advance cs).toPoint := by
  by_cases h : '\n' ∈ cs
  · have hc : cs.count '\n' ≠ 0 := fun hc => List.count_eq_zero.mp hc h
    simp only [Point.past, if_pos h, advance_eq, followedBy, endOf, hc, ↓reduceIte, toPoint,
      Point.ext_iff]
    grind
  · simp only [Point.past, if_neg h, advance_eq, followedBy, endOf, List.count_eq_zero.mpr h,
      lastLine_of_not_mem h, ↓reduceIte, toPoint, Point.right, Point.ext_iff]
    grind

theorem past_toPoint (p : Place) (mode : PositionMode) {cs : List Char} (h : '\n' ∉ cs) :
    p.toPoint.past mode cs = (p.advance cs).toPoint := by
  rw [← past_lineAware, Point.past_of_not_mem _ mode h, Point.past_of_not_mem _ .lineAware h]

theorem right_le_advance (p : Place) (cs : List Char) :
    p.toPoint.right cs.length ≤ (p.advance cs).toPoint := by
  induction cs generalizing p with
  | nil => exact Point.le_refl _
  | cons c cs ih =>
    have hstep : p.toPoint.right (c :: cs).length ≤ (p.step c).toPoint.right cs.length := by
      simp only [Point.le_iff, Point.right, toPoint, step, List.length_cons]
      split <;> grind
    exact Point.le_trans hstep (ih (p.step c))

end Place

end TemplateTree
