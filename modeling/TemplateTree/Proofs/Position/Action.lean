import TemplateTree.Proofs.Position.Advance

/-!
# Texts act on points

To go past one text and then past another is to go past both of them, and only the empty
text leaves a point where it is (`past_action`). In line-aware mode every point goes past a
text as the place of a lexer does, character by character, so what holds of places holds of
points (`Point.exists_place`).
-/

namespace TemplateTree

namespace Point

/-- The point past one character: a line feed leads to the start of the next line. -/
def step (p : Point) (c : Char) : Point :=
  if c = '\n' then
    { line := p.line + 1
      column := 1
      one_le_line := by have := p.one_le_line; omega
      one_le_column := Int.zero_lt_one }
  else p.right 1

/-- Every point is the point of a place. -/
theorem exists_place (p : Point) : ∃ q : Place, q.toPoint = p := by
  have hl := p.one_le_line
  have hc := p.one_le_column
  refine ⟨⟨(p.line - 1).toNat, (p.column - 1).toNat⟩, ?_⟩
  ext <;> simp only [Place.toPoint] <;> omega

theorem right_zero (p : Point) : p.right 0 = p := by
  ext <;> simp [right]

theorem right_right (p : Point) (m n : Nat) : (p.right m).right n = p.right (m + n) := by
  ext
  · rfl
  · simp only [right]
    omega

theorem lt_irrefl (p : Point) : ¬p < p := fun h => lt_iff_not_le.mp h p.le_refl

end Point

namespace Place

theorem toPoint_step (q : Place) (c : Char) : (q.step c).toPoint = q.toPoint.step c := by
  by_cases h : c = '\n'
  · simp [step, Point.step, toPoint, h]
  · ext <;> simp [step, Point.step, toPoint, Point.right, h]

theorem toPoint_advance (q : Place) (cs : List Char) :
    (q.advance cs).toPoint = cs.foldl Point.step q.toPoint := by
  induction cs generalizing q with
  | nil => rfl
  | cons c cs ih => rw [advance_cons, ih, toPoint_step, List.foldl_cons]

theorem advance_le_advance {p q : Place} (h : p.toPoint ≤ q.toPoint) (cs : List Char) :
    (p.advance cs).toPoint ≤ (q.advance cs).toPoint := by
  induction cs generalizing p q with
  | nil => exact h
  | cons c cs ih => exact ih (step_le_step h c)

end Place

namespace Point

variable {p : Point} {mode : PositionMode} {cs : List Char}

theorem past_nil (p : Point) (mode : PositionMode) : p.past mode [] = p := by
  rw [past_of_not_mem p mode List.not_mem_nil, List.length_nil, right_zero]

theorem past_append (p : Point) (mode : PositionMode) (cs ds : List Char) :
    (p.past mode cs).past mode ds = p.past mode (cs ++ ds) := by
  cases mode with
  | naive => simp only [past, right_right, List.length_append]
  | lineAware =>
    obtain ⟨q, rfl⟩ := p.exists_place
    simp only [Place.past_lineAware, Place.advance_append]

theorem lt_past (p : Point) (mode : PositionMode) (h : cs ≠ []) : p < p.past mode cs := by
  cases mode with
  | naive =>
    have hlt := p.right_lt_right (List.length_pos_iff.mpr h)
    rwa [right_zero] at hlt
  | lineAware =>
    obtain ⟨q, rfl⟩ := p.exists_place
    rw [Place.past_lineAware]
    exact q.toPoint_lt_advance h

theorem past_eq_self_iff : p.past mode cs = p ↔ cs = [] := by
  constructor
  · intro h
    cases cs with
    | nil => rfl
    | cons c cs =>
      have hlt := p.lt_past mode (List.cons_ne_nil c cs)
      rw [h] at hlt
      exact absurd hlt p.lt_irrefl
  · rintro rfl
    exact p.past_nil mode

theorem past_le_past {q : Point} (h : p ≤ q) (cs : List Char) :
    p.past .lineAware cs ≤ q.past .lineAware cs := by
  obtain ⟨p, rfl⟩ := p.exists_place
  obtain ⟨q, rfl⟩ := q.exists_place
  simp only [Place.past_lineAware]
  exact Place.advance_le_advance h cs

theorem past_lineAware_eq (p : Point) (cs : List Char) :
    p.past .lineAware cs = cs.foldl step p := by
  obtain ⟨q, rfl⟩ := p.exists_place
  rw [Place.past_lineAware, Place.toPoint_advance]

end Point

/-- In either mode texts act on points by going past them: the empty text leaves a point
where it is, a text and then another lead as far as the two in one, and no text leads back
nor, unless it is empty, to the same point. In line-aware mode the order of two points is
kept, and the point past a text is found by stepping over its characters, as a lexer does
from the place that has the point. -/
theorem past_action (p : Point) (mode : PositionMode) (cs ds : List Char) :
    p.past mode [] = p ∧ (p.past mode cs).past mode ds = p.past mode (cs ++ ds) ∧
      p ≤ p.past mode cs ∧ (p = p.past mode cs ↔ cs = []) ∧
      (∀ q, p < q → p.past .lineAware cs ≤ q.past .lineAware cs) ∧
      p.past .lineAware cs = cs.foldl Point.step p ∧
      ∃ q : Place, q.toPoint = p ∧ (q.advance cs).toPoint = p.past .lineAware cs := by
  obtain ⟨q, hq⟩ := p.exists_place
  have hadvance : (q.advance cs).toPoint = p.past .lineAware cs := by
    rw [← hq, Place.past_lineAware]
  exact ⟨p.past_nil mode, p.past_append mode cs ds, p.le_past mode cs,
    eq_comm.trans Point.past_eq_self_iff, fun _ h => Point.past_le_past (Point.le_of_lt h) cs,
    p.past_lineAware_eq cs, q, hq, hadvance⟩

theorem past_action_line_feeds :
    let p := Place.toPoint ⟨1, 2⟩
    let q := Place.toPoint ⟨1, 6⟩
    let cs := "a\nb".toList
    p < q ∧ p.past .lineAware cs ≤ q.past .lineAware cs ∧
      (p.past .lineAware cs).past .lineAware ['\n'] = Place.toPoint ⟨3, 0⟩ := by
  intro p q cs
  obtain ⟨-, happend, -, -, hle, -⟩ := past_action p .lineAware cs ['\n']
  have h : p < q := by decide
  exact ⟨h, hle q h, happend.trans (by decide)⟩

end TemplateTree
