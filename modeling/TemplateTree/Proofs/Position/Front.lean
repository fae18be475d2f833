import TemplateTree.Token.Place

/-!
# Places in a text

A place in a text is known by the text in front of it: by the line feeds of
that front and the length of its last line. A lexer that goes forward one
character at a time arrives there (`advance_origin`), and no two fronts of one
text lead to the same place (`offset?_append`), so a point gives back an offset
and a span the slice between two of them (`slice?_append`).
-/

namespace TemplateTree

-- ---------------------------------------------------------------------------
-- Last lines
-- ---------------------------------------------------------------------------

/-- A line feed in the second text cuts the first one off. -/
theorem lastLine_append (cs ds : List Char) :
    lastLine (cs ++ ds) = if '\n' ∈ ds then lastLine ds else lastLine cs ++ ds := by
  simp only [lastLine, List.reverse_append, List.takeWhile_append]
  split
  · rename_i hl
    have hn : '\n' ∉ ds := by
      intro hd
      have he : ds.reverse.takeWhile (· != '\n') = ds.reverse :=
        (List.takeWhile_prefix _).eq_of_length hl
      have ha : (ds.reverse.takeWhile (· != '\n')).all (· != '\n') := List.all_takeWhile
      rw [he, List.all_eq_true] at ha
      exact absurd (ha '\n' (List.mem_reverse.2 hd)) (by decide)
    simp [hn]
  · rename_i hl
    have hn : '\n' ∈ ds := by
      false_or_by_contra
      rename_i hd
      have hp : ∀ c ∈ ds.reverse, (c != '\n') = true := by
        simpa using fun c hc => ne_of_mem_of_not_mem hc hd
      have ht : (ds.reverse ++ []).takeWhile (· != '\n') = ds.reverse ++ [] :=
        List.takeWhile_append_of_pos hp
      simp only [List.append_nil] at ht
      exact hl (congrArg List.length ht)
    simp [hn]

theorem lastLine_of_not_mem {cs : List Char} (h : '\n' ∉ cs) : lastLine cs = cs := by
  simpa [h, lastLine] using lastLine_append [] cs

namespace Place

-- ---------------------------------------------------------------------------
-- The place after a text
-- ---------------------------------------------------------------------------

/-- Where a text ends that starts at the origin. -/
def endOf (cs : List Char) : Place := ⟨cs.count '\n', (lastLine cs).length⟩

/-- The place that `q` becomes when what it counts from starts at `p`: only on
its first line does it move to the right. -/
def followedBy (p q : Place) : Place :=
  if q.line = 0 then ⟨p.line, p.column + q.column⟩ else ⟨p.line + q.line, q.column⟩

theorem followedBy_assoc (p q r : Place) :
    (p.followedBy q).followedBy r = p.followedBy (q.followedBy r) := by
  simp only [followedBy]
  grind

theorem endOf_append (cs ds : List Char) : endOf (cs ++ ds) = (endOf cs).followedBy (endOf ds) := by
  have hc : ds.count '\n' = 0 ↔ '\n' ∉ ds := List.count_eq_zero
  simp only [endOf, followedBy, lastLine_append, List.count_append, hc]
  split
  · rename_i h
    simp
  · rename_i h
    simp [lastLine_of_not_mem h, hc.2 h]

theorem endOf_singleton (c : Char) : endOf [c] = ({} : Place).step c := by
  by_cases h : c = '\n'
  · subst h; rfl
  · simp [endOf, step, h, lastLine_of_not_mem, Ne.symm h]

theorem step_eq (p : Place) (c : Char) : p.step c = p.followedBy (endOf [c]) := by
  rw [endOf_singleton]
  simp only [step, followedBy]
  split <;> simp

theorem advance_eq (p : Place) (cs : List Char) : p.advance cs = p.followedBy (endOf cs) := by
  induction cs generalizing p with
  | nil => rfl
  | cons c cs ih =>
    rw [advance_cons, ih, step_eq, followedBy_assoc, ← endOf_append]
    rfl

theorem origin_followedBy (p : Place) : ({} : Place).followedBy p = p := by
  simp only [followedBy]
  split <;> simp_all [Place.ext_iff]

theorem advance_origin (cs : List Char) : ({} : Place).advance cs = endOf cs := by
  rw [advance_eq, origin_followedBy]

-- ---------------------------------------------------------------------------
-- Points and slices
-- ---------------------------------------------------------------------------

theorem toPoint_lt_step (p : Place) (c : Char) : p.toPoint < (p.step c).toPoint := by
  simp only [Point.lt_iff, toPoint, step]
  split <;> grind

theorem toPoint_lt_advance (p : Place) {cs : List Char} (h : cs ≠ []) :
    p.toPoint < (p.advance cs).toPoint := by
  cases cs with
  | nil => exact absurd rfl h
  | cons c cs =>
    have hc := p.toPoint_lt_step c
    have hs := (p.step c).toPoint_le_advance cs
    simp only [advance_cons, Point.lt_iff, Point.le_iff] at hc hs ⊢
    omega

end Place

/-- The point after `front` where the text in front of it has so many line
feeds and so long a last line. -/
def Point.Follows (p : Point) (front : List Char) : Prop :=
  p.line = front.count '\n' + 1 ∧ p.column = (lastLine front).length + 1

instance (p : Point) (front : List Char) : Decidable (p.Follows front) :=
  inferInstanceAs (Decidable (_ ∧ _))

theorem Point.follows_iff {p : Point} {front : List Char} :
    p.Follows front ↔ p = (Place.endOf front).toPoint := by
  simp only [Point.Follows, Point.ext_iff, Place.toPoint, Place.endOf]

/-- The offset in a text at which a point stands. -/
def Point.offset? (cs : List Char) (p : Point) : Option Nat :=
  (List.range (cs.length + 1)).find? fun i => p.Follows (cs.take i)

/-- What stands in a text between the ends of a span. -/
def Span.slice? (cs : List Char) (s : Span) : Option (List Char) := do
  let start ← s.start.offset? cs
  let stop ← s.stop.offset? cs
  return cs.extract start stop

theorem Place.endOf_le_endOf_append (front more : List Char) :
    (endOf front).toPoint ≤ (endOf (front ++ more)).toPoint := by
  rw [endOf_append, ← advance_eq]
  exact toPoint_le_advance _ more

theorem Place.endOf_lt_endOf_append (front : List Char) {more : List Char} (h : more ≠ []) :
    (endOf front).toPoint < (endOf (front ++ more)).toPoint := by
  rw [endOf_append, ← advance_eq]
  exact toPoint_lt_advance _ h

/-- No two fronts of a text lead to the same point. -/
theorem Point.offset?_append (front back : List Char) :
    (Place.endOf front).toPoint.offset? (front ++ back) = some front.length := by
  simp only [offset?, List.find?_range_eq_some, decide_eq_true_eq, List.mem_range]
  refine ⟨by simp [follows_iff], by rw [List.length_append]; omega, ?_⟩
  intro i hi
  simp only [follows_iff, Bool.not_eq_true', decide_eq_false_iff_not]
  have ht : (front ++ back).take i = front.take i := by
    rw [List.take_append_of_le_length (Nat.le_of_lt hi)]
  have hd : front.drop i ≠ [] := by simpa using hi
  have hl := Place.endOf_lt_endOf_append (front.take i) hd
  rw [List.take_append_drop] at hl
  rw [ht]
  intro he
  rw [he, lt_iff] at hl
  omega

theorem Span.slice?_append {s : Span} {front mid : List Char} (back : List Char)
    (h : s.start = (Place.endOf front).toPoint)
    (h' : s.stop = (Place.endOf (front ++ mid)).toPoint) :
    s.slice? (front ++ mid ++ back) = some mid := by
  have hi : s.start.offset? (front ++ mid ++ back) = some front.length := by
    rw [h, List.append_assoc, Point.offset?_append]
  have hj : s.stop.offset? (front ++ mid ++ back) = some (front ++ mid).length := by
    rw [h', Point.offset?_append]
  rw [slice?, hi, hj]
  simp [List.extract_eq_take_drop]

end TemplateTree
