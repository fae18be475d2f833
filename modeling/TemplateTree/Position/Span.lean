import TemplateTree.Position.Point

/-!
# Spans

A stretch of text between two points; `stop` lies just past the last
character. `cover` is the least span that contains two given ones.
-/

namespace TemplateTree

@[ext] structure Span where
  start : Point
  stop : Point
  start_le_stop : start ≤ stop
  deriving DecidableEq, Repr

namespace Span

def ofPoints (start stop : Point) : Except PlaceError Span :=
  if h : start ≤ stop then .ok ⟨start, stop, h⟩ else .error .reversed

theorem ofPoints_eq_ok_iff {start stop : Point} {s : Span} :
    ofPoints start stop = .ok s ↔ s.start = start ∧ s.stop = stop := by
  simp only [ofPoints]
  split
  · simp only [Except.ok.injEq, Span.ext_iff, eq_comm]
  · next h =>
    simp only [reduceCtorEq, false_iff]
    rintro ⟨rfl, rfl⟩
    exact h s.start_le_stop

/-- Four integers in the order start line, start column, end line, end column. -/
def ofCoordinates (startLine startColumn stopLine stopColumn : Int) : Except PlaceError Span := do
  let start ← Point.ofCoordinates startLine startColumn
  let stop ← Point.ofCoordinates stopLine stopColumn
  ofPoints start stop

theorem ofCoordinates_ends (s : Span) :
    ofCoordinates s.start.line s.start.column s.stop.line s.stop.column = .ok s := by
  have hstart := Point.ofCoordinates_eq_ok_iff (p := s.start).2 ⟨rfl, rfl⟩
  have hstop := Point.ofCoordinates_eq_ok_iff (p := s.stop).2 ⟨rfl, rfl⟩
  simp only [ofCoordinates, hstart, hstop]
  exact ofPoints_eq_ok_iff.2 ⟨rfl, rfl⟩

/-- The empty span at a point. -/
def empty (p : Point) : Span := ⟨p, p, p.le_refl⟩

def cover (s t : Span) : Span where
  start := min s.start t.start
  stop := max s.stop t.stop
  start_le_stop :=
    Point.le_trans (Point.le_trans (s.start.min_le_left t.start) s.start_le_stop)
      (s.stop.le_max_left t.stop)

/-- Covers as far as known: an unknown span adds nothing to a known one. -/
def cover? : Option Span → Option Span → Option Span
  | some s, some t => some (s.cover t)
  | some s, none => some s
  | none, t => t

def Contains (s t : Span) : Prop := s.start ≤ t.start ∧ t.stop ≤ s.stop

instance (s t : Span) : Decidable (s.Contains t) := inferInstanceAs (Decidable (_ ∧ _))

theorem cover_contains_left (s t : Span) : (s.cover t).Contains s :=
  ⟨s.start.min_le_left t.start, s.stop.le_max_left t.stop⟩

theorem cover_contains_right (s t : Span) : (s.cover t).Contains t :=
  ⟨s.start.min_le_right t.start, s.stop.le_max_right t.stop⟩

theorem le_start_cover {p : Point} {s t : Span} (hs : p ≤ s.start) (ht : p ≤ t.start) :
    p ≤ (s.cover t).start := by
  simp only [cover, min]
  split
  · exact hs
  · exact ht

theorem stop_cover_le {p : Point} {s t : Span} (hs : s.stop ≤ p) (ht : t.stop ≤ p) :
    (s.cover t).stop ≤ p := by
  simp only [cover, max]
  split
  · exact ht
  · exact hs

/-- The least span that contains the two. -/
structure IsCover (e s t : Span) : Prop where
  left : e.Contains s
  right : e.Contains t
  least : ∀ e' : Span, e'.Contains s → e'.Contains t → e'.Contains e

theorem isCover_cover (s t : Span) : (s.cover t).IsCover s t where
  left := s.cover_contains_left t
  right := s.cover_contains_right t
  least _ hs ht := ⟨le_start_cover hs.1 ht.1, stop_cover_le hs.2 ht.2⟩

/-- The written form used in diagnostics, `line:column-line:column`. -/
def render (s : Span) : String := s.start.render ++ "-" ++ s.stop.render

/-- The written form used when a span is shown as a value. -/
def display (s : Span) : String :=
  "Position(start=" ++ s.start.display ++ ", end=" ++ s.stop.display ++ ")"

end Span

end TemplateTree
