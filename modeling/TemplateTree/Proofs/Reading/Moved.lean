import TemplateTree.Proofs.Reading.Alike

/-!
# Readings further down a text

The same tokens with a text in front of them are read alike: the likeness of a
reading of moved tokens with the reading of the tokens where they were.
-/

namespace TemplateTree

def ParseError.moved (base : Place) : ParseError → ParseError
  | .missingAlias span => .missingAlias (span.moved base)
  | .missingTemplatePath construct span => .missingTemplatePath construct (span.moved base)
  | .unexpectedEnd construct span? => .unexpectedEnd construct (span?.map (Span.moved base))

/-- The fault when its place moves; faults of other kinds have no place. -/
def Fault.moved (base : Place) : Fault → Fault
  | .parse error => .parse (error.moved base)
  | fault => fault

/-- A fault keeps its code and its words when its place moves. -/
theorem ParseError.diagnostic_moved (base : Place) (e : ParseError) :
    (e.moved base).diagnostic = e.diagnostic.mapSpan (Option.map (Span.moved base)) := by
  cases e <;> rfl

theorem Comment.ofToken_moved {base : Place} {t : Token} {p : Point} (h : t.start = .ok p)
    (mode : PositionMode) :
    ∃ c d, ofToken mode (t.moved base) = .ok c ∧ ofToken mode t = .ok d ∧
      c.mapSpan id = d.mapSpan (Option.map (Span.moved base)) := by
  refine ⟨_, _, ofToken_eq (Token.start_moved base h) mode, ofToken_eq h mode, ?_⟩
  simp only [mapSpan, id, Option.map_some, ← spanFrom_moved]
  rfl

theorem Token.spanTo_moved {base : Place} {t u : Token} {p q : Point} (ht : t.start = .ok p)
    (hu : u.start = .ok q) (hb : (t.moved base).Before (u.moved base)) (mode : PositionMode) :
    ∃ s, (t.moved base).spanTo (u.moved base) mode = .ok (Span.moved base s) ∧
      t.spanTo u mode = .ok s := by
  have ht' := start_moved base ht
  have hu' := start_moved base hu
  have hm := (before_iff ht' hu').mp hb
  refine ⟨_, ?_, spanTo_eq ht hu (Point.moved_le_iff.mp hm) mode⟩
  rw [spanTo_eq ht' hu' hm]
  simp only [Span.moved, ← Point.past_moved]
  rfl

theorem TokenSource.endFault_moved {base : Place} {t : Token} {p : Point} (h : t.start = .ok p)
    (mode : PositionMode) (construct : String) :
    endFault ⟨[], some (t.moved base)⟩ mode construct =
      (endFault ⟨[], some t⟩ mode construct).moved base := by
  simp only [endFault, endSpan?, Token.span_moved base h, Token.span_eq h]
  rfl

/-- Tokens with a valid start, on the left moved to after a text that ends at `base`. -/
def Likeness.moving (options : Options) (base : Place) : Likeness where
  left := options
  right := options
  onLeft := id
  onRight := Option.map (Span.moved base)
  token t u := t = u.moved base ∧ ∃ p, u.start = .ok p
  fault e e' := e = e'.moved base
  reportUnmodeled := rfl
  kind := by rintro t u ⟨rfl, -⟩; rfl
  value := by rintro t u ⟨rfl, -⟩; rfl
  unknown := rfl
  cover? := by
    rintro s s' r r' rfl rfl
    exact Span.cover?_moved s' r'
  span := by
    rintro t u ⟨rfl, p, h⟩ -
    exact ⟨_, _, Token.span_moved base h _, Token.span_eq h _, rfl⟩
  spanTo := by
    rintro t u t' u' ⟨rfl, p, h⟩ ⟨rfl, p', h'⟩ - - hb
    obtain ⟨s, hs, hs'⟩ := Token.spanTo_moved h h' hb options.positionMode
    exact ⟨_, s, hs, hs', rfl⟩
  comment := by
    rintro t u ⟨rfl, p, h⟩ -
    exact Comment.ofToken_moved h _
  missingAlias := by rintro s s' ⟨⟩; rfl
  missingTemplatePath := by rintro s s' construct ⟨⟩; rfl
  unexpectedEnd := by
    rintro t u construct ⟨rfl, p, h⟩
    exact TokenSource.endFault_moved h _ construct

end TemplateTree
