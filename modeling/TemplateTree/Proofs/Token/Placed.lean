import TemplateTree.Proofs.Position.Moved
import TemplateTree.Token.Source
import TemplateTree.Tree.CommentText

/-!
# Tokens in their places

A token with a valid start has a span in either mode, and two such tokens in
reading order have one from the first to the second. So no fault of a place can
come of tokens that lie in order, as those of a lexer do.
-/

namespace TemplateTree

namespace Token

theorem role_eq_closing {t : Token} : t.role = .closing ↔ t.kind = .blockEnd := by
  simp only [role]
  grind

theorem role_eq_word {t : Token} (h : t.kind.isSignificant) : t.role = .word := by
  simp only [role, h, ↓reduceIte]
  split
  · rename_i hk
    rw [hk] at h
    cases h
  · rfl

theorem isSignificant_of_role {t : Token} (h : t.role = .word) : t.kind.isSignificant := by
  simp only [role] at h
  grind

/-- The token starts no later than the other one. -/
def Before (t u : Token) : Prop := t.line < u.line ∨ t.line = u.line ∧ t.column ≤ u.column

theorem start_eq_ok_iff {t : Token} {p : Point} :
    t.start = .ok p ↔ p.line = t.line ∧ p.column = t.column := Point.ofCoordinates_eq_ok_iff

theorem before_iff {t u : Token} {p q : Point} (ht : t.start = .ok p) (hu : u.start = .ok q) :
    t.Before u ↔ p ≤ q := by
  rw [start_eq_ok_iff] at ht hu
  simp only [Before, Point.le_iff, ht, hu]

theorem span_eq {t : Token} {p : Point} (h : t.start = .ok p) (mode : PositionMode) :
    t.span mode = .ok (Span.ofText p mode t.value.toList) := by
  simp only [span, h]
  rfl

theorem spanTo_eq {t u : Token} {p q : Point} (ht : t.start = .ok p) (hu : u.start = .ok q)
    (h : p ≤ q) (mode : PositionMode) :
    t.spanTo u mode =
      .ok ⟨p, q.past mode u.value.toList, Point.le_trans h (q.le_past mode u.value.toList)⟩ := by
  have hs : p ≤ (Span.ofText q mode u.value.toList).stop :=
    Point.le_trans h (q.le_past mode u.value.toList)
  simp only [spanTo, span_eq ht, span_eq hu]
  exact Span.ofPoints_eq_ok_iff.2 ⟨rfl, rfl⟩

theorem ends_of_spanTo {t u : Token} {p q : Point} {s : Span} {mode : PositionMode}
    (ht : t.start = .ok p) (hu : u.start = .ok q) (h : t.spanTo u mode = .ok s) :
    s.start = p ∧ s.stop = q.past mode u.value.toList := by
  simp only [spanTo, span_eq ht, span_eq hu] at h
  exact Span.ofPoints_eq_ok_iff.1 h

theorem start_moved {t : Token} {p : Point} (base : Place) (h : t.start = .ok p) :
    (t.moved base).start = .ok (p.moved base) := by
  rw [start_eq_ok_iff] at h ⊢
  simp [moved, Point.moved, h]

theorem span_moved {t : Token} {p : Point} (base : Place) (h : t.start = .ok p)
    (mode : PositionMode) :
    (t.moved base).span mode = .ok ((Span.ofText p mode t.value.toList).moved base) := by
  rw [span_eq (start_moved base h), Span.ofText_moved]
  rfl

end Token

theorem TokenSource.endFault_eq {t : Token} {p : Point} (h : t.start = .ok p) (mode : PositionMode)
    (construct : String) :
    endFault ⟨[], some t⟩ mode construct =
      .parse (.unexpectedEnd construct (some (.empty (p.past mode t.value.toList)))) := by
  simp only [endFault, endSpan?, Token.span_eq h]
  rfl

namespace Comment

theorem ofToken_eq {t : Token} {p : Point} (h : t.start = .ok p) (mode : PositionMode) :
    ofToken mode t =
      let c := CommentText.ofRaw t.value.toList
      .ok ⟨String.ofList c.text, c.trimLeft, c.trimRight,
        some (spanFrom p mode t.value.toList c)⟩ := by
  simp only [ofToken, h]
  rfl

theorem spanFrom_moved (base : Place) (p : Point) (mode : PositionMode) (raw : List Char)
    (c : CommentText) :
    spanFrom (p.moved base) mode raw c = (spanFrom p mode raw c).moved base := by
  cases mode with
  | naive =>
    simp only [spanFrom, Span.ofPaddedComment, Span.moved, Span.ext_iff, Point.ext_iff,
      Point.moved, Point.right, true_and]
    grind
  | lineAware => simp only [spanFrom, Point.past_moved, Span.ofText_moved]

end Comment

end TemplateTree
