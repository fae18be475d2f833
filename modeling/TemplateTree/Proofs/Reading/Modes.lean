import TemplateTree.Proofs.Position.Advance
import TemplateTree.Proofs.Reading.Alike

/-!
# Readings in two position modes

The same tokens read in two position modes. No span of the one reading says
anything of those of the other, so the likeness leaves spans out of account: both
readings say the same, and where one fails the other fails in the same words.
-/

namespace TemplateTree

/-- Two parse errors of one kind with the same words, wherever they are. -/
def Fault.SaysAs (e e' : Fault) : Prop :=
  ∃ f f', e = .parse f ∧ e' = .parse f' ∧
    f.diagnostic.mapSpan dropSpan = f'.diagnostic.mapSpan dropSpan

/-- Tokens with a valid start, read in a mode on either side. -/
def Likeness.modes (left right : PositionMode) (reportUnmodeled : Bool) : Likeness where
  left := ⟨left, reportUnmodeled⟩
  right := ⟨right, reportUnmodeled⟩
  onLeft := dropSpan
  onRight := dropSpan
  token t u := t = u ∧ ∃ p, u.start = .ok p
  fault := Fault.SaysAs
  reportUnmodeled := rfl
  kind := by rintro t u ⟨rfl, -⟩; rfl
  value := by rintro t u ⟨rfl, -⟩; rfl
  unknown := rfl
  cover? _ _ := rfl
  span := by
    rintro t u ⟨rfl, p, h⟩ -
    exact ⟨_, _, Token.span_eq h _, Token.span_eq h _, rfl⟩
  spanTo := by
    rintro t u t' u' ⟨rfl, p, h⟩ ⟨rfl, p', h'⟩ - - hb
    have hle := (Token.before_iff h h').mp hb
    exact ⟨_, _, Token.spanTo_eq h h' hle _, Token.spanTo_eq h h' hle _, rfl⟩
  comment := by
    rintro t u ⟨rfl, p, h⟩ -
    exact ⟨_, _, Comment.ofToken_eq h _, Comment.ofToken_eq h _, rfl⟩
  missingAlias _ := ⟨_, _, rfl, rfl, rfl⟩
  missingTemplatePath _ _ := ⟨_, _, rfl, rfl, rfl⟩
  unexpectedEnd := by
    rintro t u construct ⟨rfl, p, h⟩
    rw [TokenSource.endFault_eq h, TokenSource.endFault_eq h]
    exact ⟨_, _, rfl, rfl, rfl⟩

/-- What is read of the token has the same spans in either mode. -/
structure Token.SpansAlike (t : Token) : Prop where
  start : ∃ p, t.start = .ok p
  no_feed : t.kind.isSignificant ∨ t.kind = .blockEnd → '\n' ∉ t.value.toList
  comment : t.kind = .comment → Comment.ofToken .naive t = Comment.ofToken .lineAware t

/-- Tokens whose spans are the same in either mode, so that both readings give the same.
A token that is passed over may still end elsewhere, and with it the input. -/
def Likeness.spansAlike (reportUnmodeled : Bool) : Likeness where
  left := ⟨.naive, reportUnmodeled⟩
  right := ⟨.lineAware, reportUnmodeled⟩
  onLeft s? := s?
  onRight s? := s?
  token t u := t = u ∧ u.SpansAlike
  fault := Fault.SaysAs
  reportUnmodeled := rfl
  kind := by rintro t u ⟨rfl, -⟩; rfl
  value := by rintro t u ⟨rfl, -⟩; rfl
  unknown := rfl
  cover? := by rintro s s' r r' rfl rfl; rfl
  span := by
    rintro t u ⟨rfl, ⟨p, h⟩, hfeed, -⟩ hk
    have hspan := Span.ofText_of_not_mem p .naive .lineAware (hfeed (.inl hk))
    exact ⟨_, _, Token.span_eq h _, Token.span_eq h _, congrArg some hspan⟩
  spanTo := by
    rintro t u t' u' ⟨rfl, ⟨p, h⟩, -⟩ ⟨rfl, ⟨p', h'⟩, hfeed, -⟩ - hk hb
    have hle := (Token.before_iff h h').mp hb
    refine ⟨_, _, Token.spanTo_eq h h' hle _, Token.spanTo_eq h h' hle _, ?_⟩
    simp only [Point.past_of_not_mem p' _ (hfeed (.inr hk))]
  comment := by
    rintro t u ⟨rfl, ⟨p, h⟩, -, hc⟩ hk
    have hnaive := Comment.ofToken_eq h .naive
    exact ⟨_, _, hnaive, (hc hk) ▸ hnaive, rfl⟩
  missingAlias _ := ⟨_, _, rfl, rfl, rfl⟩
  missingTemplatePath _ _ := ⟨_, _, rfl, rfl, rfl⟩
  unexpectedEnd := by
    rintro t u construct ⟨rfl, ⟨p, h⟩, -⟩
    rw [TokenSource.endFault_eq h, TokenSource.endFault_eq h]
    exact ⟨_, _, rfl, rfl, rfl⟩

/-- Lexemes whose tokens correspond to themselves are read alike on both sides. -/
theorem Document.read_alike (L : Likeness) {ls : List Lexeme}
    (ht : ∀ t ∈ ls.map Lexeme.toToken, L.token t t)
    (ho : (ls.map Lexeme.toToken).Pairwise Token.Before) :
    List.Forall₂ L.Noted (read L.left { rest := ls }).notes (read L.right { rest := ls }).notes ∧
      L.Outcome (fun d e => d.mapSpan L.onLeft = e.mapSpan L.onRight)
        (read L.left { rest := ls }).outcome (read L.right { rest := ls }).outcome := by
  have hstart : Reading.Alike L [] {} {} := ⟨rfl, .none⟩
  have hruns := Reading.alike_feedAll hstart (List.forall₂_same.mpr ht) ho (by rintro t - o ⟨⟩)
  rw [notes_read, notes_read, outcome_read, outcome_read]
  refine ⟨hruns.notes, hruns.outcome.bind fun p q hp hpq => (Reading.alike_finish hpq ?_).mono ?_⟩
  · intro hopen
    have hne : ls.map Lexeme.toToken ≠ [] := by
      intro hnil
      rw [hnil] at hp
      cases hp
      cases hopen
    have hlast := List.getLast_mem hne
    exact ⟨_, _, List.getLast?_eq_some_getLast hne, List.getLast?_eq_some_getLast hne, ht _ hlast⟩
  · rintro ⟨items, span?⟩ ⟨items', span?'⟩ ⟨hitems, rfl, rfl⟩
    simpa only [mapSpan, Document.mk.injEq, L.unknown, and_true, List.reverse_nil, List.nil_append]
      using hitems

end TemplateTree
