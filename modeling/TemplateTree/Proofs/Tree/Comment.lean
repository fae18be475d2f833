import TemplateTree.Proofs.Token.OpenEnd
import TemplateTree.Proofs.Tree.CommentText

/-!
# Comments of a text

A lexer takes a comment off a text together with its delimiters, of which it may lack only the
closing one, at the end of the text (`Lexer.exists_of_comment`). The comment that is read from
it accounts for all that stands in between (`comment_ofText`).
-/

namespace TemplateTree

/-- The lexeme is a comment that stands behind `front` in the text, with `inner` in between its
opening delimiter and its closing one, if it has that. -/
structure Lexeme.Encloses (l : Lexeme) (cs front inner closing : List Char) : Prop where
  text : ∃ rest, front ++ l.value.toList ++ rest = cs
  start : l.toToken.start = .ok (Place.endOf front).toPoint
  value : l.value.toList = ['{', '#'] ++ inner ++ closing
  between : dropDelimiters l.value.toList = inner

theorem Lexer.exists_of_comment {text : String} {l : Lexeme} (hl : l ∈ (ofText text).lex.1)
    (hk : l.kind = .comment) :
    ∃ front inner closing, l.Encloses text.toList front inner closing ∧
      (closing = ['#', '}'] ∧ ¬l.LeavesOpen text.toList .unterminatedComment ∨
        closing = [] ∧ l.LeavesOpen text.toList .unterminatedComment) := by
  rw [lex_ofText_fst] at hl
  obtain ⟨qs, p, rs, hps, rfl⟩ := @Piece.exists_of_mem_lexemes [] _ _ hl
  rw [List.nil_append] at hk ⊢
  obtain ⟨_, hs⟩ := exists_scanned_of_mem_pieces (hps ▸ List.mem_append_right qs (.head _))
  have hvalue := (hs.standsFor (slices qs)).value (by rw [hk]; decide)
  have htext : ∃ rest, slices qs ++ p.slice ++ rest = text.toList := by
    refine ⟨slices rs, ?_⟩
    rw [← slices_pieces false text.toList, hps, slices_append, slices_cons, List.append_assoc]
  have hstart := Piece.start_tokenAfter (slices qs) p
  rw [← hvalue] at htext
  rcases hs.comment_cases hk with ⟨body, rest, -, rfl⟩ | ⟨body, hb, rfl⟩
  · refine ⟨slices qs, body, ['#', '}'], ⟨htext, hstart, hvalue, ?_⟩, .inl ⟨rfl, ?_⟩⟩
    · rw [hvalue]
      exact dropDelimiters_closed body
    · rintro ⟨-, hv, hn⟩
      obtain rfl : body ++ ['#', '}'] = _ := by simpa using hvalue.symm.trans hv
      exact hn (List.suffix_append body _).isInfix
  · refine ⟨slices qs, body, [], ⟨htext, hstart, ?_, ?_⟩, .inr ⟨rfl, .comment hk hvalue hb⟩⟩
    · rw [hvalue, List.append_nil]
      rfl
    · rw [hvalue]
      exact dropDelimiters_open fun h => hb h.isInfix

/-- A comment of a text, in either mode. Between its delimiters, of which it may lack the
closing one, there is nothing but its trim markers, blanks and its text. In line-aware mode its
span is that of its text; in naive mode the span of a closed comment stays on the first line,
and there within the length of the comment. -/
theorem comment_ofText (text : String) (mode : PositionMode) {l : Lexeme}
    (hl : l ∈ (Lexer.ofText text).lex.1) (hk : l.kind = .comment) :
    let raw := l.value.toList
    let leftOpen := l.LeavesOpen text.toList .unterminatedComment
    ∃ (c : Comment) (inner : List Char) (p : Point) (s : Span),
      Comment.ofToken mode l.toToken = .ok c ∧ c.PartsOf inner ∧
      (raw = ['{', '#'] ++ inner ++ ['#', '}'] ∧ ¬leftOpen ∨
        raw = ['{', '#'] ++ inner ∧ leftOpen) ∧
      l.toToken.start = .ok p ∧ c.span? = some s ∧
      (mode = .lineAware → s.slice? text.toList = some c.text.toList) ∧
      (mode = .naive → ¬leftOpen →
        s.start.line = p.line ∧ s.stop.line = p.line ∧ p.column ≤ s.start.column ∧
          s.stop.column ≤ p.column + raw.length) := by
  intro raw leftOpen
  obtain ⟨front, inner, closing, h, hclosing⟩ := Lexer.exists_of_comment hl hk
  obtain ⟨rest, htext⟩ := h.text
  refine ⟨_, inner, _, _, Comment.ofToken_eq h.start mode, Comment.partsOf_ofRaw h.between _, ?_,
    h.start, rfl, ?_, ?_⟩
  · rcases hclosing with ⟨rfl, hopen⟩ | ⟨rfl, hopen⟩
    · exact .inl ⟨h.value, hopen⟩
    · exact .inr ⟨by simpa using h.value, hopen⟩
  · rintro rfl
    rw [String.toList_ofList, ← htext]
    exact Comment.slice?_lineAware h.value h.between front rest
  · rintro rfl hopen
    rcases hclosing with ⟨rfl, -⟩ | ⟨-, h⟩
    · exact Comment.spanFrom_naive_within _ h.value h.between
    · exact absurd h hopen

theorem comment_ofText_trimmed :
    let text := "a\n\x7b#-\u00a0x\n y -#\x7d"
    let l : Lexeme := ⟨.comment, "\x7b#-\u00a0x\n y -#\x7d", 1, 0⟩
    l ∈ (Lexer.ofText text).lex.1 ∧
      ∃ s, Comment.ofToken .lineAware l.toToken = .ok ⟨"x\n y", true, true, some s⟩ ∧
        s.slice? text.toList = some "x\n y".toList := by
  intro text l
  have hl : l ∈ (Lexer.ofText text).lex.1 := by decide +kernel
  obtain ⟨c, -, -, s, hc, -, -, -, hs, hslice, -⟩ := comment_ofText text .lineAware hl rfl
  have hparts : (Comment.ofToken .lineAware l.toToken).toOption.map
      (fun c => (c.text, c.trimLeft, c.trimRight)) = some ("x\n y", true, true) := by
    decide +kernel
  rw [hc] at hparts
  obtain ⟨_, _, _, _⟩ := c
  cases hparts
  cases hs
  exact ⟨hl, s, hc, hslice rfl⟩

end TemplateTree
