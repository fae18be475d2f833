import TemplateTree.Proofs.Document.ReadText
import TemplateTree.Proofs.Token.OpenEnd

/-!
# Ends in line-aware mode

The end of a token is computed from its value alone, the start of the next one was counted
while the text was lexed. In line-aware mode the two are the same point for every token
whose value is its slice, so the tokens meet, and a text that ends inside a directive is
said to end where it does (`lineAware_ends`).
-/

namespace TemplateTree

theorem Piece.span_lineAware {p : Piece} (h : p.value = p.slice) (front : List Char) :
    ∃ s, (p.tokenAfter front).span .lineAware = .ok s ∧
      s.stop = (Place.endOf (front ++ p.slice)).toPoint :=
  ⟨_, span_tokenAfter front p .lineAware, past_lineAware h front⟩

namespace Lexer

variable {text : String} {l m : Lexeme}

theorem span_of_pair_infix (h : [l, m] <:+: (ofText text).lex.1) (hk : l.kind ≠ .string) :
    ∃ s, l.toToken.span .lineAware = .ok s ∧ m.toToken.start = .ok s.stop := by
  rw [lex_ofText_fst] at h
  obtain ⟨qs, p, q, rs, hps, rfl, rfl⟩ := @Piece.exists_of_pair_infix [] _ _ _ h
  obtain ⟨_, hs⟩ := exists_scanned_of_mem_pieces (hps ▸ List.mem_append_right qs (.head _))
  obtain ⟨s, hspan, hstop⟩ := Piece.span_lineAware (hs.value_eq hk) ([] ++ slices qs)
  exact ⟨s, hspan, hstop ▸ Piece.start_tokenAfter _ q⟩

theorem span_of_getLast? (h : l ∈ (ofText text).lex.1.getLast?) (hk : l.kind ≠ .string) :
    ∃ s, l.toToken.span .lineAware = .ok s ∧ s.stop.Follows text.toList := by
  rcases lex_cases text with ⟨hn, -⟩ | ⟨front, inTag, p, hs, htext, hl, -⟩
  · simp [hn] at h
  · obtain rfl := Option.some.inj (hl.symm.trans h)
    obtain ⟨s, hspan, hstop⟩ := Piece.span_lineAware (hs.value_eq hk) front
    exact ⟨s, hspan, Point.follows_iff.mpr (htext ▸ hstop)⟩

end Lexer

/-- In either mode the end of input stands where the last token ends. -/
theorem Document.span_of_unexpectedEnd {options : Options} {text construct : String}
    {span? : Option Span}
    (h : ofText options text = .error (.parse (.unexpectedEnd construct span?))) :
    ∃ l ∈ (Lexer.ofText text).lex.1.getLast?, ∃ s,
      l.toToken.span options.positionMode = .ok s ∧ span? = some (.empty s.stop) := by
  rw [ofText_eq] at h
  obtain ⟨r, hr, hfinish⟩ := exists_of_unexpectedEnd h
  obtain ⟨o, hopen, hfault⟩ := Reading.exists_of_finish_error hfinish
  cases hl : (Lexer.ofText text).lex.1.getLast? with
  | none =>
    -- no directive is opened without a token
    rw [List.getLast?_eq_none_iff.mp hl] at hr
    cases hr
    cases hopen
  | some l =>
    have hmem := List.mem_map_of_mem (f := Lexeme.toToken) (List.mem_of_getLast? hl)
    obtain ⟨p, hp⟩ := start_of_mem_tokens_lex text _ hmem
    rw [List.getLast?_map, hl, Option.map_some, TokenSource.endFault_eq hp] at hfault
    cases hfault
    exact ⟨l, rfl, _, Token.span_eq hp options.positionMode, rfl⟩

/-- In line-aware mode every token that is not a string ends where the next one starts, the
last one at the end of the text. If the text ends inside a directive and its last token is
not a string, the end of input stands there. -/
theorem lineAware_ends (text : String) :
    let lexemes := (Lexer.ofText text).lex.1
    (∀ l m, [l, m] <:+: lexemes → l.kind ≠ .string →
        ∃ s, l.toToken.span .lineAware = .ok s ∧ m.toToken.start = .ok s.stop) ∧
      (∀ l ∈ lexemes.getLast?, l.kind ≠ .string →
        ∃ s, l.toToken.span .lineAware = .ok s ∧ s.stop.Follows text.toList) ∧
      ∀ reportUnmodeled construct span?, (∀ l ∈ lexemes.getLast?, l.kind ≠ .string) →
        Document.ofText ⟨.lineAware, reportUnmodeled⟩ text =
            .error (.parse (.unexpectedEnd construct span?)) →
          ∃ p, p.Follows text.toList ∧ span? = some (.empty p) := by
  intro lexemes
  refine ⟨fun l m => Lexer.span_of_pair_infix, fun l => Lexer.span_of_getLast?, ?_⟩
  intro reportUnmodeled construct span? hk h
  obtain ⟨l, hl, s, hspan, rfl⟩ := Document.span_of_unexpectedEnd h
  obtain ⟨s', hspan', hstop⟩ := Lexer.span_of_getLast? hl (hk l hl)
  obtain rfl : s = s' := Except.ok.inj (hspan.symm.trans hspan')
  exact ⟨s.stop, hstop, rfl⟩

theorem lineAware_ends_open_tag :
    let text := "\x7b#\n#\x7d\x7b% include\n "
    let comment : Lexeme := ⟨.comment, "\x7b#\n#\x7d", 0, 0⟩
    let opening : Lexeme := ⟨.blockStart, "\x7b%", 1, 2⟩
    [comment, opening] <:+: (Lexer.ofText text).lex.1 ∧
      (∃ s, comment.toToken.span .lineAware = .ok s ∧ opening.toToken.start = .ok s.stop) ∧
      ∃ p, p.Follows text.toList ∧ Document.ofText ⟨.lineAware, true⟩ text =
        .error (.parse (.unexpectedEnd "include" (some (.empty p)))) := by
  intro text comment opening
  obtain ⟨hends, -, herror⟩ := lineAware_ends text
  have hpair : [comment, opening] <:+: (Lexer.ofText text).lex.1 := by decide +kernel
  have hlast : ∀ l ∈ (Lexer.ofText text).lex.1.getLast?, l.kind ≠ .string := by decide +kernel
  have h : Document.ofText ⟨.lineAware, true⟩ text =
      .error (.parse (.unexpectedEnd "include" (some (.empty { line := 3, column := 2 })))) := by
    decide +kernel
  obtain ⟨p, hp, hspan⟩ := herror true "include" _ hlast h
  exact ⟨hpair, hends comment opening hpair nofun, p, hp, hspan ▸ h⟩

end TemplateTree
