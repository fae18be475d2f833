import TemplateTree.Proofs.Reading.Modes
import TemplateTree.Proofs.Reading.Words
import TemplateTree.Proofs.Token.Order

/-!
# What can go wrong

Lexemes in reading order give a document or a parse error, whatever they are: none of
the places that are computed from them is invalid, and no directive asks for its closing
delimiter before it is there. Lexing gives no fault at all, and its lexemes are in order.
-/

namespace TemplateTree

theorem ok_or_parse_of_inOrder (options : Options) {ls : List Lexeme} (h : Lexeme.InOrder ls) :
    (∃ d, Document.ofLexemes options ls = .ok d) ∨
      ∃ e, Document.ofLexemes options ls = .error (.parse e) := by
  obtain ⟨hstart, ho⟩ := Lexeme.InOrder.iff_tokens.mp h
  have hr := (Document.read_alike
    (.modes options.positionMode options.positionMode options.reportUnmodeled)
    (fun t ht => ⟨rfl, hstart t ht⟩) ho).2
  change Likeness.Outcome _ _ (Document.ofLexemes options ls) (Document.ofLexemes options ls) at hr
  generalize Document.ofLexemes options ls = x at hr ⊢
  cases hr with
  | ok => exact .inl ⟨_, rfl⟩
  | error he =>
    obtain ⟨e, -, rfl, -⟩ := he
    exact .inr ⟨e, rfl⟩

-- ---------------------------------------------------------------------------
-- Lexers
-- ---------------------------------------------------------------------------

/-- A lexeme lies between two places in order, and so does the problem with it. -/
theorem Lexer.exists_span_of_next? {l l' : Lexer} {lexeme : Lexeme}
    (h : l.next? = some (lexeme, l')) :
    ∃ s, Span.ofCoordinates (lexeme.line + 1) (lexeme.column + 1) (l'.place.line + 1)
        (l'.place.column + 1) = .ok s ∧
      ∃ problem? : Option Code,
        l'.diagnostics = l.diagnostics ++ problem?.toList.map (·.at (some s)) := by
  obtain ⟨piece, -, -, -, rfl, rfl⟩ := exists_piece_of_next? h
  exact ⟨_, Span.ofCoordinates_ends (l.place.spanOver piece.slice), piece.problem?, rfl⟩

/-- Only parse errors stop a reading of lexemes in order. A scan that has given out all
its words has its closing delimiter, and closing with it what the words make of a
directive is how that directive is read. Each step of a lexer gives a valid span for the
problem that it may report, and lexing a text comes to its end, with lexemes in order. -/
theorem ofLexemes_ok_or_parse (options : Options) :
    (∀ ls, Lexeme.InOrder ls → (∃ d, Document.ofLexemes options ls = .ok d) ∨
        ∃ e, Document.ofLexemes options ls = .error (.parse e)) ∧
      (∀ scan scan' words, Scan.drain scan = (.ok words, scan') →
        ∃ closing, scan'.closing = .ok closing ∧
          (scan.closing? = none → ∀ opening d, Directive.takesWords d →
            (d.read options opening scan.source).outcome =
              (words.foldlM (Directive.take options) d >>= fun d =>
                d.close options.positionMode opening closing).outcome)) ∧
      (∀ l l' lexeme, Lexer.next? l = some (lexeme, l') →
        ∃ s, Span.ofCoordinates (lexeme.line + 1) (lexeme.column + 1) (l'.place.line + 1)
            (l'.place.column + 1) = .ok s ∧
          ∃ problem? : Option Code,
            l'.diagnostics = l.diagnostics ++ problem?.toList.map (·.at (some s))) ∧
      ∀ text, (Lexer.ofText text).lex.2.atEnd ∧ Lexeme.InOrder (Lexer.ofText text).lex.1 := by
  refine ⟨fun _ => ok_or_parse_of_inOrder options, fun scan scan' words h => ?_,
    fun _ _ _ => Lexer.exists_span_of_next?, fun text => ⟨?_, inOrder_lex text⟩⟩
  · obtain ⟨closing, hc⟩ := Scan.exists_closing_of_drain h
    exact ⟨closing, hc, fun hs opening _ hd => (Directive.read_of_drain hs h hc hd opening).2.1⟩
  · simp only [Lexer.atEnd, Lexer.rest_lex_snd, List.isEmpty_nil]

theorem ofLexemes_ok_or_parse_no_path :
    let ls : List Lexeme :=
      [⟨.blockStart, "\x7b%", 0, 0⟩, ⟨.symbol, "import", 0, 3⟩, ⟨.blockEnd, "%\x7d", 2, 0⟩]
    Lexeme.InOrder ls ∧ ∃ e, Document.ofLexemes {} ls = .error (.parse e) := by
  intro ls
  have h : Lexeme.InOrder ls := ⟨by decide, by decide⟩
  refine ⟨h, ((ofLexemes_ok_or_parse {}).1 ls h).resolve_left ?_⟩
  rintro ⟨d, ⟨⟩⟩

end TemplateTree
