import TemplateTree.Proofs.Document.ReadText
import TemplateTree.Proofs.Print.Comment
import TemplateTree.Proofs.Reading.Modes

/-!
# Position modes

The position mode decides on positions and on nothing else: read in the one mode
and in the other, a template gives trees, diagnostics, log entries or a parse error
that differ in their spans only. A span can decide over a diagnostic, which is
dropped if it repeats the one before; of a text none is.

Positions differ only where a comment is not padded as the naive mode takes it to be, and
where a string or a comment has a line feed. Without such tokens both modes give the
same tree (`ofText_paddedLines`).
-/

namespace TemplateTree

theorem read_modes (text : String) (reportUnmodeled : Bool) :
    let L := Likeness.modes .naive .lineAware reportUnmodeled
    List.Forall₂ L.Noted (Document.readText L.left text).notes
        (Document.readText L.right text).notes ∧
      L.Outcome (fun d e => d.mapSpan dropSpan = e.mapSpan dropSpan)
        (Document.readText L.left text).outcome (Document.readText L.right text).outcome := by
  intro L
  obtain ⟨hstart, ho⟩ := Lexeme.InOrder.iff_tokens.mp (inOrder_lex text)
  exact Document.read_alike L (fun t ht => ⟨rfl, hstart t ht⟩) ho

/-- The naive and the line-aware mode give the same but for the spans: the same log
entries, and either trees and diagnostics that say the same or parse errors that do. -/
theorem ofText_modes (text : String) (reportUnmodeled : Bool) :
    let naive : Options := ⟨.naive, reportUnmodeled⟩
    let lineAware : Options := ⟨.lineAware, reportUnmodeled⟩
    (Document.readText naive text).log = (Document.readText lineAware text).log ∧
      ((∃ r r', ParseResult.ofText naive text = .ok r ∧ ParseResult.ofText lineAware text = .ok r' ∧
          r.document.mapSpan dropSpan = r'.document.mapSpan dropSpan ∧
          r.diagnostics.map (·.mapSpan dropSpan) = r'.diagnostics.map (·.mapSpan dropSpan)) ∨
        ∃ e e', ParseResult.ofText naive text = .error e ∧
          ParseResult.ofText lineAware text = .error e' ∧ e.SaysAs e') := by
  intro naive lineAware
  obtain ⟨hn, ho⟩ := read_modes text reportUnmodeled
  have hd : (Document.readText naive text).diagnostics.map (·.mapSpan dropSpan) =
      (Document.readText lineAware text).diagnostics.map (·.mapSpan dropSpan) := by
    rw [Document.diagnostics_readText, Document.diagnostics_readText]
    exact Likeness.reported_of_noted hn
  refine ⟨Likeness.log_of_noted hn fun t u h => h.1, ?_⟩
  rw [ParseResult.ofText_eq, ParseResult.ofText_eq]
  change Likeness.Outcome _ _ (Document.readText naive text).outcome
    (Document.readText lineAware text).outcome at ho
  generalize (Document.readText naive text).outcome = x at ho ⊢
  generalize (Document.readText lineAware text).outcome = y at ho ⊢
  cases ho with
  | ok hde => exact .inl ⟨_, _, rfl, rfl, hde, by simp only [List.map_append, hd]⟩
  | error he => exact .inr ⟨_, _, rfl, rfl, he⟩

-- ---------------------------------------------------------------------------
-- Where the modes agree
-- ---------------------------------------------------------------------------

/-- A comment whose text is one line, with one blank on each side. -/
def Lexeme.IsPaddedLine (l : Lexeme) : Prop :=
  ∃ text trimLeft trimRight, SingleLine text ∧
    l.value.toList = printComment text trimLeft trimRight

theorem Lexeme.IsPaddedLine.ofToken {l : Lexeme} (h : l.IsPaddedLine) {p : Point}
    (hp : l.toToken.start = .ok p) :
    Comment.ofToken .naive l.toToken = Comment.ofToken .lineAware l.toToken := by
  obtain ⟨text, trimLeft, trimRight, hline, hraw⟩ := h
  have hvalue : l.toToken.value.toList = printComment text trimLeft trimRight := hraw
  rw [Comment.ofToken_eq hp, Comment.ofToken_eq hp, hvalue]
  simp only [Comment.spanFrom_printComment p _ hline,
    Span.ofText_of_not_mem _ .naive .lineAware hline.no_feed]

/-- Names and delimiters have no line feeds; of strings and comments it is assumed. -/
theorem Lexer.spansAlike {text : String} {l : Lexeme} (hl : l ∈ (ofText text).lex.1)
    (hstring : l.kind = .string → '\n' ∉ l.value.toList)
    (hcomment : l.kind = .comment → l.IsPaddedLine) : l.toToken.SpansAlike := by
  obtain ⟨p, hp⟩ := start_of_mem_tokens_lex text _ (List.mem_map_of_mem hl)
  refine ⟨⟨p, hp⟩, ?_, fun hk => (hcomment hk).ofToken hp⟩
  rw [lex_ofText_fst] at hl
  obtain ⟨qs, piece, rs, hps, rfl⟩ := @Piece.exists_of_mem_lexemes [] _ _ hl
  obtain ⟨_, hs⟩ := exists_scanned_of_mem_pieces (hps ▸ List.mem_append_right qs (.head _))
  have hline (h : piece.IsLine) : '\n' ∉ (piece.tokenAfter ([] ++ slices qs)).value.toList := by
    rw [h.value_tokenAfter]
    exact h.2
  rintro (hk | hk)
  · simp only [TokenKind.isSignificant, Bool.or_eq_true, beq_iff_eq] at hk
    rcases hk with hk | hk
    · exact hline (hs.isLine_of_symbol hk)
    · exact hstring hk
  · exact hline (hs.isLine_of_blockEnd hk)

/-- If no string of a text has a line feed and every comment is one line of text padded by
one blank on each side, both modes give the same tree and the same diagnostics. Names
and delimiters never have line feeds, and all else that a text has may have them. -/
theorem ofText_paddedLines (text : String) (reportUnmodeled : Bool)
    (hstring : ∀ l ∈ (Lexer.ofText text).lex.1, l.kind = .string → '\n' ∉ l.value.toList)
    (hcomment : ∀ l ∈ (Lexer.ofText text).lex.1, l.kind = .comment → l.IsPaddedLine) :
    let naive : Options := ⟨.naive, reportUnmodeled⟩
    let lineAware : Options := ⟨.lineAware, reportUnmodeled⟩
    (∀ d, Document.ofText naive text = .ok d ↔ Document.ofText lineAware text = .ok d) ∧
      (Document.readText naive text).diagnostics =
        (Document.readText lineAware text).diagnostics := by
  intro naive lineAware
  have ho := (Lexeme.InOrder.iff_tokens.mp (inOrder_lex text)).2
  have htokens : ∀ t ∈ (Lexer.ofText text).lex.1.map Lexeme.toToken,
      (Likeness.spansAlike reportUnmodeled).token t t := by
    intro t ht
    obtain ⟨l, hl, rfl⟩ := List.mem_map.mp ht
    exact ⟨rfl, Lexer.spansAlike hl (hstring l hl) (hcomment l hl)⟩
  obtain ⟨hnotes, houtcome⟩ := Document.read_alike _ htokens ho
  constructor
  · have heq : (Likeness.spansAlike reportUnmodeled).Outcome Eq
        (Document.readText naive text).outcome (Document.readText lineAware text).outcome :=
      houtcome.mono fun d e (hde : d.mapSpan id = e.mapSpan id) => by simpa using hde
    intro d
    rw [Document.ofText_eq, Document.ofText_eq]
    exact heq.eq_ok_iff
  · have hreported : (Document.readText naive text).reported.map (·.mapSpan id) =
        (Document.readText lineAware text).reported.map (·.mapSpan id) :=
      Likeness.reported_of_noted hnotes
    rw [Document.diagnostics_readText, Document.diagnostics_readText]
    simpa using hreported

theorem ofText_paddedLines_trimmed :
    let text := "\n\x7b#- a b -#\x7d\x7b% include\n'f' %\x7d\x7b# c #\x7d"
    ∃ d, Document.ofText ⟨.naive, true⟩ text = .ok d ∧ d.items.length = 3 ∧
      Document.ofText ⟨.lineAware, true⟩ text = .ok d := by
  intro text
  have hstring : ∀ l ∈ (Lexer.ofText text).lex.1, l.kind = .string → '\n' ∉ l.value.toList := by
    decide +kernel
  have hcomment : ∀ l ∈ (Lexer.ofText text).lex.1, l.kind = .comment →
      l.value.toList = printComment ['a', ' ', 'b'] true true ∨
        l.value.toList = printComment ['c'] false false := by
    decide +kernel
  have hpadded : ∀ l ∈ (Lexer.ofText text).lex.1, l.kind = .comment → l.IsPaddedLine := by
    intro l hl hk
    rcases hcomment l hl hk with h | h
    · exact ⟨_, true, true, ⟨by decide, by decide, by decide, by decide⟩, h⟩
    · exact ⟨_, false, false, ⟨by decide, by decide, by decide, by decide⟩, h⟩
  have hcount : (ParseResult.ofText ⟨.naive, true⟩ text).toOption.map
      (fun r => r.document.items.length) = some 3 := by decide +kernel
  obtain ⟨result, h, hcount⟩ := ParseResult.exists_of_count hcount
  have hd : Document.ofText ⟨.naive, true⟩ text = .ok result.document := by
    rw [Document.ofText_eq]
    exact ParseResult.outcome_readText h
  exact ⟨result.document, hd, hcount, ((ofText_paddedLines text true hstring hpadded).1 _).mp hd⟩

end TemplateTree
