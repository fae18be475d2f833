import TemplateTree.Proofs.Document.ReadText
import TemplateTree.Proofs.Document.Stream
import TemplateTree.Proofs.Reading.Warnings
import TemplateTree.Proofs.Token.OpenEnd

/-!
# Errors among the diagnostics

A template that is read has been read to its end, and the reading itself only warns. So
the one error that its diagnostics can have is that of its lexer, of a comment or a
string literal that is left open at the end of the text.
-/

namespace TemplateTree

/-- A text that is read has no token left. -/
theorem Document.rest_readText {options : Options} {text : String} {d : Document}
    (h : (readText options text).outcome = .ok d) : (readText options text).source.rest = [] :=
  (read_append_of_ok h []).1

theorem ParseResult.diagnostics_eq {options : Options} {text : String} {result : ParseResult}
    (h : ofText options text = .ok result) :
    result.diagnostics = (Lexer.ofText text).lex.2.diagnostics ++
      (Document.readText options text).diagnostics := by
  rw [ofText_eq, outcome_readText h] at h
  exact congrArg ParseResult.diagnostics (Except.ok.inj h).symm

/-- The diagnostics have an error exactly when the lexer reports one. -/
theorem ParseResult.hasErrors_iff {options : Options} {text : String} {result : ParseResult}
    (h : ofText options text = .ok result) :
    result.hasErrors ↔
      ∃ l ∈ (Lexer.ofText text).lex.1.getLast?, ∃ code, l.LeavesOpen text.toList code := by
  have hmem : result.hasErrors ↔ ∃ d ∈ result.diagnostics, d.severity = .error := by
    simp [hasErrors, Diagnostic.hasErrors, Diagnostic.isError]
  rw [hmem, diagnostics_eq h]
  constructor
  · rintro ⟨d, hd, herror⟩
    rcases List.mem_append.mp hd with hd | hd
    · obtain ⟨l, hl, code, -, hopen, -⟩ := Lexer.span_of_mem_diagnostics_lex text hd
      exact ⟨l, hl, code, hopen⟩
    · rw [Document.warning_of_mem_diagnostics options _ d hd] at herror
      cases herror
  · rintro ⟨l, hl, code, hopen⟩
    obtain ⟨d, hd, -⟩ := (Lexer.reports_iff_leavesOpen text code).mpr ⟨l, hl, hopen⟩
    obtain ⟨_, -, code, _, hopen, rfl, -⟩ := Lexer.span_of_mem_diagnostics_lex text hd
    exact ⟨_, List.mem_append_left _ hd, hopen.severity⟩

/-- A lexer reports at most one problem, and it reports a code exactly when that is the
problem with the last lexeme of the text. The report is of that problem, from the start of
the lexeme to the end of the text. Whatever the options, a template that is read is read to its end, and it has errors
exactly when its last lexeme lacks its closing delimiter. -/
theorem openEnd_reported (text : String) :
    let lexemes := (Lexer.ofText text).lex.1
    let diagnostics := (Lexer.ofText text).lex.2.diagnostics
    diagnostics.length ≤ 1 ∧
      (∀ code, (∃ d ∈ diagnostics, d.code = code.id) ↔
        ∃ l ∈ lexemes.getLast?, l.LeavesOpen text.toList code) ∧
      (∀ d ∈ diagnostics, ∃ l ∈ lexemes.getLast?, ∃ code s, l.LeavesOpen text.toList code ∧
        d = code.at (some s) ∧ l.toToken.start = .ok s.start ∧ s.stop.Follows text.toList) ∧
      ∀ options result, ParseResult.ofText options text = .ok result →
        (Document.readText options text).source.rest = [] ∧
          (result.hasErrors ↔
            ∃ l ∈ lexemes.getLast?, ∃ code, l.LeavesOpen text.toList code) := by
  intro lexemes diagnostics
  refine ⟨Lexer.length_diagnostics_lex text, Lexer.reports_iff_leavesOpen text,
    fun d => Lexer.span_of_mem_diagnostics_lex text, fun options result h => ⟨?_, ?_⟩⟩
  · exact Document.rest_readText (ParseResult.outcome_readText h)
  · exact ParseResult.hasErrors_iff h

theorem openEnd_reported_comment :
    let text := "\x7b% include 'f' %\x7d\x7b#\x7d"
    ∃ result, ParseResult.ofText {} text = .ok result ∧ result.document.items.length = 2 ∧
      (Document.readText {} text).source.rest = [] ∧
        (result.hasErrors ↔
          ∃ l ∈ (Lexer.ofText text).lex.1.getLast?, ∃ code, l.LeavesOpen text.toList code) := by
  intro text
  have hcount : (ParseResult.ofText {} text).toOption.map
      (fun r => r.document.items.length) = some 2 := by decide +kernel
  obtain ⟨result, h, hcount⟩ := ParseResult.exists_of_count hcount
  exact ⟨result, h, hcount, (openEnd_reported text).2.2.2 {} result h⟩

end TemplateTree
