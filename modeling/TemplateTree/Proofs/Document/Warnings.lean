import TemplateTree.Proofs.Document.Errors
import TemplateTree.Proofs.Reading.Skipped

/-!
# Warnings among the diagnostics

The warnings of a text start one after the other, so none is dropped as a repetition of
the one before. That a tag is skipped is warned of as often as it is logged, at the same
keywords. Without these warnings a text is read as it is with them: no warning that is
left could repeat its new neighbour, since all of them start at different places.
-/

namespace TemplateTree

open scoped List

/-- What is noted down of skipped tags is noted of some tokens of the text, in their order. -/
theorem Document.skips_readText (mode : PositionMode) (text : String) :
    ∃ keywords, keywords <+ (Lexer.ofText text).lex.1.map Lexeme.toToken ∧
      Note.Skip mode (readText ⟨mode, true⟩ text).notes keywords := by
  have hnotes : (readText ⟨mode, true⟩ text).notes = _ := notes_read ⟨mode, true⟩ _
  rw [hnotes]
  exact Reading.skips_feedAll mode (start_of_mem_tokens_lex text) {}

/-- In a template that is read, with warnings of skipped tags, the reports of the reading
start one after the other, so all of them are kept. They are one warning for each log
entry of a skipped tag, at the keyword of the entry and in the order of the entries, and
beside these warnings only those of an `as` or a name that dangles. -/
theorem warnings_inOrder {mode : PositionMode} {text : String} {result : ParseResult}
    (h : ParseResult.ofText ⟨mode, true⟩ text = .ok result) :
    let run := Document.readText ⟨mode, true⟩ text
    result.diagnostics = (Lexer.ofText text).lex.2.diagnostics ++ run.diagnostics ∧
      run.diagnostics = run.reported ∧
      run.diagnostics.Pairwise Diagnostic.StartsBefore ∧
      (∀ d ∈ run.diagnostics, d.severity = .warning) ∧
      (∃ keywords, keywords <+ (Lexer.ofText text).lex.1.map Lexeme.toToken ∧
        (∀ t ∈ keywords, t.IsSkipped) ∧
        run.log.filter LogEntry.isSkipped = keywords.map Token.skipEntry ∧
        List.Forall₂ (Token.WarnedBy mode) keywords
          (run.diagnostics.filter (·.code = Code.unmodeledDirective.id))) ∧
      ∀ d ∈ run.diagnostics, d.code ≠ Code.unmodeledDirective.id →
        ∃ s, d = Code.danglingAlias.at (some s) := by
  intro run
  have hkept : run.diagnostics = run.reported := Document.diagnostics_readText ⟨mode, true⟩ text
  obtain ⟨keywords, hsub, hskip⟩ := Document.skips_readText mode text
  refine ⟨ParseResult.diagnostics_eq h, hkept, ?_, ?_, ⟨keywords, hsub, hskip.isSkipped,
    hskip.entries, ?_⟩, ?_⟩
  · rw [hkept]
    exact Document.pairwise_reported ⟨mode, true⟩ text
  · exact Document.warning_of_mem_diagnostics ⟨mode, true⟩ _
  · rw [hkept]
    exact hskip.warnings
  · intro d hd hc
    rw [hkept] at hd
    exact hskip.danglingAlias hd hc

theorem warnings_inOrder_repeated_as :
    let text := "\x7b% set a %\x7d\x7b% from 'f' import as b, c as as %\x7d\x7b% if a %\x7d"
    let codes : List Code :=
      [.unmodeledDirective, .danglingAlias, .danglingAlias, .unmodeledDirective]
    ∃ result, ParseResult.ofText {} text = .ok result ∧
      result.diagnostics.map Diagnostic.code = codes.map Code.id ∧
      (Document.readText {} text).diagnostics.Pairwise Diagnostic.StartsBefore := by
  intro text codes
  have hcodes : (ParseResult.ofText {} text).toOption.map
      (fun r => r.diagnostics.map Diagnostic.code) = some (codes.map Code.id) := by
    decide +kernel
  obtain ⟨result, h, hcodes⟩ := exists_ok_of_toOption (Option.map_eq_some_iff.mp hcodes)
  exact ⟨result, h, hcodes, (warnings_inOrder h).2.2.1⟩

-- ---------------------------------------------------------------------------
-- Without warnings of skipped tags
-- ---------------------------------------------------------------------------

/-- A text is read to the same end without the warnings, with the same notes but for them. -/
theorem Document.readText_quiet (mode : PositionMode) (text : String) :
    (readText ⟨mode, false⟩ text).outcome = (readText ⟨mode, true⟩ text).outcome ∧
      (readText ⟨mode, false⟩ text).notes =
        (readText ⟨mode, true⟩ text).notes.filter Note.isKept := by
  have hquiet := Reading.feedAll_quiet mode (start_of_mem_tokens_lex text) {}
  unfold readText
  rw [outcome_read, outcome_read, notes_read, notes_read, hquiet]
  exact ⟨rfl, rfl⟩

theorem Lexer.code_of_mem_diagnostics_lex {text : String} {d : Diagnostic}
    (h : d ∈ (ofText text).lex.2.diagnostics) : d.code ≠ Code.unmodeledDirective.id := by
  obtain ⟨l, -, code, s, hopen, rfl, -⟩ := span_of_mem_diagnostics_lex text h
  intro hc
  rw [Code.id_inj.mp hc] at hopen
  cases hopen

/-- Whether skipped tags are warned of only filters the diagnostics. The reading comes to
the same document or the same fault, with the same log, and its diagnostics are those of the
reading that warns without the warnings of skipped tags. -/
theorem ofText_reportUnmodeled (mode : PositionMode) (text : String) :
    let on := Document.readText ⟨mode, true⟩ text
    let off := Document.readText ⟨mode, false⟩ text
    off.outcome = on.outcome ∧ off.log = on.log ∧
      off.diagnostics = on.diagnostics.filter (·.code ≠ Code.unmodeledDirective.id) ∧
      ParseResult.ofText ⟨mode, false⟩ text =
        (ParseResult.ofText ⟨mode, true⟩ text).map fun result =>
          { result with
            diagnostics := result.diagnostics.filter (·.code ≠ Code.unmodeledDirective.id)
            options := ⟨mode, false⟩ } := by
  intro on off
  obtain ⟨houtcome, hnotes⟩ := Document.readText_quiet mode text
  have hlog : off.log = on.log := by
    unfold Run.log
    rw [hnotes, Note.entries_isKept]
  have hdiagnostics :
      off.diagnostics = on.diagnostics.filter (·.code ≠ Code.unmodeledDirective.id) := by
    rw [Document.diagnostics_readText, Document.diagnostics_readText]
    unfold Run.reported
    rw [hnotes, Note.diagnostics_isKept]
  have hlexer : (Lexer.ofText text).lex.2.diagnostics.filter (·.code ≠ Code.unmodeledDirective.id) =
      (Lexer.ofText text).lex.2.diagnostics :=
    List.filter_eq_self.mpr fun d hd => by
      simpa using Lexer.code_of_mem_diagnostics_lex hd
  refine ⟨houtcome, hlog, hdiagnostics, ?_⟩
  rw [ParseResult.ofText_eq, ParseResult.ofText_eq, houtcome, hdiagnostics]
  cases on.outcome with
  | error fault => rfl
  | ok document => simp only [Except.map, List.filter_append, hlexer]; rfl

end TemplateTree
