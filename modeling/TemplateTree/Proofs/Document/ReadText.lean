import TemplateTree.Document.Template
import TemplateTree.Proofs.Reading.Reports

/-!
# Reading a text

Reading a text is feeding a reading with the tokens of the text's pieces. No two of
them start at the same place, so all that is reported of them is kept.
-/

namespace TemplateTree

theorem ParseResult.ofText_eq (options : Options) (text : String) :
    ofText options text = (Document.readText options text).outcome.map fun document =>
      { text, document, options
        diagnostics := (Lexer.ofText text).lex.2.diagnostics ++
          (Document.readText options text).diagnostics } := by
  unfold ofText
  cases h : (Document.readText options text).outcome <;> simp only [h] <;> rfl

theorem Document.ofText_eq (options : Options) (text : String) :
    ofText options text = (readText options text).outcome := by
  rw [ofText, ParseResult.ofText_eq]
  cases (readText options text).outcome <;> rfl

theorem Document.readText_eq (options : Options) (text : String) :
    let fed := ({} : Reading).feedAll options (tokensAfter [] (pieces false text.toList))
    (readText options text).notes = fed.notes ∧
      (readText options text).outcome = fed.outcome.bind fun r =>
        r.finish options (tokensAfter [] (pieces false text.toList)).getLast? := by
  have h := @Reading.run_eq options {} { rest := (Lexer.ofText text).lex.1 }
  simp only [TokenSource.drain, tokens_lex, Option.or_none] at h
  exact h

theorem Document.pairwise_reported (options : Options) (text : String) :
    (readText options text).reported.Pairwise Diagnostic.StartsBefore :=
  (stand_of_read options _).pairwise_startsBefore (strictlyBefore_tokens_lex text)

theorem Document.diagnostics_readText (options : Options) (text : String) :
    (readText options text).diagnostics = (readText options text).reported :=
  Diagnostic.kept_eq_self ((pairwise_reported options text).imp fun h => h.not_repeats)

theorem ParseResult.outcome_readText {options : Options} {text : String} {result : ParseResult}
    (h : ParseResult.ofText options text = .ok result) :
    (Document.readText options text).outcome = .ok result.document := by
  rw [← Document.ofText_eq, Document.ofText, h]
  rfl

/-- An outcome that is evaluated is no fault. -/
theorem exists_ok_of_toOption {ε α : Type} {x : Except ε α} {P : α → Prop}
    (h : ∃ a ∈ x.toOption, P a) : ∃ a, x = .ok a ∧ P a := by
  obtain ⟨a, ha, hp⟩ := h
  cases x with
  | ok b =>
    cases ha
    exact ⟨a, rfl, hp⟩
  | error e => cases ha

/-- A template that is read, by the number of its items. -/
theorem ParseResult.exists_of_count {options : Options} {text : String} {count : Nat}
    (h : (ofText options text).toOption.map (fun r => r.document.items.length) = some count) :
    ∃ result, ofText options text = .ok result ∧ result.document.items.length = count :=
  exists_ok_of_toOption (Option.map_eq_some_iff.mp h)

end TemplateTree
