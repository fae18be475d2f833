import TemplateTree.Proofs.Document.ReadText
import TemplateTree.Proofs.Print.Items

/-!
# The round trip of print

A printed template is read back as what its parts say. Nothing that a path, a
comment or running text holds leaks out of it, and nothing is reported or
logged, whatever the options are.
-/

namespace TemplateTree

theorem says_tokensAfter (front : List Char) (ps : List Piece) :
    List.Forall₂ Token.Says ((tokensAfter front ps).filter fun t => t.kind.counts)
      ((ps.filter fun p => p.kind.counts).map Piece.saying) := by
  induction ps generalizing front with
  | nil => exact .nil
  | cons p ps ih =>
    have hk : (p.tokenAfter front).kind = p.kind := rfl
    rw [tokensAfter_cons, List.filter_cons, List.filter_cons, hk]
    split
    · exact .cons ⟨rfl, rfl, _, p.start_tokenAfter front⟩ (ih _)
    · exact ih _

theorem pieces_printed (parts : List Part) :
    let ps := pieces false (printed parts).toList
    (∀ p ∈ ps, p.problem? = none) ∧
      (ps.filter fun p => p.kind.counts).map Piece.saying = parts.flatMap Part.sayings := by
  obtain ⟨ps, hp, hn, hs⟩ := scans_parts .empty parts
  obtain rfl : pieces false (printed parts).toList = ps := by
    simpa [printed, RunningText.empty] using hp
  exact ⟨hn, hs⟩

/-- Reading a printed template makes the document of its parts, without a note. -/
theorem readText_printed (options : Options) (parts : List Part) :
    (Document.readText options (printed parts)).notes = [] ∧
      ∃ d, (Document.readText options (printed parts)).outcome = .ok d ∧
        d.mapSpan dropSpan = { items := parts.filterMap Part.item? } := by
  obtain ⟨hn, ho⟩ := Document.readText_eq options (printed parts)
  rw [hn, ho]
  have hsays := says_tokensAfter [] (pieces false (printed parts).toList)
  rw [(pieces_printed parts).2] at hsays
  have hordered := (pairwise_tokensAfter [] (pieces false (printed parts).toList)).sublist
    (List.filter_sublist (p := fun t => t.kind.counts))
  obtain ⟨taken, htaken, hf⟩ := takes_parts options hsays hordered []
  rw [Reading.feedAll_filter] at hf
  rw [show ({} : Reading) = ⟨[], none⟩ from rfl, hf]
  refine ⟨rfl, ⟨taken, none⟩, ?_, ?_⟩
  · simp [Pure.pure, NoteM.pure, Except.bind, Reading.finish, Reading.machine, Reading.document]
  · simp [Document.mapSpan, dropSpan, htaken]

/-- Whatever the parts hold, the printed template is parsed: the document is
what the parts say, apart from the spans, and there are no diagnostics. -/
theorem ofText_printed (options : Options) (parts : List Part) :
    ∃ result, ParseResult.ofText options (printed parts) = .ok result ∧
      result.document.mapSpan dropSpan = { items := parts.filterMap Part.item? } ∧
      result.diagnostics = [] := by
  obtain ⟨hn, d, ho, hd⟩ := readText_printed options parts
  have hl : (Lexer.ofText (printed parts)).lex.2.diagnostics = [] := by
    rw [Lexer.diagnostics_lex_snd]
    exact Piece.problems_eq_nil (pieces_printed parts).1 _
  refine ⟨_, by rw [ParseResult.ofText, ho]; rfl, hd, ?_⟩
  simp only [hl, Run.diagnostics, Run.reported, hn]
  rfl

end TemplateTree
