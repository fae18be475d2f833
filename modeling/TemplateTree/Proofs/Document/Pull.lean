import TemplateTree.Document.Pull
import TemplateTree.Proofs.Document.Errors
import TemplateTree.Proofs.Token.Reader

/-!
# Texts that are lexed on the way

To pull tokens out of a lexer is to read the list of them, since a machine is given its
tokens one by one and the lexer does not depend on what becomes of them. What is left in
the lexer is what would be left of the list, so a text that is read is lexed to its end.
-/

namespace TemplateTree

open scoped List

namespace Reader

variable {r r' : Reader} {lexeme : Lexeme}

theorem lex_of_stream (h : r.stream = (some lexeme, r')) :
    r.lexer.lex = (lexeme :: r'.lexer.lex.1, r'.lexer.lex.2) :=
  Lexer.lex_of_next?_some (next?_of_stream h)

theorem lex_of_stream_none (h : r.stream = (none, r')) :
    r.lexer.lex = ([], r.lexer) ∧ r'.lexer = r.lexer := by
  cases hn : r.lexer.next? with
  | none =>
    have hl := (stream_of_none hn).2
    rw [h] at hl
    exact ⟨Lexer.lex_of_next?_none hn, hl⟩
  | some taken =>
    have hs := (stream_of_some hn).1
    rw [h] at hs
    cases hs

end Reader

/-- The reading of a lexer came to the same as that of a list of lexemes, and the lexer is
left with the lexemes that are left of the list. -/
structure Pull.Matches {α : Type} (p : Pull α) (run : Run α) (start : Lexer) : Prop where
  outcome : p.outcome = run.outcome
  notes : p.notes = run.notes
  last? : p.last? = run.source.last?
  lex : p.reader.lexer.lex = (run.source.rest, start.lex.2)

theorem Machine.pull_matches {σ α : Type} (m : Machine σ α) (state : σ) (last? : Option Token)
    (r : Reader) :
    (m.pull state last? r).Matches (m.run state ⟨r.lexer.lex.1, last?⟩) r.lexer := by
  fun_induction m.pull state last? r with
  | case1 state last? r r' h =>
    obtain ⟨hlex, hr⟩ := Reader.lex_of_stream_none h
    rw [hlex, run_nil]
    exact ⟨rfl, rfl, rfl, by rw [hr, hlex]⟩
  | case2 state last? r lexeme r' h token fed state' ho rest ih =>
    rw [Reader.lex_of_stream h, run_cons]
    simp only [show (m.feed state lexeme.toToken).outcome = _ from ho]
    exact ⟨ih.outcome, congrArg (fed.notes ++ ·) ih.notes, ih.last?, by
      rw [Reader.lex_of_stream h]; exact ih.lex⟩
  | case3 state last? r lexeme r' h token fed result ho =>
    rw [Reader.lex_of_stream h, run_cons]
    simp only [show (m.feed state lexeme.toToken).outcome = _ from ho]
    exact ⟨rfl, rfl, rfl, by rw [Reader.lex_of_stream h]⟩
  | case4 state last? r lexeme r' h token fed fault ho =>
    rw [Reader.lex_of_stream h, run_cons]
    simp only [show (m.feed state lexeme.toToken).outcome = _ from ho]
    exact ⟨rfl, rfl, rfl, by rw [Reader.lex_of_stream h]⟩

namespace Document

variable (options : Options) (text : String)

theorem pullText_matches :
    (pullText options text).Matches (readText options text) (Lexer.ofText text) :=
  (Reading.machine options).pull_matches {} none (Reader.ofText text)

/-- A text that is read is lexed to its end. -/
theorem lexer_pullText {d : Document} (h : (readText options text).outcome = .ok d) :
    (pullText options text).reader.lexer = (Lexer.ofText text).lex.2 := by
  have hlex := (pullText_matches options text).lex
  rw [rest_readText h] at hlex
  have hend : (pullText options text).reader.lexer.atEnd := Lexer.atEnd_of_lex_fst (by rw [hlex])
  rw [Lexer.lex_of_atEnd hend] at hlex
  exact congrArg Prod.snd hlex

end Document

theorem ParseResult.pullText_eq (options : Options) (text : String) :
    pullText options text = ofText options text := by
  have hm := Document.pullText_matches options text
  unfold pullText ofText Pull.diagnostics
  simp only [hm.outcome, hm.notes]
  cases h : (Document.readText options text).outcome with
  | error fault => rfl
  | ok document => rw [Document.lexer_pullText options text h]; rfl

/-- The readers of a lexer, called in any turn, deliver the lexemes of its text in their
order: those so far are all of them exactly when the lexer is at the end of its text. Then
every call finds nothing and changes nothing, and what is reported is what a lexer reports
that is read at once; before, nothing is. So reading a text that is lexed on the way is
reading the list of its lexemes. -/
theorem readers_readOnce (text : String) :
    let fresh := (Lexer.ofText text).lex
    (∀ calls,
      let answered := (Reader.ofText text).callAll calls
      let delivered := answered.1.flatMap Reader.Answer.lexemes
      let reader := answered.2
      delivered <+: fresh.1 ∧ (reader.lexer.atEnd ↔ delivered = fresh.1) ∧
        (reader.lexer.atEnd → ∀ c, (reader.call c).1 = c.exhausted ∧
          (reader.call c).2.lexer = reader.lexer) ∧
        reader.lexer.diagnostics = if delivered = fresh.1 then fresh.2.diagnostics else []) ∧
      ∀ options,
        (Document.pullText options text).outcome = Document.ofLexemes options fresh.1 ∧
          ParseResult.pullText options text = ParseResult.ofText options text := by
  intro fresh
  refine ⟨fun calls => ?_, fun options => ⟨?_, ParseResult.pullText_eq options text⟩⟩
  · intro answered delivered reader
    have hstart : (Lexer.ofText text).Delivered [] (Reader.ofText text).lexer := .init rfl
    have hd : (Lexer.ofText text).Delivered delivered reader.lexer :=
      Reader.delivered_callAll hstart calls
    exact ⟨⟨_, hd.lexemes⟩, hd.atEnd_iff, Reader.call_of_atEnd, hd.diagnostics_eq⟩
  · exact (Document.pullText_matches options text).outcome

theorem readers_readOnce_mixed_calls :
    let text := "\x7b# a #\x7d\x7b% b 'c"
    let answered := (Reader.ofText text).callAll [.stream, .token, .lex]
    answered.2.lexer.atEnd ∧ answered.2.lexer.diagnostics.length = 1 ∧
      answered.1.flatMap Reader.Answer.lexemes = (Lexer.ofText text).lex.1 ∧
      ∀ c, (answered.2.call c).1 = c.exhausted ∧
        (answered.2.call c).2.lexer = answered.2.lexer := by
  intro text answered
  have hend : answered.2.lexer.atEnd := by decide +kernel
  obtain ⟨-, hall, hcall, -⟩ := (readers_readOnce text).1 [.stream, .token, .lex]
  exact ⟨hend, by decide +kernel, hall.mp hend, hcall hend⟩

end TemplateTree
