import TemplateTree.Proofs.Diagnostic.Kept
import TemplateTree.Proofs.Reading.Above
import TemplateTree.Proofs.Reading.Reports

/-!
# One list of tokens after another

Tokens are read once, front to back, and nothing is read beyond the directive that
needs it. So tokens that are read to their end leave those behind them to be read by
themselves, a directive closed too early leaves them unread, and only where the
tokens end inside a directive is there nothing left.
-/

namespace TemplateTree

variable {options : Options} {as : List Lexeme}

namespace Document

theorem rest_of_feedAll {r : Reading}
    (h : (({} : Reading).feedAll options (as.map Lexeme.toToken)).outcome = .ok r) :
    (read options { rest := as }).source.rest = [] := by
  have ha := Reading.run_append_of_ok h none []
  rw [List.append_nil] at ha
  rw [read, ha]
  rfl

/-- What is behind tokens that are read to their end is read by itself. -/
theorem read_append_of_ok {d : Document} (h : (read options { rest := as }).outcome = .ok d)
    (bs : List Lexeme) :
    let a := read options { rest := as }
    let b := read options { rest := bs }
    let ab := read options { rest := as ++ bs }
    a.source.rest = [] ∧ ab.notes = a.notes ++ b.notes ∧
      ab.outcome = b.outcome.map (fun e => { e with items := d.items ++ e.items }) ∧
      ∀ fault, b.outcome = .error fault → ab.source = b.source := by
  intro a b ab
  obtain ⟨r, hr, hc, rfl⟩ := Reading.exists_of_read h
  have hstart : ({} : Reading).above r.newestFirst = r := by
    obtain ⟨items, open?⟩ := r
    obtain rfl : open? = none := hc
    rfl
  -- the reading that starts has no directive open, whatever the last token before it
  obtain ⟨hn, ho, hs⟩ := @Reading.run_above options r.newestFirst {}
    ((as.map Lexeme.toToken).getLast?.or none) none nofun bs
  rw [hstart] at hn ho hs
  have hab : ab = _ := Reading.run_append_of_ok hr none bs
  have ha : a.notes = _ := notes_read options as
  exact ⟨rest_of_feedAll hr, by rw [hab, ha, hn]; rfl, by rw [hab]; exact ho,
    fun fault hf => by rw [hab]; exact hs fault hf⟩

/-- Tokens that are behind one that stops the reading are left. -/
theorem read_append_of_error {e : ParseError}
    (h : (read options { rest := as }).outcome = .error (.parse e))
    (he : e.diagnostic.code ≠ Code.unexpectedEnd.id) (bs : List Lexeme) :
    let a := read options { rest := as }
    let ab := read options { rest := as ++ bs }
    ab = { a with source := ⟨a.source.rest ++ bs, a.source.last?⟩ } := by
  intro a ab
  rw [outcome_read] at h
  cases hf : (({} : Reading).feedAll options (as.map Lexeme.toToken)).outcome with
  | error fault =>
    obtain ⟨rest, last?, hr⟩ := Reading.run_append_of_error hf none
    have ha := hr []
    rw [List.append_nil, List.append_nil] at ha
    rw [show a = _ from ha, show ab = _ from hr bs]
  | ok r =>
    rw [hf] at h
    cases Reading.ofEnd_of_finish h
    exact absurd rfl he

/-- The end of input is met with no token left. -/
theorem rest_of_unexpectedEnd {construct : String} {span? : Option Span}
    (h : (read options { rest := as }).outcome = .error (.parse (.unexpectedEnd construct span?))) :
    (read options { rest := as }).source.rest = [] := by
  obtain ⟨r, hr, -⟩ := exists_of_unexpectedEnd h
  exact rest_of_feedAll hr

end Document

/-- Reading over two lists of tokens. If the first is read to its end, the second is
read as it is by itself: both trees stand side by side, and so do the diagnostics, but
for the first of the second list where it repeats the last of the first. If a directive
that is closed too early stops the first, the second is left unread. If the first ends
inside a directive, none of its tokens is left. -/
theorem read_append (options : Options) (as bs : List Lexeme) :
    let a := Document.read options { rest := as }
    let b := Document.read options { rest := bs }
    let ab := Document.read options { rest := as ++ bs }
    (∀ d, a.outcome = .ok d → a.source.rest = [] ∧
        ab.outcome = b.outcome.map (fun e => { e with items := d.items ++ e.items }) ∧
        ab.diagnostics = Diagnostic.joined a.diagnostics b.diagnostics ∧ ab.log = a.log ++ b.log ∧
        ∀ fault, b.outcome = .error fault → ab.source = b.source) ∧
      (∀ e, e.diagnostic.code = Code.missingAlias.id ∨
          e.diagnostic.code = Code.missingTemplatePath.id → a.outcome = .error (.parse e) →
          ab.outcome = .error (.parse e) ∧ ab.diagnostics = a.diagnostics ∧ ab.log = a.log ∧
            ab.source = ⟨a.source.rest ++ bs, a.source.last?⟩) ∧
      ∀ construct span?, a.outcome = .error (.parse (.unexpectedEnd construct span?)) →
        a.source.rest = [] := by
  intro a b ab
  refine ⟨fun d hd => ?_, fun e hcode he => ?_, fun _ _ => Document.rest_of_unexpectedEnd⟩
  · obtain ⟨hrest, hnotes, ho, hs⟩ := Document.read_append_of_ok hd bs
    refine ⟨hrest, ho, ?_, ?_, hs⟩
    · rw [Run.diagnostics, Run.reported, hnotes, List.filterMap_append, Diagnostic.kept_append_eq]
      rfl
    · rw [Run.log, hnotes, List.filterMap_append]
      rfl
  · have hne : e.diagnostic.code ≠ Code.unexpectedEnd.id := by
      rcases hcode with h | h <;> rw [h] <;> decide
    have hab := Document.read_append_of_error he hne bs
    rw [show ab = _ from hab]
    exact ⟨he, rfl, rfl, rfl⟩

theorem read_append_repeated_tag :
    let as : List Lexeme := [⟨.blockStart, "\x7b%", 0, 0⟩, ⟨.symbol, "set", 0, 3⟩]
    let a := Document.read {} { rest := as }
    let aa := Document.read {} { rest := as ++ as }
    a.outcome = .ok { items := [] } ∧ a.diagnostics.length = 1 ∧
      aa.diagnostics = Diagnostic.joined a.diagnostics a.diagnostics ∧
      aa.diagnostics = a.diagnostics := by
  intro as a aa
  have ha : a.outcome = .ok { items := [] } := by rfl
  obtain ⟨-, -, hd, -⟩ := (read_append {} as as).1 _ ha
  exact ⟨ha, by rfl, hd, hd.trans (by rfl)⟩

end TemplateTree
