import TemplateTree.Proofs.Document.ReadText
import TemplateTree.Proofs.Reading.Stretches

/-!
# Nothing lost, nothing invented

The items of a template are those of its stretches: one for each comment, one for each
block with the keyword of a directive that has a node, in order, and no others. What
stands in strings, in variables and in blocks of other kinds is no item, whatever it
looks like.
-/

namespace TemplateTree

/-- Wherever a template is read in which no block is closed with the delimiter of a
variable, its items are those of its comments and of its blocks with a node. -/
theorem items_readFrom_ofText {options : Options} {text : String} {result : ParseResult}
    (h : ParseResult.ofText options text = .ok result)
    (hm : ∀ s ∈ Stretch.ofText text, ¬s.Mismatched) :
    (Stretch.ofText text).flatMap Stretch.tokens =
        (Lexer.ofText text).lex.1.map Lexeme.toToken ∧
      (∀ s ∈ Stretch.ofText text, s.WellFormed) ∧
      List.Forall₂ (Item.ReadFrom options.positionMode) result.document.items
        ((Stretch.ofText text).filter Stretch.hasItem) := by
  refine ⟨Stretch.tokens_ofText text, Stretch.wellFormed_ofText text, ?_⟩
  obtain ⟨r, hr, hend, hd⟩ := Reading.exists_of_read (ParseResult.outcome_readText h)
  have hstep : OpenDirective.InStep ({} : Reading).open? none := .between
  obtain ⟨items, hitems, hread⟩ :=
    (Reading.readFrom_feedAll hstep (tagged_lex text) hm).result r hr hend
  rw [hd, Reading.document, hitems, List.append_nil, List.reverse_reverse]
  exact hread

theorem items_readFrom_ofText_mixed :
    let text :=
      "\x7b##\x7d\x7b%from 'f' import b%\x7d\x7b\x7bx%\x7d\x7b%if include%\x7d\x7b%include 'g'%\x7d"
    (∀ s ∈ Stretch.ofText text, ¬s.Mismatched) ∧
      ∃ result, ParseResult.ofText {} text = .ok result ∧ result.document.items.length = 3 ∧
        List.Forall₂ (Item.ReadFrom .naive) result.document.items
          ((Stretch.ofText text).filter Stretch.hasItem) := by
  intro text
  have hm : ∀ s ∈ Stretch.ofText text, ¬s.Mismatched := by decide +kernel
  have hcount : (ParseResult.ofText {} text).toOption.map
      (fun r => r.document.items.length) = some 3 := by decide +kernel
  obtain ⟨result, h, hcount⟩ := ParseResult.exists_of_count hcount
  exact ⟨hm, result, h, hcount, (items_readFrom_ofText h hm).2.2⟩

-- a directive goes on after the delimiter of a variable, so here two blocks make one item
example :
    let text := "\x7b% include 'a' \x7d\x7d\x7b% include 'b' %\x7d"
    (Document.ofText {} text).toOption.map (fun d => d.items.length) = some 1 := by
  decide +kernel

end TemplateTree
