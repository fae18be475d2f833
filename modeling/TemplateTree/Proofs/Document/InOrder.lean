import TemplateTree.Proofs.Document.ReadText
import TemplateTree.Proofs.Reading.Among

/-!
# Items in order

The items of a template come in the order of the text and do not overlap: each has a
span, and it ends no later than the next one starts. A directive may take up tags that
were meant for something else, and the naive span of a comment is but a guess; still
neither reaches into the token that comes after the last one that was read for it.
-/

namespace TemplateTree

open scoped List

/-- Wherever a template is read, in either position mode, all its items have spans, and
of any two items the first one precedes the second. -/
theorem items_inOrder {options : Options} {text : String} {result : ParseResult}
    (h : ParseResult.ofText options text = .ok result) :
    (∀ item ∈ result.document.items, ∃ s, item.toNode.span? = some s) ∧
      result.document.items.Pairwise fun item next =>
        Span.InOrder item.toNode.span? next.toNode.span? := by
  obtain ⟨ts, hts, hitems⟩ := Document.drawn_of_read (ParseResult.outcome_readText h)
  have htokens : ts <+ tokensAfter [] (pieces false text.toList) := tokens_lex text ▸ hts
  constructor
  · intro item hm
    obtain ⟨us, hus, hitem⟩ := hitems.exists_of_mem (List.mem_reverse.mpr hm)
    obtain ⟨s, hspan, -⟩ := hitem.among (hus.trans htokens)
    exact ⟨s, hspan⟩
  · rw [← List.pairwise_reverse]
    refine hitems.pairwise fun next item us vs hsub hitem hnext => ?_
    have hsub := hsub.trans htokens
    obtain ⟨s, hs, ha⟩ := hitem.among ((List.sublist_append_left us vs).trans hsub)
    obtain ⟨r, hr, hb⟩ := hnext.among ((List.sublist_append_right us vs).trans hsub)
    exact ⟨s, r, hs, hr, ha.staysIn.precedes hb.startsIn hsub⟩

theorem items_inOrder_two_lines :
    let text := "\x7b# a\nb #\x7d\x7b#\x7d\x7b% x #\x7d\x7b% include 'f' %\x7d"
    ∃ result, ParseResult.ofText {} text = .ok result ∧ result.document.items.length = 3 ∧
      result.document.items.Pairwise fun item next =>
        Span.InOrder item.toNode.span? next.toNode.span? := by
  intro text
  have hcount : (ParseResult.ofText {} text).toOption.map
      (fun r => r.document.items.length) = some 3 := by decide +kernel
  obtain ⟨result, h, hcount⟩ := ParseResult.exists_of_count hcount
  exact ⟨result, h, hcount, (items_inOrder h).2⟩

end TemplateTree
