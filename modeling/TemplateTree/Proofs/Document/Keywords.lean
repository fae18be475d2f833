import TemplateTree.Proofs.Document.ReadText
import TemplateTree.Proofs.Reading.Keywords

/-!
# Keywords as names

None of the keywords of an import is a name anywhere in the tree of some tokens, but for
one. A direct import takes `import` for the name of the template where that is the next
word after an `as`; a from-import passes over the word there as well.
-/

namespace TemplateTree

/-- Whatever the tokens that are read, no keyword is an imported name or an alias, and only
`import` where it follows `as` is the name of a template. -/
theorem keywordFree_of_ofLexemes {options : Options} {ls : List Lexeme} {d : Document}
    (h : Document.ofLexemes options ls = .ok d) :
    ∀ node ∈ (Node.document d).walk, node.KeywordFree (ls.map Lexeme.toToken) := by
  obtain ⟨r, hr, -, rfl⟩ := Reading.exists_of_read h
  have hfree := (Reading.keywordFree_feedAll Reading.keywordFree_start _).result r hr
  refine Node.forall_mem_walk_iff.mpr ⟨trivial, ?_⟩
  simp only [Node.children, List.forall_mem_map]
  exact fun item hm => hfree.items item (List.mem_reverse.mp hm)

theorem keywordFree_with_as :
    let ls : List Lexeme := [⟨.blockStart, "\x7b%", 0, 0⟩, ⟨.symbol, "from", 0, 3⟩,
      ⟨.string, "f", 0, 8⟩, ⟨.symbol, "import", 0, 12⟩, ⟨.symbol, "a", 0, 19⟩,
      ⟨.symbol, "as", 0, 21⟩, ⟨.symbol, "with", 0, 24⟩, ⟨.symbol, "b", 0, 29⟩,
      ⟨.blockEnd, "%\x7d", 0, 31⟩]
    ∃ d, Document.ofLexemes {} ls = .ok d ∧ d.items.length = 1 ∧
      ∀ node ∈ (Node.document d).walk, node.KeywordFree (ls.map Lexeme.toToken) := by
  intro ls
  have hread : ∃ d, Document.ofLexemes {} ls = .ok d ∧ d.items.length = 1 := ⟨_, rfl, rfl⟩
  obtain ⟨d, h, hcount⟩ := hread
  exact ⟨d, h, hcount, keywordFree_of_ofLexemes h⟩

/-- The name of a template is a keyword. -/
theorem not_keywordFree_import :
    let ls := (Lexer.ofText "\x7b% import \"a\" as import %\x7d").lex.1
    ∃ d, Document.ofLexemes {} ls = .ok d ∧
      ¬∀ node ∈ (Node.document d).walk, ∀ name, node = .importTarget name →
        name.value ∉ ["with", "context", "import", "as"] := by
  intro ls
  let stands : Span :=
    ⟨⟨1, 18, by decide, by decide⟩, ⟨1, 24, by decide, by decide⟩, by decide⟩
  have hok : ∃ d ∈ (Document.ofLexemes {} ls).toOption,
      .importTarget ⟨"import", some stands⟩ ∈ (Node.document d).walk := by decide +kernel
  obtain ⟨d, h, hm⟩ := exists_ok_of_toOption hok
  exact ⟨d, h, fun hn => hn _ hm _ rfl (by decide)⟩

end TemplateTree
