import TemplateTree.Proofs.Token.Stretch
import TemplateTree.Proofs.Token.Taken

/-!
# String literals of a lexer

Escapes are undone while a lexer looks for the quote that closes a literal, so the end of a
literal and its value are found together. Whatever way the characters of a text are written
between quotes, a lexer reads the text back and goes on right behind the closing quote, and
there is no other way to a string (`literal_writtenOut`).
-/

namespace TemplateTree

namespace Lexer

/-- A literal is read back from any of its spellings. -/
theorem next?_literal {l : Lexer} {quote : Char} {spelling value rest : List Char}
    (ht : l.inTag = true) (hq : quote = '"' ∨ quote = '\'') (h : Spells quote spelling value)
    (hr : l.rest = quote :: spelling ++ quote :: rest) :
    l.next? = some (⟨.string, String.ofList value, l.place.line, l.place.column⟩,
      { l with rest, place := l.place.advance (quote :: spelling ++ [quote]) }) := by
  have hscan : scan l.inTag quote (spelling ++ quote :: rest) =
      ⟨.string, quote :: spelling ++ [quote], value, rest, true, none⟩ := by
    rw [ht]
    exact (Scanned.string rest hq h).scan_eq (by simp)
  rw [List.cons_append] at hr
  rw [next?_cons hr, hscan]
  obtain ⟨source, cs, place, inTag, diagnostics⟩ := l
  obtain rfl : inTag = true := ht
  simp [Piece.lexeme, problemAt]

end Lexer

/-- A lexer inside a tag reads a text back from a string literal, whatever way the characters
of the text are written there, and goes on behind the literal, still inside the tag and with
nothing to report. The other way round, a string that a lexer reads is written out between
two quotes, or the text ends before the second one, which is reported. -/
theorem literal_writtenOut (l : Lexer) :
    (∀ (quote : Char) (value : String) (spelling rest : List Char), l.inTag →
      quote = '"' ∨ quote = '\'' → WritesOut quote value.toList spelling →
        l.rest = quote :: spelling ++ quote :: rest →
          l.next? = some (⟨.string, value, l.place.line, l.place.column⟩,
            { l with rest, place := l.place.advance (quote :: spelling ++ [quote]) })) ∧
      ∀ lexeme l', l.next? = some (lexeme, l') → lexeme.kind = .string →
        l.inTag ∧ l'.inTag ∧ ∃ quote spelling, (quote = '"' ∨ quote = '\'') ∧
          WritesOut quote lexeme.value.toList spelling ∧
          (l.rest = quote :: spelling ++ quote :: l'.rest ∧ l'.diagnostics = l.diagnostics ∨
            ∃ tail, (tail = [] ∨ tail = ['\\']) ∧ l.rest = quote :: spelling ++ tail ∧
              l'.rest = [] ∧ l'.diagnostics = l.diagnostics ++
                [Code.unterminatedString.at (some (l.place.spanOver l.rest))]) := by
  constructor
  · intro quote value spelling rest ht hq hw hr
    have hnext := Lexer.next?_literal ht hq (spells_iff.mpr hw) hr
    rwa [String.ofList_toList] at hnext
  · intro lexeme l' h hk
    obtain ⟨piece, hs, hrest, -, rfl, rfl⟩ := Lexer.exists_piece_of_next? h
    replace hk : piece.kind = .string := hk
    refine ⟨hs.leads.inTag_of_isInner (by rw [hk]; rfl), ?_⟩
    obtain ⟨quote, spelling, value, hq, hspells, ⟨rest, rfl⟩ | ⟨tail, ht, rfl⟩⟩ :=
      hs.string_cases hk
    all_goals
      have hw : WritesOut quote (String.ofList value).toList spelling := by
        rw [String.toList_ofList]
        exact spells_iff.mp hspells
    · exact ⟨rfl, quote, spelling, hq, hw, .inl ⟨by simpa using hrest, by simp [Lexer.problemAt]⟩⟩
    · rw [List.append_nil] at hrest
      refine ⟨rfl, quote, spelling, hq, hw, .inr ⟨tail, ht, hrest, rfl, ?_⟩⟩
      rw [hrest]
      rfl

theorem literal_writtenOut_escapes :
    let l : Lexer := { Lexer.ofText "'\\a\\'\\n'," with inTag := true }
    let l' : Lexer := { l with rest := [','], place := ⟨0, 8⟩ }
    l.next? = some (⟨.string, "a'\n", 0, 0⟩, l') ∧
      ∃ quote spelling, WritesOut quote ['a', '\'', '\n'] spelling ∧
        l.rest = quote :: spelling ++ quote :: l'.rest := by
  intro l l'
  have hw : WritesOut '\'' ['a', '\'', '\n'] ['\\', 'a', '\\', '\'', '\\', 'n'] :=
    ⟨[['\\', 'a'], ['\\', '\''], ['\\', 'n']],
      .cons (.escaped (by decide)) (.cons (.escaped (by decide)) (.cons .lineFeed .nil)), rfl⟩
  have hnext : l.next? = some (⟨.string, "a'\n", 0, 0⟩, l') :=
    (literal_writtenOut l).1 '\'' "a'\n" _ [','] rfl (.inr rfl) hw rfl
  obtain ⟨-, -, quote, spelling, -, hwritten, ⟨hr, -⟩ | ⟨_, -, -, hr, -⟩⟩ :=
    (literal_writtenOut l).2 _ l' hnext rfl
  · exact ⟨hnext, quote, spelling, hwritten, hr⟩
  · cases hr

end TemplateTree
