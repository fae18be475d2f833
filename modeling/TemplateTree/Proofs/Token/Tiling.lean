import TemplateTree.Proofs.Position.Front
import TemplateTree.Proofs.Token.Pieces

/-!
# Lexemes tile the text

The lexemes of a text are scanned from nonempty slices that make up the text,
one after the other, and each says where its slice starts. The value of a
lexeme is its slice, but for a string literal, whose value is what the literal
stands for.
-/

namespace TemplateTree

/-- What a lexeme says of the slice it was scanned from and of the text in
front of that slice. -/
structure Lexeme.StandsFor (l : Lexeme) (front slice : List Char) : Prop where
  line : l.line = front.count '\n'
  column : l.column = (lastLine front).length
  value : l.kind ≠ .string → l.value.toList = slice
  literal : l.kind = .string → LiteralSlice slice l.value.toList

/-- A slice has one lexeme of a kind. -/
theorem Lexeme.StandsFor.lexeme_unique {l m : Lexeme} {front slice : List Char}
    (hl : l.StandsFor front slice) (hm : m.StandsFor front slice) (hk : l.kind = m.kind) :
    l = m := by
  have hv : l.value.toList = m.value.toList := by
    by_cases hs : l.kind = .string
    · exact (hl.literal hs).value_unique (hm.literal (hk ▸ hs))
    · rw [hl.value hs, hm.value (hk ▸ hs)]
  obtain ⟨kind, value, line, column⟩ := l
  obtain ⟨kind', value', line', column'⟩ := m
  simp only [Lexeme.mk.injEq]
  exact ⟨hk, String.toList_inj.mp hv, hl.line.trans hm.line.symm, hl.column.trans hm.column.symm⟩

theorem Scanned.value_eq {inTag : Bool} {piece : Piece} (h : Scanned inTag piece)
    (hk : piece.kind ≠ .string) : piece.value = piece.slice := by
  cases h with
  | string => exact absurd rfl hk
  | openString => exact absurd rfl hk
  | _ => rfl

theorem Scanned.literalSlice {inTag : Bool} {piece : Piece} (h : Scanned inTag piece)
    (hk : piece.kind = .string) : LiteralSlice piece.slice piece.value := by
  obtain ⟨quote, spelling, value, hq, hs, ⟨rest, rfl⟩ | ⟨tail, rfl | rfl, rfl⟩⟩ := h.string_cases hk
  · exact .closed hq hs
  · rw [List.append_nil]
    exact .unclosed hq hs
  · exact .cutShort hq hs

theorem Scanned.standsFor {inTag : Bool} {p : Piece} (h : Scanned inTag p) (front : List Char) :
    (p.lexeme (Place.endOf front)).StandsFor front p.slice where
  line := rfl
  column := rfl
  value hk := by simp [Piece.lexeme, h.value_eq hk]
  literal hk := by simpa [Piece.lexeme] using h.literalSlice hk

/-- The lexemes tile a text that follows `front`. -/
def Tiles (front : List Char) : List Lexeme → List Char → Prop
  | [], cs => cs = []
  | l :: ls, cs => ∃ slice rest, slice ++ rest = cs ∧ slice ≠ [] ∧ l.StandsFor front slice ∧
      Tiles (front ++ slice) ls rest

theorem tiles_lexemes {ps : List Piece} (hp : ∀ p ∈ ps, ∃ t, Scanned t p) (front : List Char) :
    Tiles front (Piece.lexemes (Place.endOf front) ps) (slices ps) := by
  induction ps generalizing front with
  | nil => rfl
  | cons p ps ih =>
    obtain ⟨t, hs⟩ := hp p (by simp)
    refine ⟨p.slice, slices ps, rfl, hs.slice_ne_nil, hs.standsFor front, ?_⟩
    rw [Place.advance_eq, ← Place.endOf_append]
    exact ih (fun q hq => hp q (List.mem_cons_of_mem p hq)) (front ++ p.slice)

/-- Lexemes that tile a text have offsets between them. -/
theorem Tiles.exists_offset {front : List Char} {ls : List Lexeme} {cs : List Char}
    (h : Tiles front ls cs) :
    ∃ offset : Nat → Nat, offset 0 = front.length ∧ offset ls.length = (front ++ cs).length ∧
      ∀ i (hi : i < ls.length), offset i < offset (i + 1) ∧
        ls[i].StandsFor ((front ++ cs).take (offset i))
          ((front ++ cs).extract (offset i) (offset (i + 1))) := by
  induction ls generalizing front cs with
  | nil =>
    obtain rfl : cs = [] := h
    exact ⟨fun _ => front.length, rfl, by simp, fun i hi => absurd hi (Nat.not_lt_zero i)⟩
  | cons l ls ih =>
    obtain ⟨slice, rest, rfl, hn, hl, ht⟩ := h
    obtain ⟨offset, hz, he, ho⟩ := ih ht
    rw [List.append_assoc] at he ho
    refine ⟨fun | 0 => front.length | i + 1 => offset i, rfl, he, ?_⟩
    intro i hi
    cases i with
    | zero =>
      have hp := List.length_pos_iff.2 hn
      simp only [hz]
      exact ⟨by simpa using hp, by simpa [List.extract_eq_take_drop] using hl⟩
    | succ i => exact ho i (by simpa using hi)

/-- Reading a text comes to its end, and the lexemes tile the text: there are
offsets that start at 0, grow from one lexeme to the next and end at the length
of the text, such that each lexeme stands for the slice between its offset and
the next one. -/
theorem lex_tiles (text : String) :
    let lexemes := (Lexer.ofText text).lex.1
    (Lexer.ofText text).lex.2.atEnd ∧
      ∃ offset : Nat → Nat, offset 0 = 0 ∧ offset lexemes.length = text.length ∧
        ∀ i (hi : i < lexemes.length), offset i < offset (i + 1) ∧
          lexemes[i].StandsFor (text.toList.take (offset i))
            (text.toList.extract (offset i) (offset (i + 1))) := by
  intro lexemes
  refine ⟨by simp [Lexer.atEnd, Lexer.rest_lex_snd], ?_⟩
  have ht : Tiles [] (Piece.lexemes (Place.endOf []) (pieces false text.toList))
      (slices (pieces false text.toList)) :=
    tiles_lexemes (fun p hp => exists_scanned_of_mem_pieces hp) []
  have hl : lexemes = Piece.lexemes (Place.endOf []) (pieces false text.toList) :=
    Lexer.lex_ofText_fst text
  rw [slices_pieces, ← hl] at ht
  simpa [String.length_toList] using ht.exists_offset

end TemplateTree
