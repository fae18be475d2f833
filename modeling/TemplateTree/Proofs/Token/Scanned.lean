import TemplateTree.Proofs.Text.Spelling
import TemplateTree.Token.Piece

/-!
# What a scan can take

The pieces that a scan takes off a text, one rule for each kind of piece, with
what is known of its slice and of the text that is left. `scanned_scan` says
that there are no others; it is the one place where the scan is opened up, and
what holds of every piece is read off the rules.
-/

namespace TemplateTree

/-- `Scanned inTag piece`: a scan that starts inside a tag or not can take the piece. -/
inductive Scanned : Bool → Piece → Prop
  /-- With the next character it would be no opening delimiter. -/
  | opener {delimiter : List Char} {kind : TokenKind} (rest : List Char)
      (h : (delimiter, kind) ∈ openers)
      (hr : ∀ c ∈ rest.head?, ∀ entry ∈ openers, entry.1 ≠ delimiter ++ [c]) :
      Scanned false ⟨kind, delimiter, delimiter, rest, true, none⟩
  /-- The delimiter that closes a comment is the first one after its opening. -/
  | comment {body : List Char} (rest : List Char) (h : ¬['#', '}'] <:+: body ++ ['#']) :
      Scanned false ⟨.comment, '{' :: '#' :: body ++ ['#', '}'], '{' :: '#' :: body ++ ['#', '}'],
        rest, false, none⟩
  | openComment {body : List Char} (h : ¬['#', '}'] <:+: body) :
      Scanned false ⟨.comment, '{' :: '#' :: body, '{' :: '#' :: body, [], false,
        some .unterminatedComment⟩
  /-- Running text goes on up to the next tag or comment. -/
  | data {slice rest : List Char} (hs : slice ≠ [])
      (h : ∀ front back, front ++ back = slice → back ≠ [] → startsMarkup (back ++ rest) = false)
      (hr : rest ≠ [] → startsMarkup rest = true) :
      Scanned false ⟨.data, slice, slice, rest, false, none⟩
  | string {quote : Char} {spelling value : List Char} (rest : List Char)
      (hq : quote = '"' ∨ quote = '\'') (h : Spells quote spelling value) :
      Scanned true ⟨.string, quote :: spelling ++ [quote], value, rest, true, none⟩
  /-- A string left open ends with the text. -/
  | openString {quote : Char} {spelling value tail : List Char}
      (hq : quote = '"' ∨ quote = '\'') (h : Spells quote spelling value)
      (ht : tail = [] ∨ tail = ['\\']) :
      Scanned true ⟨.string, quote :: spelling ++ tail, value, [], true, some .unterminatedString⟩
  | whitespace {slice rest : List Char} (hs : slice ≠ []) (h : ∀ c ∈ slice, isTagSpace c)
      (hr : ∀ c ∈ rest.head?, isTagSpace c = false) :
      Scanned true ⟨.whitespace, slice, slice, rest, true, none⟩
  | closer {delimiter : List Char} {kind : TokenKind} (rest : List Char)
      (h : (delimiter, kind) ∈ closers) :
      Scanned true ⟨kind, delimiter, delimiter, rest, false, none⟩
  /-- A regular expression goes on after its slash as long as there are flags. -/
  | regex {body value flags rest : List Char} (h : Spells '/' body value)
      (hf : ∀ c ∈ flags, isRegexFlag c) (hr : ∀ c ∈ rest.head?, isRegexFlag c = false) :
      Scanned true ⟨.regex, 'r' :: '/' :: body ++ '/' :: flags, 'r' :: '/' :: body ++ '/' :: flags,
        rest, true, none⟩
  | openRegex {body value tail : List Char} (h : Spells '/' body value)
      (ht : tail = [] ∨ tail = ['\\']) :
      Scanned true ⟨.regex, 'r' :: '/' :: body ++ tail, 'r' :: '/' :: body ++ tail, [], true, none⟩
  /-- With the next character an operator would be none. -/
  | operator {delimiter : List Char} (rest : List Char) (h : delimiter ∈ longOperators)
      (hr : ∀ c ∈ rest.head?, delimiter ++ [c] ∉ longOperators) :
      Scanned true ⟨.operator, delimiter, delimiter, rest, true, none⟩
  /-- A mark is neither the start of an operator nor that of a closing delimiter. -/
  | mark {c : Char} (rest : List Char) (h : isDelimiter c)
      (hr : ∀ d ∈ rest.head?, [c, d] ∉ longOperators)
      (hc : ∀ entry ∈ closers, ¬entry.1 <+: c :: rest) :
      Scanned true ⟨delimiterKind c, [c], [c], rest, true, none⟩
  /-- A word is neither the start of a regular expression nor that of a number with a point. -/
  | word {c : Char} {run rest : List Char} (hq : c ≠ '"' ∧ c ≠ '\'')
      (h : ∀ d ∈ c :: run, isWordChar d) (hr : ∀ d ∈ rest.head?, isWordChar d = false)
      (hx : c = 'r' → (run ++ rest).head? ≠ some '/')
      (hn : wordKind (c :: run) = .int → rest.head? ≠ some '.') :
      Scanned true ⟨wordKind (c :: run), c :: run, c :: run, rest, true, none⟩
  | float {word digits rest : List Char} (hw : word ≠ [] ∧ ∀ c ∈ word, c.isDigit)
      (hd : ∀ c ∈ digits, c.isDigit) (hr : ∀ d ∈ rest.head?, d.isDigit = false) :
      Scanned true ⟨.float, word ++ '.' :: digits, word ++ '.' :: digits, rest, true, none⟩

-- ---------------------------------------------------------------------------
-- The kinds that a rule leaves open
-- ---------------------------------------------------------------------------

theorem kind_of_mem_openers {delimiter : List Char} {kind : TokenKind}
    (h : (delimiter, kind) ∈ openers) : kind = .blockStart ∨ kind = .variableStart :=
  (by decide : ∀ entry ∈ openers, entry.2 = .blockStart ∨ entry.2 = .variableStart) _ h

theorem kind_of_mem_closers {delimiter : List Char} {kind : TokenKind}
    (h : (delimiter, kind) ∈ closers) : kind = .blockEnd ∨ kind = .variableEnd :=
  (by decide : ∀ entry ∈ closers, entry.2 = .blockEnd ∨ entry.2 = .variableEnd) _ h

/-- The kinds of the tokens that a mark of its own can be. -/
def markKinds : List TokenKind := [
  .leftParen, .rightParen, .leftBracket, .rightBracket, .leftCurly, .rightCurly,
  .comma, .colon, .tilde, .pipe, .operator]

theorem delimiterKind_ne {kind : TokenKind} (h : kind ∉ markKinds) (c : Char) :
    delimiterKind c ≠ kind := by
  rintro rfl
  apply h
  unfold delimiterKind
  split <;> decide

def wordKinds : List TokenKind := [.int, .boolean, .none, .symbol]

theorem wordKind_ne {kind : TokenKind} (h : kind ∉ wordKinds) (word : List Char) :
    wordKind word ≠ kind := by
  rintro rfl
  apply h
  unfold wordKind
  repeat' split
  all_goals decide

section

variable {inTag : Bool} {p : Piece}

/-- A string literal is taken whole, or up to the end of the text. -/
theorem Scanned.string_cases (h : Scanned inTag p) (hk : p.kind = .string) :
    ∃ quote spelling value, (quote = '"' ∨ quote = '\'') ∧ Spells quote spelling value ∧
      ((∃ rest, p = ⟨.string, quote :: spelling ++ [quote], value, rest, true, none⟩) ∨
        ∃ tail, (tail = [] ∨ tail = ['\\']) ∧
          p = ⟨.string, quote :: spelling ++ tail, value, [], true, some .unterminatedString⟩) := by
  cases h with
  | string rest hq h => exact ⟨_, _, _, hq, h, .inl ⟨rest, rfl⟩⟩
  | openString hq h ht => exact ⟨_, _, _, hq, h, .inr ⟨_, ht, rfl⟩⟩
  | opener rest h => rcases kind_of_mem_openers h with rfl | rfl <;> cases hk
  | closer rest h => rcases kind_of_mem_closers h with rfl | rfl <;> cases hk
  | @mark c => exact absurd hk (delimiterKind_ne (by decide) c)
  | @word c run => exact absurd hk (wordKind_ne (by decide) (c :: run))
  | _ => cases hk

/-- A comment is taken whole, or up to the end of the text. -/
theorem Scanned.comment_cases (h : Scanned inTag p) (hk : p.kind = .comment) :
    (∃ body rest, ¬['#', '}'] <:+: body ++ ['#'] ∧
        p = ⟨.comment, '{' :: '#' :: body ++ ['#', '}'], '{' :: '#' :: body ++ ['#', '}'],
          rest, false, none⟩) ∨
      ∃ body, ¬['#', '}'] <:+: body ∧
        p = ⟨.comment, '{' :: '#' :: body, '{' :: '#' :: body, [], false,
          some .unterminatedComment⟩ := by
  cases h with
  | comment rest h => exact .inl ⟨_, rest, h, rfl⟩
  | openComment h => exact .inr ⟨_, h, rfl⟩
  | opener rest h => rcases kind_of_mem_openers h with rfl | rfl <;> cases hk
  | closer rest h => rcases kind_of_mem_closers h with rfl | rfl <;> cases hk
  | @mark c => exact absurd hk (delimiterKind_ne (by decide) c)
  | @word c run => exact absurd hk (wordKind_ne (by decide) (c :: run))
  | _ => cases hk

end

-- ---------------------------------------------------------------------------
-- Every piece is one of these
-- ---------------------------------------------------------------------------

theorem exists_of_delimiterPiece? {table : List (List Char × TokenKind)} {inTag : Bool}
    {cs : List Char} {piece : Piece} (h : delimiterPiece? table inTag cs = some piece) :
    ∃ delimiter kind rest, (delimiter, kind) ∈ table ∧ cs = delimiter ++ rest ∧
      piece = ⟨kind, delimiter, delimiter, rest, inTag, none⟩ := by
  obtain ⟨⟨delimiter, kind⟩, hm, h⟩ := List.exists_of_findSome?_eq_some h
  obtain ⟨rest, hr, rfl⟩ := Option.map_eq_some_iff.1 h
  exact ⟨delimiter, kind, rest, hm, after?_eq_some_iff.1 hr, rfl⟩

theorem delimiterPiece?_eq_none_iff {table : List (List Char × TokenKind)} {inTag : Bool}
    {cs : List Char} :
    delimiterPiece? table inTag cs = none ↔ ∀ entry ∈ table, ¬entry.1 <+: cs := by
  simp only [delimiterPiece?, List.findSome?_eq_none_iff, Option.map_eq_none_iff,
    after?_eq_none_iff]

/-- Where a delimiter comes behind those that it starts, none that is longer than the one
found stands at the front of the text. -/
theorem length_le_of_delimiterPiece? {table : List (List Char × TokenKind)}
    (ht : table.Pairwise fun entry next => ¬entry.1 <+: next.1) {inTag : Bool}
    {cs : List Char} {piece : Piece} (h : delimiterPiece? table inTag cs = some piece)
    {entry : List Char × TokenKind} (hm : entry ∈ table) (hp : entry.1 <+: cs) :
    entry.1.length ≤ piece.slice.length := by
  obtain ⟨before, found, behind, rfl, hf, hn⟩ := List.findSome?_eq_some_iff.mp h
  obtain ⟨rest, hrest, rfl⟩ := Option.map_eq_some_iff.mp hf
  have hfound : found.1 <+: cs := ⟨rest, (after?_eq_some_iff.mp hrest).symm⟩
  rcases List.mem_append.mp hm with hm | hm
  · obtain ⟨more, rfl⟩ := hp
    have hnone := hn entry hm
    simp [after?_eq_some_iff.mpr rfl] at hnone
  · rcases List.mem_cons.mp hm with rfl | hm
    · exact Nat.le_refl _
    · have hno := List.rel_of_pairwise_cons (List.pairwise_append.mp ht).2.1 hm
      rcases Nat.le_total entry.1.length found.1.length with hle | hle
      · exact hle
      · exact absurd (List.prefix_of_prefix_length_le hfound hp hle) hno

theorem endsComment_iff {cs : List Char} :
    endsComment cs = true ↔ ∃ rest, cs = '#' :: '}' :: rest := by
  simp only [endsComment, List.isPrefixOf_iff_prefix]
  exact ⟨fun ⟨rest, h⟩ => ⟨rest, h.symm⟩, fun ⟨rest, h⟩ => ⟨rest, h.symm⟩⟩

theorem startsMarkup_iff {cs : List Char} :
    startsMarkup cs = true ↔
      ∃ c rest, cs = '{' :: c :: rest ∧ (c = '%' ∨ c = '{' ∨ c = '#') := by
  constructor
  · intro h
    unfold startsMarkup at h
    split at h
    · rename_i c rest
      exact ⟨c, rest, rfl, by simpa [or_assoc] using h⟩
    · cases h
  · rintro ⟨c, rest, rfl, h⟩
    simpa [startsMarkup, or_assoc] using h

theorem scanned_scanComment (cs : List Char) : Scanned false (scanComment cs) := by
  have hs := splitWhen_append endsComment cs
  -- what starts with the closing delimiter cannot start before the split
  have hn : ∀ front back, front ++ '#' :: '}' :: back = cs →
      back.length + 2 ≤ (splitWhen endsComment cs).2.length := by
    intro front back h
    false_or_by_contra
    have hs : endsComment ('#' :: '}' :: back) = false :=
      stop_eq_false h (by simp only [List.length_cons]; omega)
    simp [endsComment] at hs
  simp only [scanComment]
  split
  · rename_i rest h
    have hr := after?_eq_some_iff.1 h
    refine .comment rest ?_
    rintro ⟨front, back, hb⟩
    have hl := hn front (back ++ '}' :: rest) (by
      rw [← hs, hr]
      simpa using congrArg (· ++ '}' :: rest) hb)
    rw [hr] at hl
    simp only [List.length_append, List.length_cons, List.length_nil] at hl
    omega
  · rename_i h
    have ht : (splitWhen endsComment cs).2 = [] := by
      false_or_by_contra
      rename_i ht
      obtain ⟨rest, hr⟩ := endsComment_iff.1 (stop_splitWhen_snd ht)
      simp [hr, after?] at h
    rw [ht]
    rw [ht, List.append_nil] at hs
    refine .openComment ?_
    rintro ⟨front, back, hb⟩
    have hl := hn front back (by simpa [hs] using hb)
    simp [ht] at hl

theorem scanned_scanOutside (c : Char) (cs : List Char) : Scanned false (scanOutside c cs) := by
  simp only [scanOutside]
  split
  · rename_i piece h
    obtain ⟨delimiter, kind, rest, hm, hcs, rfl⟩ := exists_of_delimiterPiece? h
    refine .opener rest hm fun d hd entry hlong he => ?_
    obtain ⟨more, rfl⟩ := List.head?_eq_some_iff.mp hd
    have hfront : entry.1 <+: c :: cs := ⟨more, by simp [hcs, he]⟩
    have hle := length_le_of_delimiterPiece? (by decide) h hlong hfront
    simp only [he, List.length_append, List.length_singleton] at hle
    omega
  · rename_i ho
    split
    · exact scanned_scanComment _
    · rename_i hc
      have hcs := splitWhen_append startsMarkup cs
      refine .data (by simp) (fun front back hf hb => ?_) fun h => stop_splitWhen_snd h
      cases front with
      | nil =>
        -- the first character stands where no opening delimiter was found
        rw [List.nil_append] at hf
        rw [hf, List.cons_append, hcs, ← Bool.not_eq_true, startsMarkup_iff]
        rintro ⟨d, rest, hd, hm⟩
        obtain ⟨rfl, rfl⟩ := List.cons.inj hd
        rcases hm with rfl | rfl | rfl
        · exact delimiterPiece?_eq_none_iff.mp ho (['{', '%'], .blockStart) (by decide) ⟨rest, rfl⟩
        · exact delimiterPiece?_eq_none_iff.mp ho (['{', '{'], .variableStart) (by decide) ⟨rest, rfl⟩
        · simp [after?] at hc
      | cons d front =>
        rw [List.cons_append] at hf
        have hf := (List.cons.inj hf).2
        have hfront : front ++ (back ++ (splitWhen startsMarkup cs).2) = cs := by
          rw [← List.append_assoc, hf, hcs]
        refine stop_eq_false hfront ?_
        have := List.length_pos_iff.2 hb
        simp only [List.length_append]
        omega

theorem scanned_scanString {quote : Char} (hq : quote = '"' ∨ quote = '\'') (cs : List Char) :
    Scanned true (scanString quote cs) := by
  have hb := ne_backslash_of_quote hq
  simp only [scanString]
  split
  · rename_i h
    exact .string _ hq (spells_cutAt hb h)
  · rename_i h
    rw [Bool.not_eq_true] at h
    obtain ⟨spelling, hs, hbody⟩ := exists_spells_cutAt hb h
    rw [rest_cutAt h]
    rcases hbody with hbody | hbody
    · rw [hbody] at hs ⊢
      simpa using Scanned.openString hq hs (.inl rfl)
    · rw [hbody] at hs ⊢
      exact .openString hq hs (.inr rfl)

theorem head?_splitRun_snd (p : Char → Bool) (cs : List Char) :
    ∀ c ∈ (splitRun p cs).2.head?, p c = false := by
  induction cs with
  | nil => simp [splitRun]
  | cons c cs ih =>
    rw [splitRun_cons]
    split
    · exact ih
    · rename_i hc
      simpa using hc

theorem scanned_scanRegex (cs : List Char) : Scanned true (scanRegex cs) := by
  simp only [scanRegex]
  cases h : (cutAt '/' cs).closed with
  | true =>
    exact .regex (spells_cutAt (by decide) h) (fun c hc => of_mem_splitRun_fst hc)
      (head?_splitRun_snd isRegexFlag _)
  | false =>
    obtain ⟨spelling, hs, hbody⟩ := exists_spells_cutAt (by decide) h
    rw [rest_cutAt h]
    rcases hbody with hbody | hbody
    · rw [hbody] at hs ⊢
      simpa [splitRun] using Scanned.openRegex hs (.inl rfl)
    · rw [hbody] at hs ⊢
      simpa [splitRun] using Scanned.openRegex hs (.inr rfl)

theorem scanned_scanOperator {c : Char} (hc : isDelimiter c) {cs : List Char}
    (hp : delimiterPiece? closers false (c :: cs) = none) : Scanned true (scanOperator c cs) := by
  have ht : (longOperators.map (·, TokenKind.operator)).Pairwise
      fun entry next => ¬entry.1 <+: next.1 := by decide
  simp only [scanOperator]
  split
  · rename_i piece h
    obtain ⟨delimiter, kind, rest, hm, hcs, rfl⟩ := exists_of_delimiterPiece? h
    obtain ⟨_, hd, he⟩ := List.mem_map.1 hm
    cases he
    refine .operator rest hd fun d hr hlong => ?_
    obtain ⟨more, rfl⟩ := List.head?_eq_some_iff.mp hr
    have hfront : delimiter ++ [d] <+: c :: cs := ⟨more, by simp [hcs]⟩
    have hle := length_le_of_delimiterPiece? ht h (List.mem_map_of_mem hlong) hfront
    simp only [List.length_append, List.length_singleton] at hle
    omega
  · rename_i h
    refine .mark cs hc (fun d hr hlong => ?_) (delimiterPiece?_eq_none_iff.mp hp)
    obtain ⟨more, rfl⟩ := List.head?_eq_some_iff.mp hr
    exact delimiterPiece?_eq_none_iff.mp h _ (List.mem_map_of_mem hlong) ⟨more, rfl⟩

theorem wordKind_eq_int_iff {word : List Char} : wordKind word = .int ↔ ∀ c ∈ word, c.isDigit := by
  rw [← List.all_eq_true]
  constructor
  · intro h
    unfold wordKind at h
    repeat' split at h
    all_goals simp_all
  · intro h
    rw [wordKind, if_pos h]

theorem scanned_scanWord {c : Char} (hq : c ≠ '"' ∧ c ≠ '\'') (hc : isWordChar c)
    {cs : List Char} (hx : c = 'r' → cs.head? ≠ some '/') : Scanned true (scanWord c cs) := by
  have hw : ∀ d ∈ c :: (splitRun isWordChar cs).1, isWordChar d := by
    intro d hd
    rcases List.mem_cons.mp hd with rfl | hd
    · exact hc
    · exact of_mem_splitRun_fst hd
  simp only [scanWord]
  split
  · rename_i hk _
    exact .float ⟨by simp, wordKind_eq_int_iff.1 hk⟩ (fun d hd => of_mem_splitRun_fst hd)
      (head?_splitRun_snd Char.isDigit _)
  · rename_i hn
    refine .word hq hw (head?_splitRun_snd isWordChar cs) ?_ fun hk hdot => ?_
    · rwa [splitRun_append]
    · obtain ⟨rest, hrest⟩ := List.head?_eq_some_iff.mp hdot
      exact hn rest hk hrest

/-! The branches of a scan inside a tag, each under the condition that leads to it. -/

theorem scanInside_quote {c : Char} (hq : c = '"' ∨ c = '\'') (cs : List Char) :
    scanInside c cs = scanString c cs := by
  unfold scanInside
  rw [if_pos hq]

theorem scanInside_space {c : Char} (hq : ¬(c = '"' ∨ c = '\'')) (hs : isTagSpace c)
    (cs : List Char) :
    scanInside c cs =
      ⟨.whitespace, c :: (splitRun isTagSpace cs).1, c :: (splitRun isTagSpace cs).1,
        (splitRun isTagSpace cs).2, true, none⟩ := by
  unfold scanInside
  rw [if_neg hq, if_pos hs]

theorem scanInside_closer {c : Char} {cs : List Char} {piece : Piece}
    (hq : ¬(c = '"' ∨ c = '\'')) (hs : ¬isTagSpace c)
    (hp : delimiterPiece? closers false (c :: cs) = some piece) : scanInside c cs = piece := by
  unfold scanInside
  rw [if_neg hq, if_neg hs, hp]

theorem scanInside_regex (cs : List Char) : scanInside 'r' ('/' :: cs) = scanRegex cs := by
  simp [scanInside, isTagSpace, delimiterPiece?, closers, after?]

theorem scanInside_other {c : Char} {cs : List Char} (hq : ¬(c = '"' ∨ c = '\''))
    (hs : ¬isTagSpace c) (hp : delimiterPiece? closers false (c :: cs) = none)
    (hr : c = 'r' → cs.head? ≠ some '/') :
    scanInside c cs = if isDelimiter c then scanOperator c cs else scanWord c cs := by
  unfold scanInside
  rw [if_neg hq, if_neg hs, hp]
  simp only
  split
  · exact absurd rfl (hr rfl)
  · rfl

theorem scanned_scanInside (c : Char) (cs : List Char) : Scanned true (scanInside c cs) := by
  by_cases hq : c = '"' ∨ c = '\''
  · rw [scanInside_quote hq]
    exact scanned_scanString hq cs
  by_cases hs : isTagSpace c
  · rw [scanInside_space hq hs]
    refine .whitespace (by simp) (fun d hd => ?_) (head?_splitRun_snd isTagSpace cs)
    rcases List.mem_cons.mp hd with rfl | hd
    · exact hs
    · exact of_mem_splitRun_fst hd
  cases hp : delimiterPiece? closers false (c :: cs) with
  | some piece =>
    rw [scanInside_closer hq hs hp]
    obtain ⟨delimiter, kind, rest, hm, -, rfl⟩ := exists_of_delimiterPiece? hp
    exact .closer rest hm
  | none =>
    by_cases hr : c = 'r' ∧ cs.head? = some '/'
    · obtain ⟨rfl, hr⟩ := hr
      obtain ⟨body, rfl⟩ := List.head?_eq_some_iff.1 hr
      rw [scanInside_regex]
      exact scanned_scanRegex body
    have hx : c = 'r' → cs.head? ≠ some '/' := fun hc hh => hr ⟨hc, hh⟩
    rw [scanInside_other hq hs hp hx]
    split
    · exact scanned_scanOperator ‹_› hp
    · rename_i hd
      exact scanned_scanWord (not_or.1 hq) (by simp [isWordChar, hs, hd]) hx

theorem scanned_scan (inTag : Bool) (c : Char) (cs : List Char) :
    Scanned inTag (scan inTag c cs) := by
  cases inTag
  · exact scanned_scanOutside c cs
  · exact scanned_scanInside c cs

end TemplateTree
