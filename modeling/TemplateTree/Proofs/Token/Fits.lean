import TemplateTree.Proofs.Token.Stretch
import TemplateTree.Proofs.Token.Taken

/-!
# Slices that fit a kind

What a slice of a text must be to make a token of a kind, by the characters it has and
those that follow it (`TokenKind.Fits`). Nothing is said of how a text is scanned, but no
slice fits where a scan takes another: every slice that is scanned fits its kind
(`Scanned.fits`), and a slice that fits a kind which can stand there is the one that is
scanned (`TokenKind.Fits.exists_scanned`).
-/

namespace TemplateTree

/-- The delimiters with which running text ends. -/
def markupStarts : List (List Char) := [['{', '%'], ['{', '{'], ['{', '#']]

/-- The delimiters with which a tag ends. -/
def tagEnds : List (List Char) := [['-', '%', '}'], ['%', '}'], ['-', '}', '}'], ['}', '}']]

/-- The characters that are an operator on their own. -/
def shortOperators : List Char := "%*-+/#.<>=!".toList

def booleanWords : List String := ["true", "false", "True", "False"]

def noneWords : List String := ["none", "None", "null"]

/-- A nonempty word, up to where the word ends. -/
structure WholeWord (slice rest : List Char) : Prop where
  ne_nil : slice ≠ []
  isWordChar : ∀ c ∈ slice, isWordChar c
  unquoted : ∀ c ∈ slice.head?, c ≠ '"' ∧ c ≠ '\''
  ends : ∀ c ∈ rest.head?, TemplateTree.isWordChar c = false
  /-- In front of a slash the letter starts a regular expression. -/
  not_regex : slice = ['r'] → rest.head? ≠ some '/'

/-- `kind.Fits front slice rest`: a token of this kind can have the slice in a text that
has `front` before the slice and goes on with `rest`. -/
def TokenKind.Fits (kind : TokenKind) (front slice rest : List Char) : Prop :=
  match kind with
  -- no markup starts in the slice, be it that the delimiter goes on behind it
  | .data =>
    slice ≠ [] ∧ (∀ opening ∈ markupStarts, ¬opening <:+: slice ++ rest.take 1) ∧
      (rest = [] ∨ ∃ opening ∈ markupStarts, opening <+: rest)
  -- the hash sign that opens a comment has no part in closing it
  | .comment =>
    ∃ body, slice = '{' :: '#' :: body ∧
      (∀ before behind, body = before ++ '#' :: '}' :: behind → behind = []) ∧
      (['#', '}'] <:+ body ∨ rest = [])
  | .blockStart => slice = ['{', '%', '-'] ∨ slice = ['{', '%'] ∧ rest.head? ≠ some '-'
  | .variableStart => slice = ['{', '{', '-'] ∨ slice = ['{', '{'] ∧ rest.head? ≠ some '-'
  | .blockEnd => slice = ['%', '}'] ∨ slice = ['-', '%', '}']
  | .variableEnd => slice = ['}', '}'] ∨ slice = ['-', '}', '}']
  -- no white space goes on before the slice or behind it
  | .whitespace =>
    slice ≠ [] ∧ (∀ c ∈ slice, isTagSpace c) ∧ (∀ c ∈ front.getLast?, isTagSpace c = false) ∧
      ∀ c ∈ rest.head?, isTagSpace c = false
  | .string => (∃ value, LiteralSlice slice value) ∧ (ClosedLiteral slice ∨ rest = [])
  -- with a point behind it the number is another
  | .int => WholeWord slice rest ∧ (∀ c ∈ slice, c.isDigit) ∧ rest.head? ≠ some '.'
  | .float =>
    ∃ whole digits, slice = whole ++ '.' :: digits ∧ whole ≠ [] ∧ (∀ c ∈ whole, c.isDigit) ∧
      (∀ c ∈ digits, c.isDigit) ∧ ∀ c ∈ rest.head?, c.isDigit = false
  | .boolean => WholeWord slice rest ∧ String.ofList slice ∈ booleanWords
  | .none => WholeWord slice rest ∧ String.ofList slice ∈ noneWords
  | .symbol =>
    WholeWord slice rest ∧ (¬∀ c ∈ slice, c.isDigit) ∧ String.ofList slice ∉ booleanWords ∧
      String.ofList slice ∉ noneWords
  | .regex =>
    ∃ body value, Spells '/' body value ∧
      ((∃ flags, slice = 'r' :: '/' :: body ++ '/' :: flags ∧ (∀ c ∈ flags, isRegexFlag c) ∧
          ∀ c ∈ rest.head?, isRegexFlag c = false) ∨
        (slice = 'r' :: '/' :: body ∨ slice = 'r' :: '/' :: body ++ ['\\']) ∧ rest = [])
  | .special => False
  -- what closes the tag comes before an operator that it starts with
  | .operator =>
    (slice ∈ longOperators ∨ ∃ c ∈ shortOperators, slice = [c]) ∧
      (∀ c ∈ rest.head?, slice ++ [c] ∉ longOperators) ∧
      ∀ closing ∈ tagEnds, ¬closing <+: slice ++ rest
  | .leftParen => slice = ['(']
  | .rightParen => slice = [')']
  | .leftBracket => slice = ['[']
  | .rightBracket => slice = [']']
  | .leftCurly => slice = ['{']
  | .rightCurly => slice = ['}'] ∧ ∀ closing ∈ tagEnds, ¬closing <+: slice ++ rest
  | .comma => slice = [',']
  | .colon => slice = [':']
  | .tilde => slice = ['~']
  | .pipe => slice = ['|']

-- ---------------------------------------------------------------------------
-- Delimiters
-- ---------------------------------------------------------------------------

theorem startsMarkup_iff_markupStarts {cs : List Char} :
    startsMarkup cs = true ↔ ∃ opening ∈ markupStarts, opening <+: cs := by
  rw [startsMarkup_iff]
  constructor
  · rintro ⟨c, rest, rfl, hc⟩
    refine ⟨['{', c], ?_, rest, rfl⟩
    rcases hc with rfl | rfl | rfl <;> decide
  · rintro ⟨opening, hm, rest, rfl⟩
    simp only [markupStarts, List.mem_cons, List.not_mem_nil, or_false] at hm
    rcases hm with rfl | rfl | rfl <;> simp

/-- One character of what follows is enough to see where markup starts in the slice. -/
theorem markupStarts_infix_iff {slice rest : List Char} :
    (∀ opening ∈ markupStarts, ¬opening <:+: slice ++ rest.take 1) ↔
      ∀ front back, front ++ back = slice → back ≠ [] → startsMarkup (back ++ rest) = false := by
  have htwo : ∀ opening ∈ markupStarts, opening.length = 2 := by decide
  constructor
  · rintro h front back rfl hb
    rw [← Bool.not_eq_true, startsMarkup_iff_markupStarts]
    rintro ⟨opening, hm, hp⟩
    have hlength := hp.length_le
    have hlt := List.length_pos_iff.mpr hb
    have hfront : back ++ rest.take 1 <+: back ++ rest :=
      (List.prefix_append_right_inj back).mpr (List.take_prefix 1 rest)
    have hle : opening.length ≤ (back ++ rest.take 1).length := by
      simp only [htwo opening hm, List.length_append, List.length_take] at hlength ⊢
      omega
    obtain ⟨behind, hb⟩ := List.prefix_of_prefix_length_le hp hfront hle
    exact h opening hm ⟨front, behind, by rw [List.append_assoc, hb, List.append_assoc]⟩
  · rintro h opening hm ⟨before, behind, hb⟩
    have hlength := congrArg List.length hb
    have htake : (rest.take 1).length ≤ 1 := List.length_take_le 1 rest
    simp only [List.length_append, htwo opening hm] at hlength
    rw [List.append_assoc] at hb
    obtain ⟨back, rfl⟩ : before <+: slice :=
      List.prefix_of_prefix_length_le ⟨_, hb⟩ ⟨_, rfl⟩ (by omega)
    rw [List.append_assoc, List.append_cancel_left_eq] at hb
    have hne : back ≠ [] := by
      rintro rfl
      rw [List.append_nil] at hlength
      omega
    have hno := h before back rfl hne
    have hyes : startsMarkup (back ++ rest) = true := by
      refine startsMarkup_iff_markupStarts.mpr ⟨opening, hm, behind ++ rest.drop 1, ?_⟩
      rw [← List.append_assoc, hb, List.append_assoc, List.take_append_drop]
    rw [hno] at hyes
    cases hyes

theorem forall_tagEnds {p : List Char → Prop} :
    (∀ closing ∈ tagEnds, p closing) ↔ ∀ entry ∈ closers, p entry.1 := by
  simp [tagEnds, closers]

/-- What closes a comment ends it. -/
theorem eq_nil_of_closes {body before behind : List Char} (h : ¬['#', '}'] <:+: body ++ ['#'])
    (hb : body ++ ['#', '}'] = before ++ '#' :: '}' :: behind) : behind = [] := by
  rcases List.eq_nil_or_concat behind with hn | ⟨more, c, rfl⟩
  · exact hn
  · refine absurd ⟨before, more, ?_⟩ h
    have hb : (body ++ ['#']) ++ ['}'] = (before ++ ['#', '}'] ++ more) ++ [c] := by
      simpa using hb
    exact (List.append_inj' hb rfl).1.symm

-- ---------------------------------------------------------------------------
-- Words and marks
-- ---------------------------------------------------------------------------

theorem wordKind_eq_boolean_iff {word : List Char} :
    wordKind word = .boolean ↔ String.ofList word ∈ booleanWords := by
  have hall : booleanWords.all fun word => !word.toList.all Char.isDigit := by decide
  constructor
  · intro h
    unfold wordKind at h
    repeat' split at h
    all_goals first | assumption | cases h
  · intro h
    have hdigits := List.all_eq_true.mp hall _ h
    simp only [String.toList_ofList, Bool.not_eq_true'] at hdigits
    rw [wordKind, hdigits, if_neg Bool.false_ne_true]
    exact if_pos h

theorem wordKind_eq_none_iff {word : List Char} :
    wordKind word = .none ↔ String.ofList word ∈ noneWords := by
  have hall : noneWords.all fun word =>
      !word.toList.all Char.isDigit && decide (word ∉ booleanWords) := by decide
  constructor
  · intro h
    unfold wordKind at h
    repeat' split at h
    all_goals first | assumption | cases h
  · intro h
    have hno := List.all_eq_true.mp hall _ h
    simp only [String.toList_ofList, Bool.and_eq_true, Bool.not_eq_true', decide_eq_true_eq] at hno
    obtain ⟨hdigits, hboolean⟩ := hno
    rw [wordKind, hdigits, if_neg Bool.false_ne_true]
    exact (if_neg hboolean).trans (if_pos h)

theorem wordKind_eq_symbol_iff {word : List Char} :
    wordKind word = .symbol ↔
      (¬∀ c ∈ word, c.isDigit) ∧ String.ofList word ∉ booleanWords ∧
        String.ofList word ∉ noneWords := by
  rw [← wordKind_eq_int_iff, ← wordKind_eq_boolean_iff, ← wordKind_eq_none_iff]
  have hk : wordKind word ∈ wordKinds :=
    Decidable.byContradiction fun h => wordKind_ne h word rfl
  revert hk
  generalize wordKind word = kind
  revert kind
  decide

/-- A word that fits is scanned, but for digits in front of a point. -/
theorem WholeWord.scanned {word rest : List Char} {kind : TokenKind} (h : WholeWord word rest)
    (hk : wordKind word = kind) (hn : kind = .int → rest.head? ≠ some '.') :
    Scanned true ⟨kind, word, word, rest, true, none⟩ := by
  subst hk
  obtain ⟨hne, hw, hq, hr, hx⟩ := h
  obtain ⟨c, run, rfl⟩ := List.exists_cons_of_ne_nil hne
  refine .word (hq c rfl) hw hr (fun hc => ?_) hn
  cases run with
  | nil => exact hx (congrArg ([·]) hc)
  | cons d run =>
    rintro ⟨⟩
    exact absurd (hw '/' (by simp)) (by decide)

theorem mem_shortOperators {c : Char} :
    c ∈ shortOperators ↔ isDelimiter c ∧ delimiterKind c = .operator := by
  constructor
  · have hall : shortOperators.all fun c => isDelimiter c && delimiterKind c == .operator := by
      decide +kernel
    intro h
    simpa using List.all_eq_true.mp hall c h
  · rintro ⟨h, hk⟩
    have hall : "()[]\x7b\x7d%*-+~/#,:|.<>=!".toList.all
        (fun c => delimiterKind c != .operator || shortOperators.contains c) := by decide +kernel
    simp only [isDelimiter, decide_eq_true_eq] at h
    have hc := List.all_eq_true.mp hall c h
    simpa [hk] using hc

/-- A mark that starts no operator and no closing delimiter stands by itself. -/
theorem scanned_punctuation {c : Char} {kind : TokenKind} (h : c ∈ "()[]\x7b,:~|".toList)
    (hk : delimiterKind c = kind) (rest : List Char) :
    Scanned true ⟨kind, [c], [c], rest, true, none⟩ := by
  subst hk
  have hall : "()[]\x7b,:~|".toList.all fun c => isDelimiter c && decide (c ∉ ['-', '%', '}']) &&
      longOperators.all fun op => op.head? != some c := by decide
  have hc := List.all_eq_true.mp hall c h
  simp only [Bool.and_eq_true, decide_eq_true_eq, List.all_eq_true, bne_iff_ne] at hc
  obtain ⟨⟨hd, hclose⟩, hlong⟩ := hc
  exact .mark rest hd (fun d _ hm => hlong [c, d] hm rfl)
    (delimiterPiece?_eq_none_iff.mp (delimiterPiece?_closers hclose rest))

-- ---------------------------------------------------------------------------
-- A scanned slice fits its kind
-- ---------------------------------------------------------------------------

theorem fits_mark {c : Char} {rest : List Char} (h : isDelimiter c)
    (hr : ∀ d ∈ rest.head?, [c, d] ∉ longOperators) (hc : ∀ entry ∈ closers, ¬entry.1 <+: c :: rest)
    (front : List Char) : (delimiterKind c).Fits front [c] rest := by
  by_cases hk : delimiterKind c = .operator
  · rw [hk]
    exact ⟨.inr ⟨c, mem_shortOperators.mpr ⟨h, hk⟩, rfl⟩, hr, forall_tagEnds.mpr hc⟩
  · -- every other mark has a kind of its own
    revert hk
    unfold delimiterKind
    split
    case h_6 => exact fun _ => ⟨rfl, forall_tagEnds.mpr hc⟩
    case h_11 => exact fun hk => absurd rfl hk
    all_goals exact fun _ => rfl

theorem fits_word {word rest : List Char} (h : WholeWord word rest)
    (hn : wordKind word = .int → rest.head? ≠ some '.') (front : List Char) :
    (wordKind word).Fits front word rest := by
  cases hk : wordKind word with
  | int => exact ⟨h, wordKind_eq_int_iff.mp hk, hn hk⟩
  | boolean => exact ⟨h, wordKind_eq_boolean_iff.mp hk⟩
  | none => exact ⟨h, wordKind_eq_none_iff.mp hk⟩
  | symbol => exact ⟨h, wordKind_eq_symbol_iff.mp hk⟩
  | _ => exact absurd hk (wordKind_ne (by decide) word)

/-- A run of white space is cut off whole where none goes on before it. -/
theorem Scanned.fits {inTag : Bool} {p : Piece} (h : Scanned inTag p) {front : List Char}
    (hb : p.kind = .whitespace → ∀ c ∈ front.getLast?, isTagSpace c = false) :
    p.kind.Fits front p.slice p.rest := by
  cases h with
  | opener rest h hr =>
    simp only [openers, List.mem_cons, Prod.mk.injEq, List.not_mem_nil, or_false] at h
    rcases h with ⟨rfl, rfl⟩ | ⟨rfl, rfl⟩ | ⟨rfl, rfl⟩ | ⟨rfl, rfl⟩
    · exact .inl rfl
    · exact .inr ⟨rfl, fun hd => hr '-' hd (['{', '%', '-'], .blockStart) (by decide) rfl⟩
    · exact .inl rfl
    · exact .inr ⟨rfl, fun hd => hr '-' hd (['{', '{', '-'], .variableStart) (by decide) rfl⟩
  | closer rest h =>
    simp only [closers, List.mem_cons, Prod.mk.injEq, List.not_mem_nil, or_false] at h
    rcases h with ⟨rfl, rfl⟩ | ⟨rfl, rfl⟩ | ⟨rfl, rfl⟩ | ⟨rfl, rfl⟩ <;> simp [TokenKind.Fits]
  | comment rest h =>
    exact ⟨_, rfl, fun before behind => eq_nil_of_closes h, .inl (List.suffix_append _ _)⟩
  | openComment h =>
    exact ⟨_, rfl, fun before behind hb => absurd ⟨before, behind, by simp [hb]⟩ h, .inr rfl⟩
  | @data slice rest hs h hr =>
    refine ⟨hs, markupStarts_infix_iff.mpr h, ?_⟩
    rcases Decidable.em (rest = []) with hn | hn
    · exact .inl hn
    · exact .inr (startsMarkup_iff_markupStarts.mp (hr hn))
  | string rest hq h => exact ⟨⟨_, .closed hq h⟩, .inl ⟨_, _, _, hq, h, rfl⟩⟩
  | openString hq h ht => exact ⟨⟨_, (Scanned.openString hq h ht).literalSlice rfl⟩, .inr rfl⟩
  | whitespace hs h hr => exact ⟨hs, h, hb rfl, hr⟩
  | regex h hf hr => exact ⟨_, _, h, .inl ⟨_, rfl, hf, hr⟩⟩
  | openRegex h ht =>
    rcases ht with rfl | rfl
    · exact ⟨_, _, h, .inr ⟨.inl (List.append_nil _), rfl⟩⟩
    · exact ⟨_, _, h, .inr ⟨.inr rfl, rfl⟩⟩
  | operator rest h hr =>
    exact ⟨.inl h, hr, forall_tagEnds.mpr (not_closes_of_longOperators h rest)⟩
  | mark rest h hr hc => exact fits_mark h hr hc front
  | @word c run rest hq h hr hx hn =>
    refine fits_word ⟨by simp, h, by simpa using hq, hr, ?_⟩ hn front
    rintro ⟨⟩
    exact hx rfl
  | float hw hd hr => exact ⟨_, _, rfl, hw.1, hw.2, hd, hr⟩

-- ---------------------------------------------------------------------------
-- A slice that fits is scanned
-- ---------------------------------------------------------------------------

section

variable {kind : TokenKind} {front slice rest : List Char}

theorem TokenKind.Fits.scanned_opening (hk : kind.opensTag) (h : kind.Fits front slice rest) :
    Scanned false ⟨kind, slice, slice, rest, true, .none⟩ := by
  rcases TokenKind.opensTag_iff.mp hk with rfl | rfl
  all_goals
    rcases h with rfl | ⟨rfl, hr⟩
    · refine .opener rest (by decide) fun c _ entry hm he => ?_
      have hlength := (by decide : ∀ entry ∈ openers, entry.1.length ≤ 3) entry hm
      simp [he] at hlength
    · refine .opener rest (by decide) fun c hc entry hm he => hr ?_
      have hdash := (by decide : ∀ entry ∈ openers, entry.1.length = 3 →
        entry.1.getLast? = some '-') entry hm (by simp [he])
      simp only [he, List.getLast?_concat, Option.some.injEq] at hdash
      rw [← hdash]
      exact hc

theorem TokenKind.Fits.scanned_closing (hk : kind.closesTag) (h : kind.Fits front slice rest) :
    Scanned true ⟨kind, slice, slice, rest, false, .none⟩ := by
  refine .closer rest ?_
  rcases TokenKind.closesTag_iff.mp hk with rfl | rfl
  all_goals rcases h with rfl | rfl <;> decide

theorem exists_scanned_comment (h : TokenKind.comment.Fits front slice rest) :
    ∃ value problem?, Scanned false ⟨.comment, slice, value, rest, false, problem?⟩ := by
  obtain ⟨body, rfl, hn, hends⟩ := h
  by_cases hs : ['#', '}'] <:+ body
  · obtain ⟨inner, rfl⟩ := hs
    refine ⟨_, _, .comment rest ?_⟩
    rintro ⟨before, behind, hb⟩
    have hb : inner ++ ['#', '}'] = before ++ '#' :: '}' :: (behind ++ ['}']) := by
      simpa using congrArg (· ++ ['}']) hb.symm
    simpa using hn before (behind ++ ['}']) hb
  · obtain rfl := hends.resolve_left hs
    refine ⟨_, _, .openComment ?_⟩
    rintro ⟨before, behind, rfl⟩
    obtain rfl := hn before behind (by simp)
    exact hs ⟨before, by simp⟩

theorem exists_scanned_string (h : TokenKind.string.Fits front slice rest) :
    ∃ value problem?, Scanned true ⟨.string, slice, value, rest, true, problem?⟩ := by
  obtain ⟨⟨value, hv⟩, hends⟩ := h
  rcases hends with ⟨quote, spelling, value, hq, hs, rfl⟩ | rfl
  · exact ⟨_, _, .string rest hq hs⟩
  · cases hv with
    | closed hq hs => exact ⟨_, _, .string [] hq hs⟩
    | unclosed hq hs => exact ⟨_, _, by simpa using Scanned.openString hq hs (.inl rfl)⟩
    | cutShort hq hs => exact ⟨_, _, .openString hq hs (.inr rfl)⟩

theorem scanned_regex (h : TokenKind.regex.Fits front slice rest) :
    Scanned true ⟨.regex, slice, slice, rest, true, .none⟩ := by
  obtain ⟨body, value, hs, ⟨flags, rfl, hf, hr⟩ | ⟨rfl | rfl, rfl⟩⟩ := h
  · exact .regex hs hf hr
  · simpa using Scanned.openRegex hs (.inl rfl)
  · exact .openRegex hs (.inr rfl)

theorem scanned_operator (h : TokenKind.operator.Fits front slice rest) :
    Scanned true ⟨.operator, slice, slice, rest, true, .none⟩ := by
  obtain ⟨hm | ⟨c, hc, rfl⟩, hr, hclose⟩ := h
  · exact .operator rest hm hr
  · obtain ⟨hd, hk⟩ := mem_shortOperators.mp hc
    have hs := Scanned.mark rest hd hr (forall_tagEnds.mp hclose)
    rwa [hk] at hs

/-- A slice that fits a kind of the inside of a tag is taken off there. -/
theorem TokenKind.Fits.exists_scanned_inner (hk : kind.isInner) (h : kind.Fits front slice rest) :
    ∃ value problem?, Scanned true ⟨kind, slice, value, rest, true, problem?⟩ := by
  cases kind with
  | data | comment | blockStart | blockEnd | variableStart | variableEnd => cases hk
  | special => exact h.elim
  | string => exact exists_scanned_string h
  | whitespace =>
    obtain ⟨hne, hs, -, hr⟩ := h
    exact ⟨_, _, .whitespace hne hs hr⟩
  | regex => exact ⟨_, _, scanned_regex h⟩
  | operator => exact ⟨_, _, scanned_operator h⟩
  | float =>
    obtain ⟨whole, digits, rfl, hne, hw, hd, hr⟩ := h
    exact ⟨_, _, .float ⟨hne, hw⟩ hd hr⟩
  | int => exact ⟨_, _, h.1.scanned (wordKind_eq_int_iff.mpr h.2.1) fun _ => h.2.2⟩
  | boolean => exact ⟨_, _, h.1.scanned (wordKind_eq_boolean_iff.mpr h.2) nofun⟩
  | none => exact ⟨_, _, h.1.scanned (wordKind_eq_none_iff.mpr h.2) nofun⟩
  | symbol => exact ⟨_, _, h.1.scanned (wordKind_eq_symbol_iff.mpr h.2) nofun⟩
  | rightCurly =>
    obtain ⟨rfl, hclose⟩ := h
    exact ⟨_, _, .mark rest (by decide) (by simp [longOperators]) (forall_tagEnds.mp hclose)⟩
  | leftParen | rightParen | leftBracket | rightBracket | leftCurly | comma | colon | tilde | pipe =>
    obtain rfl : slice = [_] := h
    exact ⟨_, _, scanned_punctuation (by decide) (by rfl) rest⟩

/-- A slice that fits a kind which can stand there is taken off the text. -/
theorem TokenKind.Fits.exists_scanned {inTag inTag' : Bool} (hk : kind.Leads inTag inTag')
    (h : kind.Fits front slice rest) :
    ∃ value problem?, Scanned inTag ⟨kind, slice, value, rest, inTag', problem?⟩ := by
  cases hk with
  | plain hk =>
    rcases TokenKind.isPlain_iff.mp hk with rfl | rfl
    · obtain ⟨hne, hs, hr⟩ := h
      refine ⟨_, _, .data hne (markupStarts_infix_iff.mp hs) fun hn => ?_⟩
      exact startsMarkup_iff_markupStarts.mpr (hr.resolve_left hn)
    · exact exists_scanned_comment h
  | opening hk => exact ⟨_, _, h.scanned_opening hk⟩
  | inner hk => exact h.exists_scanned_inner hk
  | closing hk => exact ⟨_, _, h.scanned_closing hk⟩

end

end TemplateTree
