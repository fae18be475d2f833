import TemplateTree.Proofs.Token.Pieces

/-!
# What is taken off a text

The rules of `Scanned` say all that a scan goes by: a piece that a rule allows is the one
that is taken off the text it makes up with what it leaves (`Scanned.scan_eq`). So no two
rules allow different pieces of one text, and what a scan makes of a text can be shown by
naming the rule.
-/

namespace TemplateTree

-- ---------------------------------------------------------------------------
-- Delimiters
-- ---------------------------------------------------------------------------

/-- A delimiter is found where the next character does not make it a longer one. -/
theorem delimiterPiece?_eq_some {table : List (List Char × TokenKind)}
    (ht : table.Pairwise fun entry next => ¬entry.1 <+: next.1)
    (hstep : ∀ entry ∈ table, ∀ next ∈ table, next.1.length ≤ entry.1.length + 1)
    (hinj : ∀ entry ∈ table, ∀ next ∈ table, next.1 = entry.1 → next = entry)
    {delimiter : List Char} {kind : TokenKind} (h : (delimiter, kind) ∈ table)
    {rest : List Char} (hr : ∀ c ∈ rest.head?, ∀ next ∈ table, next.1 ≠ delimiter ++ [c])
    (inTag : Bool) :
    delimiterPiece? table inTag (delimiter ++ rest) =
      some ⟨kind, delimiter, delimiter, rest, inTag, none⟩ := by
  cases hp : delimiterPiece? table inTag (delimiter ++ rest) with
  | none => exact absurd ⟨rest, rfl⟩ (delimiterPiece?_eq_none_iff.mp hp _ h)
  | some piece =>
    have hle := length_le_of_delimiterPiece? ht hp h ⟨rest, rfl⟩
    obtain ⟨found, kind', rest', hm, htext, rfl⟩ := exists_of_delimiterPiece? hp
    obtain ⟨more, rfl⟩ : delimiter <+: found :=
      List.prefix_of_prefix_length_le ⟨rest, rfl⟩ ⟨rest', htext.symm⟩ hle
    rw [List.append_assoc, List.append_cancel_left_eq] at htext
    match more with
    | [] =>
      obtain ⟨-, rfl⟩ := Prod.mk.inj (hinj _ h _ hm (List.append_nil delimiter))
      simp [htext]
    | [c] => exact absurd rfl (hr c (by simp [htext]) _ hm)
    | c :: d :: more =>
      have hlong := hstep _ h _ hm
      simp only [List.length_append, List.length_cons] at hlong
      omega

-- ---------------------------------------------------------------------------
-- Running text
-- ---------------------------------------------------------------------------

theorem scanOutside_opener {delimiter rest : List Char} {kind : TokenKind}
    (h : (delimiter, kind) ∈ openers)
    (hr : ∀ c ∈ rest.head?, ∀ entry ∈ openers, entry.1 ≠ delimiter ++ [c])
    {c : Char} {cs : List Char} (htext : delimiter ++ rest = c :: cs) :
    scanOutside c cs = ⟨kind, delimiter, delimiter, rest, true, none⟩ := by
  have hp := delimiterPiece?_eq_some (by decide) (by decide) (by decide) h hr true
  rw [scanOutside, ← htext, hp]

theorem scanOutside_comment (body : List Char) :
    scanOutside '{' ('#' :: body) = scanComment body := by
  simp [scanOutside, delimiterPiece?, openers, after?]

/-- A comment ends with the first delimiter that closes it. -/
theorem scanComment_eq {body : List Char} (h : ¬['#', '}'] <:+: body ++ ['#'])
    (rest : List Char) :
    scanComment (body ++ '#' :: '}' :: rest) =
      ⟨.comment, '{' :: '#' :: body ++ ['#', '}'], '{' :: '#' :: body ++ ['#', '}'], rest,
        false, none⟩ := by
  have hn : ∀ front back, front ++ back = body → back ≠ [] →
      endsComment (back ++ '#' :: '}' :: rest) = false := by
    rintro front back rfl hb
    rw [← Bool.not_eq_true, endsComment_iff]
    rintro ⟨more, hm⟩
    match back, hb, hm with
    | [c], _, hm => simp at hm
    | c :: d :: back, _, hm =>
      simp only [List.cons_append, List.cons.injEq] at hm
      obtain ⟨rfl, rfl, -⟩ := hm
      exact h ⟨front, back ++ ['#'], by simp⟩
  have hs : splitWhen endsComment ('#' :: '}' :: rest) = ([], '#' :: '}' :: rest) := by
    rw [splitWhen_cons, if_pos (by simp [endsComment])]
  simp [scanComment, splitWhen_append_left hn, hs, after?]

theorem scanComment_open {body : List Char} (h : ¬['#', '}'] <:+: body) :
    scanComment body =
      ⟨.comment, '{' :: '#' :: body, '{' :: '#' :: body, [], false,
        some .unterminatedComment⟩ := by
  have hn : ∀ front back, front ++ back = body → back ≠ [] →
      endsComment (back ++ []) = false := by
    rintro front back rfl -
    rw [← Bool.not_eq_true, endsComment_iff, List.append_nil]
    rintro ⟨more, rfl⟩
    exact h ⟨front, more, by simp⟩
  have hs := splitWhen_append_left hn
  rw [List.append_nil] at hs
  simp [scanComment, hs, after?]

theorem scanOutside_data {c : Char} {cs : List Char} (h : startsMarkup (c :: cs) = false) :
    scanOutside c cs = ⟨.data, c :: (splitWhen startsMarkup cs).1,
      c :: (splitWhen startsMarkup cs).1, (splitWhen startsMarkup cs).2, false, none⟩ := by
  by_cases hc : c = '{'
  · subst hc
    cases cs with
    | nil => rfl
    | cons d ds =>
      simp only [startsMarkup, Bool.or_eq_false_iff, beq_eq_false_iff_ne] at h
      obtain ⟨⟨h, h'⟩, h''⟩ := h
      simp [scanOutside, delimiterPiece?, openers, after?, Ne.symm h, Ne.symm h', Ne.symm h'']
  · simp [scanOutside, delimiterPiece?, openers, after?, Ne.symm hc]

-- ---------------------------------------------------------------------------
-- Literals
-- ---------------------------------------------------------------------------

/-- A literal is taken up to the quote that closes it, whatever is spelled before. -/
theorem Spells.scanString_eq {quote : Char} (hq : quote ≠ '\\') {spelling value : List Char}
    (h : Spells quote spelling value) (rest : List Char) :
    scanString quote (spelling ++ quote :: rest) =
      ⟨.string, quote :: spelling ++ [quote], value, rest, true, none⟩ := by
  rw [scanString, h.cutAt_append hq rest, h.decodeString_eq]
  rfl

theorem Spells.scanString_open {quote : Char} (hq : quote ≠ '\\')
    {spelling value tail : List Char} (h : Spells quote spelling value)
    (ht : tail = [] ∨ tail = ['\\']) :
    scanString quote (spelling ++ tail) =
      ⟨.string, quote :: spelling ++ tail, value, [], true, some .unterminatedString⟩ := by
  rw [scanString, h.cutAt_open hq ht, h.decodeString_append ht]
  rfl

theorem scanRegex_eq {body value flags rest : List Char} (h : Spells '/' body value)
    (hf : ∀ c ∈ flags, isRegexFlag c) (hr : ∀ c ∈ rest.head?, isRegexFlag c = false) :
    scanRegex (body ++ '/' :: (flags ++ rest)) =
      ⟨.regex, 'r' :: '/' :: body ++ '/' :: flags, 'r' :: '/' :: body ++ '/' :: flags, rest,
        true, none⟩ := by
  rw [scanRegex, h.cutAt_append (by decide), splitRun_append_left hf hr]
  rfl

theorem scanRegex_open {body value tail : List Char} (h : Spells '/' body value)
    (ht : tail = [] ∨ tail = ['\\']) :
    scanRegex (body ++ tail) =
      ⟨.regex, 'r' :: '/' :: body ++ tail, 'r' :: '/' :: body ++ tail, [], true, none⟩ := by
  rw [scanRegex, h.cutAt_open (by decide) ht]
  simp [splitRun]

-- ---------------------------------------------------------------------------
-- Words and marks
-- ---------------------------------------------------------------------------

theorem delimiterPiece?_closers {c : Char} (h : c ∉ ['-', '%', '}']) (cs : List Char) :
    delimiterPiece? closers false (c :: cs) = none := by
  simp only [List.mem_cons, List.not_mem_nil, or_false, not_or] at h
  simp [delimiterPiece?, closers, after?, Ne.symm h.1, Ne.symm h.2.1, Ne.symm h.2.2]

theorem scanInside_word {c : Char} (hq : c ≠ '"' ∧ c ≠ '\'') (hc : isWordChar c)
    {cs : List Char} (hx : c = 'r' → cs.head? ≠ some '/') :
    scanInside c cs = scanWord c cs := by
  obtain ⟨hs, hd⟩ : isTagSpace c = false ∧ isDelimiter c = false := by simpa [isWordChar] using hc
  have hclose : c ∉ ['-', '%', '}'] := by
    simp only [List.mem_cons, List.not_mem_nil, or_false]
    rintro (rfl | rfl | rfl) <;> exact absurd hd (by decide)
  rw [scanInside_other (not_or.mpr hq) (by simp [hs]) (delimiterPiece?_closers hclose cs) hx,
    if_neg (by simp [hd])]

theorem scanWord_eq {c : Char} {run rest : List Char} (hw : ∀ d ∈ run, isWordChar d)
    (hr : ∀ d ∈ rest.head?, isWordChar d = false)
    (hn : wordKind (c :: run) = .int → rest.head? ≠ some '.') :
    scanWord c (run ++ rest) = ⟨wordKind (c :: run), c :: run, c :: run, rest, true, none⟩ := by
  simp only [scanWord, splitRun_append_left hw hr]
  split
  · rename_i hk
    exact absurd rfl (hn hk)
  · rfl

theorem isWordChar_of_isDigit {c : Char} (h : c.isDigit) : isWordChar c := by
  have hall : ([' ', '\n', '\t', '\r', '\u00a0'] ++ "()[]\x7b\x7d%*-+~/#,:|.<>=!".toList).all
      fun c => !c.isDigit := by decide
  have hno : c ∉ [' ', '\n', '\t', '\r', '\u00a0'] ++ "()[]\x7b\x7d%*-+~/#,:|.<>=!".toList := by
    intro hc
    have hc := List.all_eq_true.mp hall c hc
    simp [h] at hc
  rw [List.mem_append, not_or] at hno
  simp only [isWordChar, isTagSpace, isDelimiter, hno, decide_false, Bool.not_false, Bool.and_self]

theorem scanWord_float {c : Char} {run digits rest : List Char} (hw : ∀ d ∈ c :: run, d.isDigit)
    (hd : ∀ d ∈ digits, d.isDigit) (hr : ∀ d ∈ rest.head?, d.isDigit = false) :
    scanWord c (run ++ '.' :: (digits ++ rest)) =
      ⟨.float, c :: run ++ '.' :: digits, c :: run ++ '.' :: digits, rest, true, none⟩ := by
  have hrun : splitRun isWordChar (run ++ '.' :: (digits ++ rest)) =
      (run, '.' :: (digits ++ rest)) :=
    splitRun_append_left (fun d hd => isWordChar_of_isDigit (hw d (List.mem_cons_of_mem c hd)))
      (by rintro _ ⟨⟩; decide)
  simp only [scanWord, hrun, wordKind_eq_int_iff.mpr hw, splitRun_append_left hd hr]

/-- An operator starts with a mark, and with none that a closing delimiter starts with. -/
theorem exists_cons_of_longOperators {op : List Char} (h : op ∈ longOperators) :
    ∃ c cs, op = c :: cs ∧ isDelimiter c ∧ c ∉ ['-', '%', '}'] := by
  have hall : longOperators.all fun op =>
      !op.isEmpty && op.head?.all fun c => isDelimiter c && decide (c ∉ ['-', '%', '}']) := by decide
  have hop := List.all_eq_true.mp hall op h
  match op, hop with
  | c :: cs, hop =>
    simp only [List.isEmpty_cons, Bool.not_false, List.head?_cons, Option.all_some, Bool.true_and,
      Bool.and_eq_true, decide_eq_true_eq] at hop
    exact ⟨c, cs, rfl, hop⟩

theorem not_closes_of_longOperators {op : List Char} (h : op ∈ longOperators) (rest : List Char) :
    ∀ entry ∈ closers, ¬entry.1 <+: op ++ rest := by
  obtain ⟨c, cs, rfl, -, hc⟩ := exists_cons_of_longOperators h
  exact delimiterPiece?_eq_none_iff.mp (delimiterPiece?_closers hc (cs ++ rest))

/-- A delimiter of a tag is found behind no quote, no blank and no word. -/
theorem scanInside_delimiter {delimiter : List Char} {kind : TokenKind}
    (h : (delimiter, kind) ∈ closers) {rest : List Char} {c : Char} {cs : List Char}
    (htext : delimiter ++ rest = c :: cs) :
    scanInside c cs = ⟨kind, delimiter, delimiter, rest, false, none⟩ := by
  simp only [closers, List.mem_cons, Prod.mk.injEq, List.not_mem_nil, or_false] at h
  rcases h with ⟨rfl, rfl⟩ | ⟨rfl, rfl⟩ | ⟨rfl, rfl⟩ | ⟨rfl, rfl⟩
  all_goals
    obtain ⟨rfl, rfl⟩ := List.cons.inj htext
    simp [scanInside, isTagSpace, delimiterPiece?, closers, after?]

theorem scanInside_mark {c : Char} (h : isDelimiter c) {rest : List Char}
    (hc : ∀ entry ∈ closers, ¬entry.1 <+: c :: rest) :
    scanInside c rest = scanOperator c rest := by
  have hall : "()[]\x7b\x7d%*-+~/#,:|.<>=!".toList.all fun c =>
      !(c == '"' || c == '\'' || c == 'r' || isTagSpace c) := by decide
  simp only [isDelimiter, decide_eq_true_eq] at h
  have hno := List.all_eq_true.mp hall c h
  simp only [Bool.not_eq_true', Bool.or_eq_false_iff, beq_eq_false_iff_ne] at hno
  obtain ⟨⟨hq, hr⟩, hs⟩ := hno
  rw [scanInside_other (not_or.mpr hq) (by simp [hs]) (delimiterPiece?_eq_none_iff.mpr hc)
    fun he => absurd he hr, if_pos (by simpa [isDelimiter] using h)]

theorem scanOperator_eq {delimiter rest : List Char} (h : delimiter ∈ longOperators)
    (hr : ∀ c ∈ rest.head?, delimiter ++ [c] ∉ longOperators) {c : Char} {cs : List Char}
    (htext : delimiter ++ rest = c :: cs) :
    scanOperator c cs = ⟨.operator, delimiter, delimiter, rest, true, none⟩ := by
  have hr : ∀ c ∈ rest.head?, ∀ entry ∈ longOperators.map (·, TokenKind.operator),
      entry.1 ≠ delimiter ++ [c] := by
    intro c hc entry hm he
    obtain ⟨longer, hl, rfl⟩ := List.mem_map.mp hm
    exact hr c hc (he ▸ hl)
  have hm : (delimiter, .operator) ∈ longOperators.map (·, TokenKind.operator) :=
    List.mem_map_of_mem h
  have hp := delimiterPiece?_eq_some (by decide) (by decide) (by decide) hm hr true
  rw [scanOperator, ← htext, hp]

theorem scanOperator_mark {c : Char} {rest : List Char}
    (hr : ∀ d ∈ rest.head?, [c, d] ∉ longOperators) :
    scanOperator c rest = ⟨delimiterKind c, [c], [c], rest, true, none⟩ := by
  have hp : delimiterPiece? (longOperators.map (·, TokenKind.operator)) true (c :: rest) = none := by
    refine delimiterPiece?_eq_none_iff.mpr fun entry hm hfront => ?_
    obtain ⟨longer, hl, rfl⟩ := List.mem_map.mp hm
    -- the first two characters of an operator are one
    have htwo : longer.take 2 ∈ longOperators ∧ 2 ≤ longer.length :=
      (by decide : ∀ op ∈ longOperators, op.take 2 ∈ longOperators ∧ 2 ≤ op.length) longer hl
    obtain ⟨more, hmore⟩ := hfront
    match longer, htwo, hmore with
    | c :: d :: _, htwo, hmore =>
      obtain ⟨rfl, rfl⟩ := List.cons.inj hmore
      exact hr d rfl htwo.1
  rw [scanOperator, hp]

-- ---------------------------------------------------------------------------
-- Every rule
-- ---------------------------------------------------------------------------

/-- A piece that a rule allows is the one that is taken. -/
theorem Scanned.scan_eq {inTag : Bool} {p : Piece} (h : Scanned inTag p) {c : Char}
    {cs : List Char} (htext : p.slice ++ p.rest = c :: cs) : scan inTag c cs = p := by
  cases h with
  | opener rest h hr => exact scanOutside_opener h hr htext
  | comment rest h =>
    obtain ⟨rfl, rfl⟩ := List.cons.inj htext
    have hs := scanComment_eq h rest
    simpa [scan, scanOutside_comment] using hs
  | openComment h =>
    obtain ⟨rfl, rfl⟩ := List.cons.inj htext
    have hs := scanComment_open h
    simpa [scan, scanOutside_comment] using hs
  | @data slice rest hs h hr =>
    obtain ⟨d, run, rfl⟩ := List.exists_cons_of_ne_nil hs
    obtain ⟨rfl, rfl⟩ := List.cons.inj htext
    have hrest : splitWhen startsMarkup rest = ([], rest) := by
      cases rest with
      | nil => rfl
      | cons e rest => rw [splitWhen_cons, if_pos (hr (List.cons_ne_nil e rest))]
    have hrun : splitWhen startsMarkup (run ++ rest) = (run, rest) := by
      rw [splitWhen_append_left fun front back hf hb => h (d :: front) back (by simp [hf]) hb,
        hrest, List.append_nil]
    have hd := scanOutside_data (h [] (d :: run) rfl (List.cons_ne_nil d run))
    rw [List.append_eq, hrun] at hd
    exact hd
  | string rest hq h =>
    obtain ⟨rfl, rfl⟩ := List.cons.inj htext
    have hs := h.scanString_eq (ne_backslash_of_quote hq) rest
    rw [scan, if_pos rfl, scanInside_quote hq]
    simpa using hs
  | openString hq h ht =>
    rw [List.append_nil] at htext
    obtain ⟨rfl, rfl⟩ := List.cons.inj htext
    rw [scan, if_pos rfl, scanInside_quote hq]
    exact h.scanString_open (ne_backslash_of_quote hq) ht
  | @whitespace slice rest hs h hr =>
    obtain ⟨d, run, rfl⟩ := List.exists_cons_of_ne_nil hs
    obtain ⟨rfl, rfl⟩ := List.cons.inj htext
    obtain ⟨hd, hrun⟩ := List.forall_mem_cons.mp h
    have hq : ¬(d = '"' ∨ d = '\'') := by
      rintro (rfl | rfl) <;> exact absurd hd (by decide)
    rw [scan, if_pos rfl, scanInside_space hq hd, List.append_eq, splitRun_append_left hrun hr]
  | closer rest h => exact scanInside_delimiter h htext
  | regex h hf hr =>
    obtain ⟨rfl, rfl⟩ := List.cons.inj htext
    rw [scan, if_pos rfl]
    simpa [scanInside_regex] using scanRegex_eq h hf hr
  | openRegex h ht =>
    rw [List.append_nil] at htext
    obtain ⟨rfl, rfl⟩ := List.cons.inj htext
    rw [scan, if_pos rfl]
    exact (scanInside_regex _).trans (scanRegex_open h ht)
  | operator rest h hr =>
    obtain ⟨d, ds, rfl, hd, -⟩ := exists_cons_of_longOperators h
    have hs := scanOperator_eq h hr htext
    have hno := not_closes_of_longOperators h rest
    obtain ⟨rfl, rfl⟩ := List.cons.inj htext
    exact (scanInside_mark hd hno).trans hs
  | mark rest h hr hc =>
    obtain ⟨rfl, rfl⟩ := List.cons.inj htext
    exact (scanInside_mark h hc).trans (scanOperator_mark hr)
  | word hq h hr hx hn =>
    obtain ⟨rfl, rfl⟩ := List.cons.inj htext
    obtain ⟨hc, hrun⟩ := List.forall_mem_cons.mp h
    rw [scan, if_pos rfl, List.append_eq, scanInside_word hq hc hx]
    exact scanWord_eq hrun hr hn
  | @float word digits rest hw hd hr =>
    obtain ⟨hne, hw⟩ := hw
    obtain ⟨d, run, rfl⟩ := List.exists_cons_of_ne_nil hne
    obtain ⟨rfl, rfl⟩ := List.cons.inj htext
    have hdigit := hw d List.mem_cons_self
    have hq : d ≠ '"' ∧ d ≠ '\'' := by
      constructor <;> rintro rfl <;> exact absurd hdigit (by decide)
    have hx : d ≠ 'r' := by
      rintro rfl
      exact absurd hdigit (by decide)
    rw [scan, if_pos rfl, scanInside_word hq (isWordChar_of_isDigit hdigit) fun he => absurd he hx]
    simpa using scanWord_float hw hd hr

theorem Scanned.pieces_eq {inTag : Bool} {p : Piece} (h : Scanned inTag p) :
    pieces inTag (p.slice ++ p.rest) = p :: pieces p.inTag p.rest := by
  obtain ⟨c, cs, htext⟩ := List.exists_cons_of_ne_nil
    (List.append_ne_nil_of_left_ne_nil h.slice_ne_nil p.rest)
  rw [htext, pieces_cons, h.scan_eq htext]

end TemplateTree
