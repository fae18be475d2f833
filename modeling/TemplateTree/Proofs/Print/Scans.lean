import TemplateTree.Proofs.Print.Comment
import TemplateTree.Proofs.Reading.FeedAll
import TemplateTree.Proofs.Token.Append
import TemplateTree.Proofs.Token.Fits

/-!
# Scanning what was printed

What scanning takes off a printed template, part by part: each part gives the
tokens it is made of whatever is printed behind it. Of the tokens only those are
told that a reading looks at.
-/

namespace TemplateTree

/-- A token without its place. -/
abbrev Saying := TokenKind × String

def Piece.saying (p : Piece) : Saying := (p.kind, String.ofList p.value)

/-- In front of `rest`, the text `cs` is cut by itself, without a problem, and
the pieces that count say `ws`. -/
def Scans (inTag : Bool) (cs : List Char) (inTag' : Bool) (rest : List Char)
    (ws : List Saying) : Prop :=
  ∃ ps, pieces inTag (cs ++ rest) = ps ++ pieces inTag' rest ∧ (∀ p ∈ ps, p.problem? = none) ∧
    (ps.filter fun p => p.kind.counts).map Piece.saying = ws

variable {inTag inTag' inTag'' : Bool} {cs ds rest : List Char} {ws ws' : List Saying}

theorem Scans.nil : Scans inTag [] inTag rest [] := ⟨[], rfl, by simp, rfl⟩

theorem Scans.append (h : Scans inTag cs inTag' (ds ++ rest) ws)
    (h' : Scans inTag' ds inTag'' rest ws') :
    Scans inTag (cs ++ ds) inTag'' rest (ws ++ ws') := by
  obtain ⟨ps, hp, hn, rfl⟩ := h
  obtain ⟨qs, hq, hn', rfl⟩ := h'
  refine ⟨ps ++ qs, ?_, ?_, by simp⟩
  · rw [List.append_assoc, hp, hq, List.append_assoc]
  · intro p hp
    rcases List.mem_append.mp hp with hp | hp
    · exact hn p hp
    · exact hn' p hp

/-- A piece that a rule allows is cut off the text. -/
theorem Scans.one {p : Piece} (h : Scanned inTag p) (hn : p.problem? = none)
    (hk : p.kind.counts) : Scans inTag p.slice p.inTag p.rest [p.saying] :=
  ⟨[p], h.pieces_eq, by simp [hn], by simp [hk]⟩

theorem Scans.pass {p : Piece} (h : Scanned inTag p) (hn : p.problem? = none)
    (hk : p.kind.counts = false) : Scans inTag p.slice p.inTag p.rest [] :=
  ⟨[p], h.pieces_eq, by simp [hn], by simp [hk]⟩

-- ---------------------------------------------------------------------------
-- Inside a tag
-- ---------------------------------------------------------------------------

/-- The text goes on with a blank or a comma. -/
def Separated (cs : List Char) : Prop := ∃ c ds, cs = c :: ds ∧ (c = ' ' ∨ c = ',')

theorem Separated.not_wordChar (h : Separated rest) : ∀ c ∈ rest.head?, isWordChar c = false := by
  obtain ⟨c, ds, rfl, rfl | rfl⟩ := h <;> simp <;> decide

theorem Scans.after_blank (h : Scans true cs inTag rest ws)
    (hc : ∀ c ∈ (cs ++ rest).head?, isTagSpace c = false) :
    Scans true (' ' :: cs) inTag rest ws := by
  have hs : Scanned true ⟨.whitespace, [' '], [' '], cs ++ rest, true, none⟩ :=
    .whitespace nofun (List.forall_mem_singleton.mpr rfl) hc
  exact (Scans.pass hs rfl rfl).append h

theorem Word.kind_eq (w : Word) : wordKind w.chars = .symbol := by
  have hn := w.not_number
  have hl := w.not_literal
  simp only [List.mem_cons, List.not_mem_nil, or_false, not_or] at hl
  simp [wordKind, hn, hl]

theorem Word.wholeWord (w : Word) (h : Separated rest) : WholeWord w.chars rest where
  ne_nil := w.ne_nil
  isWordChar := List.all_eq_true.mp w.wordChars
  unquoted c hc := by
    have hq := w.no_quote
    rw [Option.mem_def.mp hc] at hq
    simpa using hq
  ends := h.not_wordChar
  not_regex _ := by obtain ⟨c, ds, rfl, rfl | rfl⟩ := h <;> simp

theorem scans_symbol (w : Word) (h : Separated rest) :
    Scans true w.chars true rest [(.symbol, w.text)] :=
  .one ((w.wholeWord h).scanned w.kind_eq nofun) rfl rfl

theorem Word.head_not_space (w : Word) (rest : List Char) :
    ∀ c ∈ (w.chars ++ rest).head?, isTagSpace c = false := by
  obtain ⟨chars, hn, hw, -⟩ := w
  cases chars with
  | nil => exact absurd rfl hn
  | cons c cs =>
    rintro d ⟨⟩
    simp only [List.all_cons, isWordChar, Bool.and_eq_true, Bool.not_eq_true'] at hw
    exact hw.1.1

theorem spells_escape (cs : List Char) : Spells '"' (escape cs) cs := by
  induction cs with
  | nil => exact .nil
  | cons c cs ih =>
    rw [escape, List.flatMap_cons]
    split
    · rename_i hc
      have hu : unescape c = c := by rcases hc with rfl | rfl <;> rfl
      have he := Spells.escaped (c := c) ih
      rwa [hu] at he
    · rename_i hc
      exact .plain (fun h => hc (.inr h)) (fun h => hc (.inl h)) ih

/-- Whatever stands between the quotes, the literal ends where it was printed to end. -/
theorem scans_literal (value : String) (rest : List Char) :
    Scans true ('"' :: escape value.toList ++ ['"']) true rest [(.string, value)] := by
  have hs := Scanned.string rest (.inl rfl) (spells_escape value.toList)
  have h := Scans.one hs rfl rfl
  rwa [Piece.saying, String.ofList_toList] at h

theorem scans_mark {c : Char} (h : c = ',' ∨ c = '+') (rest : List Char) :
    Scans true [c] true rest [] := by
  have hc : isDelimiter c ∧ c ∉ ['-', '%', '}'] ∧ (delimiterKind c).counts = false := by
    rcases h with rfl | rfl <;> decide
  have hlong : ∀ d ∈ rest.head?, [c, d] ∉ longOperators := by
    rcases h with rfl | rfl <;> simp [longOperators]
  obtain ⟨hd, hclose, hk⟩ := hc
  have hs := Scanned.mark rest hd hlong
    (delimiterPiece?_eq_none_iff.mp (delimiterPiece?_closers hclose rest))
  exact .pass hs rfl hk

theorem scans_close (rest : List Char) :
    Scans true ['%', '}'] false rest [(.blockEnd, "%\x7d")] := by
  have hs : Scanned true ⟨.blockEnd, ['%', '}'], ['%', '}'], rest, false, none⟩ :=
    .closer rest (by decide)
  exact .one hs rfl rfl

theorem scans_open (h : Separated rest) :
    Scans false ['{', '%'] true rest [(.blockStart, "\x7b%")] := by
  have hs : Scanned false ⟨.blockStart, ['{', '%'], ['{', '%'], rest, true, none⟩ := by
    refine .opener rest (by decide) ?_
    obtain ⟨c, ds, rfl, rfl | rfl⟩ := h
    all_goals
      rintro _ ⟨⟩
      decide
  exact .one hs rfl rfl

-- ---------------------------------------------------------------------------
-- Tags
-- ---------------------------------------------------------------------------

/-- What an atom says to a reading. -/
def Atom.sayings : Atom → List Saying
  | .word w => [(.symbol, w.text)]
  | .literal value => [(.string, value)]
  | .comma | .plus => []

theorem Atom.separated (a : Atom) (rest : List Char) : Separated (a.chars ++ rest) := by
  cases a with
  | comma => exact ⟨',', rest, rfl, .inr rfl⟩
  | _ => exact ⟨' ', _, rfl, .inl rfl⟩

theorem scans_atom (a : Atom) (h : Separated rest) : Scans true a.chars true rest a.sayings := by
  cases a with
  | word w => exact (scans_symbol w h).after_blank (w.head_not_space rest)
  | literal value => exact (scans_literal value rest).after_blank (by rintro c ⟨⟩; rfl)
  | comma => exact scans_mark (.inl rfl) rest
  | plus => exact (scans_mark (.inr rfl) rest).after_blank (by rintro c ⟨⟩; rfl)

theorem separated_atoms (atoms : List Atom) (h : Separated rest) :
    Separated (atoms.flatMap Atom.chars ++ rest) := by
  cases atoms with
  | nil => exact h
  | cons a atoms =>
    rw [List.flatMap_cons, List.append_assoc]
    exact a.separated _

theorem scans_atoms (atoms : List Atom) (h : Separated rest) :
    Scans true (atoms.flatMap Atom.chars) true rest (atoms.flatMap Atom.sayings) := by
  induction atoms with
  | nil => exact .nil
  | cons a atoms ih =>
    rw [List.flatMap_cons, List.flatMap_cons]
    exact .append (scans_atom a (separated_atoms atoms h)) ih

/-- What a tag says to a reading. -/
def tagSayings (atoms : List Atom) : List Saying :=
  [(.blockStart, "\x7b%")] ++ atoms.flatMap Atom.sayings ++ [(.blockEnd, "%\x7d")]

theorem scans_printTag (atoms : List Atom) (rest : List Char) :
    Scans false (printTag atoms) false rest (tagSayings atoms) := by
  have hclose := (scans_close rest).after_blank (by rintro c ⟨⟩; rfl)
  have hsep : Separated ([' ', '%', '}'] ++ rest) := ⟨' ', _, rfl, .inl rfl⟩
  have hopen := scans_open (separated_atoms atoms hsep)
  exact .append (.append hopen (scans_atoms atoms hsep)) hclose

-- ---------------------------------------------------------------------------
-- Comments
-- ---------------------------------------------------------------------------

/-- Two characters stand next to each other in one of two texts, or at the seam. -/
theorem pair_infix_append {a b : Char} (h : [a, b] <:+: cs ++ ds) :
    [a, b] <:+: cs ∨ [a, b] <:+: ds ∨ [a] <:+ cs ∧ [b] <+: ds := by
  obtain ⟨front, back, h⟩ := h
  rw [List.append_assoc, List.append_eq_append_iff] at h
  rcases h with ⟨mid, rfl, h⟩ | ⟨mid, rfl, rfl⟩
  · match mid, h with
    | [], h => exact .inr (.inl ⟨[], back, by simpa using h⟩)
    | [c], h =>
      simp only [List.cons_append, List.nil_append, List.cons.injEq] at h
      obtain ⟨rfl, h⟩ := h
      exact .inr (.inr ⟨⟨front, rfl⟩, back, h⟩)
    | c :: d :: mid, h =>
      simp only [List.cons_append, List.cons.injEq] at h
      obtain ⟨rfl, rfl, -⟩ := h
      exact .inl ⟨front, mid, by simp⟩
  · exact .inr (.inl ⟨mid, back, by simp⟩)

theorem commentBody_no_end (text : PaddedText) (trimLeft trimRight : Bool) :
    ¬['#', '}'] <:+: commentBody text.chars trimLeft trimRight := by
  intro h
  rcases pair_infix_append h with h | h | ⟨-, h⟩
  · rcases pair_infix_append h with h | h | ⟨h, -⟩
    · revert h
      cases trimLeft <;> decide
    · exact text.no_end h
    · revert h
      cases trimLeft <;> decide
  · revert h
    cases trimRight <;> decide
  · revert h
    cases trimRight <;> decide

theorem scans_printComment (text : PaddedText) (trimLeft trimRight : Bool) (rest : List Char) :
    Scans false (printComment text.chars trimLeft trimRight) false rest
      [(.comment, String.ofList (printComment text.chars trimLeft trimRight))] := by
  have hno : ¬['#', '}'] <:+: commentBody text.chars trimLeft trimRight ++ ['#'] := by
    intro h
    rcases pair_infix_append h with h | h | ⟨-, h⟩
    · exact commentBody_no_end text trimLeft trimRight h
    · exact absurd h (by decide)
    · exact absurd h (by decide)
  rw [printComment_eq]
  exact .one (.comment rest hno) rfl rfl

-- ---------------------------------------------------------------------------
-- Running text
-- ---------------------------------------------------------------------------

/-- No markup starts in running text, also not with what follows it. -/
theorem RunningText.startsMarkup_eq (text : RunningText) {front back : List Char}
    (h : front ++ back = text.chars) (hb : back ≠ []) (rest : List Char) :
    startsMarkup (back ++ rest) = false := by
  rw [← Bool.not_eq_true, startsMarkup_iff]
  rintro ⟨c, more, hm, hc⟩
  match back, hb, hm with
  | [d], _, hm =>
    simp only [List.cons_append, List.cons.injEq] at hm
    obtain ⟨rfl, -⟩ := hm
    exact text.no_brace ⟨front, h⟩
  | d :: e :: back, _, hm =>
    simp only [List.cons_append, List.cons.injEq] at hm
    obtain ⟨rfl, rfl, -⟩ := hm
    have hi : ['{', e] <:+: text.chars := ⟨front, back, by simpa using h⟩
    rcases hc with rfl | rfl | rfl
    · exact text.no_block hi
    · exact text.no_variable hi
    · exact text.no_comment hi

/-- Running text is one piece up to markup or the end, or none. -/
theorem scans_running (text : RunningText) (h : rest = [] ∨ startsMarkup rest) :
    Scans false text.chars false rest [] := by
  have hm := fun front back => @RunningText.startsMarkup_eq text front back
  generalize text.chars = cs at hm ⊢
  cases cs with
  | nil => exact .nil
  | cons c cs =>
    have hs : Scanned false ⟨.data, c :: cs, c :: cs, rest, false, none⟩ :=
      .data nofun (fun front back hf hb => hm front back hf hb rest) h.resolve_left
    exact .pass hs rfl rfl

-- ---------------------------------------------------------------------------
-- Whole templates
-- ---------------------------------------------------------------------------

def RunningText.empty : RunningText where
  chars := []
  no_block := by simp
  no_variable := by simp
  no_comment := by simp
  no_brace := by simp

theorem RunningText.no_pair_append (t u : RunningText) {c : Char}
    (ht : ¬['{', c] <:+: t.chars) (hu : ¬['{', c] <:+: u.chars) :
    ¬['{', c] <:+: t.chars ++ u.chars := by
  intro h
  rcases pair_infix_append h with h | h | ⟨h, -⟩
  · exact ht h
  · exact hu h
  · exact t.no_brace h

/-- Two running texts are one, since the first does not end in a brace. -/
def RunningText.append (t u : RunningText) : RunningText where
  chars := t.chars ++ u.chars
  no_block := t.no_pair_append u t.no_block u.no_block
  no_variable := t.no_pair_append u t.no_variable u.no_variable
  no_comment := t.no_pair_append u t.no_comment u.no_comment
  no_brace := by
    rintro ⟨front, h⟩
    rcases List.eq_nil_or_concat u.chars with hu | ⟨us, c, hu⟩
    · exact t.no_brace ⟨front, by simpa [hu] using h⟩
    · rw [List.concat_eq_append] at hu
      rw [hu, ← List.append_assoc] at h
      obtain ⟨-, hc⟩ := List.append_inj' h rfl
      exact u.no_brace ⟨us, by rw [hu, hc]⟩

/-- What a part says to a reading. -/
def Part.sayings : Part → List Saying
  | .data _ => []
  | .comment text trimLeft trimRight =>
    [(.comment, String.ofList (printComment text.chars trimLeft trimRight))]
  | .importNames path names withContext => tagSayings (namesAtoms path names withContext)
  | .importTarget path name withContext => tagSayings (targetAtoms path name withContext)
  | .including path left? ignoreMissing => tagSayings (includingAtoms path left? ignoreMissing)

/-- Any part but running text starts markup and is cut by itself. -/
theorem scans_part (p : Part) (rest : List Char) :
    (∃ text, p = .data text) ∨
      startsMarkup (p.chars ++ rest) ∧ Scans false p.chars false rest p.sayings := by
  cases p with
  | data text => exact .inl ⟨text, rfl⟩
  | comment text trimLeft trimRight =>
    refine .inr ⟨?_, scans_printComment text trimLeft trimRight rest⟩
    rw [Part.chars, printComment_eq]
    rfl
  | importNames | importTarget | including => exact .inr ⟨rfl, scans_printTag _ rest⟩

/-- Printed parts say one after the other what each of them does. Running text
waits for what follows it. -/
theorem scans_parts (waiting : RunningText) (parts : List Part) :
    Scans false (waiting.chars ++ parts.flatMap Part.chars) false []
      (parts.flatMap Part.sayings) := by
  induction parts generalizing waiting with
  | nil =>
    rw [List.flatMap_nil, List.append_nil]
    exact scans_running waiting (.inl rfl)
  | cons p parts ih =>
    rw [List.flatMap_cons, List.flatMap_cons]
    have hrest := ih .empty
    rw [RunningText.empty, List.nil_append] at hrest
    rcases scans_part p (parts.flatMap Part.chars ++ []) with ⟨text, rfl⟩ | ⟨hm, hp⟩
    · rw [← List.append_assoc]
      exact ih (waiting.append text)
    · have hw := scans_running waiting (.inr hm)
      rw [← List.append_assoc] at hw
      exact hw.append (hp.append hrest)

end TemplateTree
