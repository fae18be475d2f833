import TemplateTree.Proofs.Position.Moved
import TemplateTree.Proofs.Token.Taken

/-!
# Text after a closed text

A scan that leaves two characters, or that ends a tag or a comment, has not
looked at what follows the text. So a text whose last piece closes a tag or a
comment is cut into the same pieces whatever follows it, and what follows is
cut as a text of its own (`pieces_append`).
-/

namespace TemplateTree

/-- The piece when more text follows. -/
def Piece.followedBy (p : Piece) (more : List Char) : Piece := { p with rest := p.rest ++ more }

/-- The piece leaves no tag and no comment open behind it. -/
def Piece.Closes (p : Piece) : Prop :=
  p.kind = .blockEnd ∨ p.kind = .variableEnd ∨ p.kind = .comment ∧ p.problem? = none

-- ---------------------------------------------------------------------------
-- Pieces
-- ---------------------------------------------------------------------------

/-- What closes is a delimiter of a tag, or a comment with both its own. -/
theorem Scanned.closes_cases {inTag : Bool} {p : Piece} (hs : Scanned inTag p) (hc : p.Closes) :
    (∃ delimiter kind rest, inTag = true ∧ (delimiter, kind) ∈ closers ∧
        p = ⟨kind, delimiter, delimiter, rest, false, none⟩) ∨
      ∃ body rest, inTag = false ∧ ¬['#', '}'] <:+: body ++ ['#'] ∧
        p = ⟨.comment, '{' :: '#' :: body ++ ['#', '}'], '{' :: '#' :: body ++ ['#', '}'], rest,
          false, none⟩ := by
  cases hs with
  | closer rest h => exact .inl ⟨_, _, rest, rfl, h, rfl⟩
  | comment rest h => exact .inr ⟨_, rest, rfl, h, rfl⟩
  | opener rest h => rcases kind_of_mem_openers h with rfl | rfl <;> simp [Piece.Closes] at hc
  | @mark c =>
    rcases hc with h | h | ⟨h, -⟩
    all_goals exact absurd h (delimiterKind_ne (by decide) c)
  | @word c run =>
    rcases hc with h | h | ⟨h, -⟩
    all_goals exact absurd h (wordKind_ne (by decide) (c :: run))
  | _ => simp [Piece.Closes] at hc

/-- What closes leaves running text behind it and takes up two characters or more. -/
theorem Scanned.closes {inTag : Bool} {p : Piece} (hs : Scanned inTag p) (hc : p.Closes) :
    p.inTag = false ∧ 2 ≤ p.slice.length := by
  rcases hs.closes_cases hc with ⟨delimiter, kind, rest, -, hm, rfl⟩ | ⟨body, rest, -, -, rfl⟩
  · exact ⟨rfl, (by decide : ∀ entry ∈ closers, 2 ≤ entry.1.length) _ hm⟩
  · exact ⟨rfl, by simp⟩

theorem startsMarkup_append {cs : List Char} (more : List Char) (h : 2 ≤ cs.length) :
    startsMarkup (cs ++ more) = startsMarkup cs := by
  match cs, h with
  | c :: d :: cs, _ =>
    by_cases hc : c = '{'
    · subst hc
      rfl
    · simp [startsMarkup, hc]

/-- No rule looks at more than two characters behind a piece, and none looks behind a
delimiter that closes. -/
theorem Scanned.followedBy {inTag : Bool} {p : Piece} (hs : Scanned inTag p) (more : List Char)
    (h : 2 ≤ p.rest.length ∨ p.Closes) : Scanned inTag (p.followedBy more) := by
  rcases h with hl | hc
  · have hhead : (p.rest ++ more).head? = p.rest.head? := by
      match p.rest, hl with
      | c :: cs, _ => rfl
    cases hs with
    | openComment | openString | openRegex => simp at hl
    | comment rest h => exact .comment (rest ++ more) h
    | string rest hq h => exact .string (rest ++ more) hq h
    | closer rest h => exact .closer (rest ++ more) h
    | opener rest h hr => exact .opener (rest ++ more) h (hhead ▸ hr)
    | whitespace hs h hr => exact .whitespace hs h (hhead ▸ hr)
    | regex h hf hr => exact .regex h hf (hhead ▸ hr)
    | operator rest h hr => exact .operator (rest ++ more) h (hhead ▸ hr)
    | float hw hd hr => exact .float hw hd (hhead ▸ hr)
    | @data slice rest hs h hr =>
      refine .data hs (fun front back hf hb => ?_) fun _ => ?_
      · rw [← List.append_assoc, startsMarkup_append more]
        · exact h front back hf hb
        · exact Nat.le_trans hl (List.length_append ▸ Nat.le_add_left _ _)
      · rw [startsMarkup_append more hl]
        exact hr (List.ne_nil_of_length_pos (Nat.lt_of_lt_of_le (by decide) hl))
    | @mark c rest h hr hc =>
      refine .mark (rest ++ more) h (hhead ▸ hr) fun entry hm hfront => hc entry hm ?_
      have hlength : entry.1.length ≤ (c :: rest).length :=
        Nat.le_trans ((by decide : ∀ entry ∈ closers, entry.1.length ≤ 3) entry hm)
          (Nat.succ_le_succ hl)
      exact List.prefix_of_prefix_length_le hfront ⟨more, rfl⟩ hlength
    | @word c run rest hq h hr hx hn =>
      refine .word hq h (hhead ▸ hr) (fun hc => ?_) (hhead ▸ hn)
      cases run with
      | nil => exact hhead ▸ hx hc
      | cons d run => exact hx hc
  · rcases hs.closes_cases hc with ⟨delimiter, kind, rest, rfl, hm, rfl⟩ | ⟨body, rest, rfl, hb, rfl⟩
    · exact .closer (rest ++ more) hm
    · exact .comment (rest ++ more) hb

/-- A scan that leaves two characters or closes what it is in does not see more text. -/
theorem scan_append {inTag : Bool} {c : Char} {cs : List Char} (more : List Char)
    (h : 2 ≤ (scan inTag c cs).rest.length ∨ (scan inTag c cs).Closes) :
    scan inTag c (cs ++ more) = (scan inTag c cs).followedBy more := by
  refine ((scanned_scan inTag c cs).followedBy more h).scan_eq ?_
  simp only [Piece.followedBy]
  rw [← List.append_assoc, slice_append_rest_scan]
  rfl

-- ---------------------------------------------------------------------------
-- Texts
-- ---------------------------------------------------------------------------

/-- A text that closes its last tag or comment is cut by itself, and what
follows it is cut by itself. -/
theorem pieces_append {inTag : Bool} {cs : List Char} (more : List Char)
    (h : ∃ last, (pieces inTag cs).getLast? = some last ∧ last.Closes) :
    pieces inTag (cs ++ more) =
      (pieces inTag cs).map (·.followedBy more) ++ pieces false more := by
  induction inTag, cs using pieces.induct with
  | case1 inTag => simp at h
  | case2 inTag c cs ih =>
    obtain ⟨last, hl, hc⟩ := h
    have hs := scanned_scan inTag c cs
    rw [pieces_cons] at hl
    rw [List.cons_append, pieces_cons, pieces_cons]
    by_cases hr : (scan inTag c cs).rest = []
    · rw [hr, pieces_nil] at hl
      obtain rfl : scan inTag c cs = last := by simpa using hl
      rw [scan_append more (.inr hc)]
      simp [Piece.followedBy, hr, (hs.closes hc).1]
    · rw [List.getLast?_cons_of_ne_nil (pieces_ne_nil hr)] at hl
      obtain ⟨ps, hps⟩ := List.getLast?_eq_some_iff.1 hl
      -- the last piece stands in the rest, so two characters of it are in the text
      have h2 : 2 ≤ (scan inTag c cs).rest.length := by
        obtain ⟨t, hs⟩ := exists_scanned_of_mem_pieces (hps ▸ List.mem_append_right ps (.head _))
        have := (hs.closes hc).2
        rw [← slices_pieces (scan inTag c cs).inTag (scan inTag c cs).rest, hps]
        simp only [slices_append, slices_cons, List.length_append]
        omega
      rw [scan_append more (.inl h2)]
      simp only [Piece.followedBy, List.map_cons, List.cons_append]
      rw [ih ⟨last, hl, hc⟩]
      rfl

-- ---------------------------------------------------------------------------
-- Lexemes
-- ---------------------------------------------------------------------------

theorem Piece.lexeme_followedBy (base place : Place) (p : Piece) :
    p.lexeme (base.followedBy place) = (p.lexeme place).moved base := by
  simp only [lexeme, Lexeme.moved, Place.followedBy, Lexeme.mk.injEq, true_and]
  grind

theorem Piece.lexemes_followedBy (base place : Place) (ps : List Piece) :
    lexemes (base.followedBy place) ps = (lexemes place ps).map (Lexeme.moved base) := by
  induction ps generalizing place with
  | nil => rfl
  | cons p ps ih =>
    rw [lexemes, Place.advance_eq, Place.followedBy_assoc, ← Place.advance_eq, ih,
      lexeme_followedBy]
    rfl

theorem Piece.lexemes_map_followedBy (place : Place) (ps : List Piece) (more : List Char) :
    lexemes place (ps.map (·.followedBy more)) = lexemes place ps := by
  induction ps generalizing place with
  | nil => rfl
  | cons p ps ih => exact congrArg (p.lexeme place :: ·) (ih (place.advance p.slice))

@[simp] theorem slices_map_followedBy (ps : List Piece) (more : List Char) :
    slices (ps.map (·.followedBy more)) = slices ps := List.flatMap_map _ _ _

theorem Piece.exists_of_getLast?_lexemes {place : Place} {ps : List Piece} {l : Lexeme}
    (h : (lexemes place ps).getLast? = some l) :
    ∃ p place', ps.getLast? = some p ∧ l = p.lexeme place' := by
  induction ps generalizing place with
  | nil => simp [lexemes] at h
  | cons p ps ih =>
    cases ps with
    | nil => exact ⟨p, place, rfl, by simpa [lexemes, eq_comm] using h⟩
    | cons q qs =>
      rw [List.getLast?_cons_cons]
      have hl : (lexemes (place.advance p.slice) (q :: qs)).getLast? = some l := by
        simpa [lexemes] using h
      exact ih hl

/-- The lexeme is the last of a tag, or a comment with both its delimiters. -/
def Lexeme.EndsMarkup (l : Lexeme) : Prop :=
  l.kind = .blockEnd ∨ l.kind = .variableEnd ∨
    l.kind = .comment ∧ ∃ body, l.value.toList = '{' :: '#' :: body ++ ['#', '}']

theorem Scanned.closes_of_endsMarkup {inTag : Bool} {p : Piece} (hs : Scanned inTag p)
    {place : Place} (h : (p.lexeme place).EndsMarkup) : p.Closes := by
  rcases h with h | h | ⟨hk, body, hb⟩
  · exact .inl h
  · exact .inr (.inl h)
  refine .inr (.inr ⟨hk, ?_⟩)
  cases hs with
  | openComment hn =>
    refine absurd ⟨body, [], ?_⟩ hn
    simpa [Piece.lexeme, eq_comm] using hb
  | openString => cases hk
  | _ => rfl

/-- A text that closes its last tag or comment, or has none, is read by itself,
and what follows it is read as a text of its own, further down. -/
theorem lex_append {a b : String}
    (h : a = "" ∨ ∃ l, (Lexer.ofText a).lex.1.getLast? = some l ∧ l.EndsMarkup) :
    (Lexer.ofText (a ++ b)).lex.1 =
      (Lexer.ofText a).lex.1 ++
        (Lexer.ofText b).lex.1.map (Lexeme.moved (Place.endOf a.toList)) := by
  have hp : pieces false (a.toList ++ b.toList) =
      (pieces false a.toList).map (·.followedBy b.toList) ++ pieces false b.toList := by
    rcases h with rfl | ⟨l, hl, he⟩
    · simp
    rw [Lexer.lex_ofText_fst] at hl
    obtain ⟨p, place, hp, rfl⟩ := Piece.exists_of_getLast?_lexemes hl
    obtain ⟨_, hs⟩ := exists_scanned_of_mem_pieces (List.mem_of_getLast? hp)
    exact pieces_append b.toList ⟨p, hp, hs.closes_of_endsMarkup he⟩
  simp only [Lexer.lex_ofText_fst, String.toList_append, hp, Piece.lexemes_append,
    Piece.lexemes_map_followedBy, slices_map_followedBy, slices_pieces, Place.advance_origin]
  rw [← Piece.lexemes_followedBy]
  rfl

end TemplateTree
