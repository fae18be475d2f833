import TemplateTree.Proofs.Token.Located

/-!
# Texts that end too early

A comment or a string literal without its closing delimiter runs to the end of
the text, so it is the last lexeme. A lexer reports it there, from its start to
the end of the text, and has nothing else to report.
-/

namespace TemplateTree

/-- The lexeme lacks its closing delimiter in the text, which is a problem with this code. A
comment has its delimiters in its value, a string literal only in its slice. -/
inductive Lexeme.LeavesOpen (cs : List Char) (l : Lexeme) : Code → Prop
  | comment {body : List Char} (hk : l.kind = .comment)
      (hv : l.value.toList = '{' :: '#' :: body) (h : ¬['#', '}'] <:+: body) :
      LeavesOpen cs l .unterminatedComment
  | string {front slice : List Char} (hk : l.kind = .string) (htext : front ++ slice = cs)
      (hs : l.StandsFor front slice) (h : ¬ClosedLiteral slice) :
      LeavesOpen cs l .unterminatedString

theorem Lexeme.LeavesOpen.severity {cs : List Char} {l : Lexeme} {code : Code}
    (h : l.LeavesOpen cs code) : code.severity = .error := by
  cases h <;> rfl

/-- A lexeme says where its slice starts, so it has one slice only up to the end of a text. -/
theorem Lexeme.StandsFor.slice_unique {l : Lexeme} {front front' slice slice' : List Char}
    (h : l.StandsFor front slice) (h' : l.StandsFor front' slice')
    (htext : front ++ slice = front' ++ slice') : slice = slice' := by
  have hp : (Place.endOf front).toPoint = (Place.endOf front').toPoint := by
    have hline := h.line.symm.trans h'.line
    have hcolumn := h.column.symm.trans h'.column
    simp only [Place.endOf, Place.toPoint, Point.ext_iff]
    omega
  have ho : some front.length = some front'.length := by
    rw [← Point.offset?_append front slice, ← Point.offset?_append front' slice', hp, htext]
  exact (List.append_inj htext (Option.some.inj ho)).2

-- ---------------------------------------------------------------------------
-- Pieces
-- ---------------------------------------------------------------------------

theorem Scanned.rest_of_problem {inTag : Bool} {p : Piece} (h : Scanned inTag p) {code : Code}
    (hp : p.problem? = some code) : p.rest = [] := by
  cases h with
  | openComment | openString => rfl
  | _ => cases hp

theorem Scanned.problem_of_comment {inTag : Bool} {p : Piece} (h : Scanned inTag p)
    (hk : p.kind = .comment) {body : List Char} (hs : p.slice = '{' :: '#' :: body)
    (hb : ¬['#', '}'] <:+: body) : p.problem? = some .unterminatedComment := by
  rcases h.comment_cases hk with ⟨inner, rest, -, rfl⟩ | ⟨inner, -, rfl⟩
  · obtain rfl : inner ++ ['#', '}'] = body := by simpa using hs
    exact absurd (List.suffix_append inner _).isInfix hb
  · rfl

theorem Scanned.problem_of_string {inTag : Bool} {p : Piece} (h : Scanned inTag p)
    (hk : p.kind = .string) (hc : ¬ClosedLiteral p.slice) :
    p.problem? = some .unterminatedString := by
  obtain ⟨quote, spelling, value, hq, hs, ⟨rest, rfl⟩ | ⟨tail, -, rfl⟩⟩ := h.string_cases hk
  · exact absurd ⟨quote, spelling, value, hq, hs, rfl⟩ hc
  · rfl

/-- A last piece has a problem exactly when its lexeme lacks its closing delimiter. -/
theorem Scanned.leavesOpen_iff {inTag : Bool} {p : Piece} (h : Scanned inTag p)
    (front : List Char) (code : Code) :
    (p.lexeme (Place.endOf front)).LeavesOpen (front ++ p.slice) code ↔
      p.problem? = some code := by
  have hs := h.standsFor front
  constructor
  · intro ho
    cases ho with
    | comment hk hv hb =>
      have hvalue := hs.value (by rw [hk]; decide)
      exact h.problem_of_comment hk (hvalue.symm.trans hv) hb
    | string hk htext hs' hc =>
      rw [hs'.slice_unique hs htext] at hc
      exact h.problem_of_string hk hc
  · intro hp
    cases h with
    | openComment hb =>
      cases hp
      exact .comment rfl (hs.value nofun) hb
    | openString hq hspells ht =>
      cases hp
      exact .string rfl rfl hs (hspells.not_closedLiteral hq ht)
    | _ => cases hp

-- ---------------------------------------------------------------------------
-- The end of a text
-- ---------------------------------------------------------------------------

theorem Piece.problems_append (place : Place) (ps qs : List Piece) :
    problems place (ps ++ qs) = problems place ps ++ problems (place.advance (slices ps)) qs := by
  induction ps generalizing place with
  | nil => rfl
  | cons p ps ih =>
    rw [List.cons_append, problems, problems, ih, slices_cons, Place.advance_append,
      List.append_assoc]

/-- Only the last piece can have a problem. -/
theorem problem?_of_pieces {inTag : Bool} {cs : List Char} {qs : List Piece} {p : Piece}
    (h : pieces inTag cs = qs ++ [p]) : ∀ q ∈ qs, q.problem? = none := by
  intro q hq
  obtain ⟨before, behind, rfl⟩ := List.append_of_mem hq
  have hbehind : pieces inTag cs = before ++ q :: (behind ++ [p]) := by simpa using h
  obtain ⟨_, hs⟩ := exists_scanned_of_mem_pieces (hbehind ▸ List.mem_append_right before (.head _))
  obtain ⟨_, hlast⟩ := exists_scanned_of_mem_pieces (h ▸ List.mem_append_right _ (.head _))
  cases hp : q.problem? with
  | none => rfl
  | some code =>
    have hrest := rest_of_pieces hbehind
    rw [hs.rest_of_problem hp] at hrest
    have hnil : slices behind ++ p.slice = [] := by simpa using hrest.symm
    exact absurd (List.append_eq_nil_iff.mp hnil).2 hlast.slice_ne_nil

/-- What a lexer reports is the problem with the last piece, if there is one. -/
theorem Lexer.lex_cases (text : String) :
    ((ofText text).lex.1 = [] ∧ (ofText text).lex.2.diagnostics = []) ∨
      ∃ front inTag p, Scanned inTag p ∧ front ++ p.slice = text.toList ∧
        (ofText text).lex.1.getLast? = some (p.lexeme (Place.endOf front)) ∧
        (ofText text).lex.2.diagnostics = problemAt (Place.endOf front) p := by
  have hd : (ofText text).lex.2.diagnostics = Piece.problems {} (pieces false text.toList) :=
    diagnostics_lex_snd (ofText text)
  rw [lex_ofText_fst, hd]
  rcases List.eq_nil_or_concat (pieces false text.toList) with hn | ⟨qs, p, hp⟩
  · rw [hn]
    exact .inl ⟨rfl, rfl⟩
  · rw [List.concat_eq_append] at hp
    obtain ⟨inTag, hs⟩ := exists_scanned_of_mem_pieces (hp ▸ List.mem_append_right qs (.head _))
    have htext := slices_pieces false text.toList
    rw [hp, slices_append] at htext
    rw [hp, Piece.problems_append, Piece.problems_eq_nil (problem?_of_pieces hp),
      Piece.lexemes_append, Place.advance_origin]
    exact .inr ⟨slices qs, inTag, p, hs, by simpa using htext, by simp [Piece.lexemes],
      by simp [Piece.problems]⟩

theorem Lexer.mem_problemAt {place : Place} {p : Piece} {d : Diagnostic} :
    d ∈ problemAt place p ↔
      ∃ code, p.problem? = some code ∧ d = code.at (some (place.spanOver p.slice)) := by
  simp [problemAt, eq_comm]

namespace Lexer

variable (text : String)

theorem length_diagnostics_lex : (ofText text).lex.2.diagnostics.length ≤ 1 := by
  rcases lex_cases text with ⟨-, hd⟩ | ⟨front, inTag, p, -, -, -, hd⟩
  · rw [hd]
    exact Nat.zero_le 1
  · rw [hd, problemAt, List.length_map]
    exact Option.length_toList_le

/-- A code is reported exactly when it is the problem with the last lexeme. -/
theorem reports_iff_leavesOpen (code : Code) :
    (∃ d ∈ (ofText text).lex.2.diagnostics, d.code = code.id) ↔
      ∃ l ∈ (ofText text).lex.1.getLast?, l.LeavesOpen text.toList code := by
  rcases lex_cases text with ⟨hl, hd⟩ | ⟨front, inTag, p, hs, htext, hl, hd⟩
  · rw [hl, hd]
    simp
  · simp only [hl, hd, ← htext, Option.mem_some, exists_eq_left', hs.leavesOpen_iff]
    constructor
    · rintro ⟨d, hd, hcode⟩
      obtain ⟨code, hp, rfl⟩ := mem_problemAt.mp hd
      rwa [← Code.id_inj.mp hcode]
    · intro hp
      exact ⟨_, mem_problemAt.mpr ⟨code, hp, rfl⟩, rfl⟩

/-- The report is of the problem with the last lexeme, and spans from the start of the
lexeme to the end of the text. -/
theorem span_of_mem_diagnostics_lex {d : Diagnostic} (h : d ∈ (ofText text).lex.2.diagnostics) :
    ∃ l ∈ (ofText text).lex.1.getLast?, ∃ code s, l.LeavesOpen text.toList code ∧
      d = code.at (some s) ∧ l.toToken.start = .ok s.start ∧ s.stop.Follows text.toList := by
  rcases lex_cases text with ⟨-, hd⟩ | ⟨front, inTag, p, hs, htext, hl, hd⟩
  · simp [hd] at h
  · rw [hd] at h
    obtain ⟨code, hp, rfl⟩ := mem_problemAt.mp h
    refine ⟨_, hl, code, _, ?_, rfl, p.start_tokenAfter front, ?_⟩
    · rw [← htext]
      exact (hs.leavesOpen_iff front code).mpr hp
    · rw [Point.follows_iff, ← htext, Place.endOf_append, ← Place.advance_eq]
      rfl

end Lexer

end TemplateTree
