import Mathlib.Data.List.Chain
import TemplateTree.Proofs.Token.Fits

/-!
# The grammar of a token stream

The lexemes of a text are a run of an automaton with two states, outside a tag
and inside one (`TokenKind.Leads`), and each has a slice of the text that fits
its kind, between what stands in front of the slice and what follows it
(`TokenKind.Fits`). A text has one token stream, and `lex_tokenStream` says that it is
the one that is read. Nothing is said here of where a tag or a literal left open is
reported.
-/

namespace TemplateTree

/-- `TokenStream inTag front ls cs`: the text `cs`, which follows `front` and starts inside a
tag or outside, is made of the slices of the lexemes. -/
inductive TokenStream : Bool → List Char → List Lexeme → List Char → Prop
  | nil (inTag : Bool) (front : List Char) : TokenStream inTag front [] []
  | cons {inTag inTag' : Bool} {front slice rest : List Char} {l : Lexeme} {ls : List Lexeme}
      (leads : l.kind.Leads inTag inTag') (standsFor : l.StandsFor front slice)
      (fits : l.kind.Fits front slice rest) (h : TokenStream inTag' (front ++ slice) ls rest) :
      TokenStream inTag front (l :: ls) (slice ++ rest)

-- ---------------------------------------------------------------------------
-- From one piece to the next
-- ---------------------------------------------------------------------------

/-- No run of white space goes across from `front` to `cs`. -/
def SpaceApart (front cs : List Char) : Prop :=
  (∀ c ∈ front.getLast?, isTagSpace c = false) ∨ ∀ c ∈ cs.head?, isTagSpace c = false

theorem isTagSpace_eq_false_of_isDelimiter {c : Char} (h : isDelimiter c) :
    isTagSpace c = false := by
  have hall : "()[]\x7b\x7d%*-+~/#,:|.<>=!".toList.all fun c => !isTagSpace c := by decide
  simp only [isDelimiter, decide_eq_true_eq] at h
  simpa using List.all_eq_true.mp hall c h

theorem isTagSpace_eq_false_of_isDigit {c : Char} (h : c.isDigit) : isTagSpace c = false := by
  have hw := isWordChar_of_isDigit h
  simp only [isWordChar, Bool.and_eq_true, Bool.not_eq_true'] at hw
  exact hw.1

/-- Where a slice ends without white space, no run goes on behind it. -/
theorem spaceApart_of_tail (front slice : List Char) {tail cs : List Char} (hn : tail ≠ [])
    (h : tail.all fun c => !isTagSpace c) : SpaceApart (front ++ (slice ++ tail)) cs := by
  refine .inl fun c hc => ?_
  rw [← List.append_assoc, List.getLast?_append_of_ne_nil _ hn] at hc
  simpa using List.all_eq_true.mp h c (List.mem_of_getLast? hc)

/-- A piece inside a tag takes up a whole run of white space or ends in another character. -/
theorem Scanned.spaceApart {inTag : Bool} {p : Piece} (h : Scanned inTag p)
    (hi : p.inTag = true) (front : List Char) : SpaceApart (front ++ p.slice) p.rest := by
  have hn := h.slice_ne_nil
  cases h with
  | comment | openComment | data | closer => cases hi
  | openString | openRegex => exact .inr (by simp)
  | whitespace hs h hr => exact .inr hr
  | opener rest h =>
    have hall := (by decide : ∀ entry ∈ openers, entry.1.all fun c => !isTagSpace c) _ h
    exact spaceApart_of_tail front [] hn hall
  | operator rest h hr =>
    have hall := (by decide : ∀ delimiter ∈ longOperators, delimiter.all fun c => !isTagSpace c) _ h
    exact spaceApart_of_tail front [] hn hall
  | mark rest h hr =>
    exact spaceApart_of_tail front [] hn (by simp [isTagSpace_eq_false_of_isDelimiter h])
  | @string quote spelling _ rest hq h =>
    refine spaceApart_of_tail front (quote :: spelling) (by simp) ?_
    rcases hq with rfl | rfl <;> decide
  | @regex body _ flags rest h hf hr =>
    refine spaceApart_of_tail front ('r' :: '/' :: body) (by simp) ?_
    have hall : ['g', 'i', 'm', 'y'].all fun c => !isTagSpace c := by decide
    refine List.all_eq_true.mpr (List.forall_mem_cons.mpr ⟨rfl, fun c hc => ?_⟩)
    have hflag := hf c hc
    simp only [isRegexFlag, decide_eq_true_eq] at hflag
    exact List.all_eq_true.mp hall c hflag
  | word hq h hr =>
    refine spaceApart_of_tail front [] hn (List.all_eq_true.mpr fun d hd => ?_)
    have hw := h d hd
    simp only [isWordChar, Bool.and_eq_true] at hw
    exact hw.1
  | @float word digits rest hw hd hr =>
    refine spaceApart_of_tail front word (by simp) ?_
    refine List.all_eq_true.mpr (List.forall_mem_cons.mpr ⟨rfl, fun c hc => ?_⟩)
    rw [isTagSpace_eq_false_of_isDigit (hd c hc)]
    rfl

/-- What stands in front of a piece of white space is another character. -/
theorem Scanned.getLast?_of_spaceApart {inTag : Bool} {p : Piece} (h : Scanned inTag p)
    {front : List Char} (hb : inTag = true → SpaceApart front (p.slice ++ p.rest))
    (hk : p.kind = .whitespace) : ∀ c ∈ front.getLast?, isTagSpace c = false := by
  cases h with
  | @whitespace slice rest hs h hr =>
    rcases hb rfl with hb | hb
    · exact hb
    · obtain ⟨c, run, rfl⟩ := List.exists_cons_of_ne_nil hs
      have hc := hb c rfl
      rw [h c (by simp)] at hc
      cases hc
  | opener rest h => rcases kind_of_mem_openers h with rfl | rfl <;> cases hk
  | closer rest h => rcases kind_of_mem_closers h with rfl | rfl <;> cases hk
  | @mark c => exact absurd hk (delimiterKind_ne (by decide) c)
  | @word c run => exact absurd hk (wordKind_ne (by decide) (c :: run))
  | _ => cases hk

theorem tokenStream_lexemes {inTag : Bool} {front cs : List Char}
    (hb : inTag = true → SpaceApart front cs) :
    TokenStream inTag front (Piece.lexemes (Place.endOf front) (pieces inTag cs)) cs := by
  fun_induction pieces inTag cs generalizing front with
  | case1 inTag => exact .nil inTag front
  | case2 inTag c cs ih =>
    have hs := scanned_scan inTag c cs
    have htext := slice_append_rest_scan inTag c cs
    have hfits := hs.fits (hs.getLast?_of_spaceApart (by rwa [htext]))
    have htail := ih fun hi => hs.spaceApart hi front
    rw [Place.endOf_append, ← Place.advance_eq] at htail
    rw [← htext]
    exact .cons hs.leads (hs.standsFor front) hfits htail

/-- A token stream is cut at the places where a scan cuts. -/
theorem TokenStream.eq_lexemes {inTag : Bool} {front cs : List Char} {ls : List Lexeme}
    (h : TokenStream inTag front ls cs) :
    ls = Piece.lexemes (Place.endOf front) (pieces inTag cs) := by
  induction h with
  | nil inTag front =>
    rw [pieces_nil]
    rfl
  | @cons inTag inTag' front slice rest l ls leads standsFor fits _ ih =>
    obtain ⟨value, problem?, hs⟩ := fits.exists_scanned leads
    have hl := standsFor.lexeme_unique (hs.standsFor front) rfl
    have hp := hs.pieces_eq
    rw [hp, Piece.lexemes, Place.advance_eq, ← Place.endOf_append, ← ih, ← hl]

-- ---------------------------------------------------------------------------
-- Running text is cut off whole
-- ---------------------------------------------------------------------------

theorem scanned_of_head?_pieces {inTag : Bool} {cs : List Char} {p : Piece}
    (h : p ∈ (pieces inTag cs).head?) : Scanned inTag p ∧ p.slice ++ p.rest = cs := by
  cases cs with
  | nil => simp at h
  | cons c cs =>
    rw [pieces_cons] at h
    obtain rfl := Option.some.inj h
    exact ⟨scanned_scan inTag c cs, slice_append_rest_scan inTag c cs⟩

theorem Scanned.not_startsMarkup {inTag : Bool} {p : Piece} (h : Scanned inTag p)
    (hk : p.kind = .data) :
    startsMarkup (p.slice ++ p.rest) = false ∧ (p.rest ≠ [] → startsMarkup p.rest = true) := by
  have hfits : p.kind.Fits [] p.slice p.rest := h.fits (by rw [hk]; nofun)
  rw [hk] at hfits
  obtain ⟨hne, hs, hr⟩ := hfits
  refine ⟨markupStarts_infix_iff.mp hs [] p.slice rfl hne, fun hn => ?_⟩
  exact startsMarkup_iff_markupStarts.mpr (hr.resolve_left hn)

theorem isChain_pieces (inTag : Bool) (cs : List Char) :
    (pieces inTag cs).IsChain fun p q => p.kind = .data → q.kind ≠ .data := by
  fun_induction pieces inTag cs with
  | case1 inTag => exact .nil
  | case2 inTag c cs ih =>
    refine List.isChain_cons.mpr ⟨fun q hq hp hk => ?_, ih⟩
    obtain ⟨hs, htext⟩ := scanned_of_head?_pieces hq
    have hno := (hs.not_startsMarkup hk).1
    rw [htext] at hno
    have hne : (scan inTag c cs).rest ≠ [] := by
      rw [← htext]
      exact List.append_ne_nil_of_left_ne_nil hs.slice_ne_nil _
    have hyes := ((scanned_scan inTag c cs).not_startsMarkup hp).2 hne
    rw [hno] at hyes
    cases hyes

theorem Piece.kind_lexemes (place : Place) (ps : List Piece) :
    (Piece.lexemes place ps).map Lexeme.kind = ps.map Piece.kind := by
  induction ps generalizing place with
  | nil => rfl
  | cons p ps ih =>
    simp only [lexemes, List.map_cons, ih]
    rfl

/-- The lexemes of a text are its token stream and there is no other, and no two that follow
one another are running text. -/
theorem lex_tokenStream (text : String) :
    let lexemes := (Lexer.ofText text).lex.1
    (∀ ls, TokenStream false [] ls text.toList ↔ ls = lexemes) ∧
      lexemes.IsChain fun l m => l.kind = .data → m.kind ≠ .data := by
  intro lexemes
  have hl : lexemes = Piece.lexemes (Place.endOf []) (pieces false text.toList) :=
    Lexer.lex_ofText_fst text
  constructor
  · intro ls
    rw [hl]
    constructor
    · exact TokenStream.eq_lexemes
    · rintro rfl
      exact tokenStream_lexemes (by simp)
  · have hchain := (List.isChain_map Piece.kind
      (R := fun kind next => kind = .data → next ≠ .data)).mpr
      (isChain_pieces false text.toList)
    rw [← Piece.kind_lexemes (Place.endOf []), ← hl] at hchain
    exact (List.isChain_map _).mp hchain

end TemplateTree
