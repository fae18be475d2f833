import TemplateTree.Proofs.Directive.Phrase
import TemplateTree.Proofs.Reading.Words

/-!
# The path of an include

An include takes the last string for its path, and the last word beside `ignore` and `missing`
stands left of it (`IncludeWords.foldl_feed`), in whatever order they come.
-/

namespace TemplateTree

open scoped List

variable {options : Options} {mode : PositionMode} {s : Span} {t : Token} {ts : List Token}

namespace IncludeWords

/-- After some words and strings: the last string, and the last of the other words. -/
theorem foldl_feed (h : ∀ t ∈ ts, t.role = .word) :
    ts.foldl feed {} =
      ⟨TemplateTree.ignoreMissing.feedAll ts, (ts.filter fun t => t.kind = .string).getLast?,
        (ts.filter (Token.isWordBeside ["ignore", "missing"])).getLast?⟩ := by
  induction ts using List.reverseRecOn with
  | nil => rfl
  | append_singleton ts t ih =>
    obtain ⟨hts, ht⟩ := List.forall_mem_append.mp h
    rw [List.foldl_append, ih hts, List.foldl_cons, List.foldl_nil, feed, Phrase.mentions_feedAll,
      Phrase.feedAll_concat, List.filter_append, List.filter_append]
    have hm : (TemplateTree.ignoreMissing.mentions t || t.kind != .symbol) =
      !t.isWordBeside ["ignore", "missing"] := Phrase.mentions_or_not_symbol _ t
    have hw := Token.isSignificant_of_role (ht t (List.mem_singleton_self t))
    rw [TokenKind.isSignificant, Bool.or_eq_true, beq_iff_eq, beq_iff_eq] at hw
    rcases hw with hk | hk
    · simp only [hk, bne_self_eq_false, Bool.or_false] at hm
      cases hb : t.isWordBeside ["ignore", "missing"] <;> simp [hm, hb, hk]
    · have hno : TemplateTree.ignoreMissing.mentions t = false := by
        simp [Phrase.mentions, Token.isWord, hk]
      have hb : t.isWordBeside ["ignore", "missing"] = false := by simp [Token.isWordBeside, hk]
      simp [hno, hb, hk]

/-- The path by itself, or under what stands left of it. -/
theorem exists_template {path : Token} {left? : Option Token} {r : Span}
    (hr : path.span mode = .ok r) (hl : ∀ t ∈ left?, ∃ l, t.span mode = .ok l) :
    ∃ p, template mode path left? = .ok p ∧
      (left? = none → p = .value ⟨path.value, some r⟩) ∧
      ∀ t ∈ left?, ∃ l e, t.span mode = .ok l ∧ e.IsCover l r ∧
        p = .expression ⟨⟨t.value, some l⟩, ⟨path.value, some r⟩, some e⟩ := by
  unfold template
  cases left? with
  | none => exact ⟨_, by rw [hr]; rfl, fun _ => rfl, by simp⟩
  | some t =>
    obtain ⟨l, hl⟩ := hl t rfl
    refine ⟨_, by simp only [hr, hl]; rfl, by simp, ?_⟩
    rintro _ ⟨⟩
    exact ⟨l, l.cover r, hl, l.isCover_cover r, rfl⟩

theorem close_eq {opening closing path : Token} {template : IncludePath} {left? : Option Token}
    (hs : opening.spanTo closing mode = .ok s)
    (ht : IncludeWords.template mode path left? = .ok template) (phrase : Phrase) :
    close mode ⟨phrase, some path, left?⟩ opening closing =
      pure ⟨phrase.isConfirmed, template, some s⟩ := by
  simp only [close, hs, ht]
  rfl

end IncludeWords

theorem Directive.foldlM_close_including (part : IncludeWords) (opening closing : Token)
    (ts : List Token) :
    (ts.foldlM (take options) (.including part) >>= fun d =>
        d.close options.positionMode opening closing) =
      (fun i => some (.including i)) <$>
        (ts.foldl IncludeWords.feed part).close options.positionMode opening closing := by
  have h := @foldlM_close options _ _ including (fun part t => pure (part.feed t))
    (fun part => part.close options.positionMode opening closing) (fun i => some (.including i))
    opening closing (fun _ _ => rfl) (fun _ => rfl) ts part
  rwa [List.foldlM_pure, pure_bind] at h

-- ---------------------------------------------------------------------------
-- Includes
-- ---------------------------------------------------------------------------

/-- An include with a string before its closing delimiter has the last one for its path, by
itself, or under the last word beside `ignore` and `missing` if there is one. A missing
template is ignored exactly where `missing` comes right after `ignore` among the words and
strings. Nothing is reported or logged, and no token is read beyond. -/
theorem include_path {options : Options} {opening closing : Lexeme} {before after : List Lexeme}
    (horder : Lexeme.InOrder (opening :: (before ++ closing :: after)))
    (hbefore : ∀ l ∈ before, l.kind ≠ .blockEnd) (hstring : ∃ l ∈ before, l.kind = .string)
    (hclosing : closing.kind = .blockEnd) (last? : Option Token) :
    let mode := options.positionMode
    let words := wordsOf before
    let others := words.filter (Token.isWordBeside ["ignore", "missing"])
    let run := (Directive.including {}).read options opening.toToken
      ⟨before ++ closing :: after, last?⟩
    ∃ (path : Token) (template : IncludePath) (ignoreMissing : Bool) (r s : Span),
      (words.filter fun t => t.kind = .string).getLast? = some path ∧
      path.span mode = .ok r ∧ opening.toToken.spanTo closing.toToken mode = .ok s ∧
      run.outcome = .ok (some (.including ⟨ignoreMissing, template, some s⟩)) ∧
      (others = [] → template = .value ⟨path.value, some r⟩) ∧
      (∀ left ∈ others.getLast?, ∃ l e, left.span mode = .ok l ∧ e.IsCover l r ∧
        template = .expression ⟨⟨left.value, some l⟩, ⟨path.value, some r⟩, some e⟩) ∧
      (ignoreMissing ↔ ∃ t u, [t, u] <:+: words ∧ t.isWord "ignore" ∧ u.isWord "missing") ∧
      run.notes = [] ∧ run.source = ⟨after, some closing.toToken⟩ := by
  intro mode words others run
  obtain ⟨s, hs⟩ := horder.exists_spanTo (m := closing) (by simp) mode
  have hspan : ∀ t ∈ words, ∃ s, t.span mode = .ok s :=
    exists_span_of_mem_wordsOf horder (fun l hl => by simp [hl]) mode
  obtain ⟨path, hpath⟩ : ∃ path, (words.filter fun t => t.kind = .string).getLast? = some path := by
    obtain ⟨l, hl, hk⟩ := hstring
    have hmem : l.toToken ∈ words.filter fun t => t.kind = .string :=
      List.mem_filter.mpr ⟨mem_wordsOf hl (by rw [hk]; rfl), decide_eq_true hk⟩
    exact ⟨_, List.getLast?_eq_some_getLast (List.ne_nil_of_mem hmem)⟩
  have hlast {p : Token → Bool} {t : Token} (ht : t ∈ (words.filter p).getLast?) :
      ∃ s, t.span mode = .ok s := hspan t (List.mem_filter.mp (List.mem_of_getLast? ht)).1
  obtain ⟨r, hr⟩ := hlast hpath
  obtain ⟨template, ht, hvalue, hexpression⟩ := IncludeWords.exists_template hr
    fun t (ht : t ∈ others.getLast?) => hlast ht
  have hroles : ∀ l ∈ before, l.toToken.role ≠ .closing :=
    fun l hl => mt Token.role_eq_closing.mp (hbefore l hl)
  obtain ⟨hnotes, houtcome, hsource⟩ := @Directive.read_cut options (.including {}) _ _ hroles
    (Token.role_eq_closing.mpr hclosing) rfl opening.toToken last? after
  rw [Directive.foldlM_close_including, IncludeWords.foldl_feed fun t => role_of_mem_wordsOf,
    hpath, IncludeWords.close_eq hs ht] at hnotes houtcome
  exact ⟨path, template, _, r, s, hpath, hr, hs, houtcome, fun h => hvalue (by simp [h]),
    hexpression, Phrase.isConfirmed_feedAll rfl (by decide) words, hnotes, hsource _ houtcome⟩

theorem include_path_right_of_word :
    let opening : Lexeme := ⟨.blockStart, "\x7b%", 0, 0⟩
    let left : Lexeme := ⟨.symbol, "x", 0, 22⟩
    let path : Lexeme := ⟨.string, "b", 1, 15⟩
    let before : List Lexeme := [⟨.symbol, "ignore", 0, 11⟩, ⟨.string, "a", 0, 18⟩, left,
      ⟨.symbol, "missing", 0, 24⟩, ⟨.symbol, "ignore", 1, 0⟩, ⟨.symbol, "missing", 1, 7⟩, path]
    let closing : Lexeme := ⟨.blockEnd, "%\x7d", 1, 19⟩
    let run := (Directive.including {}).read {} opening.toToken ⟨before ++ closing :: [], none⟩
    Lexeme.InOrder (opening :: (before ++ closing :: [])) ∧
      (∃ l ∈ before, l.kind = .string) ∧
      ∃ l r e s, left.toToken.span .naive = .ok l ∧ path.toToken.span .naive = .ok r ∧
        e.IsCover l r ∧
        run.outcome = .ok (some (.including
          ⟨true, .expression ⟨⟨"x", some l⟩, ⟨"b", some r⟩, some e⟩, some s⟩)) := by
  intro opening left path before closing run
  have horder : Lexeme.InOrder (opening :: (before ++ closing :: [])) := ⟨by decide, by decide⟩
  have hstring : ∃ l ∈ before, l.kind = .string := ⟨path, by decide, rfl⟩
  obtain ⟨_, template, ignoreMissing, r, s, ⟨⟩, hr, -, hitem, -, hleft, hignore, -⟩ :=
    @include_path {} opening closing before [] horder (by decide) hstring rfl none
  obtain ⟨l, e, hl, he, rfl⟩ := hleft left.toToken rfl
  obtain rfl : ignoreMissing = true :=
    hignore.mpr ⟨⟨.symbol, "ignore", 2, 1⟩, ⟨.symbol, "missing", 2, 8⟩,
      ⟨[_, _, _, _], _, rfl⟩, rfl, rfl⟩
  exact ⟨horder, hstring, l, r, e, s, hl, hr, he, hitem⟩

end TemplateTree
