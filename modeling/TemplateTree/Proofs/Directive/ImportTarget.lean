import TemplateTree.Proofs.Directive.Import
import TemplateTree.Proofs.Directive.Phrase

/-!
# The name of a direct import

A name is given by the `as` right before it, and the last name that is given counts
(`Token.LastGivenIn`). While its words are read, a direct import has the last name so far, and
it waits for one exactly after an `as` (`ImportTarget.Follows`).
-/

namespace TemplateTree

open scoped List

variable {options : Options} {mode : PositionMode} {s : Span} {t u : Token} {ts : List Token}

-- ---------------------------------------------------------------------------
-- Given names
-- ---------------------------------------------------------------------------

/-- The last of the words is an `as`. -/
def EndsInAs (ts : List Token) : Prop := ∃ as, [as] <:+ ts ∧ as.value = "as"

/-- The word is a name that comes right after an `as`. -/
def Token.GivenIn (ts : List Token) (t : Token) : Prop :=
  ∃ as, [as, t] <:+: ts ∧ as.value = "as" ∧ t.value ≠ "as"

/-- The word is given as a name, and none is given after it. -/
def Token.LastGivenIn (ts : List Token) (t : Token) : Prop :=
  ∃ front as back, ts = front ++ as :: t :: back ∧ as.value = "as" ∧ t.value ≠ "as" ∧
    ∀ u : Token, ¬u.GivenIn (t :: back)

theorem endsInAs_concat : EndsInAs (ts ++ [t]) ↔ t.value = "as" := by
  simp only [EndsInAs, singleton_suffix_concat, exists_eq_left]

namespace Token

theorem givenIn_concat :
    u.GivenIn (ts ++ [t]) ↔ u.GivenIn ts ∨ EndsInAs ts ∧ u = t ∧ t.value ≠ "as" := by
  simp only [GivenIn, EndsInAs, pair_infix_concat]
  constructor
  · rintro ⟨as, h | ⟨hs, rfl⟩, has, hu⟩
    · exact .inl ⟨as, h, has, hu⟩
    · exact .inr ⟨⟨as, hs, has⟩, rfl, hu⟩
  · rintro (⟨as, h, has, hu⟩ | ⟨⟨as, hs, has⟩, rfl, ht⟩)
    · exact ⟨as, .inl h, has, hu⟩
    · exact ⟨as, .inr ⟨hs, rfl⟩, has, ht⟩

theorem not_givenIn_concat (h : ¬u.GivenIn ts) (ht : EndsInAs ts → t.value = "as") :
    ¬u.GivenIn (ts ++ [t]) := by
  rw [givenIn_concat]
  rintro (hu | ⟨hs, -, hne⟩)
  · exact h hu
  · exact hne (ht hs)

theorem LastGivenIn.givenIn (h : u.LastGivenIn ts) : u.GivenIn ts := by
  obtain ⟨front, as, back, rfl, has, hu, -⟩ := h
  exact ⟨as, ⟨front, back, by simp⟩, has, hu⟩

theorem LastGivenIn.concat (h : u.LastGivenIn ts) (ht : EndsInAs ts → t.value = "as") :
    u.LastGivenIn (ts ++ [t]) := by
  obtain ⟨front, as, back, rfl, has, hu, hlast⟩ := h
  have hends : EndsInAs (u :: back) → t.value = "as" :=
    fun ⟨v, hv, has⟩ => ht ⟨v, hv.trans ⟨front ++ [as], by simp⟩, has⟩
  refine ⟨front, as, back ++ [t], by simp, has, hu, fun v => ?_⟩
  rw [← List.cons_append]
  exact not_givenIn_concat (hlast v) hends

/-- A name after an `as` at the end is the last one. -/
theorem lastGivenIn_concat (h : EndsInAs ts) (ht : t.value ≠ "as") :
    t.LastGivenIn (ts ++ [t]) := by
  obtain ⟨as, ⟨front, rfl⟩, has⟩ := h
  refine ⟨front, as, [], by simp, has, ht, ?_⟩
  rintro u ⟨as, hu, -, -⟩
  exact absurd hu.length_le (by simp)

end Token

-- ---------------------------------------------------------------------------
-- Words
-- ---------------------------------------------------------------------------

/-- The words that count for the name of a direct import. -/
def namedWords (ts : List Token) : List Token :=
  ts.filter (Token.isWordBeside ["with", "context"])

theorem namedWords_concat (ht : t.isWordBeside ["with", "context"]) :
    namedWords (ts ++ [t]) = namedWords ts ++ [t] := by
  simp [namedWords, ht]

theorem namedWords_concat_of_not (ht : t.isWordBeside ["with", "context"] = false) :
    namedWords (ts ++ [t]) = namedWords ts := by
  simp [namedWords, ht]

namespace ImportTarget

/-- The state after some words and strings. -/
structure Follows (mode : PositionMode) (part : ImportTarget) (ts : List Token) : Prop where
  withContext : part.withContext = TemplateTree.withContext.feedAll ts
  awaiting : part.awaiting ↔ EndsInAs (namedWords ts)
  nameless : part.target? = none → ∀ t : Token, ¬t.GivenIn (namedWords ts)
  named : ∀ name ∈ part.target?, ∃ t : Token, t.LastGivenIn (namedWords ts) ∧ name = t.leaf mode

variable {part : ImportTarget}

/-- A word that leaves the name as it is, since it is an `as` or comes after none. -/
theorem Follows.append {part' : ImportTarget} (h : part.Follows mode ts)
    (ht : t.isWordBeside ["with", "context"]) (has : part.awaiting → t.value = "as")
    (hc : part'.withContext = part.withContext.feed t) (htarget : part'.target? = part.target?)
    (ha : part'.awaiting ↔ t.value = "as") : part'.Follows mode (ts ++ [t]) := by
  have hends : EndsInAs (namedWords ts) → t.value = "as" := fun he => has (h.awaiting.mpr he)
  refine ⟨?_, ?_, fun hn u => ?_, fun name hname => ?_⟩
  · rw [hc, h.withContext, Phrase.feedAll_concat]
  · rw [namedWords_concat ht, endsInAs_concat, ha]
  · rw [namedWords_concat ht]
    exact Token.not_givenIn_concat (h.nameless (htarget ▸ hn) u) hends
  · obtain ⟨u, hu, rfl⟩ := h.named name (htarget ▸ hname)
    rw [namedWords_concat ht]
    exact ⟨u, hu.concat hends, rfl⟩

theorem follows_feed (h : part.Follows mode ts) (hs : t.span mode = .ok s) :
    ∃ part', part.feed mode t = pure part' ∧ part'.Follows mode (ts ++ [t]) := by
  have hpass : (part.withContext.mentions t || t.kind != .symbol) =
      !t.isWordBeside ["with", "context"] := by
    rw [h.withContext, Phrase.mentions_feedAll, Phrase.mentions_or_not_symbol]
    rfl
  unfold feed
  rw [hpass]
  cases ht : t.isWordBeside ["with", "context"] with
  | false =>
    refine ⟨_, rfl, ?_, ?_, ?_, ?_⟩
    · rw [h.withContext, Phrase.feedAll_concat]
    all_goals rw [namedWords_concat_of_not ht]
    exacts [h.awaiting, h.nameless, h.named]
  | true =>
    by_cases has : t.value = "as"
    · simp only [has, Bool.not_true, Bool.false_eq_true, ↓reduceIte, beq_self_eq_true]
      exact ⟨_, rfl, h.append ht (fun _ => has) rfl rfl (by simp [has])⟩
    · simp only [beq_eq_false_iff_ne.mpr has, Bool.not_true, Bool.false_eq_true, ↓reduceIte]
      cases ha : part.awaiting with
      | false =>
        exact ⟨_, rfl, h.append ht (by simp [ha]) rfl rfl (by simp [has])⟩
      | true =>
        have hlast := Token.lastGivenIn_concat (h.awaiting.mp ha) has
        rw [hs]
        refine ⟨_, rfl, ?_, ?_, by simp, ?_⟩
        · rw [h.withContext, Phrase.feedAll_concat]
        · simp [namedWords_concat ht, endsInAs_concat, has]
        · rintro name ⟨⟩
          rw [namedWords_concat ht]
          exact ⟨t, hlast, (Token.leaf_eq hs).symm⟩

theorem follows_foldlM (h : ∀ t ∈ ts, ∃ s, t.span mode = .ok s) :
    ∃ part, ts.foldlM (feed mode) {} = pure part ∧ part.Follows mode ts := by
  induction ts using List.reverseRecOn with
  | nil =>
    refine ⟨{}, rfl, rfl, ?_, ?_, by simp⟩
    · simp [EndsInAs, namedWords]
    · simp [Token.GivenIn, namedWords]
  | append_singleton ts t ih =>
    obtain ⟨hts, ht⟩ := List.forall_mem_append.mp h
    obtain ⟨part, hfed, hpart⟩ := ih hts
    obtain ⟨s, hs⟩ := ht t (List.mem_singleton_self t)
    obtain ⟨part', hfeed, hpart'⟩ := follows_feed hpart hs
    refine ⟨part', ?_, hpart'⟩
    rw [List.foldlM_append, hfed, pure_bind, List.foldlM_cons, hfeed]
    rfl

/-- After its words a direct import gives the last name, if there is one. -/
theorem foldlM_close {opening closing : Token} (hs : opening.spanTo closing mode = .ok s)
    (hts : ∀ t ∈ ts, ∃ s, t.span mode = .ok s) (template : Leaf) :
    let fed := ts.foldlM (feed mode) {} >>= fun part => part.close mode template opening closing
    fed.notes = [] ∧
      ((∀ t : Token, ¬t.GivenIn (namedWords ts)) ∧
          fed.outcome = .error (.parse (.missingAlias s)) ∨
        ∃ t : Token, t.LastGivenIn (namedWords ts) ∧
          fed.outcome = .ok ⟨template, (TemplateTree.withContext.feedAll ts).isConfirmed,
            .target (t.leaf mode), some s⟩) := by
  obtain ⟨part, hfed, hf⟩ := follows_foldlM hts
  obtain ⟨phrase, awaiting, target?⟩ := part
  obtain rfl : phrase = _ := hf.withContext
  simp only [hfed, pure_bind, close, hs]
  cases target? with
  | none => exact ⟨rfl, .inl ⟨hf.nameless rfl, rfl⟩⟩
  | some name =>
    obtain ⟨t, ht, rfl⟩ := hf.named name rfl
    exact ⟨rfl, .inr ⟨t, ht, rfl⟩⟩

end ImportTarget

theorem Directive.foldlM_close_importTarget (template : Leaf) (part : ImportTarget)
    (opening closing : Token) (ts : List Token) :
    (ts.foldlM (take options) (.importTarget template part) >>= fun d =>
        d.close options.positionMode opening closing) =
      (fun i => some (.importing i)) <$>
        (ts.foldlM (ImportTarget.feed options.positionMode) part >>= fun part =>
          part.close options.positionMode template opening closing) :=
  foldlM_close (fun _ _ => rfl) (fun _ => rfl) ts part

-- ---------------------------------------------------------------------------
-- Direct imports
-- ---------------------------------------------------------------------------

/-- A direct import with its path before its closing delimiter is read to an import of that
path under the last name that is given among the words between the two, beside `with` and
`context`. A name is missing exactly where none is given. The context is given exactly where
`context` comes right after `with` among the words and strings. Nothing is reported or logged,
and an import reads no token beyond its closing delimiter. -/
theorem directImport_target {options : Options} {opening path closing : Lexeme}
    {before between after : List Lexeme}
    (horder : Lexeme.InOrder (opening :: (before ++ path :: between ++ closing :: after)))
    (hbefore : ∀ l ∈ before, l.kind ≠ .string ∧ l.kind ≠ .blockEnd)
    (hpath : path.kind = .string) (hbetween : ∀ l ∈ between, l.kind ≠ .blockEnd)
    (hclosing : closing.kind = .blockEnd) (last? : Option Token) :
    let mode := options.positionMode
    let words := wordsOf between
    let named := words.filter (Token.isWordBeside ["with", "context"])
    let run := (Directive.importPath .target).read options opening.toToken
      ⟨before ++ path :: between ++ closing :: after, last?⟩
    (∀ t ∈ opening.toToken :: path.toToken :: words, ∃ s, t.span mode = .ok s) ∧
      ∃ s, opening.toToken.spanTo closing.toToken mode = .ok s ∧
        (run.outcome = .error (.parse (.missingAlias s)) ↔ ¬∃ t : Token, t.GivenIn named) ∧
        ((∃ t : Token, t.GivenIn named) → ∃ (name : Token) (withContext : Bool),
          name.LastGivenIn named ∧ run.outcome = .ok (some (.importing
            ⟨path.toToken.leaf mode, withContext, .target (name.leaf mode), some s⟩)) ∧
          (withContext ↔ ∃ t u, [t, u] <:+: words ∧ t.isWord "with" ∧ u.isWord "context") ∧
          run.source = ⟨after, some closing.toToken⟩) ∧
        run.notes = [] := by
  intro mode words named run
  have hspan {l : Lexeme} (hl : l ∈ before ++ path :: between ++ closing :: after) :
      ∃ s, l.toToken.span mode = .ok s :=
    horder.exists_span (List.mem_cons_of_mem opening hl) mode
  obtain ⟨sp, hsp⟩ := hspan (l := path) (by simp)
  obtain ⟨s, hs⟩ := horder.exists_spanTo (m := closing) (by simp) mode
  have hwords : ∀ t ∈ words, ∃ s, t.span mode = .ok s :=
    exists_span_of_mem_wordsOf horder (fun l hl => by simp [hl]) mode
  refine ⟨?_, s, hs, ?_⟩
  · refine List.forall_mem_cons.mpr ⟨horder.exists_span (List.mem_cons_self ..) mode, ?_⟩
    exact List.forall_mem_cons.mpr ⟨⟨sp, hsp⟩, hwords⟩
  obtain ⟨hnotes, houtcome, hsource⟩ := Directive.read_import hbefore hpath hsp hbetween
    hclosing .target opening.toToken last? after
  simp only [Directive.ofPath, Directive.foldlM_close_importTarget, NoteM.map_eq]
    at hnotes houtcome
  obtain ⟨hfed, hname⟩ := ImportTarget.foldlM_close hs hwords ⟨path.value, some sp⟩
  have hquiet : run.notes = [] := hnotes.trans hfed
  rcases hname with ⟨hnone, ho⟩ | ⟨name, hlast, ho⟩
  · have hnone : ¬∃ t : Token, t.GivenIn named := fun ⟨t, ht⟩ => hnone t ht
    have hmissing : run.outcome = .error (.parse (.missingAlias s)) := by
      rw [houtcome, ho]
      rfl
    exact ⟨iff_of_true hmissing hnone, fun h => absurd h hnone, hquiet⟩
  · have hitem : run.outcome = .ok (some (.importing ⟨path.toToken.leaf mode,
        (withContext.feedAll words).isConfirmed, .target (name.leaf mode), some s⟩)) := by
      rw [houtcome, ho, Token.leaf_eq hsp]
      rfl
    have hgiven : ∃ t : Token, t.GivenIn named := ⟨name, hlast.givenIn⟩
    refine ⟨iff_of_false (by simp [hitem]) (not_not_intro hgiven), fun _ => ?_, hquiet⟩
    exact ⟨name, _, hlast, hitem, Phrase.isConfirmed_feedAll rfl (by decide) words,
      hsource _ hitem⟩

theorem directImport_target_given_twice :
    let opening : Lexeme := ⟨.blockStart, "\x7b%", 0, 0⟩
    let before : List Lexeme := [⟨.whitespace, " ", 0, 9⟩]
    let path : Lexeme := ⟨.string, "f", 0, 10⟩
    let between : List Lexeme := [⟨.symbol, "as", 0, 14⟩, ⟨.symbol, "x", 0, 17⟩,
      ⟨.symbol, "as", 0, 19⟩, ⟨.symbol, "with", 0, 22⟩, ⟨.symbol, "context", 0, 27⟩,
      ⟨.symbol, "as", 0, 35⟩, ⟨.string, "s", 0, 38⟩, ⟨.symbol, "y", 0, 42⟩,
      ⟨.symbol, "z", 0, 44⟩]
    let closing : Lexeme := ⟨.blockEnd, "%\x7d", 0, 46⟩
    let words := wordsOf between
    let named := words.filter (Token.isWordBeside ["with", "context"])
    let run := (Directive.importPath .target).read {} opening.toToken
      ⟨before ++ path :: between ++ closing :: [], none⟩
    Lexeme.InOrder (opening :: (before ++ path :: between ++ closing :: [])) ∧
      (∃ t : Token, t.GivenIn named) ∧
      ∃ (name : Token) (s : Span), name.LastGivenIn named ∧
        run.outcome = .ok (some (.importing
          ⟨path.toToken.leaf .naive, true, .target (name.leaf .naive), some s⟩)) := by
  intro opening before path between closing words named run
  have horder : Lexeme.InOrder (opening :: (before ++ path :: between ++ closing :: [])) :=
    ⟨by decide, by decide⟩
  obtain ⟨-, s, -, -, hname, -⟩ :=
    @directImport_target {} opening path closing before between [] horder (by decide) rfl
      (by decide) rfl none
  have hgiven : ∃ t : Token, t.GivenIn named :=
    ⟨⟨.symbol, "x", 1, 18⟩, ⟨.symbol, "as", 1, 15⟩, ⟨[], _, rfl⟩, rfl, by decide⟩
  obtain ⟨name, withContext, hlast, hitem, hcontext, -⟩ := hname hgiven
  obtain rfl : withContext = true :=
    hcontext.mpr ⟨⟨.symbol, "with", 1, 23⟩, ⟨.symbol, "context", 1, 28⟩,
      ⟨[_, _, _], _, rfl⟩, rfl, rfl⟩
  exact ⟨horder, hgiven, name, s, hlast, hitem⟩

end TemplateTree
