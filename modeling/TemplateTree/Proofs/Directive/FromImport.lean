import TemplateTree.Proofs.Diagnostic.Kept
import TemplateTree.Proofs.Directive.Import
import TemplateTree.Proofs.Directive.NameWords
import TemplateTree.Proofs.Directive.Phrase
import TemplateTree.Proofs.Reading.Reports

/-!
# The names of a from-import

While its words are read, the names of a from-import follow the grammar of these words
(`ImportNames.Follows`): the `as` that waits for its name is the last one at the end of the
words, the entries so far are those of the name blocks, and what was given without a name
is reported.
-/

namespace TemplateTree

open scoped List

-- ---------------------------------------------------------------------------
-- What the grammar stands for
-- ---------------------------------------------------------------------------

/-- The warning that an `as`, or the name after it, has nothing to go with. -/
def Token.dangling (mode : PositionMode) (t : Token) : Diagnostic :=
  Code.danglingAlias.at (t.span mode).toOption

/-- The word counts among the names of a from-import. -/
def Token.isNameWord (t : Token) : Bool :=
  t.kind == .symbol && t.value ∉ ["with", "context", "import"]

/-- A name by itself, or under the last word that is given to it. -/
def NameBlock.entry (mode : PositionMode) (b : NameBlock) : ImportedName :=
  let key := b.name.leaf mode
  match b.aliases.getLast? with
  | none => .plain key
  | some n => .aliased ⟨key, n.word.leaf mode, Span.cover? key.span? (n.word.leaf mode).span?⟩

/-- The words that are given where there is no name yet. -/
def NameWords.dangling (d : NameWords) : List Token := d.nameless.map Naming.word

/-- All that has nothing to go with: these words, and the last `as` if it gives nothing. -/
def NameWords.warned (d : NameWords) : List Token := d.dangling ++ d.trailing.getLast?.toList

variable {options : Options} {mode : PositionMode} {t : Token} {ts : List Token} {s : Span}

theorem Token.dangling_eq (h : t.span mode = .ok s) :
    t.dangling mode = Code.danglingAlias.at (some s) := by
  rw [dangling, h]
  rfl

namespace NameBlock

theorem key_entry (b : NameBlock) : (b.entry mode).key = b.name.leaf mode := by
  unfold entry
  split <;> rfl

theorem entry_push (b : NameBlock) (n : Naming) :
    (b.push n).entry mode = .aliased ⟨b.name.leaf mode, n.word.leaf mode,
      Span.cover? (b.name.leaf mode).span? (n.word.leaf mode).span?⟩ := by
  simp only [entry, push, List.getLast?_concat]

end NameBlock

-- ---------------------------------------------------------------------------
-- Words
-- ---------------------------------------------------------------------------

namespace ImportNames

/-- The state after words of this form, but for the phrase. -/
structure Follows (mode : PositionMode) (part : ImportNames) (d : NameWords) : Prop where
  awaiting : part.awaiting? = d.trailing.getLast?
  entries : part.names.newestFirst = (d.blocks.map (NameBlock.entry mode)).reverse

/-- The phrase is `with context`, in whatever state. -/
structure KnowsContext (part : ImportNames) : Prop where
  first : part.withContext.first = "with"
  second : part.withContext.second = "context"

variable {part : ImportNames} {d : NameWords}

theorem passesOver_eq (h : part.KnowsContext) (t : Token) :
    (part.withContext.mentions t || t.kind != .symbol || t.value == "import") =
      !t.isNameWord := by
  rw [Phrase.mentions_or_not_symbol, h.first, h.second]
  simp [Token.isWordBeside, Token.isNameWord, beq_eq_decide, Bool.or_assoc]

theorem feed_of_not_nameWord (h : part.KnowsContext) (ht : t.isNameWord = false) :
    part.feed mode t = pure { part with withContext := part.withContext.feed t } := by
  simp only [feed, passesOver_eq h, ht, Bool.not_false, ↓reduceIte]

theorem feed_of_as (h : part.KnowsContext) (ht : t.isNameWord) (has : t.value = "as") :
    part.feed mode t =
      pure { part with withContext := part.withContext.feed t, awaiting? := some t } := by
  simp only [feed, passesOver_eq h, ht, beq_iff_eq.mpr has, Bool.not_true, ↓reduceIte,
    Bool.false_eq_true]

theorem feed_of_name (h : part.KnowsContext) (ht : t.isNameWord) (has : t.value ≠ "as")
    (hs : t.span mode = .ok s) :
    part.feed mode t =
      name { part with withContext := part.withContext.feed t } (t.leaf mode) := by
  simp only [feed, passesOver_eq h, ht, beq_eq_false_iff_ne.mpr has, hs, Token.leaf_eq hs,
    Bool.not_true, ↓reduceIte, Bool.false_eq_true]
  rfl

/-- From words of the first form to words of the second one: what becomes nameless is reported. -/
def Advances (mode : PositionMode) (phrase : Phrase) (d d' : NameWords) (x : NoteM ImportNames) :
    Prop :=
  ∃ reported part, d'.dangling = d.dangling ++ reported ∧
    x = ⟨reported.map fun t => .report (t.dangling mode), .ok part⟩ ∧ part.Follows mode d' ∧
    part.withContext = phrase

theorem Advances.pure {phrase : Phrase} {d' : NameWords} (hd : d'.dangling = d.dangling)
    (hf : part.Follows mode d') (hp : part.withContext = phrase) :
    Advances mode phrase d d' (Pure.pure part) :=
  ⟨[], part, by rw [hd, List.append_nil], rfl, hf, hp⟩

theorem Advances.bind {phrase phrase' : Phrase} {d' d'' : NameWords} {x : NoteM ImportNames}
    {f : ImportNames → NoteM ImportNames} (h : Advances mode phrase d d' x)
    (hf : ∀ part : ImportNames, part.Follows mode d' → part.withContext = phrase →
      Advances mode phrase' d' d'' (f part)) :
    Advances mode phrase' d d'' (x >>= f) := by
  obtain ⟨us, part, hd, rfl, hpart, hp⟩ := h
  obtain ⟨vs, part', hd', hx, hpart', hp'⟩ := hf part hpart hp
  refine ⟨us ++ vs, part', by rw [hd', hd, List.append_assoc], ?_, hpart', hp'⟩
  rw [NoteM.bind_of_ok rfl, hx, List.map_append]

variable {nameless : List Naming} {blocks : List NameBlock}

/-- A word that nothing gives is a name of its own. -/
theorem advances_push (hf : part.Follows mode (.closed nameless blocks)) (ht : t.value ≠ "as") :
    Advances mode part.withContext (.closed nameless blocks)
      (.closed nameless (blocks ++ [⟨t, [], ht⟩])) (part.name (t.leaf mode)) := by
  have ha : part.awaiting? = none := hf.awaiting
  have he : part.names.newestFirst = (blocks.map (NameBlock.entry mode)).reverse := hf.entries
  unfold name
  rw [ha]
  refine .pure rfl ⟨rfl, ?_⟩ rfl
  simp [NameList.push, NameWords.closed, NameBlock.entry, he]

/-- A word that an `as` gives goes to the last name, or it is reported. -/
theorem advances_give (n : Naming)
    (hf : part.Follows mode ⟨nameless, blocks, n.marks, n.value_marks⟩) :
    Advances mode part.withContext ⟨nameless, blocks, n.marks, n.value_marks⟩
      (.give nameless blocks n) (part.name (n.word.leaf mode)) := by
  obtain ⟨as, ha⟩ : ∃ as, part.awaiting? = some as := by
    rw [hf.awaiting]
    exact ⟨_, List.getLast?_eq_some_getLast n.marks_ne_nil⟩
  have he : part.names.newestFirst = _ := hf.entries
  unfold name
  rw [ha]
  rcases List.eq_nil_or_concat blocks with rfl | ⟨bs, b, rfl⟩
  · have hnone : part.names.aliasLast? (n.word.leaf mode) = none := by
      rw [NameList.aliasLast?, he]
      rfl
    rw [hnone]
    exact ⟨[n.word], { part with awaiting? := none },
      by simp [NameWords.give_nil, NameWords.dangling, NameWords.closed], rfl, ⟨rfl, he⟩, rfl⟩
  · rw [List.concat_eq_append] at he ⊢
    have hsome : part.names.aliasLast? (n.word.leaf mode) =
        some ⟨(b.push n).entry mode :: (bs.map (NameBlock.entry mode)).reverse⟩ := by
      rw [NameList.aliasLast?, he, NameBlock.entry_push]
      simp [NameBlock.key_entry]
    rw [hsome, NameWords.give_concat]
    exact .pure rfl ⟨rfl, by simp [NameWords.closed]⟩ rfl

/-- A word among the names is pushed to the words before. -/
theorem advances_feed (hf : part.Follows mode d) (h : part.KnowsContext) (ht : t.isNameWord)
    (hs : t.span mode = .ok s) :
    Advances mode (part.withContext.feed t) d (d.push t) (part.feed mode t) := by
  by_cases has : t.value = "as"
  · rw [feed_of_as h ht has, NameWords.push_as has]
    exact .pure rfl ⟨List.getLast?_concat.symm, hf.entries⟩ rfl
  rw [feed_of_name h ht has hs]
  -- the phrase has no part in what the word does to the names
  have hf' : Follows mode { part with withContext := part.withContext.feed t } d :=
    ⟨hf.awaiting, hf.entries⟩
  obtain ⟨nameless, blocks, trailing, hv⟩ := d
  by_cases hm : trailing = []
  · subst hm
    rw [show (⟨nameless, blocks, [], hv⟩ : NameWords) = .closed nameless blocks from rfl,
      NameWords.push_name has]
    exact advances_push hf' has
  · rw [NameWords.push_word hm hv has]
    exact advances_give ⟨trailing, t, hm, hv, has⟩ hf'

/-- All words among the names, each pushed in its turn. -/
theorem advances_foldlM (h : ∀ t ∈ ts, ∃ s, t.span mode = .ok s) :
    Advances mode (TemplateTree.withContext.feedAll ts) (.closed [] [])
      (.ofWords (ts.filter Token.isNameWord)) (ts.foldlM (feed mode) {}) := by
  -- on the last word, since both the grammar and the phrase take in one word after the other
  induction ts using List.reverseRecOn with
  | nil => exact .pure rfl ⟨rfl, rfl⟩ rfl
  | append_singleton ts t ih =>
    obtain ⟨hts, ht⟩ := List.forall_mem_append.mp h
    obtain ⟨s, hs⟩ := ht t (List.mem_singleton_self t)
    rw [List.foldlM_append, Phrase.feedAll_concat]
    refine .bind (ih hts) fun part hf hp => ?_
    have hknows : part.KnowsContext :=
      ⟨by rw [hp, Phrase.feedAll_first]; rfl, by rw [hp, Phrase.feedAll_second]; rfl⟩
    simp only [List.foldlM_cons, List.foldlM_nil, bind_pure, List.filter_append, List.filter_cons,
      List.filter_nil, ← hp]
    cases hn : t.isNameWord with
    | true =>
      simp only [↓reduceIte, NameWords.ofWords, List.foldl_append]
      exact advances_feed hf hknows hn hs
    | false =>
      simp only [Bool.false_eq_true, ↓reduceIte, List.append_nil, feed_of_not_nameWord hknows hn]
      exact .pure rfl ⟨hf.awaiting, hf.entries⟩ rfl

/-- An `as` that still waits for its name is reported at the end. -/
theorem close_eq {opening closing : Token} (hs : opening.spanTo closing mode = .ok s)
    (ha : ∀ t ∈ part.awaiting?, ∃ s, t.span mode = .ok s) (template : Leaf) :
    part.close mode template opening closing =
      ⟨part.awaiting?.toList.map fun t => .report (t.dangling mode),
        .ok ⟨template, part.withContext.isConfirmed, .names part.names.build, some s⟩⟩ := by
  obtain ⟨phrase, awaiting?, names⟩ := part
  cases awaiting? with
  | none =>
    simp only [close, hs]
    rfl
  | some as =>
    obtain ⟨s', has⟩ := ha as rfl
    simp only [close, hs, has]
    rw [Option.toList_some, List.map_singleton, Token.dangling_eq has]
    rfl

end ImportNames

theorem Directive.foldlM_close_importNames (template : Leaf) (part : ImportNames)
    (opening closing : Token) (ts : List Token) :
    (ts.foldlM (take options) (.importNames template part) >>= fun d =>
        d.close options.positionMode opening closing) =
      (fun i => some (.importing i)) <$>
        (ts.foldlM (ImportNames.feed options.positionMode) part >>= fun part =>
          part.close options.positionMode template opening closing) :=
  foldlM_close (fun _ _ => rfl) (fun _ => rfl) ts part

-- ---------------------------------------------------------------------------
-- From-imports
-- ---------------------------------------------------------------------------

/-- A from-import of words that are of this form: the names are the blocks, and what has
nothing to go with is reported. -/
theorem ImportNames.foldlM_close {opening closing : Token}
    (hs : opening.spanTo closing mode = .ok s) (hts : ∀ t ∈ ts, ∃ s, t.span mode = .ok s)
    {d : NameWords} (hd : d.words = ts.filter Token.isNameWord) (template : Leaf) :
    ∃ names : NameList, names.entries = d.blocks.map (NameBlock.entry mode) ∧
      (ts.foldlM (feed mode) {} >>= fun part => part.close mode template opening closing) =
        ⟨d.warned.map fun t => .report (t.dangling mode),
          .ok ⟨template, (TemplateTree.withContext.feedAll ts).isConfirmed, .names names.build,
            some s⟩⟩ := by
  obtain ⟨reported, part, hr, hx, hf, hp⟩ := advances_foldlM hts
  rw [← hd, NameWords.ofWords_words] at hr hf
  have hawaiting : ∀ t ∈ part.awaiting?, ∃ s, t.span mode = .ok s := by
    intro t ht
    rw [hf.awaiting] at ht
    have hw : t ∈ d.words := List.mem_append_right _ (List.mem_of_getLast? ht)
    rw [hd] at hw
    exact hts t (List.mem_filter.mp hw).1
  refine ⟨part.names, by rw [NameList.entries, hf.entries, List.reverse_reverse], ?_⟩
  rw [hx, NoteM.bind_of_ok rfl, close_eq hs hawaiting, NameWords.warned, hr, hf.awaiting, hp,
    List.map_append]
  rfl

theorem NameWords.warned_sublist (d : NameWords) : d.warned <+ d.words := by
  have hnameless (ns : List Naming) : ns.map Naming.word <+ ns.flatMap Naming.words := by
    induction ns with
    | nil => exact .refl _
    | cons n ns ih => exact (List.sublist_append_right n.marks [n.word]).append ih
  have htrailing : d.trailing.getLast?.toList <+ d.trailing := by
    cases h : d.trailing.getLast? with
    | none => exact List.nil_sublist _
    | some t => exact List.singleton_sublist.mpr (List.mem_of_getLast? h)
  exact ((hnameless d.nameless).trans (List.sublist_append_left ..)).append htrailing

/-- Warnings of tokens that start one after the other are all kept. -/
theorem Diagnostic.kept_dangling (h : ts.Pairwise Token.StrictlyBefore)
    (hts : ∀ t ∈ ts, ∃ s, t.span mode = .ok s) :
    kept (ts.map (Token.dangling mode)) = ts.map (Token.dangling mode) := by
  refine kept_eq_self (List.pairwise_map.mpr (h.imp_of_mem fun {t u} ht hu hlt => ?_))
  obtain ⟨s, hs⟩ := hts t ht
  obtain ⟨s', hs'⟩ := hts u hu
  rw [Token.dangling_eq hs, Token.dangling_eq hs']
  exact (StartsBefore.of_tokens hs hs' hlt rfl rfl).not_repeats

/-- A from-import with its path before its closing delimiter is read to an import of that
path. The words between the two are of the form of imported names, in one way, beside
`with`, `context` and `import`. The names are the blocks, each by itself or under the last
word that is given to it; the context is given exactly where `context` comes right after
`with` among the words and strings; and warnings are reported of the words that are given
before there is a name, in their order, and then of the last `as` if nothing comes after it.
Only warnings of the same place are taken for one, and no token is read beyond. -/
theorem fromImport_grammar {options : Options} {opening path closing : Lexeme}
    {before between after : List Lexeme}
    (horder : Lexeme.InOrder (opening :: (before ++ path :: between ++ closing :: after)))
    (hbefore : ∀ l ∈ before, l.kind ≠ .string ∧ l.kind ≠ .blockEnd)
    (hpath : path.kind = .string) (hbetween : ∀ l ∈ between, l.kind ≠ .blockEnd)
    (hclosing : closing.kind = .blockEnd) (last? : Option Token) :
    let mode := options.positionMode
    let words := wordsOf between
    let run := (Directive.importPath .names).read options opening.toToken
      ⟨before ++ path :: between ++ closing :: after, last?⟩
    (∀ t ∈ opening.toToken :: path.toToken :: words, ∃ s, t.span mode = .ok s) ∧
      (∃! d : NameWords, d.words = words.filter Token.isNameWord) ∧
      ∀ d : NameWords, d.words = words.filter Token.isNameWord →
        (∃ withContext names s, opening.toToken.spanTo closing.toToken mode = .ok s ∧
          run.outcome = .ok (some (.importing
            ⟨path.toToken.leaf mode, withContext, .names names, some s⟩)) ∧
          names.entries = d.blocks.map (NameBlock.entry mode) ∧
          (withContext ↔
            ∃ t u, [t, u] <:+: words ∧ t.isWord "with" ∧ u.isWord "context")) ∧
        run.reported = d.warned.map (Token.dangling mode) ∧
        run.diagnostics = Diagnostic.kept (d.warned.map (Token.dangling mode)) ∧
        (words.Pairwise Token.StrictlyBefore → run.diagnostics = run.reported) ∧
        run.log = [] ∧ run.source = ⟨after, some closing.toToken⟩ := by
  intro mode words run
  have hspan {l : Lexeme} (hl : l ∈ before ++ path :: between ++ closing :: after) :
      ∃ s, l.toToken.span mode = .ok s :=
    horder.exists_span (List.mem_cons_of_mem opening hl) mode
  obtain ⟨sp, hsp⟩ := hspan (l := path) (by simp)
  obtain ⟨s, hs⟩ := horder.exists_spanTo (m := closing) (by simp) mode
  have hwords : ∀ t ∈ words, ∃ s, t.span mode = .ok s := by
    intro t ht
    obtain ⟨l, hl, rfl⟩ := exists_of_mem_wordsOf ht
    exact hspan (by simp [hl])
  refine ⟨?_, NameWords.existsUnique _, fun d hd => ?_⟩
  · refine List.forall_mem_cons.mpr ⟨horder.exists_span (List.mem_cons_self ..) mode, ?_⟩
    exact List.forall_mem_cons.mpr ⟨⟨sp, hsp⟩, hwords⟩
  obtain ⟨hnotes, houtcome, hsource⟩ := Directive.read_import hbefore hpath hsp hbetween
    hclosing .names opening.toToken last? after
  obtain ⟨names, hentries, hfed⟩ := ImportNames.foldlM_close hs hwords hd ⟨path.value, some sp⟩
  simp only [Directive.ofPath, Directive.foldlM_close_importNames, NoteM.map_eq] at hnotes houtcome
  rw [hfed] at hnotes houtcome
  have hreported : run.reported = d.warned.map (Token.dangling mode) := by
    rw [Run.reported, hnotes, List.filterMap_map]
    exact congrFun (List.filterMap_eq_map (f := Token.dangling mode)) d.warned
  have hwarned : d.warned <+ words :=
    d.warned_sublist.trans (hd ▸ List.filter_sublist)
  refine ⟨⟨(withContext.feedAll words).isConfirmed, names.build, s, hs, ?_, hentries, ?_⟩,
    hreported, congrArg Diagnostic.kept hreported, ?_, ?_, ?_⟩
  · rw [houtcome, Token.leaf_eq hsp]
    rfl
  · exact Phrase.isConfirmed_feedAll rfl (by decide) words
  · intro hstrict
    rw [Run.diagnostics, hreported]
    exact Diagnostic.kept_dangling (hstrict.sublist hwarned)
      fun t ht => hwords t (hwarned.subset ht)
  · rw [Run.log, hnotes, List.filterMap_map]
    exact List.filterMap_eq_nil_iff.mpr fun _ _ => rfl
  · exact hsource _ houtcome

theorem fromImport_grammar_all_forms :
    let opening : Lexeme := ⟨.blockStart, "\x7b%", 0, 0⟩
    let before : List Lexeme := [⟨.whitespace, " ", 0, 7⟩]
    let path : Lexeme := ⟨.string, "f", 0, 8⟩
    let between : List Lexeme := [⟨.symbol, "import", 0, 12⟩, ⟨.symbol, "as", 0, 19⟩,
      ⟨.symbol, "x", 0, 22⟩, ⟨.symbol, "a", 0, 24⟩, ⟨.symbol, "as", 0, 26⟩, ⟨.symbol, "b", 0, 29⟩,
      ⟨.symbol, "as", 0, 31⟩, ⟨.symbol, "as", 0, 34⟩, ⟨.symbol, "c", 0, 37⟩,
      ⟨.symbol, "with", 0, 39⟩, ⟨.symbol, "context", 0, 44⟩, ⟨.symbol, "as", 0, 52⟩]
    let closing : Lexeme := ⟨.blockEnd, "%\x7d", 0, 55⟩
    let words := wordsOf between
    let run := (Directive.importPath .names).read {} opening.toToken
      ⟨before ++ path :: between ++ closing :: [], none⟩
    let d := NameWords.ofWords (words.filter Token.isNameWord)
    Lexeme.InOrder (opening :: (before ++ path :: between ++ closing :: [])) ∧
      words.Pairwise Token.StrictlyBefore ∧
      d.words = words.filter Token.isNameWord ∧ d.warned.length = 2 ∧
      run.reported = d.warned.map (Token.dangling .naive) ∧ run.diagnostics = run.reported := by
  intro opening before path between closing words run d
  have horder : Lexeme.InOrder (opening :: (before ++ path :: between ++ closing :: [])) :=
    ⟨by decide, by decide⟩
  have hstrict : words.Pairwise Token.StrictlyBefore := by decide
  have hd : d.words = words.filter Token.isNameWord := NameWords.words_ofWords _
  obtain ⟨-, hreported, -, hkept, -⟩ :=
    (@fromImport_grammar {} opening path closing before between [] horder (by decide) rfl
      (by decide) rfl none).2.2 d hd
  exact ⟨horder, hstrict, hd, by decide, hreported, hkept hstrict⟩

end TemplateTree
