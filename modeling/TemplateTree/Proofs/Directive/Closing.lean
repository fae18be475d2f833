import TemplateTree.Proofs.Directive.Include
import TemplateTree.Tree.Node

/-!
# Where a directive ends

Once its keyword is read, a directive stays open over all tokens but a closing delimiter,
and it has its path as soon as one of them is a string (`Directive.OpenAfter`). So it ends at
the first closing delimiter, and only there, whether it gives an item or not; without one
the input ends too early (`modeled_read_to_closing`).
-/

namespace TemplateTree

variable {options : Options} {mode : PositionMode} {opening closing t : Token} {ts : List Token}
  {s : Span}

def Token.HasPlace (t : Token) : Prop := ∃ p, t.start = .ok p

theorem Token.HasPlace.exists_span (h : t.HasPlace) (mode : PositionMode) :
    ∃ s, t.span mode = .ok s := by
  obtain ⟨p, hp⟩ := h
  exact ⟨_, span_eq hp mode⟩

-- ---------------------------------------------------------------------------
-- Open directives
-- ---------------------------------------------------------------------------

namespace Directive

def HasPath : Directive → Prop
  | .keyword | .importPath _ => False
  | .importNames .. | .importTarget .. => True
  | .including part => part.path?.isSome

/-- The tokens whose spans are taken at the end have places. -/
def KeepsPlaces : Directive → Prop
  | .importNames _ part => ∀ t ∈ part.awaiting?, t.HasPlace
  | .including part => (∀ t ∈ part.path?, t.HasPlace) ∧ ∀ t ∈ part.left?, t.HasPlace
  | _ => True

/-- What was `start` before these tokens, and is still open after them. -/
structure OpenAfter (start : Directive) (ts : List Token) (d : Directive) : Prop where
  ne_keyword : d ≠ .keyword
  construct : d.construct = start.construct
  path : d.HasPath ↔ ∃ t ∈ ts, t.kind = .string
  places : d.KeepsPlaces

variable {start d : Directive}

theorem openAfter_start {keyword : String} (h : modeled.lookup keyword = some d) :
    OpenAfter d [] d := by
  rcases modeled_cases h with ⟨-, rfl⟩ | ⟨-, rfl⟩ | ⟨-, rfl⟩ <;>
    exact ⟨nofun, rfl, by simp [HasPath], by simp [KeepsPlaces]⟩

end Directive

-- ---------------------------------------------------------------------------
-- One token
-- ---------------------------------------------------------------------------

theorem ImportNames.places_name {part : ImportNames} (h : ∀ a ∈ part.awaiting?, a.HasPlace)
    (n : Leaf) : (part.name n).Succeeds fun part' => ∀ a ∈ part'.awaiting?, a.HasPlace := by
  obtain ⟨phrase, awaiting?, names⟩ := part
  cases awaiting? with
  | none => exact .pure h
  | some as =>
    simp only [name]
    cases names.aliasLast? n with
    | none => exact .bind (.note _) fun _ _ => .pure nofun
    | some names => exact .pure nofun

theorem ImportNames.places_feed {part : ImportNames} (h : ∀ a ∈ part.awaiting?, a.HasPlace)
    (ht : t.HasPlace) :
    (part.feed mode t).Succeeds fun part' => ∀ a ∈ part'.awaiting?, a.HasPlace := by
  obtain ⟨s, hs⟩ := ht.exists_span mode
  simp only [feed]
  split
  · exact .pure h
  split
  · exact .pure (by rintro a ⟨⟩; exact ht)
  · refine .bind (.ofPlace hs) fun _ _ => places_name ?_ _
    exact h

theorem ImportTarget.succeeds_feed (part : ImportTarget) (ht : t.HasPlace) :
    (part.feed mode t).Succeeds fun _ => True := by
  obtain ⟨s, hs⟩ := ht.exists_span mode
  simp only [feed]
  split
  · exact .pure trivial
  split
  · exact .pure trivial
  split
  · exact .bind (.ofPlace hs) fun _ _ => .pure trivial
  · exact .pure trivial

theorem IncludeWords.path_feed (part : IncludeWords) (t : Token) :
    (part.feed t).path?.isSome ↔ part.path?.isSome ∨ t.kind = .string := by
  simp only [feed]
  split
  · rename_i hm
    have hk : t.kind ≠ .string := by
      intro hk
      simp [Phrase.mentions, Token.isWord, hk] at hm
    simp [hk]
  split
  · simp [*]
  · simp [*]

theorem IncludeWords.places_feed {part : IncludeWords}
    (h : (Directive.including part).KeepsPlaces) (ht : t.HasPlace) :
    (Directive.including (part.feed t)).KeepsPlaces := by
  simp only [feed]
  split
  · exact h
  split
  · exact ⟨by rintro u ⟨⟩; exact ht, h.2⟩
  · exact ⟨h.1, by rintro u ⟨⟩; exact ht⟩

namespace Directive

variable {start d : Directive}

/-- A token that leaves the directive as it is. -/
theorem OpenAfter.append (h : OpenAfter start ts d) (ht : d.HasPath ∨ t.kind ≠ .string) :
    OpenAfter start (ts ++ [t]) d := by
  refine ⟨h.ne_keyword, h.construct, ?_, h.places⟩
  rcases ht with hp | hk
  · obtain ⟨u, hu, hs⟩ := h.path.mp hp
    exact iff_of_true hp ⟨u, List.mem_append_left [t] hu, hs⟩
  · simpa [hk] using h.path

theorem openAfter_word (options : Options) (h : OpenAfter start ts d) (ht : t.HasPlace) :
    (d.word options t).Succeeds fun x =>
      ∃ d', x = .reading d' ∧ OpenAfter start (ts ++ [t]) d' := by
  obtain ⟨s, hs⟩ := ht.exists_span options.positionMode
  cases d with
  | keyword => exact absurd rfl h.ne_keyword
  | importPath form =>
    simp only [word]
    split
    · rename_i hk
      have hpath : ∃ u ∈ ts ++ [t], u.kind = .string := ⟨t, by simp, hk⟩
      refine .bind (.ofPlace hs) fun _ _ => ?_
      cases form with
      | names =>
        exact .pure
          ⟨_, rfl, by simp, h.construct, iff_of_true trivial hpath, by simp [KeepsPlaces]⟩
      | target =>
        exact .pure ⟨_, rfl, by simp, h.construct, iff_of_true trivial hpath, trivial⟩
    · rename_i hk
      exact .pure ⟨_, rfl, h.append (.inr hk)⟩
  | importNames template part =>
    refine .bind (ImportNames.places_feed h.places ht) fun part' hpart => .pure ⟨_, rfl, ?_⟩
    exact ⟨by simp, h.construct, (h.append (.inl trivial)).path, hpart⟩
  | importTarget template part =>
    refine .bind (part.succeeds_feed ht) fun part' _ => .pure ⟨_, rfl, ?_⟩
    exact ⟨by simp, h.construct, (h.append (.inl trivial)).path, trivial⟩
  | including part =>
    refine .pure ⟨_, rfl, by simp, h.construct, ?_, IncludeWords.places_feed h.places ht⟩
    have hpath : part.path?.isSome ↔ ∃ u ∈ ts, u.kind = .string := h.path
    simp [HasPath, IncludeWords.path_feed, hpath, or_and_right, exists_or]

/-- A directive stays open over a token that does not close it. -/
theorem openAfter_feed (options : Options) (opening : Token) (h : OpenAfter start ts d)
    (ht : t.HasPlace) (hr : t.role ≠ .closing) :
    (d.feed options opening t).Succeeds fun x =>
      ∃ d', x = .reading d' ∧ OpenAfter start (ts ++ [t]) d' := by
  unfold feed
  split
  · exact absurd ‹_› hr
  · exact openAfter_word options h ht
  · rename_i hr
    refine .pure ⟨d, rfl, h.append (.inr fun hk => ?_)⟩
    rw [Token.role_eq_word (by rw [hk]; rfl)] at hr
    cases hr

end Directive

-- ---------------------------------------------------------------------------
-- The end
-- ---------------------------------------------------------------------------

theorem ImportNames.succeeds_close {part : ImportNames} (h : ∀ a ∈ part.awaiting?, a.HasPlace)
    (hs : opening.spanTo closing mode = .ok s) (template : Leaf) :
    (part.close mode template opening closing).Succeeds fun i => i.span? = some s := by
  obtain ⟨phrase, awaiting?, names⟩ := part
  have hend : (close mode ⟨phrase, none, names⟩ template opening closing).Succeeds
      fun i => i.span? = some s :=
    .bind (.ofPlace hs) fun _ hs => .pure (congrArg some hs)
  cases awaiting? with
  | none => exact hend
  | some as =>
    obtain ⟨_, has⟩ := (h as rfl).exists_span mode
    exact .bind (.ofPlace has) fun _ _ => .bind (.note _) fun _ _ => hend

theorem IncludeWords.succeeds_close {part : IncludeWords}
    (h : (Directive.including part).KeepsPlaces) (hp : part.path?.isSome)
    (hs : opening.spanTo closing mode = .ok s) :
    (part.close mode opening closing).Succeeds fun i => i.span? = some s := by
  obtain ⟨phrase, path?, left?⟩ := part
  obtain ⟨path, rfl⟩ := Option.isSome_iff_exists.mp hp
  obtain ⟨r, hr⟩ := (h.1 path rfl).exists_span mode
  obtain ⟨template, ht, -⟩ := exists_template hr fun t ht => (h.2 t ht).exists_span mode
  refine .bind (.ofPlace hs) fun _ hs => .bind (.ofPlace ht) fun _ _ => .pure (congrArg some hs)

namespace Directive

variable {start d : Directive}

/-- Without its path a directive gives a fault at the end. -/
theorem outcome_close_of_no_path (h : OpenAfter start ts d) (hp : ¬d.HasPath)
    (hs : opening.spanTo closing mode = .ok s) :
    (d.close mode opening closing).outcome =
      .error (.parse (.missingTemplatePath start.construct s)) := by
  rw [← h.construct]
  cases d with
  | keyword => exact absurd rfl h.ne_keyword
  | importPath form =>
    simp only [close, hs]
    rfl
  | importNames | importTarget => exact absurd trivial hp
  | including part =>
    have hpath : part.path? = none := by simpa [HasPath] using hp
    simp only [close, IncludeWords.close, hs, hpath]
    rfl

/-- With its path a directive gives an item, unless it is a direct import without a name. -/
theorem outcome_close_of_path (h : OpenAfter start ts d) (hp : d.HasPath)
    (hs : opening.spanTo closing mode = .ok s) :
    (d.close mode opening closing).Succeeds
        (fun item? => ∃ item, item? = some item ∧ item.toNode.span? = some s) ∨
      start.construct = ImportForm.target.construct ∧
        (d.close mode opening closing).outcome = .error (.parse (.missingAlias s)) := by
  cases d with
  | keyword | importPath => cases hp
  | importNames template part =>
    refine .inl (.bind (ImportNames.succeeds_close h.places hs template) fun i hi => ?_)
    exact .pure ⟨_, rfl, hi⟩
  | importTarget template part =>
    obtain ⟨phrase, awaiting, target?⟩ := part
    simp only [close, ImportTarget.close, hs]
    cases target? with
    | none => exact .inr ⟨h.construct.symm, rfl⟩
    | some name => exact .inl ⟨_, rfl, _, rfl, rfl⟩
  | including part =>
    refine .inl (.bind (IncludeWords.succeeds_close h.places hp hs) fun i hi => ?_)
    exact .pure ⟨_, rfl, hi⟩

-- ---------------------------------------------------------------------------
-- All tokens
-- ---------------------------------------------------------------------------

/-- A directive stays open over tokens that do not close it, and is read on from there. -/
theorem exists_openAfter (options : Options) {before : List Lexeme} (h : OpenAfter start ts d)
    (hplace : ∀ l ∈ before, l.toToken.HasPlace)
    (hrole : ∀ l ∈ before, l.toToken.role ≠ .closing) (opening : Token) (last? : Option Token)
    (rest : List Lexeme) :
    ∃ d', OpenAfter start (ts ++ before.map Lexeme.toToken) d' ∧
      let run := d.read options opening ⟨before ++ rest, last?⟩
      let run' := d'.read options opening
        ⟨rest, (before.map Lexeme.toToken).getLast?.or last?⟩
      run.outcome = run'.outcome ∧ run.source = run'.source := by
  induction before generalizing d ts last? with
  | nil => exact ⟨d, by rwa [List.map_nil, List.append_nil], rfl, rfl⟩
  | cons l before ih =>
    obtain ⟨hl, hplace⟩ := List.forall_mem_cons.mp hplace
    obtain ⟨hr, hrole⟩ := List.forall_mem_cons.mp hrole
    obtain ⟨_, hfed, d₁, rfl, hd₁⟩ := openAfter_feed options opening h hl hr
    obtain ⟨d₂, hd₂, houtcome, hsource⟩ := ih hd₁ hplace hrole (some l.toToken)
    have hlast : ((l :: before).map Lexeme.toToken).getLast?.or last? =
        (before.map Lexeme.toToken).getLast?.or (some l.toToken) := by
      simp [List.getLast?_cons]
    refine ⟨d₂, by simpa using hd₂, ?_⟩
    rw [hlast, List.cons_append, read_cons_of_ok hfed]
    exact ⟨houtcome, hsource⟩

/-- Without a closing delimiter the input ends too early, behind its last token. -/
theorem read_of_no_closing (options : Options) (h : OpenAfter start [] d) {ls : List Lexeme}
    {last : Token} (hplace : ∀ l ∈ ls, l.toToken.HasPlace) (hlast : last.HasPlace)
    (hrole : ∀ l ∈ ls, l.toToken.role ≠ .closing) (opening : Token) :
    let run := d.read options opening ⟨ls, some last⟩
    let final := (ls.map Lexeme.toToken).getLastD last
    ∃ s, final.span options.positionMode = .ok s ∧
      run.outcome = .error (.parse (.unexpectedEnd start.construct (some (.empty s.stop)))) ∧
      run.source = ⟨[], some final⟩ := by
  intro run final
  have hfinal : final.HasPlace := by
    have hmem : final ∈ last :: ls.map Lexeme.toToken := List.getLastD_mem_cons
    rcases List.mem_cons.mp hmem with hf | hf
    · rw [hf]
      exact hlast
    · obtain ⟨l, hl, hf⟩ := List.mem_map.mp hf
      rw [← hf]
      exact hplace l hl
  obtain ⟨p, hp⟩ := hfinal
  obtain ⟨d', hd', houtcome, hsource⟩ :=
    exists_openAfter options h hplace hrole opening (some last) []
  rw [Option.or_some, ← List.getLastD_eq_getLast?, List.append_nil] at houtcome hsource
  refine ⟨_, Token.span_eq hp _, houtcome.trans ?_, hsource⟩
  rw [← hd'.construct]
  exact congrArg Except.error (TokenSource.endFault_eq hp options.positionMode d'.construct)

/-- Up to the first closing delimiter, reading is closing what is open there, and no token is
taken beyond. -/
theorem read_of_closing (options : Options) (h : OpenAfter start [] d) {before : List Lexeme}
    {closing : Lexeme} (hplace : ∀ l ∈ before, l.toToken.HasPlace)
    (hrole : ∀ l ∈ before, l.toToken.role ≠ .closing) (hc : closing.toToken.role = .closing)
    (opening : Token) (last? : Option Token) (after : List Lexeme) :
    let run := d.read options opening ⟨before ++ closing :: after, last?⟩
    ∃ d', OpenAfter start (before.map Lexeme.toToken) d' ∧
      run.outcome = (d'.close options.positionMode opening closing.toToken).outcome ∧
      run.source = ⟨after, some closing.toToken⟩ := by
  obtain ⟨d', hd', houtcome, hsource⟩ :=
    exists_openAfter options h hplace hrole opening last? (closing :: after)
  rw [read_closing hc] at houtcome hsource
  exact ⟨d', hd', houtcome, hsource⟩

end Directive

/-- A directive with a node, from what follows its opening and keyword, of which the token
read last has a place. Where no closing delimiter is to come, all tokens are read and the
input ends too early, at the end of the last one. Otherwise the first closing delimiter is the
last token that is read, whatever the outcome: a missing path if there is no string before it,
else an item or, for a direct import, a missing name; all of them span from the start of the
opening to the end of that delimiter. -/
theorem modeled_read_to_closing {keyword : String} {d : Directive}
    (hd : Directive.modeled.lookup keyword = some d) {opening : Lexeme} {ls : List Lexeme}
    (horder : Lexeme.InOrder (opening :: ls)) {last : Token} (hlast : ∃ p, last.start = .ok p) :
    let mode := options.positionMode
    let run := d.read options opening.toToken ⟨ls, some last⟩
    ((∀ l ∈ ls, l.kind ≠ .blockEnd) →
      let final := (ls.map Lexeme.toToken).getLastD last
      ∃ s, final.span mode = .ok s ∧
        run.outcome = .error (.parse (.unexpectedEnd d.construct (some (.empty s.stop)))) ∧
        run.source = ⟨[], some final⟩) ∧
    ∀ before closing after, ls = before ++ closing :: after →
      (∀ l ∈ before, l.kind ≠ .blockEnd) → closing.kind = .blockEnd →
      run.source = ⟨after, some closing.toToken⟩ ∧
      ∃ s e, opening.toToken.start = .ok s.start ∧ closing.toToken.span mode = .ok e ∧
        s.stop = e.stop ∧
        ((∀ l ∈ before, l.kind ≠ .string) →
          run.outcome = .error (.parse (.missingTemplatePath d.construct s))) ∧
        ((∃ l ∈ before, l.kind = .string) →
          (∃ item, run.outcome = .ok (some item) ∧ item.toNode.span? = some s) ∨
            d = .importPath .target ∧ run.outcome = .error (.parse (.missingAlias s))) := by
  intro mode run
  have hplace : ∀ l ∈ ls, l.toToken.HasPlace :=
    fun l hl => Lexeme.start_toToken_isOk.mpr (horder.counted l (List.mem_cons_of_mem opening hl))
  have hstart := Directive.openAfter_start hd
  have hrole {l : Lexeme} (hk : l.kind ≠ .blockEnd) : l.toToken.role ≠ .closing :=
    mt Token.role_eq_closing.mp hk
  refine ⟨fun hopen => Directive.read_of_no_closing options hstart hplace hlast
    (fun l hl => hrole (hopen l hl)) opening.toToken, ?_⟩
  rintro before closing after rfl hbefore hclosing
  obtain ⟨p, hp⟩ := Lexeme.start_toToken_isOk.mpr (horder.counted opening (by simp))
  obtain ⟨q, hq⟩ := hplace closing (by simp)
  obtain ⟨s, hs⟩ := horder.exists_spanTo (m := closing) (by simp) mode
  obtain ⟨rfl, hstop⟩ := Token.ends_of_spanTo hp hq hs
  obtain ⟨d', hd', houtcome, hsource⟩ := Directive.read_of_closing options hstart
    (fun l hl => hplace l (List.mem_append_left _ hl)) (fun l hl => hrole (hbefore l hl))
    (Token.role_eq_closing.mpr hclosing) opening.toToken (some last) after
  have hpath : d'.HasPath ↔ ∃ l ∈ before, l.kind = .string := by
    rw [hd'.path]
    constructor
    · rintro ⟨_, ht, hk⟩
      obtain ⟨l, hl, rfl⟩ := List.mem_map.mp ht
      exact ⟨l, hl, hk⟩
    · rintro ⟨l, hl, hk⟩
      exact ⟨_, List.mem_map_of_mem hl, hk⟩
  refine ⟨hsource, s, _, hp, Token.span_eq hq mode, hstop, fun hnone => ?_, fun hsome => ?_⟩
  · have hno : ¬d'.HasPath := by simpa [hpath] using hnone
    exact houtcome.trans (Directive.outcome_close_of_no_path hd' hno hs)
  · rcases Directive.outcome_close_of_path hd' (hpath.mpr hsome) hs with
      ⟨_, ho, item, rfl, hitem⟩ | ⟨hform, ho⟩
    · exact .inl ⟨item, houtcome.trans ho, hitem⟩
    · refine .inr ⟨?_, houtcome.trans ho⟩
      rcases Directive.modeled_cases hd with ⟨-, rfl⟩ | ⟨-, rfl⟩ | ⟨-, rfl⟩
      · exact absurd hform (by decide)
      · rfl
      · exact absurd hform (by decide)

theorem modeled_read_to_closing_no_name :
    let opening : Lexeme := ⟨.blockStart, "\x7b%", 0, 0⟩
    let keyword : Token := ⟨.symbol, "import", 1, 4⟩
    let before : List Lexeme := [⟨.string, "f", 0, 10⟩, ⟨.symbol, "as", 0, 14⟩]
    let closing : Lexeme := ⟨.blockEnd, "%\x7d", 2, 0⟩
    let after : List Lexeme := [⟨.data, "x", 2, 2⟩, ⟨.blockEnd, "%\x7d", 2, 3⟩]
    let run := (Directive.importPath .target).read {} opening.toToken
      ⟨before ++ closing :: after, some keyword⟩
    Directive.modeled.lookup "import" = some (.importPath .target) ∧
      Lexeme.InOrder (opening :: (before ++ closing :: after)) ∧
      (∃ p, keyword.start = .ok p) ∧
      run.source = ⟨after, some closing.toToken⟩ ∧
      ∃ s, opening.toToken.start = .ok s.start ∧
        run.outcome = .error (.parse (.missingAlias s)) := by
  intro opening keyword before closing after run
  have hd : Directive.modeled.lookup "import" = some (.importPath .target) := rfl
  have horder : Lexeme.InOrder (opening :: (before ++ closing :: after)) :=
    ⟨by decide, by decide⟩
  have hlast : ∃ p, keyword.start = .ok p := ⟨⟨1, 4, by decide, by decide⟩, rfl⟩
  obtain ⟨hsource, s, -, hstart, -, -, -, hpath⟩ :=
    (@modeled_read_to_closing {} _ _ hd _ _ horder _ hlast).2 before closing after rfl
      (by decide) rfl
  refine ⟨hd, horder, hlast, hsource, s, hstart, ?_⟩
  rcases hpath ⟨_, .head _, rfl⟩ with ⟨item, hitem, -⟩ | ⟨-, hfault⟩
  · cases hitem
  · exact hfault

end TemplateTree
